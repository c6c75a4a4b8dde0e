import ViewForge.Proofs.Ordered
import ViewForge.Proofs.Task
import ViewForge.Project.Output

/-! What a file system keeps. A path leads to one place only, whatever there is; writing a file
changes what is at its place and nothing else, and making directories changes nothing that is there.
-/
namespace ViewForge
namespace FileSystem

def aimFrom : Location → List String → Location
  | location, [] => location
  | location, piece :: rest =>
    if Path.isVoid piece then aimFrom location rest
    else if piece = ".." then aimFrom location.up rest
    else aimFrom (location ++ [piece]) rest

def aim (path : String) : Location :=
  aimFrom (start (Path.ofText path).lead) (Path.ofText path).pieces

variable {fs next : FileSystem} {path text : String} {location place : Location}

theorem followAim {pieces : List String} (ok : fs.follow location pieces = .ok place) :
    place = aimFrom location pieces := by
  induction pieces generalizing location with
  | nil =>
    cases ok
    rfl
  | cons piece rest ih =>
    rw [follow] at ok
    obtain ⟨_, _, ok⟩ := Result.bindOk.mp ok
    rw [aimFrom]
    split
    · rename_i void
      rw [if_pos void] at ok
      exact ih ok
    · rename_i named
      rw [if_neg named] at ok
      split
      · rename_i up
        rw [if_pos up] at ok
        exact ih ok
      · rename_i down
        rw [if_neg down] at ok
        exact ih ok

theorem locateAim (ok : fs.locate path = .ok place) : place = aim path := by
  unfold locate at ok
  split at ok
  · cases ok
  · exact followAim ok

def Grows (fs next : FileSystem) : Prop :=
  ∀ location, fs.node? location = some .directory → next.node? location = some .directory

theorem followGrown (grows : Grows fs next) {pieces : List String}
    (ok : fs.follow location pieces = .ok place) : next.follow location pieces = .ok place := by
  induction pieces generalizing location with
  | nil => exact ok
  | cons piece rest ih =>
    rw [follow] at ok ⊢
    obtain ⟨_, directory, ok⟩ := Result.bindOk.mp ok
    have still : next.requireDirectory location = .ok () := by
      unfold requireDirectory at directory ⊢
      split at directory <;> try contradiction
      rename_i here
      rw [grows location here]
    rw [still]
    change (if _ then _ else _) = _
    split
    · rename_i void
      rw [if_pos void] at ok
      exact ih ok
    · rename_i named
      rw [if_neg named] at ok
      split
      · rename_i up
        rw [if_pos up] at ok
        exact ih ok
      · rename_i down
        rw [if_neg down] at ok
        exact ih ok

theorem locateGrown (grows : Grows fs next) (ok : fs.locate path = .ok place) :
    next.locate path = .ok place := by
  unfold locate at ok ⊢
  split at ok
  · cases ok
  · rename_i named
    rw [if_neg named]
    exact followGrown grows ok

theorem readTextIff : fs.readText path = .ok text ↔ ∃ file, fs.locate path = .ok (aim path) ∧
    fs.node? (aim path) = some (.file file) ∧ String.fromUTF8? file.bytes = some text := by
  constructor
  · intro ok
    unfold readText at ok
    obtain ⟨bytes, read, ok⟩ := Result.bindOk.mp ok
    unfold readBytes at read
    obtain ⟨node, got, read⟩ := Result.bindOk.mp read
    unfold get at got
    obtain ⟨place, found, got⟩ := Result.bindOk.mp got
    cases locateAim found
    split at got <;> try contradiction
    rename_i node here
    cases got
    split at read <;> try contradiction
    rename_i file
    cases read
    split at ok <;> try contradiction
    rename_i decoded
    cases ok
    exact ⟨file, found, here, decoded⟩
  · rintro ⟨file, found, here, decoded⟩
    simp only [readText, readBytes, get, found, bind, Except.bind, here, decoded]

theorem putSelf (location : Location) (node : FileNode) (inner : location.isTop = false) :
    (fs.put location node).node? location = some node := by
  simp [node?, put, inner]

theorem lookupFilter {nodes : List (Location × FileNode)} {other : Location}
    (apart : other ≠ location) :
    (nodes.filter (·.1 != location)).lookup other = nodes.lookup other := by
  induction nodes with
  | nil => rfl
  | cons entry rest ih =>
    obtain ⟨here, node⟩ := entry
    by_cases same : here = location
    · have different : (other == here) = false := by simpa [same] using apart
      simp [same, List.lookup_cons, ih, beq_eq_false_iff_ne.mpr apart]
    · simp [same, List.lookup_cons, ih]

theorem putOther {other : Location} (apart : other ≠ location) (node : FileNode) :
    (fs.put location node).node? other = fs.node? other := by
  unfold node? put
  split
  · rfl
  · simp only [List.lookup_cons, beq_eq_false_iff_ne.mpr apart, lookupFilter apart]

/- A file is written to the place that its path names, where there is no directory. -/
theorem writeGives {bytes : ByteArray} (ok : fs.write path bytes = .ok next) :
    fs.locate path = .ok (aim path) ∧ fs.node? (aim path) ≠ some .directory ∧
      next.node? (aim path) = some (.file ⟨bytes, fs.clock⟩) ∧
      ∀ location, location ≠ aim path → next.node? location = fs.node? location := by
  unfold write at ok
  obtain ⟨place, found, ok⟩ := Result.bindOk.mp ok
  cases locateAim found
  split at ok
  · cases ok
  · rename_i vacant
    cases ok
    have inner : (aim path).isTop = false := by
      cases top : (aim path).isTop with
      | false => rfl
      | true => exact absurd (by simp [node?, top]) vacant
    exact ⟨found, vacant, putSelf _ _ inner, fun location apart => putOther apart _⟩

theorem writeGrows {bytes : ByteArray} (ok : fs.write path bytes = .ok next) : Grows fs next := by
  obtain ⟨_, vacant, _, others⟩ := writeGives ok
  intro location here
  rw [others location fun same => vacant (same ▸ here)]
  exact here

theorem createFromKeeps {pieces : List String} (ok : fs.createFrom location pieces = .ok next)
    {place : Location} {node : FileNode} (here : fs.node? place = some node) :
    next.node? place = some node := by
  induction pieces generalizing fs location with
  | nil =>
    cases ok
    exact here
  | cons piece rest ih =>
    rw [createFrom] at ok
    split at ok
    · exact ih ok here
    · split at ok
      · exact ih ok here
      · simp only at ok
        split at ok
        · exact ih ok here
        · cases ok
        · rename_i vacant
          refine ih ok ?_
          rw [putOther fun same => by rw [same, vacant] at here; cases here]
          exact here

theorem encoded (text : String) : String.fromUTF8? text.toUTF8 = some text :=
  dif_pos text.isValidUTF8

/- What was written is read back, also by another path to the same place. -/
theorem writeRead {path other text : String} (ok : fs.write path text.toUTF8 = .ok next)
    (same : aim other = aim path) (known : fs.locate other = .ok (aim other)) :
    next.readText other = .ok text := by
  obtain ⟨_, _, written, _⟩ := writeGives ok
  exact readTextIff.mpr ⟨_, locateGrown (writeGrows ok) known, same ▸ written, encoded text⟩

theorem writeKeeps {other old : String} {bytes : ByteArray} (ok : fs.write path bytes = .ok next)
    (apart : aim other ≠ aim path) (here : fs.readText other = .ok old) :
    next.readText other = .ok old := by
  obtain ⟨file, found, node, decoded⟩ := readTextIff.mp here
  obtain ⟨_, _, _, others⟩ := writeGives ok
  exact readTextIff.mpr ⟨file, locateGrown (writeGrows ok) found,
    (others _ apart).trans node, decoded⟩

theorem createKeeps {other old : String} (ok : fs.createDirectories path = .ok next)
    (here : fs.readText other = .ok old) : next.readText other = .ok old := by
  obtain ⟨file, found, node, decoded⟩ := readTextIff.mp here
  have grows : Grows fs next := fun _ directory => createFromKeeps ok directory
  exact readTextIff.mpr ⟨file, locateGrown grows found, createFromKeeps ok node, decoded⟩

end FileSystem

namespace Output
open ViewForge.Task
open FileSystem (aim)

variable {b : SourceBundle} {path text : String}

def Reads (path text : String) (w : Workspace) : Prop := w.files.readText path = .ok text

theorem createDirectoriesReads (directory : String) :
    Keeps (Reads path text) (fun _ => True) (Work.createDirectories directory) := by
  intro w holds
  refine ⟨?_, fun _ _ => trivial⟩
  unfold Work.createDirectories
  rw [getBind]
  cases made : w.files.createDirectories directory with
  | error e => exact holds
  | ok files => exact FileSystem.createKeeps made holds

theorem writeTextReads {other written : String} (fits : aim path = aim other → written = text) :
    Keeps (Reads path text) (fun _ => True) (Work.writeText other written) := by
  intro w holds
  refine ⟨?_, fun _ _ => trivial⟩
  unfold Work.writeText
  rw [getBind]
  cases made : w.files.write other written.toUTF8 with
  | error e => exact holds
  | ok files =>
    by_cases same : aim path = aim other
    · obtain ⟨_, known, _, _⟩ := FileSystem.readTextIff.mp holds
      rw [fits same] at made
      exact FileSystem.writeRead made same known
    · exact FileSystem.writeKeeps made same holds

/- Whether units are skipped or not, the file holds the text if the unit for its place has it. -/
theorem writeUnitsReads (skip : Bool) (report : WriteReport)
    {outputs : List (String × String × SourceUnit)}
    (fits : ∀ o ∈ outputs, aim path = aim o.1 → b.renderUnit o.2.2 = text) :
    Keeps (Reads path text) (fun _ => True) (writeUnits b skip report outputs) := by
  induction outputs generalizing report with
  | nil => exact keepsPure trivial
  | cons output rest ih =>
    obtain ⟨own, others⟩ := List.forall_mem_cons.mp fits
    obtain ⟨other, source, unit⟩ := output
    rw [writeUnits]
    have written : Keeps (Reads path text) (fun _ => True)
        (do
          Work.writeText other (b.renderUnit unit)
          writeUnits b skip { report with written := report.written ++ [other] } rest) :=
      keepsBind (writeTextReads own) fun _ _ => ih _ others
    refine keepsBind keepsGet fun w _ => ?_
    split
    · exact ih _ others
    · split
      · exact keepsBind (createDirectoriesReads _) fun _ _ => written
      · exact written

theorem planOutputs {directory : String} {root : Option String}
    {claimed : List (String × String)} {units : List (String × SourceUnit)}
    {outputs : List (String × String × SourceUnit)}
    (ok : plan directory root claimed units = .ok outputs) :
    outputs = units.map fun entry => (pathFor directory root entry.1, entry.1, entry.2) := by
  induction units generalizing claimed outputs with
  | nil =>
    cases ok
    rfl
  | cons entry rest ih =>
    rw [plan] at ok
    split at ok
    · cases ok
    · obtain ⟨others, later, last⟩ := Result.bindOk.mp ok
      cases last
      rw [List.map_cons, ih later]

structure Alone (b : SourceBundle) (directory : String) (root : Option String) (source : String) :
    Prop where
  common : aim (pathFor directory root source) ≠ aim (Path.append directory commonFile)
  others : ∀ other ∈ b.units.map Prod.fst, other ≠ source →
    aim (pathFor directory root source) ≠ aim (pathFor directory root other)

/- Writing everything, or only what is not up to date, leaves the text of a unit where it is. -/
theorem writeDirectoryReads {directory source : String} {root : Option String} {u : SourceUnit}
    (distinct : (b.units.map Prod.fst).Nodup) (unit : b.units.lookup source = some u)
    (alone : Alone b directory root source) (skip : Bool) :
    Keeps (Reads (pathFor directory root source) (b.renderUnit u)) (fun _ => True)
      (writeDirectory b directory root skip) := by
  have fits : ∀ entry ∈ b.units, aim (pathFor directory root source) =
      aim (pathFor directory root entry.1) → b.renderUnit entry.2 = b.renderUnit u := by
    intro entry member same
    by_cases own : entry.1 = source
    · have found := Ordered.lookupOfMem distinct member
      rw [own, unit] at found
      rw [Option.some.inj found]
    · exact absurd same (alone.others entry.1 (List.mem_map_of_mem member) own)
  have planned : ∀ claimed outputs, plan directory root claimed b.units = .ok outputs →
      ∀ o ∈ outputs, aim (pathFor directory root source) = aim o.1 →
        b.renderUnit o.2.2 = b.renderUnit u := by
    intro claimed outputs ok o member
    rw [planOutputs ok] at member
    obtain ⟨entry, inside, rfl⟩ := List.mem_map.mp member
    dsimp only
    exact fits entry inside
  unfold writeDirectory
  refine keepsBind (keepsLift (planned _)) fun outputs fits => ?_
  refine keepsBind (createDirectoriesReads _) fun _ _ => ?_
  split
  · exact writeUnitsReads skip _ fits
  · exact keepsBind (writeTextReads fun same => absurd same alone.common) fun _ _ =>
      writeUnitsReads skip _ fits

end Output
end ViewForge
