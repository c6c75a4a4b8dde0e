import Mathlib.Data.List.Pairwise
import ViewForge.Proofs.Files
import ViewForge.Proofs.Project.Delivered

/-! Writing to a directory. If two of the files that are to be written have one path, nothing is
written and everything is kept. Otherwise each of them is written or skipped, and no other file
changes. Paths that differ can still lead to one place, as one of them may go up again; then the
file there holds what was written last. -/
namespace ViewForge
namespace FileSystem

variable {fs mid next : FileSystem} {path text : String} {location : Location}
  {writes : List (String × String)}

/- Where directories are made, no file appears. -/
theorem createFromFile {pieces : List String} (ok : fs.createFrom location pieces = .ok next)
    {place : Location} {file : File} (here : next.node? place = some (.file file)) :
    fs.node? place = some (.file file) := by
  induction pieces generalizing fs location with
  | nil =>
    cases ok
    exact here
  | cons piece rest ih =>
    rw [createFrom] at ok
    split at ok
    · exact ih ok
    · split at ok
      · exact ih ok
      · simp only at ok
        split at ok
        · exact ih ok
        · cases ok
        · rename_i vacant
          have before := ih ok
          by_cases same : place = location ++ [piece]
          · have inner : (location ++ [piece]).isTop = false := by
              cases top : (location ++ [piece]).isTop with
              | false => rfl
              | true => simp [node?, top] at vacant
            rw [same, putSelf _ _ inner] at before
            cases before
          · rwa [putOther same] at before

/-- What is there after texts have been written one after the other: a file at any other place is as
it was, and a text is read back unless something later was written to its place. -/
structure Leaves (writes : List (String × String)) (fs next : FileSystem) : Prop where
  others : ∀ place, (∀ w ∈ writes, aim w.1 ≠ place) →
    ∀ file, fs.node? place = some (.file file) ↔ next.node? place = some (.file file)
  grows : Grows fs next
  reads : ∀ earlier path text later, writes = earlier ++ (path, text) :: later →
    (∀ w ∈ later, aim w.1 ≠ aim path) → next.readText path = .ok text

theorem leavesNone (fs : FileSystem) : Leaves [] fs fs where
  others _ _ _ := Iff.rfl
  grows _ here := here
  reads earlier _ _ _ none := by simp at none

theorem leavesCreate (leaves : Leaves writes fs mid) (ok : mid.createDirectories path = .ok next) :
    Leaves writes fs next where
  others place apart file := (leaves.others place apart file).trans
    ⟨fun here => createFromKeeps ok here, fun here => createFromFile ok here⟩
  grows place here := createFromKeeps ok (leaves.grows place here)
  reads earlier _ _ later parts last := createKeeps ok (leaves.reads earlier _ _ later parts last)

theorem leavesWrite (leaves : Leaves writes fs mid) (ok : mid.write path text.toUTF8 = .ok next) :
    Leaves (writes ++ [(path, text)]) fs next := by
  obtain ⟨found, _, _, others⟩ := writeGives ok
  refine ⟨fun place apart file => ?_, fun place here => ?_, ?_⟩
  · obtain ⟨before, own⟩ := List.forall_mem_append.mp apart
    have elsewhere : aim path ≠ place := own (path, text) List.mem_cons_self
    rw [others place (Ne.symm elsewhere)]
    exact leaves.others place before file
  · exact writeGrows ok place (leaves.grows place here)
  · -- what is read back is the text that has just been written, or one from before
    intro earlier other old later parts last
    rcases List.eq_nil_or_concat later with rfl | ⟨rest, w, rfl⟩
    · obtain ⟨rfl, same⟩ := List.append_inj' parts rfl
      cases same
      exact writeRead ok rfl found
    · rw [List.concat_eq_append, ← List.cons_append, ← List.append_assoc] at parts
      obtain ⟨rfl, same⟩ := List.append_inj' parts rfl
      cases same
      rw [List.concat_eq_append] at last
      obtain ⟨before, own⟩ := List.forall_mem_append.mp last
      have elsewhere : aim path ≠ aim other := own (path, text) List.mem_cons_self
      exact writeKeeps ok (Ne.symm elsewhere) (leaves.reads earlier other old rest rfl before)

theorem leavesText (leaves : Leaves writes fs next) (apart : ∀ w ∈ writes, aim w.1 ≠ aim path)
    (before : fs.readText path = .ok text) : next.readText path = .ok text := by
  obtain ⟨file, found, node, decoded⟩ := readTextIff.mp before
  exact readTextIff.mpr ⟨file, locateGrown leaves.grows found,
    (leaves.others _ apart file).mp node, decoded⟩

theorem aimFromAppend (location : Location) (first rest : List String) :
    aimFrom location (first ++ rest) = aimFrom (aimFrom location first) rest := by
  induction first generalizing location with
  | nil => rfl
  | cons piece pieces ih =>
    simp only [List.cons_append, aimFrom]
    split
    · exact ih _
    · split <;> exact ih _

theorem aimFromNames (location : Location) (pieces : List String) :
    aimFrom location (pieces.filter (!Path.isVoid ·)) = aimFrom location pieces := by
  induction pieces generalizing location with
  | nil => rfl
  | cons piece rest ih =>
    cases void : Path.isVoid piece with
    | true => simp [void, aimFrom, ih]
    | false => simp [void, aimFrom, ih]

theorem aimFromDown {names : List String} (named : ∀ name ∈ names, Path.isVoid name = false)
    (down : ".." ∉ names) (location : Location) : aimFrom location names = location ++ names := by
  induction names generalizing location with
  | nil => exact (List.append_nil location).symm
  | cons name rest ih =>
    obtain ⟨own, others⟩ := List.forall_mem_cons.mp named
    rw [List.mem_cons, not_or] at down
    rw [aimFrom, own, if_neg Bool.false_ne_true, if_neg (Ne.symm down.1), ih others down.2,
      List.append_assoc, List.singleton_append]

def Fan (paths : List String) : Prop :=
  ∃ lead trunk, ∀ path ∈ paths, (Path.ofText path).lead = lead ∧
    ∃ rest, (Path.ofText path).names = trunk ++ rest ∧ ".." ∉ rest

/- Such paths lead to one place only if they are the same. -/
theorem fanSame {paths : List String} (fan : Fan paths) {a b : String} (left : a ∈ paths)
    (right : b ∈ paths) (same : aim a = aim b) : (Path.ofText a).same (Path.ofText b) = true := by
  obtain ⟨lead, trunk, each⟩ := fan
  have aimed : ∀ {path rest}, (Path.ofText path).lead = lead →
      (Path.ofText path).names = trunk ++ rest → ".." ∉ rest →
      aim path = aimFrom (start lead) trunk ++ rest := by
    intro path rest leads names down
    have named : ∀ name ∈ rest, Path.isVoid name = false := by
      intro name inside
      have listed : name ∈ (Path.ofText path).names := names ▸ List.mem_append_right _ inside
      simpa using (List.mem_filter.mp listed).2
    rw [aim, ← aimFromNames, leads, ← Path.names, names, aimFromAppend, aimFromDown named down]
  obtain ⟨leadA, restA, namesA, downA⟩ := each a left
  obtain ⟨leadB, restB, namesB, downB⟩ := each b right
  rw [aimed leadA namesA downA, aimed leadB namesB downB] at same
  rw [Path.same, leadA, leadB, namesA, namesB, List.append_cancel_left same]
  simp

end FileSystem

namespace Output
open ViewForge.Task
open Delivery (Renders sources namesFor declsFor)
open FileSystem (aim Leaves Fan)
open SourceBundle (gather)

def fileFor (directory : String) (root : Option String) : Option String → String
  | none => Path.append directory commonFile
  | some source => pathFor directory root source

def owner : Option String → String
  | none => "common declarations"
  | some source => source

def shared (ds : List Delivery) : List (Option String) :=
  if (namesFor none ds).isEmpty && (declsFor none ds).isEmpty then [] else [none]

def owners (ds : List Delivery) : List (Option String) := shared ds ++ (sources ds).map some

variable {directory : String} {root : Option String} {ds : List Delivery}

def Apart (directory : String) (root : Option String) (x y : Option String) : Prop :=
  (Path.ofText (fileFor directory root x)).same (Path.ofText (fileFor directory root y)) = false

def Collides (directory : String) (root : Option String) (xs : List (Option String)) (e : Error) :
    Prop :=
  ∃ x y, [x, y].Sublist xs ∧ ¬ Apart directory root x y ∧
    e = .outputCollision (fileFor directory root y) (owner x) (owner y)

def claims (directory : String) (root : Option String) (xs : List (Option String)) :
    List (String × String) :=
  xs.reverse.map fun x => (fileFor directory root x, owner x)

theorem claimsNext (xs : List (Option String)) (source : String) :
    (pathFor directory root source, source) :: claims directory root xs =
      claims directory root (xs ++ [some source]) := by
  simp [claims, fileFor, owner]

theorem planApart {before : List (Option String)} {units : List (String × SourceUnit)}
    {outputs : List (String × String × SourceUnit)}
    (ok : plan directory root (claims directory root before) units = .ok outputs)
    (apart : before.Pairwise (Apart directory root)) :
    (before ++ units.map (some ·.1)).Pairwise (Apart directory root) := by
  induction units generalizing before outputs with
  | nil => simpa using apart
  | cons entry rest ih =>
    rw [plan] at ok
    split at ok
    · cases ok
    · rename_i free
      obtain ⟨others, later, _⟩ := Result.bindOk.mp ok
      rw [claimsNext] at later
      have next : (before ++ [some entry.1]).Pairwise (Apart directory root) := by
        refine List.pairwise_append.mpr ⟨apart, List.pairwise_singleton _ _, ?_⟩
        intro x inside y last
        cases List.mem_singleton.mp last
        have claimed : (fileFor directory root x, owner x) ∈ claims directory root before :=
          List.mem_map_of_mem (List.mem_reverse.mpr inside)
        simpa [Apart, fileFor] using List.find?_eq_none.mp free _ claimed
      simpa using ih later next

theorem planCollides {before : List (Option String)} {units : List (String × SourceUnit)}
    {e : Error} (failed : plan directory root (claims directory root before) units = .error e) :
    Collides directory root (before ++ units.map (some ·.1)) e := by
  induction units generalizing before with
  | nil => cases failed
  | cons entry rest ih =>
    rw [plan] at failed
    split at failed
    · rename_i first found
      cases failed
      obtain ⟨x, inside, taken⟩ := List.mem_map.mp (List.mem_of_find?_eq_some found)
      obtain ⟨rfl, rfl⟩ := Prod.mk.inj taken
      have same := List.find?_some found
      refine ⟨x, some entry.1, ?_, by simpa [Apart, fileFor] using same, rfl⟩
      exact (List.singleton_sublist.mpr (List.mem_reverse.mp inside)).append
        (List.singleton_sublist.mpr List.mem_cons_self)
    · rcases Result.bindError.mp failed with later | ⟨_, _, last⟩
      · rw [claimsNext] at later
        simpa using ih later
      · cases last

def IsIo (e : Error) : Prop := ∃ detail, e = .io detail

variable {writes more : List (String × String)} {before : FileSystem}

/- A step of the files that works is a step of the task, and one that does not is an I/O error. -/
theorem stepLeaves (step : FileSystem → Except FileError FileSystem)
    (each : ∀ fs next, Leaves writes before fs → step fs = .ok next → Leaves more before next) :
    Triple (fun w => Leaves writes before w.files)
      (do
        let files ← Work.ofFiles (step (← get).files)
        modify ({ · with files }))
      (fun _ w => Leaves more before w.files) IsIo := by
  refine tripleGet fun w leaves => ?_
  cases made : step w.files with
  | error e => exact tripleThrow ⟨_, rfl⟩
  | ok files =>
    intro s same
    subst same
    refine ⟨fun a t ok => ?_, fun e failed => by cases failed⟩
    cases ok
    exact each _ _ leaves made

theorem createDirectoriesLeaves (path : String) :
    Triple (fun w => Leaves writes before w.files) (Work.createDirectories path)
      (fun _ w => Leaves writes before w.files) IsIo :=
  stepLeaves (·.createDirectories path) fun _ _ leaves made => FileSystem.leavesCreate leaves made

theorem writeTextLeaves (path text : String) :
    Triple (fun w => Leaves writes before w.files) (Work.writeText path text)
      (fun _ w => Leaves (writes ++ [(path, text)]) before w.files) IsIo :=
  stepLeaves (·.write path text.toUTF8) fun _ _ leaves made => FileSystem.leavesWrite leaves made

def Divides (b : SourceBundle) (skip : Bool) (path : String → String) (unit : String → SourceUnit)
    (files : List String) (report : WriteReport) (writes : List (String × String))
    (before : FileSystem) (r : WriteReport) (w : Workspace) : Prop :=
  ∃ kept dropped, (kept ++ dropped).Perm files ∧ (skip = false → dropped = []) ∧
    r = ⟨report.written ++ kept.map path, report.skipped ++ dropped.map path⟩ ∧
    Leaves (writes ++ kept.map fun s => (path s, b.renderUnit (unit s))) before w.files

theorem writeUnitsLeaves {b : SourceBundle} (skip : Bool) (path : String → String)
    (unit : String → SourceUnit) (files : List String) (report : WriteReport) :
    Triple (fun w => Leaves writes before w.files)
      (writeUnits b skip report (files.map fun s => (path s, s, unit s)))
      (Divides b skip path unit files report writes before) IsIo := by
  induction files generalizing writes report with
  | nil =>
    refine triplePure fun w leaves => ⟨[], [], .refl _, fun _ => rfl, by simp, ?_⟩
    simpa using leaves
  | cons s rest ih =>
    rw [List.map_cons, writeUnits]
    have written : Triple (fun w => Leaves writes before w.files)
        (do
          Work.writeText (path s) (b.renderUnit (unit s))
          writeUnits b skip { report with written := report.written ++ [path s] }
            (rest.map fun s => (path s, s, unit s)))
        (Divides b skip path unit (s :: rest) report writes before) IsIo := by
      refine tripleBind _ (writeTextLeaves _ _) fun _ => ?_
      refine tripleOf (ih _) (fun _ leaves => leaves) ?_ fun _ io => io
      rintro _ w ⟨kept, dropped, perm, always, rfl, leaves⟩
      exact ⟨s :: kept, dropped, perm.cons s, always, by simp, by simpa using leaves⟩
    refine tripleGet fun w leaves => ?_
    split
    · rename_i current
      refine tripleOf (ih _) (fun _ same => same ▸ leaves) ?_ fun _ io => io
      rintro _ w ⟨kept, dropped, perm, _, rfl, leaves⟩
      refine ⟨kept, s :: dropped, List.perm_middle.trans (perm.cons s), ?_, by simp, leaves⟩
      intro always
      rw [always] at current
      cases current
    · refine tripleOf ?_ (fun _ same => same ▸ leaves) (fun _ _ holds => holds) fun _ io => io
      split
      · exact tripleBind _ (createDirectoriesLeaves _) fun _ => written
      · exact written

def textFor (b : SourceBundle) : Option String → String
  | none => b.renderUnit { decls := b.common.decls }
  | some source => b.renderUnit (b.unitFor (some source))

theorem textRenders (ds : List Delivery) (x : Option String) :
    Renders ds x (textFor (gather ds) x) := by
  have unit := SourceBundle.gatherUnit x ds
  cases x with
  | none =>
    refine Delivery.unitRenders (congrArg SourceUnit.decls unit) (fun name none => ?_) ?_
    · cases none
    · exact fun name needed => .inl needed
  | some source =>
    refine Delivery.unitRenders (congrArg SourceUnit.decls unit) (fun name inside => ?_) ?_
    · rw [unit] at inside
      exact Imports.memOfList.mp inside
    · intro name needed
      rw [unit]
      exact .inr (Imports.memOfList.mpr needed)

theorem commonEmpty (ds : List Delivery) : (gather ds).common.isEmpty =
    ((namesFor none ds).isEmpty && (declsFor none ds).isEmpty) := by
  have common : (gather ds).common = Delivery.unitFor none ds := SourceBundle.gatherUnit none ds
  have names : (Imports.ofList (namesFor none ds)).isEmpty = (namesFor none ds).isEmpty := by
    rw [Bool.eq_iff_iff, List.isEmpty_iff, List.isEmpty_iff, List.eq_nil_iff_forall_not_mem,
      List.eq_nil_iff_forall_not_mem]
    simp only [Imports.memOfList]
  rw [common, SourceUnit.isEmpty, Delivery.unitFor, names]

structure Settled (directory : String) (root : Option String) (ds : List Delivery)
    (kept dropped : List (Option String)) (before after : FileSystem) : Prop where
  apart : (owners ds).Pairwise (Apart directory root)
  listed : (kept ++ dropped).Perm (owners ds)
  holds : ∀ earlier x later, kept = earlier ++ x :: later →
    (∀ y ∈ later, aim (fileFor directory root y) ≠ aim (fileFor directory root x)) →
    ∃ text, Renders ds x text ∧ after.readText (fileFor directory root x) = .ok text
  others : ∀ place, (∀ x ∈ kept, aim (fileFor directory root x) ≠ place) →
    ∀ file, before.node? place = some (.file file) ↔ after.node? place = some (.file file)
  reads : ∀ path, (∀ x ∈ kept, aim (fileFor directory root x) ≠ aim path) →
    ∀ text, before.readText path = .ok text → after.readText path = .ok text

theorem leavesSettled {kept dropped : List (Option String)} {after : FileSystem}
    (apart : (owners ds).Pairwise (Apart directory root))
    (listed : (kept ++ dropped).Perm (owners ds))
    (leaves : Leaves (kept.map fun x => (fileFor directory root x, textFor (gather ds) x)) before
      after) : Settled directory root ds kept dropped before after := by
  refine ⟨apart, listed, ?_, fun place elsewhere => ?_, fun path elsewhere text => ?_⟩
  · rintro earlier x later rfl last
    refine ⟨_, textRenders ds x, ?_⟩
    refine leaves.reads _ _ _ _ (by rw [List.map_append, List.map_cons]) fun w inside => ?_
    obtain ⟨y, member, rfl⟩ := List.mem_map.mp inside
    exact last y member
  · exact leaves.others place (List.forall_mem_map.mpr elsewhere)
  · exact FileSystem.leavesText leaves (List.forall_mem_map.mpr elsewhere)

structure Exact (directory : String) (root : Option String) (ds : List Delivery)
    (kept dropped : List (Option String)) (before after : FileSystem) : Prop where
  written : ∀ x ∈ kept,
    ∃ text, Renders ds x text ∧ after.readText (fileFor directory root x) = .ok text
  skipped : ∀ x ∈ dropped, ∀ file, before.node? (aim (fileFor directory root x)) =
    some (.file file) ↔ after.node? (aim (fileFor directory root x)) = some (.file file)

theorem settledExact {kept dropped : List (Option String)} {after : FileSystem}
    (settled : Settled directory root ds kept dropped before after)
    (fan : Fan ((owners ds).map (fileFor directory root))) :
    Exact directory root ds kept dropped before after := by
  have places : (owners ds).Pairwise fun x y =>
      aim (fileFor directory root x) ≠ aim (fileFor directory root y) := by
    refine settled.apart.imp_of_mem fun {x y} left right apart same => ?_
    have path := FileSystem.fanSame fan (List.mem_map_of_mem left) (List.mem_map_of_mem right) same
    rw [apart] at path
    cases path
  rw [← settled.listed.pairwise_iff Ne.symm] at places
  obtain ⟨wrote, _, cross⟩ := List.pairwise_append.mp places
  constructor
  · intro x inside
    obtain ⟨earlier, later, rfl⟩ := List.append_of_mem inside
    obtain ⟨_, own, _⟩ := List.pairwise_append.mp wrote
    exact settled.holds earlier x later rfl fun y last => ((List.pairwise_cons.mp own).1 y last).symm
  · exact fun x inside => settled.others _ fun y wrote => cross y wrote x inside

def Reports (directory : String) (root : Option String) (skip : Bool) (ds : List Delivery)
    (before : FileSystem) (report : WriteReport) (after : FileSystem) : Prop :=
  ∃ kept dropped, Settled directory root ds kept dropped before after ∧
    (Fan ((owners ds).map (fileFor directory root)) →
      Exact directory root ds kept dropped before after) ∧
    (skip = false → dropped = []) ∧
    report = ⟨kept.map (fileFor directory root), dropped.map (fileFor directory root)⟩

theorem sourcesReported (before : FileSystem) (apart : (owners ds).Pairwise (Apart directory root))
    (skip : Bool) :
    Triple
      (fun w => Leaves ((shared ds).map fun x => (fileFor directory root x, textFor (gather ds) x))
        before w.files)
      (writeUnits (gather ds) skip ⟨(shared ds).map (fileFor directory root), []⟩
        ((sources ds).map fun s => (pathFor directory root s, s, Delivery.unitFor (some s) ds)))
      (fun r w => Reports directory root skip ds before r w.files) IsIo := by
  refine tripleOf (writeUnitsLeaves skip (pathFor directory root) _ (sources ds) _)
    (fun _ leaves => leaves) ?_ fun _ io => io
  rintro _ w ⟨kept, dropped, perm, always, rfl, leaves⟩
  have settled : Settled directory root ds (shared ds ++ kept.map some) (dropped.map some) before
      w.files := by
    refine leavesSettled apart ?_ ?_
    · rw [List.append_assoc, ← List.map_append]
      exact (perm.map some).append_left (shared ds)
    · rw [List.map_append, List.map_map]
      have texts : (kept.map fun s => (pathFor directory root s,
          (gather ds).renderUnit (Delivery.unitFor (some s) ds))) =
          kept.map ((fun x => (fileFor directory root x, textFor (gather ds) x)) ∘ some) := by
        refine List.map_congr_left fun s _ => ?_
        rw [Function.comp_apply, textFor, SourceBundle.gatherUnit]
        rfl
      exact texts ▸ leaves
  refine ⟨_, _, settled, settledExact settled, ?_, ?_⟩
  · intro keeps
    rw [always keeps]
    rfl
  · simp [fileFor, Function.comp_def]

theorem claimedShared (directory : String) (root : Option String) (ds : List Delivery) :
    (if (gather ds).common.isEmpty then []
      else [(Path.append directory commonFile, "common declarations")]) =
      claims directory root (shared ds) := by
  rw [commonEmpty, shared]
  split <;> rfl

theorem plannedReported (apart : (owners ds).Pairwise (Apart directory root)) (skip : Bool)
    {outputs : List (String × String × SourceUnit)} (planned : outputs =
      (sources ds).map fun s => (pathFor directory root s, s, Delivery.unitFor (some s) ds)) :
    Triple (fun w => Leaves [] before w.files)
      (do
        Work.createDirectories directory
        if (gather ds).common.isEmpty then writeUnits (gather ds) skip {} outputs
        else
          let common := Path.append directory commonFile
          Work.writeText common ((gather ds).renderUnit { decls := (gather ds).common.decls })
          writeUnits (gather ds) skip { written := [common] } outputs)
      (fun r w => Reports directory root skip ds before r w.files) IsIo := by
  subst planned
  have each := sourcesReported before apart skip
  refine tripleBind _ (createDirectoriesLeaves directory) fun _ => ?_
  rw [commonEmpty]
  unfold shared at each
  split
  · rename_i nothing
    rw [if_pos nothing] at each
    exact each
  · rename_i anything
    rw [if_neg anything] at each
    exact tripleBind _ (writeTextLeaves _ _) fun _ => each

/- Either nothing is done because of a collision, or everything is. -/
theorem directorySettles {skip : Bool} {w after : Workspace} {result : Result WriteReport}
    (run : (writeDirectory (gather ds) directory root skip).outcome w = (result, after))
    (works : ∀ detail, result ≠ .error (.io detail)) :
    (∃ e, result = .error e ∧ Collides directory root (owners ds) e ∧ after = w) ∨
      ∃ report, result = .ok report ∧
        Reports directory root skip ds w.files report after.files := by
  have units : (gather ds).units.map (some ·.1) = (sources ds).map some := by
    rw [← SourceBundle.gatherSources, List.map_map]
    rfl
  unfold writeDirectory at run
  simp only [claimedShared directory root ds] at run
  cases planned : plan directory root (claims directory root (shared ds)) (gather ds).units with
  | error e =>
    rw [planned, bindError (outcomeLift _ _)] at run
    cases run
    have collides := planCollides planned
    rw [units] at collides
    exact .inl ⟨e, rfl, collides, rfl⟩
  | ok outputs =>
    have apart : (owners ds).Pairwise (Apart directory root) := by
      have single : (shared ds).Pairwise (Apart directory root) := by
        unfold shared
        split <;> simp
      have all := planApart planned single
      rwa [units] at all
    have listed := planOutputs planned
    rw [SourceBundle.gatherUnits, List.map_map] at listed
    rw [planned, bindOk (outcomeLift _ _)] at run
    obtain ⟨gives, fails⟩ := plannedReported apart skip listed w (FileSystem.leavesNone w.files)
    cases result with
    | error e =>
      obtain ⟨detail, rfl⟩ := fails e (congrArg Prod.fst run)
      exact absurd rfl (works detail)
    | ok report => exact .inr ⟨report, rfl, gives report after run⟩

end Output

namespace Sink
open SourceBundle (gather)
open Output (Collides owners Reports fileFor)

variable {directory : String} {root : Option String} {skip : Bool} {ds : List Delivery}

theorem flushOutcome (destination : Destination) (sink : Sink) :
    (flush destination).outcome sink =
      match (Output.write sink.bundle destination).outcome sink.workspace with
      | (.ok report, workspace) => (.ok report, ⟨{}, workspace⟩)
      | (.error e, workspace) => (.error e, ⟨sink.bundle, workspace⟩) := by
  unfold flush
  rw [Task.getBind]
  cases run : (Output.write sink.bundle destination).outcome sink.workspace with
  | mk result workspace => cases result <;> rfl

/- A collision leaves everything as it is. Otherwise all files are written or skipped, and nothing
is kept for the next time. -/
theorem flushSettles {w : Workspace} {result : Result WriteReport} {after : Sink}
    (run : (flush (.directory directory root skip)).outcome ⟨gather ds, w⟩ = (result, after))
    (works : ∀ detail, result ≠ .error (.io detail)) :
    (∃ e, result = .error e ∧ Collides directory root (owners ds) e ∧ after = ⟨gather ds, w⟩) ∨
      ∃ report, result = .ok report ∧ after.bundle = {} ∧
        Reports directory root skip ds w.files report after.workspace.files := by
  rw [flushOutcome] at run
  cases wrote : (Output.write (gather ds) (.directory directory root skip)).outcome w with
  | mk outcome workspace =>
    rw [wrote] at run
    cases outcome with
    | error e =>
      cases run
      rcases Output.directorySettles wrote works with ⟨_, same, collides, rfl⟩ | ⟨_, other, _⟩
      · cases same
        exact .inl ⟨e, rfl, collides, rfl⟩
      · cases other
    | ok report =>
      cases run
      rcases Output.directorySettles wrote works with ⟨_, other, _⟩ | ⟨_, same, reports⟩
      · cases other
      · cases same
        exact .inr ⟨report, rfl, rfl, reports⟩

def cardDeliveries : List Delivery := [
  .imports none ["UIKit"], .decl none (.comment "theme"),
  .imports (some "ui/Card.ui.xml") ["SnapKit", "UIKit"],
  .decl (some "ui/Card.ui.xml") (.comment "card"),
  .decl (some "ui/a/Card.ui.xml") (.comment "other card"),
  .decl (some "ui/Card.ui.xml") (.comment "more of the card")]

def cardWorkspace : Workspace :=
  { files := {
      nodes := [(["ui", "a", "Card.ui.xml"], .file ⟨"".toUTF8, 1⟩), (["ui", "a"], .directory),
        (["ui"], .directory), (["..", "out"], .directory), (["..", "out", "a"], .directory),
        (["..", "out", "a", "Card.swift"], .file ⟨"// other card".toUTF8, 2⟩)]
      clock := 3 } }

def cardFlush : Result WriteReport × Sink :=
  (flush (.directory "../out" (some "ui") true)).outcome ⟨gather cardDeliveries, cardWorkspace⟩

theorem cardRun : (flush (.directory "../out" (some "ui") true)).outcome
    ⟨gather cardDeliveries, cardWorkspace⟩ = (cardFlush.1, cardFlush.2) :=
  Prod.mk.eta.symm

theorem cardReport : cardFlush.1.toOption =
    some ⟨["../out/Common.swift", "../out/Card.swift"], ["../out/a/Card.swift"]⟩ := by
  decide +kernel

theorem cardFan : FileSystem.Fan ((owners cardDeliveries).map (fileFor "../out" (some "ui"))) := by
  refine ⟨.relative, ["..", "out"], fun path listed => ?_⟩
  have each : ∀ path ∈ (owners cardDeliveries).map (fileFor "../out" (some "ui")),
      (Path.ofText path).lead = .relative ∧
      (Path.ofText path).names = ["..", "out"] ++ (Path.ofText path).names.drop 2 ∧
      ".." ∉ (Path.ofText path).names.drop 2 := by
    decide +kernel
  obtain ⟨lead, names, down⟩ := each path listed
  exact ⟨lead, _, names, down⟩

theorem cardsFlushed : ∃ kept dropped, cardFlush.1 =
    .ok ⟨kept.map (fileFor "../out" (some "ui")), dropped.map (fileFor "../out" (some "ui"))⟩ ∧
    (kept ++ dropped).Perm [none, some "ui/Card.ui.xml", some "ui/a/Card.ui.xml"] ∧
    Output.Exact "../out" (some "ui") cardDeliveries kept dropped cardWorkspace.files
      cardFlush.2.workspace.files ∧ cardFlush.2.bundle = {} := by
  have works : ∀ detail, cardFlush.1 ≠ .error (.io detail) := by
    intro detail failed
    have report := cardReport
    rw [failed] at report
    cases report
  rcases flushSettles cardRun works with
    ⟨e, failed, _⟩ | ⟨_, given, empty, kept, dropped, settled, exactly, _, rfl⟩
  · have report := cardReport
    rw [failed] at report
    cases report
  · have listed : owners cardDeliveries =
        [none, some "ui/Card.ui.xml", some "ui/a/Card.ui.xml"] := by decide +kernel
    exact ⟨kept, dropped, given, listed ▸ settled.listed, exactly cardFan, empty⟩

def sheetDeliveries : List Delivery := [
  .decl (some "ui/Card.styles.xml") (.comment "one sheet"),
  .decl (some "ui/a/../Card.styles.ui.xml") (.comment "another sheet")]

def sheetFlush : Result WriteReport × Sink :=
  (flush (.directory "out" (some "ui") false)).outcome ⟨gather sheetDeliveries, {}⟩

theorem sheetRun : (flush (.directory "out" (some "ui") false)).outcome
    ⟨gather sheetDeliveries, {}⟩ = (sheetFlush.1, sheetFlush.2) :=
  Prod.mk.eta.symm

theorem sheetReport : sheetFlush.1.toOption =
    some ⟨["out/Card.styles.swift", "out/a/../Card.styles.swift"], []⟩ := by
  decide +kernel

theorem sheetRead : (sheetFlush.2.workspace.files.readText "out/Card.styles.swift").toOption ≠
    some (Output.textFor (gather sheetDeliveries) (some "ui/Card.styles.xml")) := by
  decide +kernel

/- Both sheets are reported as written, and the file of the first does not hold it. -/
theorem sheetLost : ∃ directory root skip ds w report after x,
    (flush (.directory directory root skip)).outcome ⟨gather ds, w⟩ = (.ok report, after) ∧
    x ∈ owners ds ∧ fileFor directory root x ∈ report.written ∧
    ∀ text, Delivery.Renders ds x text →
      after.workspace.files.readText (fileFor directory root x) ≠ .ok text := by
  have path : fileFor "out" (some "ui") (some "ui/Card.styles.xml") = "out/Card.styles.swift" := by
    decide +kernel
  cases outcome : sheetFlush.1 with
  | error e =>
    have report := sheetReport
    rw [outcome] at report
    cases report
  | ok report =>
    have named := sheetReport
    rw [outcome] at named
    cases named
    have run := sheetRun
    rw [outcome] at run
    refine ⟨"out", some "ui", false, sheetDeliveries, {}, _, sheetFlush.2,
      some "ui/Card.styles.xml", run, by decide +kernel, ?_, ?_⟩
    · rw [path]
      exact List.mem_cons_self
    · intro text renders read
      cases Delivery.rendersUnique renders (Output.textRenders _ _)
      rw [path] at read
      exact sheetRead (by rw [read]; rfl)

end Sink
end ViewForge
