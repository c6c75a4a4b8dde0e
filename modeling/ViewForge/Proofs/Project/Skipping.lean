import ViewForge.Proofs.Files
import ViewForge.Proofs.Project.Order
import ViewForge.Proofs.Source.Shared

/-! Two compilations of one project, between which files have changed. What is generated for a file
that has not is the same if what the file takes from the others is; only then does an output that is
skipped hold what would be written. -/
namespace ViewForge

def Contribution.AlikeIn (r r' : Registry) : Contribution → Prop
  | .group _ g => ∀ group name, .qualified group name ∈ g.bases →
    StyleScope.Shares { groups := r.styleGroups } { groups := r'.styleGroups }
      (.qualified group name) none none
  | .definition d => ∀ x ∈ d.nested, r.AlikeFor r' x

namespace Compilation
open Contribution

structure Traced (c : Compilation) (xs : List Contribution) : Prop where
  groups : ∀ name g, c.registry.styleGroups.lookup name = some g → g.name = name ∧
    ∃ path, c.styleSources.lookup name = some path ∧ .group path g ∈ xs
  definitions : ∀ d ∈ c.registry.definitions, .definition d ∈ xs

variable {c : Compilation} {xs : List Contribution} {configuration : Configuration}

theorem takeTraced (traced : c.Traced xs) (x : Contribution) : (c.take x).Traced (xs ++ [x]) := by
  have later : ∀ {y}, y ∈ xs → y ∈ xs ++ [x] := List.mem_append_left _
  cases x with
  | group path group =>
    refine ⟨fun name g found => ?_, fun d member => later (traced.definitions d member)⟩
    by_cases same : name = group.name
    · subst same
      have own : (Ordered.put group.name group c.registry.styleGroups).lookup group.name = some g :=
        found
      rw [Ordered.lookupPutSelf] at own
      cases own
      exact ⟨rfl, path, Ordered.lookupPutSelf _ _ _, List.mem_append_right _ (by simp)⟩
    · have other : (Ordered.put group.name group c.registry.styleGroups).lookup name = some g :=
        found
      rw [Ordered.lookupPutOther same] at other
      obtain ⟨named, file, known, member⟩ := traced.groups name g other
      exact ⟨named, file, (Ordered.lookupPutOther same _ _).trans known, later member⟩
  | definition d =>
    refine ⟨fun name g found => ?_, fun e member => ?_⟩
    · obtain ⟨named, file, known, member⟩ := traced.groups name g found
      exact ⟨named, file, known, later member⟩
    · obtain ⟨⟨name, es⟩, entry, inside⟩ := List.mem_flatMap.mp member
      rcases Ordered.memPut entry with same | old
      · cases same
        rcases Registry.memReplaceOrAdd inside with rfl | before
        · exact List.mem_append_right _ (by simp)
        · cases known : c.registry.components.lookup d.typeName with
          | none => simp [known] at before
          | some others =>
            rw [known] at before
            exact later (traced.definitions e
              (List.mem_flatMap.mpr ⟨_, Ordered.memOfLookup known, before⟩))
      · exact later (traced.definitions e (List.mem_flatMap.mpr ⟨_, old, inside⟩))

theorem takeAllTraced {before : List Contribution} (traced : c.Traced before) :
    (xs.foldl take c).Traced (before ++ xs) := by
  induction xs generalizing c before with
  | nil => simpa using traced
  | cons x rest ih =>
    have split : before ++ x :: rest = (before ++ [x]) ++ rest := by simp
    rw [split]
    exact ih (takeTraced traced x)

structure Gathered (c : Compilation) (xs : List Contribution) : Prop where
  filled : c.registry.Filled
  traced : c.Traced xs
  paths : (xs.map path).Nodup

namespace Gathered

theorem unique (gathered : c.Gathered xs) {x y : Contribution} (left : x ∈ xs) (right : y ∈ xs)
    (same : x.path = y.path) : x = y :=
  List.inj_on_of_nodup_map gathered.paths left right same

theorem definitionsDistinct (gathered : c.Gathered xs) : c.registry.definitions.Nodup := by
  refine List.nodup_flatMap.mpr ⟨fun entry member => ?_, ?_⟩
  · exact (Registry.componentsOfType gathered.filled member).files.of_map _
  · have names := Registry.componentNamesDistinct gathered.filled
    rw [List.Nodup, List.pairwise_map] at names
    refine names.imp_of_mem fun {p q} left right apart => ?_
    intro d here there
    refine apart ?_
    rw [← (Registry.componentsOfType gathered.filled left).named d here,
      ← (Registry.componentsOfType gathered.filled right).named d there]

theorem filesApart (gathered : c.Gathered xs) : c.registry.FilesApart := by
  refine gathered.definitionsDistinct.map_on fun d left e right same => ?_
  exact Contribution.definition.inj (gathered.unique (gathered.traced.definitions d left)
    (gathered.traced.definitions e right) same)

theorem groupTraced (gathered : c.Gathered xs) {entry : String × StyleGroup}
    (member : entry ∈ c.registry.styleGroups) : entry.2.name = entry.1 ∧
      .group ((c.styleSources.lookup entry.2.name).getD entry.2.name) entry.2 ∈ xs := by
  have found := Ordered.lookupOfMem (Registry.groupNamesDistinct gathered.filled) member
  obtain ⟨named, path, known, inside⟩ := gathered.traced.groups _ _ found
  rw [named, known]
  exact ⟨rfl, inside⟩

/- Every declaration goes to the file that has contributed what it comes from. -/
theorem emissionsApart (gathered : c.Gathered xs) {styles components : List Emission}
    (styled : (c.registry.styleGroups.map (·.2)).mapM (c.styleEmission configuration) = .ok styles)
    (classed : c.registry.definitions.mapM (c.componentEmission configuration) = .ok components) :
    ((styles ++ components).map (·.source)).Nodup := by
  have file : ∀ g e, c.styleEmission configuration g = .ok e →
      e.source = (c.styleSources.lookup g.name).getD g.name := by
    intro g e ok
    obtain ⟨_, _, rfl⟩ := Result.mapOk.mp ok
    rfl
  have left : styles.map (·.source) = c.registry.styleGroups.map fun entry =>
      (c.styleSources.lookup entry.2.name).getD entry.2.name := by
    rw [Emission.sources file styled, List.map_map]
    rfl
  have right : components.map (·.source) = c.registry.definitions.map (·.sourcePath) := by
    refine Emission.sources (fun d e ok => ?_) classed
    obtain ⟨_, _, rfl⟩ := Result.mapOk.mp ok
    rfl
  rw [List.map_append, left, right]
  refine List.nodup_append.mpr ⟨?_, gathered.filesApart, ?_⟩
  · refine ((Registry.groupNamesDistinct gathered.filled).of_map _).map_on ?_
    intro p left q right same
    obtain ⟨named, one⟩ := gathered.groupTraced left
    obtain ⟨named', two⟩ := gathered.groupTraced right
    have groups := (Contribution.group.inj (gathered.unique one two same)).2
    exact Prod.ext (by rw [← named, ← named', groups]) groups
  · rintro _ one _ two rfl
    obtain ⟨entry, left, rfl⟩ := List.mem_map.mp one
    obtain ⟨d, right, same⟩ := List.mem_map.mp two
    have equal := gathered.unique (gathered.groupTraced left).2
      (gathered.traced.definitions d right) same.symm
    cases equal

theorem unitsDistinct (es : List Emission) {b : SourceBundle}
    (distinct : (b.units.map Prod.fst).Nodup) : ((es.foldl .emit b).units.map Prod.fst).Nodup := by
  induction es generalizing b with
  | nil => exact distinct
  | cons e rest ih => exact ih (Ordered.nodupPut distinct)

inductive Emits (c : Compilation) (configuration : Configuration) (e : Emission) :
    Contribution → Prop where
  | group {path : String} {g : StyleGroup} (emitted : c.styleEmission configuration g = .ok e)
      (own : e.source = path) : Emits c configuration e (.group path g)
  | definition {d : ComponentDefinition} (registered : d ∈ c.registry.definitions)
      (emitted : c.componentEmission configuration d = .ok e) :
      Emits c configuration e (.definition d)

theorem unitEmitted (gathered : c.Gathered xs) {b : SourceBundle}
    (generates : c.Generates configuration b) {source : String} {u : SourceUnit}
    (unit : b.units.lookup source = some u) : ∃ x ∈ xs, x.path = source ∧
      ∃ e, Emits c configuration e x ∧ u = e.extend {} := by
  obtain ⟨theme, styles, components, _, styled, classed, rfl⟩ :=
    (generateEmits gathered.filled gathered.filesApart).mp generates
  have apart := gathered.emissionsApart styled classed
  have known : source ∈ (styles ++ components).map (·.source) := by
    by_contra absent
    rw [SourceBundle.emitAllOther _ absent] at unit
    cases unit
  obtain ⟨e, member, rfl⟩ := List.mem_map.mp known
  rw [SourceBundle.emitAllOwn _ apart member] at unit
  have made : u = e.extend {} := (Option.some.inj unit).symm
  rcases List.mem_append.mp member with style | component
  · obtain ⟨g, listed, emitted⟩ := forallRight (Result.mapMOk styled) style
    obtain ⟨entry, inside, rfl⟩ := List.mem_map.mp listed
    have own : e.source = (c.styleSources.lookup entry.2.name).getD entry.2.name := by
      obtain ⟨_, _, rfl⟩ := Result.mapOk.mp emitted
      rfl
    exact ⟨_, (gathered.groupTraced inside).2, own.symm, e, .group emitted own, made⟩
  · obtain ⟨d, registered, emitted⟩ := forallRight (Result.mapMOk classed) component
    have own : e.source = d.sourcePath := by
      obtain ⟨_, _, rfl⟩ := Result.mapOk.mp emitted
      rfl
    exact ⟨_, gathered.traced.definitions d registered, own.symm, e,
      .definition registered emitted, made⟩

end Gathered

variable {c' : Compilation} {ys : List Contribution}

theorem emissionSame (filled : c.registry.Filled) (filled' : c'.registry.Filled)
    (context : c.registry.renderContext = c'.registry.renderContext) {x : Contribution}
    (alike : x.AlikeIn c.registry c'.registry) {e f : Emission}
    (left : Gathered.Emits c configuration e x) (right : Gathered.Emits c' configuration f x) :
    e = f := by
  cases left with
  | @group path g emitted own =>
    obtain ⟨emitted', own'⟩ := right
    obtain ⟨one, first, rfl⟩ := Result.mapOk.mp emitted
    obtain ⟨two, second, rfl⟩ := Result.mapOk.mp emitted'
    have beside : (StyleSource.ofGlobal c.registry configuration g).Beside
        (.ofGlobal c'.registry configuration g) :=
      ⟨context, rfl, rfl, rfl, ⟨rfl, fun _ none => (by cases none), alike⟩⟩
    rw [StyleSource.declSame beside (Result.inFileOk first) (Result.inFileOk second)]
    simp only at own own' ⊢
    rw [own, own']
  | definition registered emitted =>
    obtain ⟨_, _⟩ | ⟨registered', emitted'⟩ := right
    obtain ⟨one, first, rfl⟩ := Result.mapOk.mp emitted
    obtain ⟨two, second, rfl⟩ := Result.mapOk.mp emitted'
    have yields := Registry.classSame filled filled' context _
      (Registry.definitionIncluded registered) (Registry.definitionIncluded registered') alike one two
      ⟨{}, _, Registry.soundFresh _, Prod.ext (Result.inFileOk first) rfl⟩
      ⟨{}, _, Registry.soundFresh _, Prod.ext (Result.inFileOk second) rfl⟩
    rw [yields]

theorem contributionRead {platform : Platform} {files : List SourceFile}
    (read : files.mapM (SourceFile.contribution platform) = .ok xs) {f : SourceFile}
    (listed : f ∈ files) : ∃ x ∈ xs, f.contribution platform = .ok x ∧ x.path = f.path := by
  obtain ⟨x, member, own⟩ := forallLeft (Result.mapMOk read) listed
  refine ⟨x, member, own, ?_⟩
  have alone : [f].mapM (SourceFile.contribution platform) = .ok [x] := by
    rw [List.mapM_cons, own]
    rfl
  exact (List.cons.inj (contributionsNamed alone).1).1

section Files

variable {platform : Platform} {application : Application} {applicationPath : String}
  {files : List SourceFile}

theorem registersGathered {w : Workspace} (paths : (files.map (·.path)).Nodup)
    (registers : (start platform application applicationPath).Registers files w c) :
    ∃ xs, files.mapM (SourceFile.contribution platform) = .ok xs ∧ c.Gathered xs ∧
      c.registry.renderContext =
        (start platform application applicationPath).registry.renderContext := by
  obtain ⟨xs, read, rfl⟩ := registersTakes registers
  obtain ⟨same, used, _⟩ := takeAllKeeps (start platform application applicationPath) xs
  have empty : (start platform application applicationPath).Traced [] :=
    ⟨fun _ _ found => (by cases found), fun _ member => (by cases member)⟩
  refine ⟨xs, read, ⟨takeAllFilled (.empty _ _) read, takeAllTraced empty, ?_⟩, ?_⟩
  · rw [(contributionsNamed read).1]
    exact paths
  · rw [Registry.renderContext, Registry.renderContext, same, used]

theorem commonImports (gathered : c.Gathered xs) {b : SourceBundle}
    (generates : c.Generates configuration b) :
    b.common.imports = Imports.ofList ["UIKit", "Hyperdrive"] ∧ (b.units.map Prod.fst).Nodup := by
  obtain ⟨theme, styles, components, _, _, _, rfl⟩ :=
    (generateEmits gathered.filled gathered.filesApart).mp generates
  exact ⟨by rw [SourceBundle.emitAllCommon]; rfl, Gathered.unitsDistinct _ List.nodup_nil⟩

theorem skippingSound {files' : List SourceFile} (paths : (files.map (·.path)).Nodup)
    (paths' : (files'.map (·.path)).Nodup) {w w' : Workspace} {c c' : Compilation}
    (registers : (start platform application applicationPath).Registers files w c)
    (registers' : (start platform application applicationPath).Registers files' w' c')
    {b b' : SourceBundle} (generates : c.Generates configuration b)
    (generates' : c'.Generates configuration b') {f : SourceFile} (before : f ∈ files)
    (after : f ∈ files')
    (alike : ∀ x, f.contribution platform = .ok x → x.AlikeIn c.registry c'.registry)
    {u u' : SourceUnit} (unit : b.units.lookup f.path = some u)
    (unit' : b'.units.lookup f.path = some u') :
    b.renderUnit u = b'.renderUnit u' ∧
      ∀ directory root, Output.Alone b' directory root f.path → ∀ skip v,
        Output.Reads (Output.pathFor directory root f.path) (b.renderUnit u) v →
        Output.Reads (Output.pathFor directory root f.path) (b'.renderUnit u')
          ((Output.writeDirectory b' directory root skip).outcome v).2 := by
  obtain ⟨xs, read, gathered, context⟩ := registersGathered paths registers
  obtain ⟨ys, read', gathered', context'⟩ := registersGathered paths' registers'
  -- both units come from what the file contributes
  obtain ⟨x, listed, own, named⟩ := contributionRead read before
  obtain ⟨y, listed', own', named'⟩ := contributionRead read' after
  cases Except.ok.inj (own.symm.trans own')
  obtain ⟨z, inside, place, e, emits, rfl⟩ := gathered.unitEmitted generates unit
  obtain ⟨z', inside', place', e', emits', rfl⟩ := gathered'.unitEmitted generates' unit'
  cases gathered.unique inside listed (place.trans named.symm)
  cases gathered'.unique inside' listed' (place'.trans named.symm)
  have same := emissionSame gathered.filled gathered'.filled (context.trans context'.symm)
    (alike x own) emits emits'
  obtain ⟨imports, _⟩ := commonImports gathered generates
  obtain ⟨imports', distinct⟩ := commonImports gathered' generates'
  have text : b.renderUnit (e.extend {}) = b'.renderUnit (e'.extend {}) := by
    rw [SourceBundle.renderUnit, SourceBundle.renderUnit, imports, imports', same]
  refine ⟨text, fun directory root alone skip v holds => ?_⟩
  rw [text] at holds
  exact (Output.writeDirectoryReads distinct unit' alone skip v holds).1

end Files

/- A card holds a badge. The text of the card stays when the badge gets a default and a label of its
own, but not when it takes its price as a text. -/
def shopSheet : SourceFile := .sheet "Main.styles.xml"
  "<styleGroup name=\"Main\"><ViewStyle name=\"card\" backgroundColor=\"red\"/></styleGroup>"

def shopCard : SourceFile := .component "Card.ui.xml"
  "<Card style=\":Main:card\"><Badge id=\"b\" price=\"5\"/></Card>"

def shopFiles (badge : String) : List SourceFile :=
  [shopSheet, .component "Badge.ui.xml" badge, shopCard]

def numberBadge : String := "<Badge><state><item name=\"price\" type=\"Int\"/></state>" ++
  "<Label numberOfLines=\"$price\"/></Badge>"

def labelledBadge : String :=
  "<Badge><state><item name=\"price\" type=\"Int\" default=\"1\"/></state>" ++
    "<Label numberOfLines=\"$price\" text=\"new\"/></Badge>"

def textBadge : String := "<Badge><state><item name=\"price\" type=\"String\"/></state>" ++
  "<Label text=\"$price\"/></Badge>"

def shop (badge : String) : Result Compilation :=
  ((shopFiles badge).mapM (SourceFile.contribution .iOS)).map
    (·.foldl take (start .iOS {} "App.xml"))

theorem shopPaths (badge : String) : ((shopFiles badge).map (·.path)).Nodup :=
  show ["Main.styles.xml", "Badge.ui.xml", "Card.ui.xml"].Nodup by decide

def shopUnit (badge : String) : Result (Compilation × SourceBundle × SourceUnit) := do
  let c ← shop badge
  let b ← ((c.generate { platform := .iOS }).outcome {}).1
  match b.units.lookup shopCard.path with
  | some u => return (c, b, u)
  | none => .error (.unknownComponent shopCard.path)

theorem shopTaken {badge : String} {c : Compilation} (made : shop badge = .ok c) :
    ∃ sheet own card, shopSheet.contribution .iOS = .ok sheet ∧
      shopCard.contribution .iOS = .ok (.definition card) ∧
      c = ((((start .iOS {} "App.xml").take sheet).take (.definition own)).take
        (.definition card)) := by
  obtain ⟨xs, read, rfl⟩ := Result.mapOk.mp made
  obtain _ | ⟨first, _ | ⟨second, _ | ⟨third, _ | _⟩⟩⟩ := Result.mapMOk read
  obtain ⟨own, _, rfl⟩ := Result.mapOk.mp second
  obtain ⟨card, parsed, rfl⟩ := Result.mapOk.mp third
  exact ⟨_, own, card, first, third, rfl⟩

theorem shopMade {badge : String} {c : Compilation} {b : SourceBundle} {u : SourceUnit}
    (made : shopUnit badge = .ok (c, b, u)) : shop badge = .ok c ∧
      (start .iOS {} "App.xml").Registers (shopFiles badge) {} c ∧
      c.Generates { platform := .iOS } b ∧ b.units.lookup shopCard.path = some u := by
  unfold shopUnit at made
  obtain ⟨c, read, made⟩ := Result.bindOk.mp made
  obtain ⟨b, generated, made⟩ := Result.bindOk.mp made
  split at made
  · rename_i u unit
    cases made
    refine ⟨read, ?_, generated, unit⟩
    rw [Registers, registerAll]
    exact read
  · cases made

def offeredAlike (r r' : Registry) (d : ComponentDefinition) : Bool :=
  d.elements.all fun e => e.kind.reference?.isNone || match r.behind? e, r'.behind? e with
    | some inner, some inner' =>
      match ((r.resolve inner).outcome {}).1, ((r'.resolve inner').outcome {}).1 with
      | .ok a, .ok b => decide (e.Offered a b)
      | _, _ => false
    | _, _ => false

theorem shopAlike {r r' : Registry} (filled : r.Filled) (filled' : r'.Filled)
    {d : ComponentDefinition} (member : d ∈ r.allDefinitions) (member' : d ∈ r'.allDefinitions)
    (groups : r.styleGroups = r'.styleGroups)
    (plain : ∀ group name, .qualified group name ∈ d.styleNames →
      ∃ n, (r.scopeOf d).lookup (.qualified group name) none = .ok n ∧ n.2.extend = [])
    (offered : offeredAlike r r' d = true) : r.AlikeFor r' d where
  styles group name named := by
    obtain ⟨n, found, none⟩ := plain group name named
    have same : r'.scopeOf d = r.scopeOf d := by rw [Registry.scopeOf, Registry.scopeOf, groups]
    rw [same]
    exact .mk found found rfl (by simp [none])
  components e element needs _ inner inner' a b behind behind' left right := by
    have checked := List.all_eq_true.mp offered e element
    obtain ⟨reference, kind, _⟩ := needs
    simp only [kind, ElementKind.reference?, behind, behind', Option.isNone_some,
      Bool.false_or] at checked
    split at checked
    · rename_i x y one two
      have inside := Registry.behindIncluded member element behind
      have inside' := Registry.behindIncluded member' element behind'
      cases Registry.derivationUnique left
        (Registry.resolveSound filled inside (Registry.soundFresh _) one)
      cases Registry.derivationUnique right
        (Registry.resolveSound filled' inside' (Registry.soundFresh _) two)
      exact of_decide_eq_true checked
    · cases checked

def shelf (text : String) : Workspace :=
  { files := {
      nodes := [(["Card.ui.xml"], .file ⟨"".toUTF8, 1⟩), (["out"], .directory),
        (["out", "Card.swift"], .file ⟨text.toUTF8, 2⟩)]
      clock := 3 } }

theorem shelfReads (text : String) : Output.Reads "out/Card.swift" text (shelf text) := by
  have path : Path.ofText "out/Card.swift" = ⟨.relative, ["out", "Card.swift"]⟩ := by
    decide +kernel
  have aimed : FileSystem.aim "out/Card.swift" = ["out", "Card.swift"] := by
    simp [FileSystem.aim, path, FileSystem.start, FileSystem.aimFrom, Path.isVoid]
  refine FileSystem.readTextIff.mpr ⟨⟨text.toUTF8, 2⟩, ?_, ?_, FileSystem.encoded text⟩
  · rw [aimed]
    simp [FileSystem.locate, path, FileSystem.start, FileSystem.follow, Path.isVoid, shelf,
      FileSystem.requireDirectory, FileSystem.node?, Location.isTop]
    rfl
  · rw [aimed]
    simp [FileSystem.node?, Location.isTop, shelf]
    rfl

/- All that has to be computed, at once: both projects are generated, the card names one style,
which extends nothing, and has no components inside, and the badges offer it the same. -/
def shopChecks (c c' : Compilation) (b' : SourceBundle) : Bool :=
  decide (b'.units.map Prod.fst = ["Main.styles.xml", "Badge.ui.xml", "Card.ui.xml"]) &&
    match shopCard.contribution .iOS with
    | .ok (.definition d) => d.inlineDefinitions.isEmpty && offeredAlike c.registry c'.registry d &&
      d.styleNames.all fun name => match (c.registry.scopeOf d).lookup name none with
        | .ok n => n.2.extend.isEmpty
        | .error _ => false
    | _ => false

theorem shopComputed : ((shopUnit numberBadge).toOption.any fun x =>
    (shopUnit labelledBadge).toOption.any fun y => shopChecks x.1 y.1 y.2.1) = true := by
  have sheet : shopSheet.contribution .iOS = _ := SourceFile.sheetLetters rfl _
  have number : (SourceFile.component "Badge.ui.xml" numberBadge).contribution .iOS = _ :=
    SourceFile.componentLetters (Text.lettersAppend rfl rfl) _
  have labelled : (SourceFile.component "Badge.ui.xml" labelledBadge).contribution .iOS = _ :=
    SourceFile.componentLetters (Text.lettersAppend rfl rfl) _
  have card : shopCard.contribution .iOS = _ := SourceFile.componentLetters rfl _
  simp only [shopUnit, shop, shopFiles, shopChecks, List.mapM_cons, List.mapM_nil, sheet, number,
    labelled, card]
  decide +kernel

theorem shopApart : ((shopUnit numberBadge).toOption.any fun x =>
    (shopUnit textBadge).toOption.any fun y =>
      decide (x.2.1.renderUnit x.2.2 ≠ y.2.1.renderUnit y.2.2)) = true := by
  have sheet : shopSheet.contribution .iOS = _ := SourceFile.sheetLetters rfl _
  have number : (SourceFile.component "Badge.ui.xml" numberBadge).contribution .iOS = _ :=
    SourceFile.componentLetters (Text.lettersAppend rfl rfl) _
  have other : (SourceFile.component "Badge.ui.xml" textBadge).contribution .iOS = _ :=
    SourceFile.componentLetters (Text.lettersAppend rfl rfl) _
  have card : shopCard.contribution .iOS = _ := SourceFile.componentLetters rfl _
  simp only [shopUnit, shop, shopFiles, List.mapM_cons, List.mapM_nil, sheet, number, other, card]
  decide +kernel

theorem shopCardAlike {c c' : Compilation} {b' : SourceBundle} (read : shop numberBadge = .ok c)
    (read' : shop labelledBadge = .ok c') (filled : c.registry.Filled)
    (filled' : c'.registry.Filled) (checks : shopChecks c c' b' = true) (x : Contribution)
    (own : shopCard.contribution .iOS = .ok x) : x.AlikeIn c.registry c'.registry := by
  obtain ⟨sheet, _, card, first, third, taken⟩ := shopTaken read
  obtain ⟨sheet', _, card', first', third', taken'⟩ := shopTaken read'
  cases Except.ok.inj (first.symm.trans first')
  cases Except.ok.inj (third.symm.trans third')
  cases Except.ok.inj (third.symm.trans own)
  have groups : c.registry.styleGroups = c'.registry.styleGroups := by
    rw [taken, taken']
    rfl
  have member : card ∈ c.registry.definitions := taken ▸ Registry.addedRegistered _ _
  have member' : card ∈ c'.registry.definitions := taken' ▸ Registry.addedRegistered _ _
  simp only [shopChecks, third, Bool.and_eq_true, List.isEmpty_iff] at checks
  obtain ⟨_, ⟨single, offered⟩, plain⟩ := checks
  intro inner within
  rcases ComponentDefinition.memNested.mp within with rfl | ⟨e, element, inline, here, _⟩
  · refine shopAlike filled filled' (Registry.definitionIncluded member)
      (Registry.definitionIncluded member') groups (fun group name named => ?_) offered
    have checked := List.all_eq_true.mp plain _ named
    split at checked
    · rename_i n found
      exact ⟨n, found, List.isEmpty_iff.mp checked⟩
    · cases checked
  · have listed : inline ∈ card.inlineDefinitions := List.mem_filterMap.mpr ⟨e, element, here⟩
    rw [single] at listed
    cases listed

theorem shopCurrent : ∃ c c' b b' u u',
    (start .iOS {} "App.xml").Registers (shopFiles numberBadge) {} c ∧
    (start .iOS {} "App.xml").Registers (shopFiles labelledBadge) {} c' ∧
    c.Generates { platform := .iOS } b ∧ c'.Generates { platform := .iOS } b' ∧
    b.units.lookup "Card.ui.xml" = some u ∧ b'.units.lookup "Card.ui.xml" = some u' ∧
    b.renderUnit u = b'.renderUnit u' ∧ ∀ skip,
      Output.Reads "out/Card.swift" (b'.renderUnit u')
        ((Output.writeDirectory b' "out" none skip).outcome (shelf (b.renderUnit u))).2 := by
  obtain ⟨⟨c, b, u⟩, made, computed⟩ := Result.anyOk shopComputed
  obtain ⟨⟨c', b', u'⟩, made', checks⟩ := Result.anyOk computed
  obtain ⟨read, registers, generates, unit⟩ := shopMade made
  obtain ⟨read', registers', generates', unit'⟩ := shopMade made'
  obtain ⟨_, _, gathered, _⟩ := registersGathered (shopPaths _) registers
  obtain ⟨_, _, gathered', _⟩ := registersGathered (shopPaths _) registers'
  obtain ⟨text, holds⟩ := skippingSound (shopPaths _) (shopPaths _) registers registers' generates
    generates' (f := shopCard) (by simp [shopFiles]) (by simp [shopFiles])
    (shopCardAlike read read' gathered.filled gathered'.filled checks) unit unit'
  refine ⟨c, c', b, b', u, u', registers, registers', generates, generates', unit, unit', text,
    fun skip => ?_⟩
  have place : Output.pathFor "out" none shopCard.path = "out/Card.swift" := by decide +kernel
  have alone : Output.Alone b' "out" none shopCard.path := by
    have units := (Bool.and_eq_true_iff.mp checks).1
    refine ⟨by decide +kernel, fun other listed => ?_⟩
    rw [of_decide_eq_true units] at listed
    revert other
    decide +kernel
  have after := holds "out" none alone skip (shelf (b.renderUnit u))
  rw [place] at after
  exact after (shelfReads _)

/- Nothing has been done to the card, and yet it is generated differently. -/
theorem cardStale : ∃ files files' : List SourceFile, ∃ f ∈ files, ∃ c c' b b' u u',
    f ∈ files' ∧ (files.map (·.path)).Nodup ∧ (files'.map (·.path)).Nodup ∧
    (start .iOS {} "App.xml").Registers files {} c ∧
    (start .iOS {} "App.xml").Registers files' {} c' ∧
    c.Generates { platform := .iOS } b ∧ c'.Generates { platform := .iOS } b' ∧
    b.units.lookup f.path = some u ∧ b'.units.lookup f.path = some u' ∧
    b.renderUnit u ≠ b'.renderUnit u' := by
  obtain ⟨⟨c, b, u⟩, made, computed⟩ := Result.anyOk shopApart
  obtain ⟨⟨c', b', u'⟩, made', apart⟩ := Result.anyOk computed
  obtain ⟨_, registers, generates, unit⟩ := shopMade made
  obtain ⟨_, registers', generates', unit'⟩ := shopMade made'
  exact ⟨shopFiles numberBadge, shopFiles textBadge, shopCard, by simp [shopFiles], c, c', b, b', u,
    u', by simp [shopFiles], shopPaths _, shopPaths _, registers, registers', generates, generates',
    unit, unit', of_decide_eq_true apart⟩

end Compilation
end ViewForge
