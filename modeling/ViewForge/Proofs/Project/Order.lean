import ViewForge.Proofs.Project.Alike
import ViewForge.Proofs.Project.Emission

/-! The files of a project in any order. A file contributes a group or a definition, whatever has
been registered before it; two orders give registries that are alike, and the same emissions. -/
namespace ViewForge

inductive SourceFile where
  | sheet (path text : String)
  | component (path text : String)

inductive Contribution where
  | group (path : String) (group : StyleGroup)
  | definition (definition : ComponentDefinition)

namespace Contribution

def path : Contribution → String
  | group path _ => path
  | definition d => d.sourcePath

def group? : Contribution → Option (String × StyleGroup)
  | group _ g => some (g.name, g)
  | definition _ => none

def groupFile? : Contribution → Option (String × String)
  | group path g => some (g.name, path)
  | definition _ => none

def definition? : Contribution → Option ComponentDefinition
  | group .. => none
  | definition d => some d

end Contribution

namespace SourceFile

def path : SourceFile → String
  | sheet path _ => path
  | component path _ => path

def contribution (platform : Platform) : SourceFile → Result Contribution
  | sheet path text => (StyleGroup.parseSheet text).map (.group path)
  | component path text => (Compilation.readComponent platform path text).1.map .definition

theorem componentLetters {text : String} {cs : List Char} (letters : text = String.ofList cs)
    (path : String) : (component path text).contribution .iOS =
      (Registry.readLetters path cs).map .definition := by
  rw [contribution, Registry.readComponentLetters letters]

theorem sheetLetters {text : String} {cs : List Char} (letters : text = String.ofList cs)
    (path : String) : (sheet path text).contribution .iOS =
      (StyleGroup.readLetters cs).map (.group path) := by
  rw [contribution, StyleGroup.parseSheetLetters letters]

def groupName? (platform : Platform) (f : SourceFile) : Option String :=
  (f.contribution platform).toOption.bind fun x => x.group?.map Prod.fst

def typeName? (platform : Platform) (f : SourceFile) : Option String :=
  (f.contribution platform).toOption.bind fun x => x.definition?.map (·.typeName)

theorem groupNames (platform : Platform) (files : List SourceFile) :
    files.filterMap (·.groupName? platform) = (files.map (contribution platform)).filterMap
      fun x => x.toOption.bind fun x => x.group?.map Prod.fst := by
  rw [List.filterMap_map]
  rfl

theorem typeNames (platform : Platform) (files : List SourceFile) :
    files.filterMap (·.typeName? platform) = (files.map (contribution platform)).filterMap
      fun x => x.toOption.bind fun x => x.definition?.map (·.typeName) := by
  rw [List.filterMap_map]
  rfl

end SourceFile

namespace Compilation

def register (c : Compilation) : SourceFile → Work Compilation
  | .sheet path text => c.addSheet path text
  | .component path text => c.addComponent path text

def take (c : Compilation) : Contribution → Compilation
  | .group path group =>
    { c with
      registry := (c.registry.addGroup group).1
      styleSources := Ordered.put group.name path c.styleSources }
  | .definition d => { c with registry := c.registry.addComponent d }

def start (platform : Platform) (application : Application) (path : String) : Compilation :=
  { registry := { platform, application }, applicationPath := path }

def Registers (c : Compilation) (files : List SourceFile) (w : Workspace) (next : Compilation) :
    Prop :=
  ((files.foldlM register c).outcome w).1 = .ok next

def Generates (c : Compilation) (configuration : Configuration) (b : SourceBundle) : Prop :=
  ((c.generate configuration).outcome {}).1 = .ok b

theorem registerTakes (c : Compilation) (f : SourceFile) (w : Workspace) :
    ((c.register f).outcome w).1 = (f.contribution c.registry.platform).map c.take := by
  cases f with
  | sheet path text =>
    simp only [register, addSheet, SourceFile.contribution, Task.outcomeBind, Task.outcomeLift]
    cases StyleGroup.parseSheet text <;> rfl
  | component path text =>
    simp only [register, addComponent, SourceFile.contribution]
    cases readComponent c.registry.platform path text with
    | mk result warnings => cases result <;> rfl

@[simp] theorem takePlatform (c : Compilation) (x : Contribution) :
    (c.take x).registry.platform = c.registry.platform := by
  cases x <;> rfl

@[simp] theorem takeApplication (c : Compilation) (x : Contribution) :
    (c.take x).registry.application = c.registry.application := by
  cases x <;> rfl

@[simp] theorem takeApplicationPath (c : Compilation) (x : Contribution) :
    (c.take x).applicationPath = c.applicationPath := by
  cases x <;> rfl

theorem registerAll (c : Compilation) (files : List SourceFile) (w : Workspace) :
    ((files.foldlM register c).outcome w).1 =
      (files.mapM (SourceFile.contribution c.registry.platform)).map (·.foldl take c) := by
  induction files generalizing c w with
  | nil => rfl
  | cons f rest ih =>
    have first := registerTakes c f w
    rw [List.foldlM_cons, List.mapM_cons, Task.outcomeBind]
    cases run : (c.register f).outcome w with
    | mk result u =>
      rw [run] at first
      cases found : f.contribution c.registry.platform with
      | error e =>
        rw [found] at first
        cases first
        rfl
      | ok x =>
        rw [found] at first
        cases first
        simp only [ih, takePlatform]
        cases rest.mapM (SourceFile.contribution c.registry.platform) <;> rfl

end Compilation

structure Contribution.Distinct (xs : List Contribution) : Prop where
  paths : (xs.map path).Nodup
  groups : ((xs.filterMap group?).map Prod.fst).Nodup
  types : ((xs.filterMap definition?).map (·.typeName)).Nodup

namespace Contribution

theorem distinctPerm {xs ys : List Contribution} (distinct : Distinct xs) (order : xs.Perm ys) :
    Distinct ys where
  paths := (order.map _).nodup_iff.mp distinct.paths
  groups := ((order.filterMap _).map _).nodup_iff.mp distinct.groups
  types := ((order.filterMap _).map _).nodup_iff.mp distinct.types

theorem distinctInit {xs ys : List Contribution} (distinct : Distinct (xs ++ ys)) :
    Distinct xs where
  paths := distinct.paths.sublist ((List.sublist_append_left xs ys).map _)
  groups := distinct.groups.sublist (((List.sublist_append_left xs ys).filterMap _).map _)
  types := distinct.types.sublist (((List.sublist_append_left xs ys).filterMap _).map _)

theorem groupFileKeys (xs : List Contribution) :
    (xs.filterMap groupFile?).map Prod.fst = (xs.filterMap group?).map Prod.fst := by
  induction xs with
  | nil => rfl
  | cons x rest ih => cases x <;> simp [groupFile?, group?, List.filterMap_cons, ih]

end Contribution

namespace Compilation
open Contribution

structure Holds (c : Compilation) (xs : List Contribution) : Prop where
  groups : c.registry.styleGroups = xs.filterMap group?
  files : c.styleSources = xs.filterMap groupFile?
  components : c.registry.components =
    (xs.filterMap Contribution.definition?).map fun d => (d.typeName, [d])

theorem takeHolds {c : Compilation} {xs : List Contribution} {x : Contribution}
    (holds : c.Holds xs) (distinct : Distinct (xs ++ [x])) : (c.take x).Holds (xs ++ [x]) := by
  cases x with
  | group path g =>
    have fresh : g.name ∉ (xs.filterMap group?).map Prod.fst := by
      have names := distinct.groups
      rw [List.filterMap_append, List.map_append] at names
      intro known
      exact (List.nodup_append.mp names).2.2 _ known _ List.mem_cons_self rfl
    refine ⟨?_, ?_, ?_⟩
    · rw [List.filterMap_append, ← holds.groups]
      exact Ordered.putNew (by rw [holds.groups]; exact fresh)
    · rw [List.filterMap_append, ← holds.files]
      exact Ordered.putNew (by rw [holds.files, groupFileKeys]; exact fresh)
    · rw [List.filterMap_append, List.map_append, ← holds.components]
      exact (List.append_nil _).symm
  | definition d =>
    have fresh : d.typeName ∉ c.registry.components.map Prod.fst := by
      have names := distinct.types
      rw [List.filterMap_append, List.map_append] at names
      intro known
      rw [holds.components, List.map_map] at known
      exact (List.nodup_append.mp names).2.2 _ known _ List.mem_cons_self rfl
    have unknown : c.registry.components.lookup d.typeName = none := by
      cases found : c.registry.components.lookup d.typeName with
      | none => rfl
      | some ds => exact absurd (List.mem_map_of_mem (Ordered.memOfLookup found)) fresh
    refine ⟨?_, ?_, ?_⟩
    · rw [List.filterMap_append, ← holds.groups]
      exact (List.append_nil _).symm
    · rw [List.filterMap_append, ← holds.files]
      exact (List.append_nil _).symm
    · rw [List.filterMap_append, List.map_append, ← holds.components]
      simp only [take, Registry.addComponent, unknown, Option.getD_none, Registry.replaceOrAdd]
      exact Ordered.putNew fresh

theorem takeAllHolds {c : Compilation} {before xs : List Contribution} (holds : c.Holds before)
    (distinct : Distinct (before ++ xs)) : (xs.foldl take c).Holds (before ++ xs) := by
  induction xs generalizing c before with
  | nil => simpa using holds
  | cons x rest ih =>
    have split : before ++ x :: rest = (before ++ [x]) ++ rest := by simp
    rw [split] at distinct ⊢
    exact ih (takeHolds holds (distinctInit distinct)) distinct

theorem takeFilled {c : Compilation} {f : SourceFile} {x : Contribution}
    (filled : c.registry.Filled) (read : f.contribution c.registry.platform = .ok x) :
    (c.take x).registry.Filled := by
  cases f with
  | sheet path text =>
    obtain ⟨g, parsed, rfl⟩ := Result.mapOk.mp read
    unfold StyleGroup.parseSheet at parsed
    obtain ⟨root, _, parsed⟩ := Result.bindOk.mp parsed
    simp only at parsed
    split at parsed
    · cases parsed
    · exact .group filled parsed
  | component path text =>
    obtain ⟨d, found, rfl⟩ := Result.mapOk.mp read
    exact .component filled (Prod.ext found rfl)

theorem takeAllFilled {c : Compilation} {files : List SourceFile} {xs : List Contribution}
    (filled : c.registry.Filled)
    (read : files.mapM (SourceFile.contribution c.registry.platform) = .ok xs) :
    (xs.foldl take c).registry.Filled := by
  induction files generalizing c xs with
  | nil =>
    cases read
    exact filled
  | cons f rest ih =>
    rw [List.mapM_cons] at read
    obtain ⟨x, first, read⟩ := Result.bindOk.mp read
    obtain ⟨others, later, last⟩ := Result.bindOk.mp read
    cases last
    rw [List.foldl_cons]
    exact ih (takeFilled filled first) (by rw [takePlatform]; exact later)

theorem takeAllKeeps (c : Compilation) (xs : List Contribution) :
    (xs.foldl take c).registry.platform = c.registry.platform ∧
      (xs.foldl take c).registry.application = c.registry.application ∧
      (xs.foldl take c).applicationPath = c.applicationPath := by
  induction xs generalizing c with
  | nil => exact ⟨rfl, rfl, rfl⟩
  | cons x rest ih => simpa using ih (c.take x)

theorem holdsDefinitions {c : Compilation} {xs : List Contribution} (holds : c.Holds xs) :
    c.registry.definitions = xs.filterMap Contribution.definition? := by
  rw [Registry.definitions, holds.components]
  simp [List.flatMap_map]

theorem definitionPaths (xs : List Contribution) :
    ((xs.filterMap Contribution.definition?).map (·.sourcePath)).Sublist (xs.map path) := by
  induction xs with
  | nil => exact .slnil
  | cons x rest ih =>
    cases x with
    | group => exact ih.cons _
    | definition => exact ih.cons_cons _

theorem holdsApart {c : Compilation} {xs : List Contribution} (holds : c.Holds xs)
    (distinct : Distinct xs) : c.registry.FilesApart := by
  rw [Registry.FilesApart, holdsDefinitions holds]
  exact distinct.paths.sublist (definitionPaths xs)

/- What is known of the files is known of what they contribute. -/
theorem contributionsNamed {platform : Platform} {files : List SourceFile}
    {xs : List Contribution} (read : files.mapM (SourceFile.contribution platform) = .ok xs) :
    xs.map path = files.map SourceFile.path ∧
      (xs.filterMap group?).map Prod.fst = files.filterMap (SourceFile.groupName? platform) ∧
      (xs.filterMap Contribution.definition?).map (·.typeName) =
        files.filterMap (SourceFile.typeName? platform) := by
  induction files generalizing xs with
  | nil =>
    cases read
    exact ⟨rfl, rfl, rfl⟩
  | cons f rest ih =>
    rw [List.mapM_cons] at read
    obtain ⟨x, first, read⟩ := Result.bindOk.mp read
    obtain ⟨others, later, last⟩ := Result.bindOk.mp read
    cases last
    obtain ⟨paths, groups, types⟩ := ih later
    have own : x.path = f.path := by
      cases f with
      | sheet =>
        obtain ⟨g, _, rfl⟩ := Result.mapOk.mp first
        rfl
      | component =>
        obtain ⟨d, found, rfl⟩ := Result.mapOk.mp first
        exact (readComponentFrom (Prod.ext found rfl) d d.nestedSelf).path
    refine ⟨by rw [List.map_cons, List.map_cons, own, paths], ?_, ?_⟩
    · have here : f.groupName? platform = x.group?.map Prod.fst := by
        simp [SourceFile.groupName?, first, Except.toOption]
      cases x <;> simp_all [List.filterMap_cons, group?]
    · have here : f.typeName? platform = x.definition?.map (·.typeName) := by
        simp [SourceFile.typeName?, first, Except.toOption]
      cases x <;> simp_all [List.filterMap_cons, Contribution.definition?]

section Reordered

variable {c c' : Compilation} {xs ys : List Contribution} {configuration : Configuration}

structure Reordered (c c' : Compilation) (xs ys : List Contribution) : Prop where
  platform : c.registry.platform = c'.registry.platform
  application : c.registry.application = c'.registry.application
  applicationPath : c.applicationPath = c'.applicationPath
  filled : c.registry.Filled
  filled' : c'.registry.Filled
  holds : c.Holds xs
  holds' : c'.Holds ys
  distinct : Distinct xs
  order : xs.Perm ys

theorem reorderedSymm (both : Reordered c c' xs ys) : Reordered c' c ys xs :=
  ⟨both.platform.symm, both.application.symm, both.applicationPath.symm, both.filled', both.filled,
    both.holds', both.holds, distinctPerm both.distinct both.order, both.order.symm⟩

theorem reorderedGroups (both : Reordered c c' xs ys) :
    c.registry.styleGroups.Perm c'.registry.styleGroups := by
  rw [both.holds.groups, both.holds'.groups]
  exact both.order.filterMap _

theorem reorderedDefinitions (both : Reordered c c' xs ys) :
    c.registry.definitions.Perm c'.registry.definitions := by
  rw [holdsDefinitions both.holds, holdsDefinitions both.holds']
  exact both.order.filterMap _

theorem reorderedAlike (both : Reordered c c' xs ys) : c.registry.Alike c'.registry where
  platform := both.platform
  application := both.application
  groups := Ordered.lookupPerm (Registry.groupNamesDistinct both.filled) (reorderedGroups both)
  sizes := ((reorderedGroups both).map _).foldl_op_eq
  components := by
    refine Ordered.lookupPerm (Registry.componentNamesDistinct both.filled) ?_
    rw [both.holds.components, both.holds'.components]
    exact (both.order.filterMap _).map _
  definitions := ((reorderedDefinitions both).flatMap_right _).length_eq

theorem reorderedStatistics (both : Reordered c c' xs ys) : c.statistics = c'.statistics := by
  have groups := reorderedGroups both
  have definitions := reorderedDefinitions both
  have all : c.registry.allDefinitions.Perm c'.registry.allDefinitions :=
    definitions.flatMap_right _
  simp only [statistics, definitions.length_eq, all.length_eq, groups.length_eq,
    both.application, (groups.map _).foldl_op_eq, (all.map _).foldl_op_eq]

theorem styleEmissionSame (both : Reordered c c' xs ys) :
    c.styleEmission configuration = c'.styleEmission configuration := by
  have sources : ∀ name, c.styleSources.lookup name = c'.styleSources.lookup name := by
    refine Ordered.lookupPerm ?_ ?_
    · rw [both.holds.files, groupFileKeys]
      exact both.distinct.groups
    · rw [both.holds.files, both.holds'.files]
      exact both.order.filterMap _
  funext group
  simp only [styleEmission, sources,
    StyleSource.declAlike (Registry.ofGlobalAlike (reorderedAlike both) configuration group)]

theorem componentEmissionSame (both : Reordered c c' xs ys) :
    c.componentEmission configuration = c'.componentEmission configuration := by
  funext d
  simp only [componentEmission, Registry.componentSourceAlike (reorderedAlike both)]

/- Every declaration goes to the file that has contributed what it comes from. -/
theorem styleFiles (holds : c.Holds xs) (distinct : Distinct xs) :
    (c.registry.styleGroups.map (·.2)).map (fun g => (c.styleSources.lookup g.name).getD g.name) =
      (xs.filterMap groupFile?).map Prod.snd := by
  have named : ∀ path g, .group path g ∈ xs → (c.styleSources.lookup g.name).getD g.name = path := by
    intro path g member
    have entry : (g.name, path) ∈ c.styleSources := by
      rw [holds.files]
      exact List.mem_filterMap.mpr ⟨_, member, rfl⟩
    have keys : (c.styleSources.map Prod.fst).Nodup := by
      rw [holds.files, groupFileKeys]
      exact distinct.groups
    rw [Ordered.lookupOfMem keys entry, Option.getD_some]
  rw [holds.groups]
  clear holds distinct
  induction xs with
  | nil => rfl
  | cons x rest ih =>
    have later := ih fun path g member => named path g (List.mem_cons_of_mem _ member)
    cases x with
    | definition d => exact later
    | group path g => exact congrArg₂ List.cons (named path g List.mem_cons_self) later

theorem pathsSplit (xs : List Contribution) :
    ((xs.filterMap groupFile?).map Prod.snd ++
      (xs.filterMap Contribution.definition?).map (·.sourcePath)).Perm (xs.map path) := by
  induction xs with
  | nil => exact .refl _
  | cons x rest ih =>
    cases x with
    | group path g => exact ih.cons path
    | definition d => exact List.perm_middle.trans (ih.cons _)

theorem emissionsApart (both : Reordered c c' xs ys) {styles components : List Emission}
    (styled : (c.registry.styleGroups.map (·.2)).mapM (c.styleEmission configuration) = .ok styles)
    (classed : c.registry.definitions.mapM (c.componentEmission configuration) = .ok components) :
    ((styles ++ components).map (·.source)).Nodup := by
  have left : styles.map (·.source) = (xs.filterMap groupFile?).map Prod.snd := by
    rw [← styleFiles both.holds both.distinct]
    refine Emission.sources (fun g e ok => ?_) styled
    obtain ⟨_, _, rfl⟩ := Result.mapOk.mp ok
    rfl
  have right : components.map (·.source) =
      (xs.filterMap Contribution.definition?).map (·.sourcePath) := by
    rw [← holdsDefinitions both.holds]
    refine Emission.sources (fun d e ok => ?_) classed
    obtain ⟨_, _, rfl⟩ := Result.mapOk.mp ok
    rfl
  rw [List.map_append, left, right]
  exact (pathsSplit xs).nodup_iff.mpr both.distinct.paths

theorem generateReordered (both : Reordered c c' xs ys) {b : SourceBundle}
    (ok : c.Generates configuration b) :
    ∃ b', c'.Generates configuration b' ∧ b.common = b'.common ∧
      ∀ path, b.units.lookup path = b'.units.lookup path := by
  have apart := holdsApart both.holds both.distinct
  have apart' := holdsApart both.holds' (distinctPerm both.distinct both.order)
  obtain ⟨theme, styles, components, themed, styled, classed, rfl⟩ :=
    (generateEmits both.filled apart).mp ok
  have distinct := emissionsApart both styled classed
  rw [styleEmissionSame both] at styled
  rw [componentEmissionSame both] at classed
  obtain ⟨styles', styled', one⟩ := Result.mapMPerm ((reorderedGroups both).map _) styled
  obtain ⟨components', classed', two⟩ := Result.mapMPerm (reorderedDefinitions both) classed
  have common : c.commonUnit theme = c'.commonUnit theme := by
    rw [commonUnit, commonUnit, both.applicationPath]
  rw [both.application, both.applicationPath] at themed
  refine ⟨_, (generateEmits both.filled' apart').mpr
    ⟨theme, styles', components', themed, styled', classed', rfl⟩, ?_, fun path => ?_⟩
  · rw [SourceBundle.emitAllCommon, SourceBundle.emitAllCommon, common]
  · rw [← common]
    exact SourceBundle.emitAllPerm _ distinct (one.append two) path

end Reordered

section Files

variable {platform : Platform} {application : Application} {applicationPath : String}
  {files other : List SourceFile}

theorem registersTakes {c next : Compilation} {w : Workspace} (registers : c.Registers files w next) :
    ∃ xs, files.mapM (SourceFile.contribution c.registry.platform) = .ok xs ∧
      xs.foldl take c = next := by
  rw [Registers, registerAll] at registers
  exact Result.mapOk.mp registers

theorem registersAnywhere {c next : Compilation} {w : Workspace}
    (registers : c.Registers files w next) (order : files.Perm other) (w' : Workspace) :
    ∃ c', c.Registers other w' c' := by
  obtain ⟨xs, read, _⟩ := registersTakes registers
  obtain ⟨ys, again, _⟩ := Result.mapMPerm order read
  exact ⟨ys.foldl take c, by rw [Registers, registerAll, again]; rfl⟩

theorem registeredReordered (order : files.Perm other) (paths : (files.map (·.path)).Nodup)
    (groups : (files.filterMap (·.groupName? platform)).Nodup)
    (types : (files.filterMap (·.typeName? platform)).Nodup) {w w' : Workspace}
    {c c' : Compilation}
    (registered : (start platform application applicationPath).Registers files w c)
    (registered' : (start platform application applicationPath).Registers other w' c') :
    ∃ xs ys, Reordered c c' xs ys := by
  obtain ⟨xs, read, rfl⟩ := registersTakes registered
  obtain ⟨ys, read', rfl⟩ := registersTakes registered'
  obtain ⟨zs, again, perm⟩ := Result.mapMPerm order read
  cases Except.ok.inj (read'.symm.trans again)
  obtain ⟨files, named, typed⟩ := contributionsNamed read
  have distinct : Distinct xs := ⟨by rw [files]; exact paths, by rw [named]; exact groups,
    by rw [typed]; exact types⟩
  have empty : (start platform application applicationPath).Holds [] := ⟨rfl, rfl, rfl⟩
  have filled : (start platform application applicationPath).registry.Filled := .empty _ _
  obtain ⟨one, two, three⟩ := takeAllKeeps (start platform application applicationPath) xs
  obtain ⟨one', two', three'⟩ := takeAllKeeps (start platform application applicationPath) ys
  exact ⟨xs, ys, one.trans one'.symm, two.trans two'.symm, three.trans three'.symm,
    takeAllFilled filled read, takeAllFilled filled read', takeAllHolds empty distinct,
    takeAllHolds empty (distinctPerm distinct perm), distinct, perm⟩

theorem fileOrderInvisible (configuration : Configuration) (order : files.Perm other)
    (paths : (files.map (·.path)).Nodup)
    (groups : (files.filterMap (·.groupName? platform)).Nodup)
    (types : (files.filterMap (·.typeName? platform)).Nodup) (w w' : Workspace) :
    ((∃ c, (start platform application applicationPath).Registers files w c) ↔
      ∃ c, (start platform application applicationPath).Registers other w' c) ∧
    ∀ c c', (start platform application applicationPath).Registers files w c →
      (start platform application applicationPath).Registers other w' c' →
      ((∃ b, c.Generates configuration b) ↔ ∃ b, c'.Generates configuration b) ∧
      (∀ b b', c.Generates configuration b → c'.Generates configuration b' →
        b.common = b'.common ∧ ∀ path, b.units.lookup path = b'.units.lookup path) ∧
      c.statistics = c'.statistics := by
  refine ⟨⟨fun ⟨_, ok⟩ => registersAnywhere ok order w',
    fun ⟨_, ok⟩ => registersAnywhere ok order.symm w⟩, fun c c' left right => ?_⟩
  obtain ⟨xs, ys, both⟩ := registeredReordered order paths groups types left right
  refine ⟨⟨fun ⟨b, ok⟩ => ?_, fun ⟨b, ok⟩ => ?_⟩, fun b b' ok ok' => ?_, reorderedStatistics both⟩
  · obtain ⟨b', ok', _⟩ := generateReordered both ok
    exact ⟨b', ok'⟩
  · obtain ⟨b', ok', _⟩ := generateReordered (reorderedSymm both) ok
    exact ⟨b', ok'⟩
  · obtain ⟨b'', again, same⟩ := generateReordered both ok
    cases Except.ok.inj (ok'.symm.trans again)
    exact same

end Files

theorem registersAppend {c d e : Compilation} {xs ys : List SourceFile} {w : Workspace}
    (first : c.Registers xs w d) (rest : ∀ w, d.Registers ys w e) : c.Registers (xs ++ ys) w e := by
  unfold Registers at first
  cases run : (xs.foldlM register c).outcome w with
  | mk result t =>
    rw [run] at first
    cases first
    rw [Registers, List.foldlM_append, Task.bindOk run]
    exact rest t

/- Taking in the files that have been found registers them, as they are and in that order. -/
theorem addFilesRegisters (kind : String → String → SourceFile)
    {add : Compilation → String → String → Work Compilation}
    (same : ∀ c path text, add c path text = c.register (kind path text))
    (named : ∀ path text, (kind path text).path = path) {paths : List String}
    {c next : Compilation} {w u : Workspace}
    (ok : (addFiles add c paths).outcome w = (.ok next, u)) :
    ∃ files, files.map (·.path) = paths ∧ ∀ w, c.Registers files w next := by
  induction paths generalizing c w with
  | nil =>
    cases ok
    exact ⟨[], rfl, fun _ => rfl⟩
  | cons path rest ih =>
    rw [addFiles] at ok
    obtain ⟨between, v, first, ok⟩ := Task.bindGives.mp ok
    obtain ⟨files, found, later⟩ := ih ok
    rw [Task.inFileOutcome] at first
    cases run : (do add c path (← readSource path) : Work Compilation).outcome w with
    | mk result t =>
      rw [run] at first
      cases result with
      | error e => cases first
      | ok taken =>
        cases first
        obtain ⟨text, x, _, added⟩ := Task.bindGives.mp run
        rw [same] at added
        have own := registerTakes c (kind path text) x
        rw [added] at own
        obtain ⟨y, contributed, rfl⟩ := Result.mapOk.mp own.symm
        refine ⟨[kind path text] ++ files, by simp [named, found], fun w => ?_⟩
        refine registersAppend ?_ later
        rw [Registers, registerAll, List.mapM_cons, contributed]
        rfl

theorem ingestRegisters {options : CompilerOptions} {sources : SourceFiles} {c : Compilation}
    {w u : Workspace} (ok : (ingest options sources).outcome w = (.ok c, u)) :
    ∃ application sheets components, sheets.map SourceFile.path = sources.styles ∧
      components.map SourceFile.path = sources.components ∧
      ∀ w, (start options.configuration.platform application options.applicationPath).Registers
        (sheets ++ components) w c := by
  unfold ingest at ok
  obtain ⟨application, t, _, ok⟩ := Task.bindGives.mp ok
  obtain ⟨styled, v, sheeted, ok⟩ := Task.bindGives.mp ok
  obtain ⟨sheets, names, first⟩ := addFilesRegisters .sheet (fun _ _ _ => rfl)
    (fun _ _ => rfl) sheeted
  obtain ⟨components, names', rest⟩ := addFilesRegisters .component (fun _ _ _ => rfl)
    (fun _ _ => rfl) ok
  refine ⟨application, sheets, components, names, names', fun w => ?_⟩
  exact registersAppend (first w) rest

/- A sheet and two components, one of which holds a component in place. -/
def galleryFiles : List SourceFile := [
  .sheet "Main.styles.xml"
    "<styleGroup name=\"Main\"><ViewStyle name=\"card\" backgroundColor=\"red\"/></styleGroup>",
  .component "Cell.ui.xml" ("<Cell style=\":Main:card\"><state><item name=\"lines\" type=\"Int\"/>" ++
    "</state><Label numberOfLines=\"$lines\"/></Cell>"),
  .component "Gallery.ui.xml" ("<Gallery><Cell id=\"first\" lines=\"2\"/>" ++
    "<Row id=\"row\" lines=\"3\"><Label numberOfLines=\"$lines\"/></Row></Gallery>")]

def gallery : Result Compilation :=
  (galleryFiles.mapM (SourceFile.contribution .iOS)).map (·.foldl take (start .iOS {} "App.xml"))

theorem galleryComputed :
    (gallery.toOption.any fun c => ((c.generate { platform := .iOS }).outcome {}).1.isOk) = true ∧
    galleryFiles.filterMap (·.groupName? .iOS) = ["Main"] ∧
    galleryFiles.filterMap (·.typeName? .iOS) = ["Cell", "Gallery"] := by
  have main : galleryFiles[0].contribution .iOS = _ := SourceFile.sheetLetters rfl _
  have cell : galleryFiles[1].contribution .iOS = _ :=
    SourceFile.componentLetters (Text.lettersAppend rfl rfl) _
  have own : galleryFiles[2].contribution .iOS = _ :=
    SourceFile.componentLetters (Text.lettersAppend rfl rfl) _
  simp only [galleryFiles, List.getElem_cons_zero, List.getElem_cons_succ] at main cell own
  rw [SourceFile.groupNames, SourceFile.typeNames]
  simp only [gallery, galleryFiles, List.mapM_cons, List.mapM_nil, List.map_cons, List.map_nil, main,
    cell, own]
  decide +kernel

theorem galleryReversed :
    (∃ c b, (start .iOS {} "App.xml").Registers galleryFiles {} c ∧
      c.Generates { platform := .iOS } b) ∧
    ∀ c c', (start .iOS {} "App.xml").Registers galleryFiles {} c →
      (start .iOS {} "App.xml").Registers galleryFiles.reverse {} c' →
      ((∃ b, c.Generates { platform := .iOS } b) ↔ ∃ b, c'.Generates { platform := .iOS } b) ∧
      (∀ b b', c.Generates { platform := .iOS } b → c'.Generates { platform := .iOS } b' →
        b.common = b'.common ∧ ∀ path, b.units.lookup path = b'.units.lookup path) ∧
      c.statistics = c'.statistics := by
  obtain ⟨generated, groups, types⟩ := galleryComputed
  constructor
  · obtain ⟨c, registered, generates⟩ := Result.anyOk generated
    obtain ⟨b, t, run⟩ := Result.okGives generates
    refine ⟨c, b, ?_, congrArg Prod.fst run⟩
    rw [Registers, registerAll]
    exact registered
  · exact (fileOrderInvisible { platform := .iOS } (List.reverse_perm _).symm (by decide)
      (by rw [groups]; decide) (by rw [types]; decide) {} {}).2

end Compilation
end ViewForge
