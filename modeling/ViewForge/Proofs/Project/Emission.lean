import ViewForge.Proofs.Source.Independence
import ViewForge.Project.Compile

/-! Generation as a list of what is emitted for which file. Each declaration is worked out on its
own, and what the bundle holds for a file is what has been emitted for that file. -/
namespace ViewForge
open Code (Decl)

structure Emission where
  source : String
  imports : List String
  decl : Decl

def Emission.extend (e : Emission) (u : SourceUnit) : SourceUnit :=
  ((u.addImports e.imports).add (Compilation.sourceComment e.source)).add e.decl

theorem Emission.sources {α : Type} {f : α → Result Emission} {file : α → String}
    (each : ∀ a e, f a = .ok e → e.source = file a) {as : List α} {es : List Emission}
    (ok : as.mapM f = .ok es) : es.map (·.source) = as.map file := by
  have pairs := Result.mapMOk ok
  clear ok
  induction pairs with
  | nil => rfl
  | cons first _ ih => rw [List.map_cons, List.map_cons, each _ _ first, ih]

namespace SourceBundle

def emit (b : SourceBundle) (e : Emission) : SourceBundle :=
  Compilation.addUnit e.source e.imports e.decl b

theorem emitOwn (b : SourceBundle) (e : Emission) :
    (b.emit e).units.lookup e.source = some (e.extend ((b.units.lookup e.source).getD {})) :=
  Ordered.lookupPutSelf _ _ _

theorem emitOther (b : SourceBundle) {e : Emission} {path : String} (other : path ≠ e.source) :
    (b.emit e).units.lookup path = b.units.lookup path :=
  Ordered.lookupPutOther other _ _

theorem emitAllCommon (b : SourceBundle) (es : List Emission) :
    (es.foldl emit b).common = b.common := by
  induction es generalizing b with
  | nil => rfl
  | cons e rest ih => exact ih (b.emit e)

theorem emitAllOther (b : SourceBundle) {es : List Emission} {path : String}
    (absent : path ∉ es.map (·.source)) :
    (es.foldl emit b).units.lookup path = b.units.lookup path := by
  induction es generalizing b with
  | nil => rfl
  | cons e rest ih =>
    simp only [List.map_cons, List.mem_cons, not_or] at absent
    rw [List.foldl_cons, ih _ absent.2, emitOther b absent.1]

theorem emitAllOwn (b : SourceBundle) {es : List Emission} (distinct : (es.map (·.source)).Nodup)
    {e : Emission} (member : e ∈ es) :
    (es.foldl emit b).units.lookup e.source =
      some (e.extend ((b.units.lookup e.source).getD {})) := by
  induction es generalizing b with
  | nil => simp at member
  | cons first rest ih =>
    obtain ⟨fresh, others⟩ := List.nodup_cons.mp distinct
    rw [List.foldl_cons]
    rcases List.mem_cons.mp member with rfl | later
    · rw [emitAllOther _ fresh, emitOwn]
    · have apart : e.source ≠ first.source := fun same =>
        fresh (List.mem_map.mpr ⟨e, later, same⟩)
      rw [ih (b.emit first) others later, emitOther b apart]

theorem emitAllPerm (b : SourceBundle) {es others : List Emission}
    (distinct : (es.map (·.source)).Nodup) (order : es.Perm others) (path : String) :
    (es.foldl emit b).units.lookup path = (others.foldl emit b).units.lookup path := by
  have again := (order.map (·.source)).nodup_iff.mp distinct
  by_cases known : path ∈ es.map (·.source)
  · obtain ⟨e, member, rfl⟩ := List.mem_map.mp known
    rw [emitAllOwn b distinct member, emitAllOwn b again (order.mem_iff.mp member)]
  · have absent : path ∉ others.map (·.source) := fun there =>
      known ((order.map (·.source)).mem_iff.mpr there)
    rw [emitAllOther b known, emitAllOther b absent]

end SourceBundle

namespace Compilation

variable {c : Compilation} {configuration : Configuration}

def styleEmission (c : Compilation) (configuration : Configuration) (group : StyleGroup) :
    Result Emission :=
  let source := (c.styleSources.lookup group.name).getD group.name
  ((StyleSource.ofGlobal c.registry configuration group).decl.inFile source).map fun decl =>
    ⟨source, ["UIKit"], decl⟩

def componentEmission (c : Compilation) (configuration : Configuration) (d : ComponentDefinition) :
    Result Emission :=
  (((c.registry.componentSource configuration d).outcome {}).1.inFile d.sourcePath).map
    fun source => ⟨d.sourcePath, source.imports, source.decl⟩

theorem generateStylesEmits (groups : List StyleGroup) (b : SourceBundle) :
    c.generateStyles configuration groups b =
      (groups.mapM (c.styleEmission configuration)).map (·.foldl .emit b) := by
  induction groups generalizing b with
  | nil => rfl
  | cons group rest ih =>
    rw [generateStyles, List.mapM_cons, styleEmission]
    cases (StyleSource.ofGlobal c.registry configuration group).decl.inFile _ with
    | error e => rfl
    | ok decl =>
      simp only [bind, Except.bind, Except.map, ih]
      cases rest.mapM (c.styleEmission configuration) <;> rfl

theorem generateComponentsEmits (filled : c.registry.Filled) (apart : c.registry.FilesApart)
    {ds : List ComponentDefinition} (registered : ∀ d ∈ ds, d ∈ c.registry.definitions)
    {s : ResolverState} (ready : c.registry.Ready [] s) (b : SourceBundle) :
    ((c.generateComponents configuration ds b).outcome s).1 =
      (ds.mapM (c.componentEmission configuration)).map (·.foldl .emit b) := by
  induction ds generalizing b s with
  | nil => rfl
  | cons d rest ih =>
    obtain ⟨own, others⟩ := List.forall_mem_cons.mp registered
    have fresh : c.registry.Ready [] {} := ⟨Registry.steadyFresh _, rfl⟩
    obtain ⟨u, ⟨after, _⟩, same⟩ := Registry.sourceIndependent filled apart own (c := configuration)
      s {} ⟨ready, fresh⟩
    have same := congrArg Prod.fst (same (.inl trivial))
    have run := Task.inFileOutcome d.sourcePath (c.registry.componentSource configuration d) s
    rw [generateComponents, List.mapM_cons, componentEmission, same]
    cases found : ((c.registry.componentSource configuration d).outcome s).1.inFile d.sourcePath with
    | error e =>
      rw [found] at run
      rw [Task.bindError run]
      rfl
    | ok source =>
      rw [found] at run
      rw [Task.bindOk run, ih others after]
      simp only [bind, Except.bind, Except.map]
      cases rest.mapM (c.componentEmission configuration) <;> rfl

def commonUnit (c : Compilation) (theme : Decl) : SourceUnit :=
  { imports := Imports.ofList ["UIKit", "Hyperdrive"]
    decls := [sourceComment c.applicationPath, theme] }

theorem generateEmits (filled : c.registry.Filled) (apart : c.registry.FilesApart)
    {bundle : SourceBundle} :
    ((c.generate configuration).outcome {}).1 = .ok bundle ↔ ∃ theme styles components,
      (c.registry.application.themeDecl configuration).inFile c.applicationPath = .ok theme ∧
      (c.registry.styleGroups.map (·.2)).mapM (c.styleEmission configuration) = .ok styles ∧
      c.registry.definitions.mapM (c.componentEmission configuration) = .ok components ∧
      bundle = (styles ++ components).foldl .emit { common := c.commonUnit theme } := by
  have fresh : c.registry.Ready [] {} := ⟨Registry.steadyFresh _, rfl⟩
  have emitted : ∀ b, ((c.generateComponents configuration c.registry.definitions b).outcome {}).1 =
      (c.registry.definitions.mapM (c.componentEmission configuration)).map (·.foldl .emit b) :=
    fun b => generateComponentsEmits filled apart (fun _ member => member) fresh b
  unfold generate
  constructor
  · intro ok
    obtain ⟨theme, found, ok⟩ := Task.liftBindGives (Prod.ext ok rfl)
    obtain ⟨b, styled, ok⟩ := Task.liftBindGives ok
    rw [generateStylesEmits] at styled
    obtain ⟨styles, ok', rfl⟩ := Result.mapOk.mp styled
    have ok := (congrArg Prod.fst ok).symm.trans (emitted _)
    obtain ⟨components, last, rfl⟩ := Result.mapOk.mp ok.symm
    exact ⟨theme, styles, components, found, ok', last, List.foldl_append.symm⟩
  · rintro ⟨theme, styles, components, found, styled, last, rfl⟩
    have grouped : c.generateStyles configuration (c.registry.styleGroups.map (·.2))
        { common := c.commonUnit theme } =
          .ok (styles.foldl .emit { common := c.commonUnit theme }) := by
      rw [generateStylesEmits, styled]
      rfl
    unfold commonUnit at grouped
    simp only [Task.outcomeBind, Task.outcomeLift, found, grouped]
    rw [emitted, last, List.foldl_append]
    rfl

end Compilation
end ViewForge
