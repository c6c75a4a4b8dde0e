import Mathlib.Data.List.Induction
import Mathlib.Data.List.Sort
import Mathlib.Data.String.Basic
import ViewForge.Proofs.Ordered
import ViewForge.Project.Sink

/-! What has been handed over, file by file. A bundle holds for a file the declarations that came
for it, in the order in which they came, and the names of modules in their own order, each of them
once. The files stand in the order in which they were first mentioned. -/
namespace ViewForge
open Code (Decl)

namespace Imports

variable {name other : String} {all names : List String}

@[simp] theorem memInsert : other ∈ insert name all ↔ other = name ∨ other ∈ all := by
  induction all with
  | nil => simp [insert]
  | cons head rest ih =>
    rw [insert]
    split
    · simp
    · split
      · rename_i same
        simp [same]
      · simp [ih, or_left_comm]

theorem insertSorted (sorted : all.Pairwise (· < ·)) : (insert name all).Pairwise (· < ·) := by
  induction all with
  | nil => exact List.pairwise_singleton _ name
  | cons head rest ih =>
    obtain ⟨first, later⟩ := List.pairwise_cons.mp sorted
    rw [insert]
    split
    · rename_i before
      refine List.pairwise_cons.mpr ⟨fun x member => ?_, sorted⟩
      rcases List.mem_cons.mp member with rfl | inside
      · exact before
      · exact before.trans (first x inside)
    · rename_i notBefore
      split
      · exact sorted
      · rename_i different
        have after : head < name := (lt_or_gt_of_ne different).resolve_left notBefore
        refine List.pairwise_cons.mpr ⟨fun x member => ?_, ih later⟩
        rcases memInsert.mp member with rfl | inside
        · exact after
        · exact first x inside

@[simp] theorem memUnion : name ∈ union all names ↔ name ∈ all ∨ name ∈ names := by
  induction names generalizing all with
  | nil => simp [union]
  | cons head rest ih =>
    have step : union all (head :: rest) = union (insert head all) rest := rfl
    rw [step, ih, memInsert, List.mem_cons, or_assoc, or_left_comm]

theorem unionSorted (sorted : all.Pairwise (· < ·)) : (union all names).Pairwise (· < ·) := by
  induction names generalizing all with
  | nil => exact sorted
  | cons head rest ih => exact ih (insertSorted sorted)

theorem unionAppend (all : Imports) (names more : List String) :
    union all (names ++ more) = union (union all names) more :=
  List.foldl_append

theorem ofListSorted (names : List String) : (ofList names).Pairwise (· < ·) :=
  unionSorted List.Pairwise.nil

@[simp] theorem memOfList : name ∈ ofList names ↔ name ∈ names := by
  simp [ofList]

end Imports

namespace Delivery

def source : Delivery → Option String
  | .imports source _ => source
  | .decl source _ => source

def names : Delivery → List String
  | .imports _ names => names
  | .decl .. => []

def decl? : Delivery → Option Decl
  | .imports .. => none
  | .decl _ d => some d

def namesFor (source : Option String) (ds : List Delivery) : List String :=
  (ds.filter (·.source == source)).flatMap names

def declsFor (source : Option String) (ds : List Delivery) : List Decl :=
  (ds.filter (·.source == source)).filterMap decl?

def sources (ds : List Delivery) : List String := (ds.filterMap source).eraseDups

def extend (d : Delivery) (u : SourceUnit) : SourceUnit :=
  { imports := u.imports.union d.names, decls := u.decls ++ d.decl?.toList }

def unitFor (source : Option String) (ds : List Delivery) : SourceUnit :=
  { imports := Imports.ofList (namesFor source ds), decls := declsFor source ds }

theorem unitForNext (source : Option String) (ds : List Delivery) (d : Delivery) :
    unitFor source (ds ++ [d]) =
      if d.source = source then d.extend (unitFor source ds) else unitFor source ds := by
  split
  · rename_i own
    have kept : [d].filter (·.source == source) = [d] := by simp [own]
    simp only [unitFor, namesFor, declsFor, extend, List.filter_append, kept, List.flatMap_append,
      List.filterMap_append, List.flatMap_singleton, Imports.ofList, Imports.unionAppend]
    cases d <;> rfl
  · rename_i other
    have lost : [d].filter (·.source == source) = [] := by simp [other]
    simp only [unitFor, namesFor, declsFor, List.filter_append, lost, List.append_nil]

theorem sourcesNext (ds : List Delivery) (d : Delivery) :
    sources (ds ++ [d]) = match d.source with
      | none => sources ds
      | some s => if s ∈ sources ds then sources ds else sources ds ++ [s] := by
  cases from? : d.source with
  | none => simp [sources, from?]
  | some s =>
    have last : (ds ++ [d]).filterMap source = ds.filterMap source ++ [s] := by simp [from?]
    simp only [sources, last, Ordered.eraseDupsNext, List.mem_eraseDups]

theorem sourcesDistinct (ds : List Delivery) : (sources ds).Nodup := by
  induction ds using List.reverseRecOn with
  | nil => exact List.nodup_nil
  | append_singleton ds d ih =>
    rw [sourcesNext]
    split
    · exact ih
    · split
      · exact ih
      · rename_i s _ fresh
        exact List.nodup_append.mpr ⟨ih, List.nodup_singleton s, fun x inside y last same =>
          fresh (List.mem_singleton.mp last ▸ same ▸ inside)⟩

end Delivery

namespace SourceBundle
open Delivery (namesFor declsFor sources)

def unitFor (source : Option String) (b : SourceBundle) : SourceUnit :=
  match source with
  | none => b.common
  | some source => (b.units.lookup source).getD {}

theorem takeExtends (b : SourceBundle) (d : Delivery) : b.take d = b.updateFor d.source d.extend := by
  cases d with
  | imports source names =>
    have added : (Delivery.imports source names).extend = SourceUnit.addImports names := by
      funext u
      simp [Delivery.extend, Delivery.names, Delivery.decl?, SourceUnit.addImports]
    rw [added]
    rfl
  | decl source decl => rfl

/- A change for one file is seen in the unit of that file and in no other. -/
theorem unitUpdated (source other : Option String) (change : SourceUnit → SourceUnit)
    (b : SourceBundle) : (b.updateFor source change).unitFor other =
      if source = other then change (b.unitFor other) else b.unitFor other := by
  cases source with
  | none => cases other <;> rfl
  | some s =>
    cases other with
    | none => rfl
    | some o =>
      simp only [updateFor, update, unitFor, Option.some.injEq]
      split
      · rename_i same
        rw [same, Ordered.lookupPutSelf, Option.getD_some]
      · rename_i apart
        rw [Ordered.lookupPutOther (Ne.symm apart)]

def gather (ds : List Delivery) : SourceBundle := ds.foldl take {}

theorem gatherNext (ds : List Delivery) (d : Delivery) :
    gather (ds ++ [d]) = (gather ds).updateFor d.source d.extend := by
  rw [gather, List.foldl_append]
  exact takeExtends (gather ds) d

theorem gatherUnit (source : Option String) (ds : List Delivery) :
    (gather ds).unitFor source = Delivery.unitFor source ds := by
  induction ds using List.reverseRecOn with
  | nil => cases source <;> rfl
  | append_singleton ds d ih => rw [gatherNext, unitUpdated, Delivery.unitForNext, ih]

theorem gatherSources (ds : List Delivery) : (gather ds).units.map Prod.fst = sources ds := by
  induction ds using List.reverseRecOn with
  | nil => rfl
  | append_singleton ds d ih =>
    rw [gatherNext, Delivery.sourcesNext]
    cases d.source with
    | none => exact ih
    | some s => rw [updateFor, update, Ordered.keysPut, ih]

theorem gatherUnits (ds : List Delivery) :
    (gather ds).units = (sources ds).map fun s => (s, Delivery.unitFor (some s) ds) := by
  have distinct : ((gather ds).units.map Prod.fst).Nodup := by
    rw [gatherSources]
    exact Delivery.sourcesDistinct ds
  rw [← gatherSources, List.map_map]
  refine (List.map_id _).symm.trans (List.map_congr_left fun entry member => ?_)
  have found := Ordered.lookupOfMem distinct member
  have unit := gatherUnit (some entry.1) ds
  rw [unitFor, found] at unit
  exact Prod.ext rfl unit

end SourceBundle

namespace Delivery
open SourceBundle (gather)

/-- The text of a file has everything that came for it, in the order in which it came, below the
sorted names of the modules that came for it or for all files. -/
def Renders (ds : List Delivery) (source : Option String) (text : String) : Prop :=
  ∃ all : List String, all.Pairwise (· < ·) ∧
    (∀ name, name ∈ all ↔ name ∈ namesFor none ds ∨ name ∈ namesFor source ds) ∧
    text = SourceBundle.headline ++ SourceBundle.renderImports all
      ++ Text.join "\n" ((declsFor source ds).map (·.render 0))

theorem rendersUnique {ds : List Delivery} {source : Option String} {text other : String}
    (left : Renders ds source text) (right : Renders ds source other) : text = other := by
  obtain ⟨all, sorted, named, rfl⟩ := left
  obtain ⟨again, sorted', named', rfl⟩ := right
  rw [sorted.eq_of_mem_iff sorted' fun name => (named name).trans (named' name).symm]

theorem unitRenders {source : Option String} {ds : List Delivery} {u : SourceUnit}
    (decls : u.decls = declsFor source ds)
    (imports : ∀ name, name ∈ u.imports → name ∈ namesFor source ds)
    (own : ∀ name, name ∈ namesFor source ds → name ∈ namesFor none ds ∨ name ∈ u.imports) :
    Renders ds source ((gather ds).renderUnit u) := by
  have common : (gather ds).common.imports = Imports.ofList (namesFor none ds) :=
    congrArg SourceUnit.imports (SourceBundle.gatherUnit none ds)
  refine ⟨(gather ds).common.imports.union u.imports, ?_, fun name => ?_, ?_⟩
  · rw [common]
    exact Imports.unionSorted (Imports.ofListSorted _)
  · rw [common, Imports.memUnion, Imports.memOfList]
    constructor
    · exact Or.imp_right (imports name)
    · rintro (shared | needed)
      · exact .inl shared
      · exact own name needed
  · rw [SourceBundle.renderUnit, SourceUnit.render, decls]

end Delivery
end ViewForge
