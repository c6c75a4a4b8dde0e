import Mathlib.Data.List.ReduceOption
import ViewForge.Proofs.Ordered
import ViewForge.Proofs.Resolve.Derivation
import ViewForge.Proofs.Theme

/-! What is checked of the theme when a component is resolved. The items that properties refer to
are declared; the defaults of state items are taken as they are. -/
namespace ViewForge

theorem ValueType.defaultPlain {type : ValueType} {v : Value} (given : type.default? = some v) :
    v.themeReferences = [] := by
  cases type with
  | font => cases given
  | image => cases given
  | foreign name => cases given
  | _ =>
    cases given
    rfl

namespace StateItem

theorem typedPlain (type : ValueType) : (typedDefault type none).2.themeReferences = [] := by
  unfold typedDefault
  simp only
  split
  · rename_i v given
    exact ValueType.defaultPlain given
  · rfl

theorem inferredPlain {use : String × List StateApplication} {item : StateItem}
    (ok : inferred use = .ok (some item)) : item.default.themeReferences = [] := by
  obtain ⟨name, applications⟩ := use
  cases applications with
  | nil => cases ok
  | cons first rest =>
    rw [inferred] at ok
    obtain ⟨unified, _, last⟩ := Result.bindOk.mp ok
    cases last
    exact typedPlain unified

structure Defaults (d : ComponentDefinition) (items : List StateItem) : Prop where
  declared : ∀ item ∈ items, item.default.themeReferences ≠ [] →
    ∃ declaration ∈ d.state.items, declaration.default = some item.default
  listed : ∀ declaration ∈ d.state.items, ∀ v, declaration.default = some v →
    ∃ item ∈ items, item.default = v

theorem resolvedDefaults {resolveChild : ChildResolver} {d : ComponentDefinition}
    {items : List StateItem} {s t : ResolverState}
    (ok : (resolveAll resolveChild d).outcome s = (.ok items, t)) : Defaults d items := by
  unfold resolveAll at ok
  obtain ⟨uses, _, _, ok⟩ := Task.bindGives.mp ok
  obtain ⟨implicit, made, last⟩ := Task.liftBindGives ok
  cases last
  refine ⟨fun item member themed => ?_, fun declaration member v given => ?_⟩
  · rcases List.mem_append.mp member with explicit | others
    · obtain ⟨declaration, inside, rfl⟩ := List.mem_map.mp explicit
      cases given : declaration.default with
      | none => exact absurd (by rw [declared, given]; exact typedPlain _) themed
      | some v => exact ⟨declaration, inside, by rw [given, declared, given]; rfl⟩
    · have inside := List.reduceOption_mem_iff.mp others
      obtain ⟨use, _, found⟩ := forallRight (Result.mapMOk made) inside
      exact absurd (inferredPlain found) themed
  · refine ⟨declared uses declaration, List.mem_append_left _ (List.mem_map_of_mem member), ?_⟩
    rw [declared, given]
    rfl

end StateItem

namespace Registry

variable {r : Registry} {c : Configuration} {d : ComponentDefinition} {res : Resolved}

/- What a component comes to has been checked property by property. -/
theorem derivationChecked (derivation : r.Derivation d res) :
    (∀ entry ∈ res.properties, r.checkReferences entry.2 = .ok ()) ∧
      StateItem.Defaults d res.state := by
  obtain ⟨oracle, _, _, _, described⟩ := derivation
  have run := describeLifted r oracle d {}
  rw [described] at run
  unfold describe at run
  obtain ⟨properties, merged, run⟩ := Task.liftBindGives run
  obtain ⟨state, _, states, run⟩ := Task.bindGives.mp run
  obtain ⟨actions, _, _, last⟩ := Task.bindGives.mp run
  cases last
  refine ⟨?_, StateItem.resolvedDefaults states⟩
  obtain ⟨found, outcome, last⟩ := Result.bindOk.mp merged
  cases last
  -- an element that comes later may replace an entry, and is checked like the one before it
  have kept : ∀ (more all : List (String × List Property)), ∀ entry ∈
      more.foldl (fun all p => Ordered.put p.1 p.2 all) all, entry ∈ all ∨ entry ∈ more := by
    intro more
    induction more with
    | nil => exact fun all entry member => .inl member
    | cons first rest ih =>
      intro all entry member
      rcases ih _ entry member with before | later
      · rcases Ordered.memPut before with rfl | old
        · exact .inr List.mem_cons_self
        · exact .inl old
      · exact .inr (List.mem_cons_of_mem _ later)
  intro entry member
  rcases kept found [] entry member with none | inside
  · simp at none
  · obtain ⟨e, _, _, _, made⟩ := Task.mapGivesEach (Prod.ext outcome rfl) inside
    unfold elementProperties at made
    obtain ⟨ps, _, _, made⟩ := Task.bindGives.mp made
    obtain ⟨_, checked, last⟩ := Task.liftBindGives made
    cases last
    exact checked

theorem propertyDeclared (derivation : r.Derivation d res) {e : Element} {p : Property}
    (listed : p ∈ res.propertiesOf e) {v : Value} (bound : p.binding = .value v) :
    r.Declared v := by
  unfold Resolved.propertiesOf at listed
  cases found : res.properties.lookup e.id.name with
  | none => simp [found] at listed
  | some ps =>
    rw [found] at listed
    have checked := (derivationChecked derivation).1 _ (Ordered.memOfLookup found)
    exact checkedProperties checked listed bound

end Registry
end ViewForge
