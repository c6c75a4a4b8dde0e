import Mathlib.Data.List.Basic
import ViewForge.Element.Basic

/-! The walk over a tree of elements taken apart, and the definitions that stand in the tree. -/
namespace ViewForge

theorem ElementKind.referenceComponent {kind : ElementKind} {reference : ComponentReference}
    (found : kind.reference? = some reference) : kind = .component reference := by
  cases kind with
  | widget w => cases found
  | component other =>
    cases found
    rfl

namespace Element

def definition? (e : Element) : Option ComponentDefinition := e.kind.reference?.bind (·.definition)

theorem walkAppend (xs ys : List Element) : walk (xs ++ ys) = walk xs ++ walk ys := by
  induction xs using walk.induct with
  | case1 => simp [walk]
  | case2 e rest ih =>
    rw [List.cons_append, walk, walk, ← List.append_assoc, ih, List.cons_append]

theorem walkCons (e : Element) (rest : List Element) :
    walk (e :: rest) = e :: walk e.children ++ walk rest := by
  rw [walk, walkAppend, List.cons_append]

theorem walkParentedFirst (pending : List Parented) :
    (walkParented pending).map Prod.fst = walk (pending.map Prod.fst) := by
  induction pending using walkParented.induct with
  | case1 => simp [walkParented, walk]
  | case2 e parent rest ih =>
    rw [walkParented, List.map_cons, ih, List.map_cons, walk, List.map_append, childrenOfElements]

theorem withParentsFirst (e : Element) : e.withParents.map Prod.fst = e.descendants :=
  walkParentedFirst _

theorem withParentsSplit (e : Element) :
    e.withParents = (e, none) :: walkParented (childrenOf e) := by
  rw [withParents, walkParented, List.append_nil]

theorem memWithParents {e child : Element} {parent : Option Element}
    (member : (child, parent) ∈ e.withParents) : child ∈ e.descendants := by
  rw [← withParentsFirst]
  exact List.mem_map_of_mem member

theorem walkParentedSome {pending : List Parented} (given : ∀ x ∈ pending, x.2.isSome) :
    ∀ x ∈ walkParented pending, x.2.isSome := by
  induction pending using walkParented.induct with
  | case1 => simp [walkParented]
  | case2 e parent rest ih =>
    rw [walkParented]
    obtain ⟨here, others⟩ := List.forall_mem_cons.mp given
    refine List.forall_mem_cons.mpr ⟨here, ih (List.forall_mem_append.mpr ⟨?_, others⟩)⟩
    simp [childrenOf]

theorem definitionsOfAllFlat (es : List Element) :
    definitionsOfAll es = es.flatMap definitions := by
  induction es with
  | nil => rw [definitionsOfAll, List.flatMap_nil]
  | cons e rest ih => rw [definitionsOfAll, ih, List.flatMap_cons]

theorem definitionsSplit (e : Element) :
    e.definitions =
      (e.definition?.toList.flatMap definitionsOf) ++ definitionsOfAll e.children := by
  obtain ⟨kind, _, _, _, _, _, _, _, _, children⟩ := e
  cases kind with
  | widget w => simp [definitions, definition?, ElementKind.reference?]
  | component r =>
    obtain ⟨_, _, definition⟩ := r
    cases definition <;> simp [definitions, definition?, ElementKind.reference?]

theorem definitionsOfSplit (d : ComponentDefinition) :
    definitionsOf d = d :: d.root.definitions := by
  cases d
  rw [definitionsOf]

/- What is defined in a tree is defined at one of its elements, or inside such a definition. -/
theorem definitionsOfAllWalk (es : List Element) :
    definitionsOfAll es = ((walk es).filterMap definition?).flatMap definitionsOf := by
  induction es using walk.induct with
  | case1 => simp [definitionsOfAll, walk]
  | case2 e rest ih =>
    rw [definitionsOfAllFlat, List.flatMap_append, ← definitionsOfAllFlat,
      ← definitionsOfAllFlat] at ih
    rw [definitionsOfAll, definitionsSplit, List.append_assoc, ih, walk]
    cases here : e.definition? <;> simp [here]

theorem memDefinitions {es : List Element} {d : ComponentDefinition} :
    d ∈ definitionsOfAll es ↔
      ∃ e ∈ walk es, ∃ inline, e.definition? = some inline ∧ d ∈ inline.nested := by
  simp only [definitionsOfAllWalk, List.mem_flatMap, List.mem_filterMap]
  constructor
  · rintro ⟨inline, ⟨e, member, here⟩, inside⟩
    exact ⟨e, member, inline, here, inside⟩
  · rintro ⟨e, member, inline, here, inside⟩
    exact ⟨inline, ⟨e, member, here⟩, inside⟩

mutual

theorem definitionsTrans (e : Element) {b c : ComponentDefinition} (outer : b ∈ e.definitions)
    (inner : c ∈ definitionsOf b) : c ∈ e.definitions := by
  obtain ⟨kind, _, _, _, _, _, _, _, _, children⟩ := e
  cases kind with
  | widget w =>
    rw [definitions] at outer ⊢
    exact definitionsOfAllTrans children outer inner
  | component r =>
    obtain ⟨_, _, definition⟩ := r
    cases definition with
    | none =>
      rw [definitions] at outer ⊢
      exact definitionsOfAllTrans children outer inner
    | some d =>
      rw [definitions] at outer ⊢
      rcases List.mem_append.mp outer with here | below
      · exact List.mem_append_left _ (definitionsOfTrans d here inner)
      · exact List.mem_append_right _ (definitionsOfAllTrans children below inner)

theorem definitionsOfAllTrans (es : List Element) {b c : ComponentDefinition}
    (outer : b ∈ definitionsOfAll es) (inner : c ∈ definitionsOf b) : c ∈ definitionsOfAll es := by
  cases es with
  | nil => simp [definitionsOfAll] at outer
  | cons e rest =>
    rw [definitionsOfAll] at outer ⊢
    rcases List.mem_append.mp outer with here | later
    · exact List.mem_append_left _ (definitionsTrans e here inner)
    · exact List.mem_append_right _ (definitionsOfAllTrans rest later inner)

theorem definitionsOfTrans (d : ComponentDefinition) {b c : ComponentDefinition}
    (outer : b ∈ definitionsOf d) (inner : c ∈ definitionsOf b) : c ∈ definitionsOf d := by
  obtain ⟨_, _, root, _, _, _, _, _, _⟩ := d
  rw [definitionsOf] at outer
  rcases List.mem_cons.mp outer with rfl | below
  · exact inner
  · rw [definitionsOf]
    exact List.mem_cons_of_mem _ (definitionsTrans root below inner)

end

end Element

namespace ComponentDefinition

theorem memNested {d x : ComponentDefinition} :
    x ∈ d.nested ↔ x = d ∨
      ∃ e ∈ d.elements, ∃ inline, e.definition? = some inline ∧ x ∈ inline.nested := by
  have inside : x ∈ d.root.definitions ↔ x ∈ Element.definitionsOfAll [d.root] := by
    rw [Element.definitionsOfAllFlat, List.flatMap_singleton]
  rw [nested, Element.definitionsOfSplit, List.mem_cons, inside, Element.memDefinitions]
  rfl

theorem nestedSelf (d : ComponentDefinition) : d ∈ d.nested := memNested.mpr (.inl rfl)

theorem nestedAt {d inline : ComponentDefinition} {e : Element} (member : e ∈ d.elements)
    (here : e.definition? = some inline) : inline ∈ d.nested :=
  memNested.mpr (.inr ⟨e, member, inline, here, inline.nestedSelf⟩)

theorem nestedTrans {a b c : ComponentDefinition} (outer : b ∈ a.nested) (inner : c ∈ b.nested) :
    c ∈ a.nested := Element.definitionsOfTrans a outer inner

end ComponentDefinition

namespace Element

variable {P : ComponentDefinition → Prop}

/- One theorem for each function of the walk, by the structure of the component. -/
mutual

theorem holdsOf
    (step : ∀ d, (∀ e ∈ d.elements, ∀ x, e.definition? = some x → P x) → P d)
    (d : ComponentDefinition) : P d := by
  obtain ⟨_, _, root, _, _, _, _, _, _⟩ := d
  exact step _ (holdsBelow step root)

theorem holdsBelow
    (step : ∀ d, (∀ e ∈ d.elements, ∀ x, e.definition? = some x → P x) → P d)
    (e : Element) : ∀ y ∈ walk [e], ∀ x, y.definition? = some x → P x := by
  obtain ⟨kind, _, _, _, _, _, _, _, _, children⟩ := e
  have below := holdsBelowAll step children
  rw [walkCons, walk, List.append_nil]
  refine List.forall_mem_cons.mpr ⟨fun x here => ?_, below⟩
  cases kind with
  | widget w => cases here
  | component reference =>
    obtain ⟨_, _, definition⟩ := reference
    cases definition with
    | none => cases here
    | some d =>
      have same : d = x := Option.some.inj here
      exact same ▸ holdsOf step d

theorem holdsBelowAll
    (step : ∀ d, (∀ e ∈ d.elements, ∀ x, e.definition? = some x → P x) → P d)
    (es : List Element) : ∀ y ∈ walk es, ∀ x, y.definition? = some x → P x := by
  cases es with
  | nil => simp [walk]
  | cons e rest =>
    have here := holdsBelow step e
    rw [walkCons, walk, List.append_nil] at here
    rw [walkCons]
    exact List.forall_mem_append.mpr ⟨here, holdsBelowAll step rest⟩

end

end Element

theorem ComponentDefinition.nestedInduction {P : ComponentDefinition → Prop}
    (step : ∀ d, (∀ e ∈ d.elements, ∀ x, e.definition? = some x → P x) → P d) :
    ∀ d, P d := Element.holdsOf step

end ViewForge
