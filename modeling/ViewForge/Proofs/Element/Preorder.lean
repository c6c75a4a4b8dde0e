import Mathlib.Data.List.Basic
import ViewForge.Proofs.Element.Tree

/-! The order of the walks. A place in a tree is the way to it from the root, and the walks list
what stands at the places in lexical order: an element before all that is below it, and what is below
one child before the next child. A definition stands where the elements stand that lead to it. -/
namespace ViewForge

/-- The list holds what stands at the places, once for every place and in their order. -/
def Lists {κ α : Type} [LT κ] (at? : κ → Option α) (xs : List α) : Prop :=
  ∃ places : List κ, places.Pairwise (· < ·) ∧ (∀ p, p ∈ places ↔ (at? p).isSome = true) ∧
    places.map at? = xs.map some

section
variable {κ α β : Type} [LT κ]

theorem listsIndexed (xs : List α) : Lists (fun i : Nat => xs[i]?) xs := by
  refine ⟨List.range xs.length, List.pairwise_lt_range, fun i => ?_, ?_⟩
  · simp
  · refine List.ext_getElem (by simp) fun i _ _ => ?_
    simp

theorem listsFilter {at? : κ → Option α} {xs : List α} (lists : Lists at? xs) (f : α → Option β) :
    Lists (fun p => (at? p).bind f) (xs.filterMap f) := by
  obtain ⟨places, sorted, known, same⟩ := lists
  refine ⟨places.filter fun p => ((at? p).bind f).isSome, sorted.filter _, fun p => ?_, ?_⟩
  · rw [List.mem_filter, known]
    refine and_iff_right_of_imp fun some => ?_
    cases found : at? p with
    | none => simp [found] at some
    | some x => rfl
  · clear sorted known
    induction places generalizing xs with
    | nil =>
      cases xs with
      | nil => rfl
      | cons x rest => cases same
    | cons p places ih =>
      cases xs with
      | nil => cases same
      | cons x rest =>
        obtain ⟨here, others⟩ := List.cons.inj same
        cases kept : f x with
        | none => simpa [here, kept] using ih others
        | some y => simpa [here, kept] using ih others

/- The places of all trees of a forest, by the place of the tree and the place in it. -/
theorem listsForest {inner : β → List κ → Option α} {ys : β → List α} {keys : List κ} {cs : List β}
    {sub? : κ → Option β} (sorted : keys.Pairwise (· < ·)) (same : keys.map sub? = cs.map some)
    (each : ∀ c ∈ cs, Lists (inner c) (ys c)) :
    ∃ places : List (List κ), places.Pairwise (· < ·) ∧ [] ∉ places ∧
      (∀ k p, k :: p ∈ places ↔ k ∈ keys ∧ ((sub? k).bind (inner · p)).isSome = true) ∧
      places.map (fun
        | [] => none
        | k :: p => (sub? k).bind (inner · p)) = (cs.flatMap ys).map some := by
  induction keys generalizing cs with
  | nil =>
    cases cs with
    | nil => exact ⟨[], by simp⟩
    | cons c rest => cases same
  | cons key keys ih =>
    cases cs with
    | nil => cases same
    | cons c rest =>
      obtain ⟨found, others⟩ := List.cons.inj same
      obtain ⟨first, sorted⟩ := List.pairwise_cons.mp sorted
      obtain ⟨here, each⟩ := List.forall_mem_cons.mp each
      obtain ⟨own, ordered, known, listed⟩ := here
      obtain ⟨later, lateOrdered, proper, lateKnown, lateListed⟩ := ih sorted others each
      refine ⟨own.map (key :: ·) ++ later, ?_, ?_, fun k p => ?_, ?_⟩
      · refine List.pairwise_append.mpr ⟨?_, lateOrdered, fun p inside q behind => ?_⟩
        · exact List.pairwise_map.mpr (ordered.imp fun less => List.Lex.cons less)
        · obtain ⟨r, _, rfl⟩ := List.mem_map.mp inside
          cases q with
          | nil => exact absurd behind proper
          | cons k q => exact List.Lex.rel (first k ((lateKnown k q).mp behind).1)
      · simp [proper]
      · rw [List.mem_append, lateKnown, List.mem_cons, or_and_right, List.mem_map]
        refine or_congr_left ⟨?_, ?_⟩
        · rintro ⟨q, member, same⟩
          obtain ⟨rfl, rfl⟩ := List.cons.inj same
          exact ⟨rfl, by rw [found]; exact (known q).mp member⟩
        · rintro ⟨rfl, some⟩
          rw [found] at some
          exact ⟨p, (known p).mpr some, rfl⟩
      · rw [List.map_append, lateListed, List.map_map, List.flatMap_cons, List.map_append, ← listed]
        simp [Function.comp_def, found]

theorem listsTree (inner : β → List κ → Option α) {at? : List κ → Option α} {x : α}
    (here : at? [] = some x) {sub? : κ → Option β} {cs : List β} (children : Lists sub? cs)
    {ys : β → List α} (each : ∀ c ∈ cs, Lists (inner c) (ys c))
    (below : ∀ k p, at? (k :: p) = (sub? k).bind (inner · p)) : Lists at? (x :: cs.flatMap ys) := by
  obtain ⟨keys, sorted, known, same⟩ := children
  obtain ⟨places, ordered, proper, found, listed⟩ := listsForest sorted same each
  refine ⟨[] :: places, List.pairwise_cons.mpr ⟨fun p member => ?_, ordered⟩, fun p => ?_, ?_⟩
  · cases p with
    | nil => exact absurd member proper
    | cons k p => exact List.Lex.nil
  · cases p with
    | nil => simp [here]
    | cons k p =>
      rw [List.mem_cons, found, known, below]
      cases sub? k <;> simp
  · rw [List.map_cons, here, List.map_cons, ← listed]
    refine congrArg (some x :: ·) (List.map_congr_left fun p member => ?_)
    cases p with
    | nil => exact absurd member proper
    | cons k p => exact below k p

end

namespace Element

def at? (e : Element) : List Nat → Option Element
  | [] => some e
  | i :: place => e.children[i]?.bind (·.at? place)

mutual

def preorder : Element → List Element
  | e@⟨_, _, _, _, _, _, _, _, _, children⟩ => e :: preorderAll children

def preorderAll : List Element → List Element
  | [] => []
  | e :: rest => e.preorder ++ preorderAll rest

end

def parentedAt? (e : Element) (above : Option Element) (place : List Nat) : Option Parented :=
  (e.at? place).map fun x => (x, if place = [] then above else e.at? place.dropLast)

theorem preorderSplit (e : Element) : e.preorder = e :: preorderAll e.children := by
  cases e
  rw [preorder]

theorem walkPreorder (es : List Element) : walk es = preorderAll es := by
  have joined : ∀ xs ys, preorderAll (xs ++ ys) = preorderAll xs ++ preorderAll ys := by
    intro xs ys
    induction xs with
    | nil => rfl
    | cons x xs ih => rw [List.cons_append, preorderAll, preorderAll, ih, List.append_assoc]
  induction es using walk.induct with
  | case1 => rw [walk, preorderAll]
  | case2 e rest ih => rw [walk, ih, joined, preorderAll, preorderSplit, List.cons_append]

theorem descendantsPreorder (e : Element) : e.descendants = e.preorder := by
  rw [descendants, walkPreorder, preorderAll, preorderAll, List.append_nil]

theorem walkCount (es : List Element) : (walk es).length = countAll es := by
  induction es using walk.induct with
  | case1 => rw [walk, countAll, List.length_nil]
  | case2 e rest ih =>
    rw [walk, List.length_cons, ih, countAllAppend, countAll, countRoot]
    omega

theorem descendantsSplit (e : Element) :
    e.descendants = e :: e.children.flatMap descendants := by
  have each : ∀ es, walk es = es.flatMap descendants := by
    intro es
    induction es with
    | nil => rw [walk, List.flatMap_nil]
    | cons e rest ih =>
      rw [List.flatMap_cons, ← ih, descendants, ← walkAppend, List.singleton_append]
  rw [descendants, walk, List.append_nil, each]

theorem walkParentedAppend (xs ys : List Parented) :
    walkParented (xs ++ ys) = walkParented xs ++ walkParented ys := by
  induction xs using walkParented.induct with
  | case1 => simp [walkParented]
  | case2 e parent rest ih =>
    rw [List.cons_append, walkParented, walkParented, ← List.append_assoc, ih, List.cons_append]

theorem walkParentedSplit (e : Element) (above : Option Element) : walkParented [(e, above)] =
    (e, above) :: e.children.flatMap fun c => walkParented [(c, some e)] := by
  have each : ∀ es : List Element, walkParented (es.map fun c => (c, some e)) =
      es.flatMap fun c => walkParented [(c, some e)] := by
    intro es
    induction es with
    | nil => rw [List.map_nil, walkParented, List.flatMap_nil]
    | cons c rest ih =>
      rw [List.flatMap_cons, ← ih, ← walkParentedAppend, List.singleton_append, List.map_cons]
  rw [walkParented, List.append_nil, childrenOf, each]

theorem parentedBelow (e : Element) (above : Option Element) (i : Nat) (place : List Nat) :
    e.parentedAt? above (i :: place) = e.children[i]?.bind (·.parentedAt? (some e) place) := by
  unfold parentedAt?
  rw [at?, if_neg (List.cons_ne_nil i place)]
  cases child : e.children[i]? with
  | none => rfl
  | some c =>
    cases place with
    | nil => rfl
    | cons j place =>
      simp only [Option.bind_some, if_neg (List.cons_ne_nil j place), List.dropLast_cons_cons]
      rw [at?.eq_2 e i, child, Option.bind_some]

/- By the structure of the tree, one theorem for an element and one for its children. -/
mutual

theorem descendantsListed (e : Element) : Lists e.at? e.descendants := by
  rw [descendantsSplit]
  refine listsTree at? rfl (listsIndexed e.children) ?_ fun _ _ => rfl
  obtain ⟨_, _, _, _, _, _, _, _, _, children⟩ := e
  exact eachListed children

theorem eachListed (es : List Element) : ∀ e ∈ es, Lists e.at? e.descendants := by
  cases es with
  | nil => exact fun _ member => absurd member List.not_mem_nil
  | cons e rest => exact List.forall_mem_cons.mpr ⟨descendantsListed e, eachListed rest⟩

end

mutual

theorem walkParentedListed (e : Element) (above : Option Element) :
    Lists (e.parentedAt? above) (walkParented [(e, above)]) := by
  rw [walkParentedSplit]
  refine listsTree (·.parentedAt? (some e)) ?_ (listsIndexed e.children) ?_ (parentedBelow e above)
  · rfl
  obtain ⟨kind, id, isExported, isInjected, styles, properties, tooling, layout, actions, children⟩
    := e
  exact eachParentedListed children _

theorem eachParentedListed (es : List Element) (above : Option Element) :
    ∀ e ∈ es, Lists (e.parentedAt? above) (walkParented [(e, above)]) := by
  cases es with
  | nil => exact fun _ member => absurd member List.not_mem_nil
  | cons e rest =>
    exact List.forall_mem_cons.mpr ⟨walkParentedListed e above, eachParentedListed rest above⟩

end

theorem dropLastLess {place : List Nat} (proper : place ≠ []) : place.dropLast < place := by
  induction place with
  | nil => exact absurd rfl proper
  | cons i rest ih =>
    cases rest with
    | nil => exact List.Lex.nil
    | cons j more => exact List.Lex.cons (ih (List.cons_ne_nil j more))

/- The place of the parent is the less of the two, and so it has been passed. -/
theorem parentBefore {e child parent : Element} {before after : List Parented}
    (walked : e.withParents = before ++ (child, some parent) :: after) :
    ∃ above, (parent, above) ∈ before := by
  obtain ⟨places, sorted, known, listed⟩ := walkParentedListed e none
  rw [show walkParented [(e, none)] = _ from walked, List.map_append, List.map_cons] at listed
  obtain ⟨front, back, rfl, early, late⟩ := List.map_eq_append_iff.mp listed
  obtain ⟨place, more, rfl, here, _⟩ := List.map_eq_cons_iff.mp late
  obtain ⟨x, found, pair⟩ := Option.map_eq_some_iff.mp here
  obtain ⟨rfl, parented⟩ := Prod.mk.inj pair
  have proper : place ≠ [] := by
    rintro rfl
    cases parented
  rw [if_neg proper] at parented
  have passed : place.dropLast ∈ front ++ place :: more :=
    (known _).mpr (by rw [parentedAt?, parented]; rfl)
  rcases List.mem_append.mp passed with inside | outside
  · have member := List.mem_map_of_mem (f := e.parentedAt? none) inside
    rw [early, parentedAt?, parented] at member
    obtain ⟨y, listed, same⟩ := List.mem_map.mp member
    cases same
    exact ⟨_, listed⟩
  · have least : ∀ q ∈ place :: more, ¬ q < place := by
      intro q member less
      rcases List.mem_cons.mp member with rfl | later
      · exact List.lt_irrefl _ less
      · have behind := (List.pairwise_cons.mp (List.pairwise_append.mp sorted).2.1).1 q later
        exact List.lt_asymm less behind
    exact absurd (dropLastLess proper) (least _ outside)

end Element

namespace ComponentDefinition

def at? (d : ComponentDefinition) : List (List Nat) → Option ComponentDefinition
  | [] => some d
  | place :: inner => ((d.root.at? place).bind (·.definition?)).bind (·.at? inner)

theorem nestedSplit (d : ComponentDefinition) :
    d.nested = d :: d.inlineDefinitions.flatMap nested := by
  have whole := Element.definitionsOfAllWalk [d.root]
  rw [Element.definitionsOfAllFlat, List.flatMap_singleton] at whole
  rw [nested, Element.definitionsOfSplit, whole]
  rfl

theorem nestedListed (d : ComponentDefinition) : Lists d.at? d.nested := by
  induction d using nestedInduction with
  | step d ih =>
    rw [nestedSplit]
    refine listsTree at? rfl (listsFilter (Element.descendantsListed d.root) (·.definition?)) ?_
      fun _ _ => rfl
    intro inline member
    obtain ⟨e, inside, here⟩ := List.mem_filterMap.mp member
    exact ih e inside inline here

end ComponentDefinition
end ViewForge
