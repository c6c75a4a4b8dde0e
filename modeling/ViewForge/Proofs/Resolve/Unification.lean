import Mathlib.Data.List.Basic
import Mathlib.Logic.Function.Iterate
import ViewForge.Proofs.Task
import ViewForge.Resolve.State

/-! How the types of the places that read one variable come together. A type is what is left when
all marks of being optional are taken off, and their number: types that are unified differ in the
number alone, by one at most, and the larger number counts. What comes out does not depend on the
order of the places, but whether anything does: from the first type to the last one no number may
be left out. -/
namespace ViewForge

namespace ValueType

def depth : ValueType → Nat
  | optional t => t.depth + 1
  | _ => 0

def core : ValueType → ValueType
  | optional t => t.core
  | t => t

theorem coreWrapped (t : ValueType) : optional^[t.depth] t.core = t := by
  induction t with
  | optional t ih => rw [depth, core, Function.iterate_succ_apply', ih]
  | _ => rfl

theorem coreDepth {a b : ValueType} (core : a.core = b.core) (depth : a.depth = b.depth) :
    a = b := by
  rw [← coreWrapped a, ← coreWrapped b, core, depth]

theorem unifyGives {a b c : ValueType} : a.unify? b = some c ↔ a.core = b.core ∧
    a.depth ≤ b.depth + 1 ∧ b.depth ≤ a.depth + 1 ∧
      c = if a.depth < b.depth then b else a := by
  have wrapped : ∀ t : ValueType, (optional t).depth = t.depth + 1 ∧
      (optional t).core = t.core := fun t => ⟨rfl, rfl⟩
  constructor
  · intro ok
    unfold unify? at ok
    split at ok
    · rename_i same
      cases ok
      subst same
      simp
    · split at ok
      · rename_i outer
        cases ok
        subst outer
        obtain ⟨depth, core⟩ := wrapped b
        rw [if_neg (by omega)]
        exact ⟨core, by omega, by omega, rfl⟩
      · split at ok
        · rename_i outer
          cases ok
          subst outer
          obtain ⟨depth, core⟩ := wrapped a
          rw [if_pos (by omega)]
          exact ⟨core.symm, by omega, by omega, rfl⟩
        · cases ok
  · rintro ⟨core, below, above, rfl⟩
    unfold unify?
    by_cases same : a.depth = b.depth
    · rw [if_pos (coreDepth core same), if_neg (by omega)]
    · have other : a ≠ b := fun equal => same (by rw [equal])
      rw [if_neg other]
      by_cases deeper : a.depth < b.depth
      · have outer : b = .optional a := coreDepth core.symm (by rw [(wrapped a).1]; omega)
        subst outer
        rw [if_neg (fun equal => ?_), if_pos rfl, if_pos deeper]
        have depth := congrArg ValueType.depth equal
        rw [(wrapped _).1, (wrapped _).1] at depth
        omega
      · have outer : a = .optional b := coreDepth core (by rw [(wrapped b).1]; omega)
        rw [if_pos outer, if_neg deeper]

def agreed? : List ValueType → Option ValueType
  | [] => none
  | first :: rest => rest.foldlM unify? first

theorem foldGives {first c : ValueType} {rest : List ValueType}
    (ok : rest.foldlM unify? first = some c) :
    c ∈ first :: rest ∧ ∀ t ∈ first :: rest, t.core = c.core ∧ t.depth ≤ c.depth := by
  induction rest generalizing first with
  | nil =>
    cases ok
    simp
  | cons next rest ih =>
    rw [List.foldlM_cons] at ok
    obtain ⟨mid, unified, ok⟩ := Option.bind_eq_some_iff.mp ok
    obtain ⟨core, below, above, rfl⟩ := unifyGives.mp unified
    obtain ⟨member, each⟩ := ih ok
    obtain ⟨here, later⟩ := List.forall_mem_cons.mp each
    split at here
    · rename_i deeper
      rw [if_pos deeper] at member
      refine ⟨List.mem_cons_of_mem _ member, List.forall_mem_cons.mpr ⟨?_, ?_⟩⟩
      · exact ⟨core.trans here.1, by omega⟩
      · exact List.forall_mem_cons.mpr ⟨here, later⟩
    · rename_i deeper
      rw [if_neg deeper] at member
      refine ⟨?_, List.forall_mem_cons.mpr ⟨here, ?_⟩⟩
      · exact (List.mem_cons.mp member).elim (fun same => same ▸ List.mem_cons_self)
          fun inside => List.mem_cons_of_mem _ (List.mem_cons_of_mem _ inside)
      · exact List.forall_mem_cons.mpr ⟨⟨core.symm.trans here.1, by omega⟩, later⟩

theorem agreedGives {types : List ValueType} {c : ValueType} (ok : agreed? types = some c) :
    c ∈ types ∧ ∀ t ∈ types, t.core = c.core ∧ t.depth ≤ c.depth := by
  cases types with
  | nil => cases ok
  | cons first rest => exact foldGives ok

/- Whenever two orders come to something, they come to the same. -/
theorem agreedUnique {types others : List ValueType} (perm : types.Perm others) {a b : ValueType}
    (left : agreed? types = some a) (right : agreed? others = some b) : a = b := by
  obtain ⟨listed, below⟩ := agreedGives left
  obtain ⟨among, above⟩ := agreedGives right
  obtain ⟨core, atLeast⟩ := below b (perm.mem_iff.mpr among)
  obtain ⟨_, atMost⟩ := above a (perm.mem_iff.mp listed)
  exact coreDepth core.symm (Nat.le_antisymm atMost atLeast)

/- On the way up no depth is passed over. -/
theorem foldRises {first c : ValueType} {rest : List ValueType}
    (ok : rest.foldlM unify? first = some c) {t : ValueType} (member : t ∈ first :: rest) {n : Nat}
    (above : t.depth ≤ n) (below : n ≤ c.depth) : ∃ u ∈ first :: rest, u.depth = n := by
  induction rest generalizing first t with
  | nil =>
    cases ok
    cases List.mem_singleton.mp member
    exact ⟨c, member, Nat.le_antisymm above below⟩
  | cons next rest ih =>
    rw [List.foldlM_cons] at ok
    obtain ⟨mid, unified, ok⟩ := Option.bind_eq_some_iff.mp ok
    obtain ⟨_, deep, shallow, same⟩ := unifyGives.mp unified
    have among : mid = first ∨ mid = next := by
      rw [same]
      split
      · exact .inr rfl
      · exact .inl rfl
    have wider : ∀ u ∈ mid :: rest, u ∈ first :: next :: rest := by
      intro u inside
      rcases List.mem_cons.mp inside with rfl | later
      · rcases among with rfl | rfl <;> simp
      · simp [later]
    have near : mid.depth ≤ first.depth + 1 ∧ mid.depth ≤ next.depth + 1 ∧
        first.depth ≤ mid.depth ∧ next.depth ≤ mid.depth := by
      rw [same]
      split <;> omega
    by_cases reached : mid.depth ≤ n
    · obtain ⟨u, inside, depth⟩ := ih ok List.mem_cons_self reached
      exact ⟨u, wider u inside, depth⟩
    · rcases List.mem_cons.mp member with rfl | inside
      · exact ⟨t, member, by omega⟩
      · rcases List.mem_cons.mp inside with rfl | later
        · exact ⟨t, member, by omega⟩
        · obtain ⟨u, inside, depth⟩ := ih ok (List.mem_cons_of_mem _ later) above
          exact ⟨u, wider u inside, depth⟩

/-- No type is there together with its optional and the optional of that. -/
def Narrow (types : List ValueType) : Prop :=
  ∀ t ∈ types, optional t ∈ types → optional (optional t) ∉ types

def Near (types : List ValueType) : Prop :=
  ∀ t ∈ types, ∀ u ∈ types, t.core = u.core ∧ t.depth ≤ u.depth + 1

theorem agreedNear {types : List ValueType} (narrow : Narrow types) {c : ValueType}
    (ok : agreed? types = some c) : Near types := by
  obtain ⟨_, below⟩ := agreedGives ok
  intro t listed u member
  refine ⟨(below t listed).1.trans (below u member).1.symm, ?_⟩
  by_contra apart
  have rises : ∀ n, u.depth ≤ n → n ≤ c.depth → ∃ v ∈ types, v.depth = n := by
    cases types with
    | nil => cases ok
    | cons first rest => exact fun n => foldRises ok member
  have limit := (below t listed).2
  obtain ⟨v, inside, one⟩ := rises (u.depth + 1) (by omega) (by omega)
  obtain ⟨w, also, two⟩ := rises (u.depth + 2) (by omega) (by omega)
  have core : ∀ x ∈ types, x.core = u.core := fun x inside =>
    (below x inside).1.trans (below u member).1.symm
  cases coreDepth (a := v) (b := optional u) (core v inside) one
  cases coreDepth (a := w) (b := optional (optional u)) (core w also) two
  exact narrow u member inside also

theorem nearAgreed {types : List ValueType} (some : types ≠ []) (near : Near types) :
    ∃ c, agreed? types = Option.some c := by
  cases types with
  | nil => exact absurd rfl some
  | cons first rest =>
    induction rest generalizing first with
    | nil => exact ⟨first, rfl⟩
    | cons next rest ih =>
      have one := near first (by simp) next (by simp)
      have other := near next (by simp) first (by simp)
      have unified : first.unify? next =
          Option.some (if first.depth < next.depth then next else first) :=
        unifyGives.mpr ⟨one.1, one.2, other.2, rfl⟩
      have wider : ∀ t ∈ (if first.depth < next.depth then next else first) :: rest,
          t ∈ first :: next :: rest := by
        intro t member
        rcases List.mem_cons.mp member with rfl | later
        · split <;> simp
        · simp [later]
      obtain ⟨c, ok⟩ := ih _ (by simp) fun t inside u member =>
        near t (wider t inside) u (wider u member)
      exact ⟨c, by rw [agreed?, List.foldlM_cons, unified]; exact ok⟩

theorem agreedPerm {types others : List ValueType} (perm : types.Perm others)
    (narrow : Narrow types) {c : ValueType} (ok : agreed? types = some c) :
    agreed? others = some c := by
  have near := agreedNear narrow ok
  have there : others ≠ [] := by
    rintro rfl
    rw [List.perm_nil.mp perm] at ok
    cases ok
  obtain ⟨d, again⟩ := nearAgreed there fun t inside u member =>
    near t (perm.mem_iff.mpr inside) u (perm.mem_iff.mpr member)
  rw [again, agreedUnique perm ok again]

end ValueType

namespace StateItem

theorem unifyUsesGives {name : String} {type unified : ValueType} {uses : List StateApplication} :
    unifyUses name type uses = .ok unified ↔
      (uses.map (·.type)).foldlM ValueType.unify? type = some unified := by
  induction uses generalizing type with
  | nil => simp [unifyUses, pure]
  | cons use rest ih =>
    rw [unifyUses, List.map_cons, List.foldlM_cons]
    cases type.unify? use.type with
    | none => simp
    | some between => exact ih

def ofAgreed (name : String) (type : ValueType) (applications : List StateApplication) :
    StateItem :=
  { name, type := (typedDefault type none).1, default := (typedDefault type none).2, applications,
    isExplicit := false }

theorem inferredAgreed {name : String} {applications : List StateApplication} {item : StateItem} :
    inferred (name, applications) = .ok (some item) ↔
      ∃ type, ValueType.agreed? (applications.map (·.type)) = some type ∧
        item = ofAgreed name type applications := by
  cases applications with
  | nil => simp [inferred, ValueType.agreed?]
  | cons first rest =>
    rw [inferred, List.map_cons, ValueType.agreed?]
    simp only [← @unifyUsesGives name]
    constructor
    · intro ok
      obtain ⟨unified, agreed, last⟩ := Result.bindOk.mp ok
      cases last
      exact ⟨unified, agreed, rfl⟩
    · rintro ⟨unified, agreed, rfl⟩
      rw [agreed]
      rfl

end StateItem

end ViewForge
