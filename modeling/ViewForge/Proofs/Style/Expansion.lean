import Mathlib.Logic.Relation
import ViewForge.Proofs.Task
import ViewForge.Style.Flatten

/-! What a style stands for, said without a search: the graph of what styles extend, the expansion
of a style along that graph, and the last property of every key. Nothing here runs. -/
open Relation (ReflTransGen TransGen)
namespace ViewForge

def lastOccurrences : List Property → List Property
  | [] => []
  | p :: rest =>
    if rest.any (·.key == p.key) then lastOccurrences rest else p :: lastOccurrences rest

theorem lastOccurrencesKeys (ps : List Property) (key : String) :
    key ∈ (lastOccurrences ps).map Property.key ↔ key ∈ ps.map Property.key := by
  induction ps with
  | nil => rfl
  | cons p rest ih =>
    simp only [lastOccurrences]
    split
    · rename_i later
      obtain ⟨q, member, same⟩ := List.any_eq_true.mp later
      have present : p.key ∈ rest.map Property.key :=
        List.mem_map.mpr ⟨q, member, beq_iff_eq.mp same⟩
      rw [ih, List.map_cons, List.mem_cons]
      exact ⟨Or.inr, fun h => h.elim (fun eq => eq ▸ present) id⟩
    · simp only [List.map_cons, List.mem_cons, ih]

theorem lastOccurrencesNodup (ps : List Property) :
    ((lastOccurrences ps).map Property.key).Nodup := by
  induction ps with
  | nil => exact List.nodup_nil
  | cons p rest ih =>
    simp only [lastOccurrences]
    split
    · exact ih
    · rename_i none
      refine List.nodup_cons.mpr ⟨?_, ih⟩
      rw [lastOccurrencesKeys]
      intro later
      obtain ⟨q, member, same⟩ := List.mem_map.mp later
      exact none (List.any_eq_true.mpr ⟨q, member, beq_iff_eq.mpr same⟩)

theorem lastOccurrencesOfNodup {ps : List Property} (distinct : (ps.map Property.key).Nodup) :
    lastOccurrences ps = ps := by
  induction ps with
  | nil => rfl
  | cons p rest ih =>
    obtain ⟨fresh, distinct⟩ := List.nodup_cons.mp distinct
    have none : ¬ rest.any (·.key == p.key) = true := by
      intro later
      obtain ⟨q, member, same⟩ := List.any_eq_true.mp later
      exact fresh (List.mem_map.mpr ⟨q, member, beq_iff_eq.mp same⟩)
    rw [lastOccurrences, if_neg none, ih distinct]

/- The property that is kept for a key is the last one with that key. -/
theorem lastOccurrencesSplit {ps : List Property} {p : Property} (kept : p ∈ lastOccurrences ps) :
    ∃ before after, ps = before ++ p :: after ∧ ∀ q ∈ after, q.key ≠ p.key := by
  induction ps with
  | nil => simp [lastOccurrences] at kept
  | cons head rest ih =>
    rw [lastOccurrences] at kept
    split at kept
    · obtain ⟨before, after, split, none⟩ := ih kept
      exact ⟨head :: before, after, by rw [split, List.cons_append], none⟩
    · rename_i none
      rcases List.mem_cons.mp kept with rfl | inside
      · refine ⟨[], rest, rfl, fun q member same => none ?_⟩
        exact List.any_eq_true.mpr ⟨q, member, beq_iff_eq.mpr same⟩
      · obtain ⟨before, after, split, none⟩ := ih inside
        exact ⟨head :: before, after, by rw [split, List.cons_append], none⟩

theorem lastOccurrencesSuffix (xs ys : List Property) :
    lastOccurrences ys <:+ lastOccurrences (xs ++ ys) := by
  induction xs with
  | nil => exact List.suffix_refl _
  | cons x xs ih =>
    rw [List.cons_append, lastOccurrences]
    split
    · exact ih
    · exact ih.trans (List.suffix_cons _ _)

theorem anyKeyCongr {xs ys : List Property}
    (same : ∀ key, key ∈ xs.map Property.key ↔ key ∈ ys.map Property.key) (key : String) :
    xs.any (·.key == key) = ys.any (·.key == key) := by
  have h := same key
  simp only [List.mem_map] at h
  rw [Bool.eq_iff_iff]
  simpa only [List.any_eq_true, beq_iff_eq] using h

theorem lastOccurrencesFind (ps : List Property) (key : String) :
    (lastOccurrences ps).find? (·.key == key) = ps.reverse.find? (·.key == key) := by
  induction ps with
  | nil => rfl
  | cons p rest ih =>
    have missed : (lastOccurrences rest).find? (·.key == key) = none ↔
        ¬ rest.any (·.key == key) = true := by
      rw [List.find?_eq_none, ← anyKeyCongr (lastOccurrencesKeys rest) key]
      simp
    rw [List.reverse_cons, List.find?_append, ← ih, lastOccurrences]
    by_cases same : p.key = key
    · subst same
      split
      · rename_i later
        obtain ⟨q, found⟩ := Option.ne_none_iff_exists'.mp fun none => missed.mp none later
        simp [found]
      · rename_i fresh
        simp [missed.mpr fresh]
    · split <;> simp [same]

theorem lastOccurrencesAppend (xs ys : List Property) :
    lastOccurrences (xs ++ lastOccurrences ys) = lastOccurrences (xs ++ ys) := by
  induction xs with
  | nil => exact lastOccurrencesOfNodup (lastOccurrencesNodup ys)
  | cons x xs ih =>
    have same : (xs ++ lastOccurrences ys).any (·.key == x.key) =
        (xs ++ ys).any (·.key == x.key) := by
      refine anyKeyCongr (fun key => ?_) x.key
      rw [List.map_append, List.map_append, List.mem_append, List.mem_append, lastOccurrencesKeys]
    simp only [List.cons_append, lastOccurrences, same, ih]

theorem mergeLast (xs : List Property) (p : Property) :
    merge (lastOccurrences xs) p = lastOccurrences (xs ++ [p]) := by
  induction xs with
  | nil => simp [merge, lastOccurrences]
  | cons x xs ih =>
    simp only [merge] at ih
    simp only [List.cons_append, lastOccurrences, List.any_append, List.any_cons, List.any_nil,
      Bool.or_false]
    by_cases later : xs.any (·.key == x.key)
    · simp only [later, if_true, Bool.true_or, merge, ih]
    · by_cases same : p.key = x.key
      · simp [later, same, merge, ← ih]
      · simp [later, same, Ne.symm same, merge, ← ih]

theorem mergeAllLast (xs ys : List Property) :
    mergeAll (lastOccurrences xs) ys = lastOccurrences (xs ++ ys) := by
  induction ys generalizing xs with
  | nil => simp [mergeAll]
  | cons y ys ih =>
    have step := ih (xs ++ [y])
    rw [List.append_assoc, List.singleton_append] at step
    rw [← step, ← mergeLast]
    rfl

theorem mergeAllExpanded (xs ys : List Property) :
    mergeAll (lastOccurrences xs) (lastOccurrences ys) = lastOccurrences (xs ++ ys) := by
  rw [mergeAllLast, lastOccurrencesAppend]

namespace StyleScope

abbrev Entry := StyleGroup × Style

def Extends (scope : StyleScope) (n m : Entry) : Prop :=
  ∃ base ∈ n.2.extend, scope.lookup base (some n.1) = .ok m

structure Flattenable (scope : StyleScope) (n : Entry) : Prop where
  found : ∀ m, ReflTransGen scope.Extends n m →
    ∀ base ∈ m.2.extend, ∃ b, scope.lookup base (some m.1) = .ok b
  kinds : ∀ m b, ReflTransGen scope.Extends n m → scope.Extends m b →
    b.2.kind.accepts m.2.kind = true
  acyclic : ∀ m, ReflTransGen scope.Extends n m → ¬ TransGen scope.Extends m m

/-- The properties of all that a style extends, base by base in the order of their names, and then
its own. `full` holds what each of the names stands for. -/
inductive Expansion (scope : StyleScope) : Entry → List Property → Prop where
  | mk {n : Entry} (full : StyleName → List Property)
      (found : ∀ base ∈ n.2.extend, ∃ m, scope.lookup base (some n.1) = .ok m)
      (bases : ∀ base ∈ n.2.extend, ∀ m, scope.lookup base (some n.1) = .ok m →
        Expansion scope m (full base)) :
      Expansion scope n (n.2.extend.flatMap full ++ n.2.properties)

theorem expansionUnique {scope : StyleScope} {n : Entry} {xs ys : List Property}
    (left : scope.Expansion n xs) (right : scope.Expansion n ys) : xs = ys := by
  induction left generalizing ys with
  | @mk n full found bases ih =>
    obtain ⟨other, _, others⟩ := right
    have same : ∀ base ∈ n.2.extend, full base = other base := by
      intro base member
      obtain ⟨m, hm⟩ := found base member
      exact ih base member m hm (others base member m hm)
    rw [List.flatMap_congr same]

/- Names in one group expand in one way each, so that one function serves them all. -/
theorem expansionsChosen (scope : StyleScope) (group : StyleGroup) :
    ∃ full : StyleName → List Property, ∀ base m ps,
      scope.lookup base (some group) = .ok m → scope.Expansion m ps → ps = full base := by
  classical
  refine ⟨fun base => if h : ∃ m ps, scope.lookup base (some group) = .ok m ∧ scope.Expansion m ps
    then h.choose_spec.choose else [], ?_⟩
  intro base m ps found expansion
  have some : ∃ m ps, scope.lookup base (some group) = .ok m ∧ scope.Expansion m ps :=
    ⟨m, ps, found, expansion⟩
  obtain ⟨again, chosen⟩ := some.choose_spec.choose_spec
  have same : m = some.choose := Except.ok.inj (found.symm.trans again)
  simp only [dif_pos some]
  exact expansionUnique expansion (same ▸ chosen)

inductive Grounded (scope : StyleScope) : Entry → Prop where
  | mk {n : Entry}
      (found : ∀ base ∈ n.2.extend, ∃ m, scope.lookup base (some n.1) = .ok m ∧
        m.2.kind.accepts n.2.kind = true)
      (bases : ∀ m, scope.Extends n m → Grounded scope m) : Grounded scope n

theorem groundedReached {scope : StyleScope} {n m : Entry} (grounded : scope.Grounded n)
    (reached : ReflTransGen scope.Extends n m) : scope.Grounded m := by
  induction reached with
  | refl => exact grounded
  | tail _ step ih =>
    obtain ⟨_, bases⟩ := ih
    exact bases _ step

theorem groundedAcyclic {scope : StyleScope} {n : Entry} (grounded : scope.Grounded n) :
    ¬ TransGen scope.Extends n n := by
  induction grounded with
  | mk found bases ih =>
    intro cycle
    obtain ⟨m, step, back⟩ := TransGen.head'_iff.mp cycle
    exact ih m step (TransGen.tail' back step)

theorem groundedFlattenable {scope : StyleScope} {n : Entry} (grounded : scope.Grounded n) :
    scope.Flattenable n where
  found m reached base member := by
    obtain ⟨found, _⟩ := groundedReached grounded reached
    obtain ⟨b, hb, _⟩ := found base member
    exact ⟨b, hb⟩
  kinds m b reached := by
    rintro ⟨base, member, hb⟩
    obtain ⟨found, _⟩ := groundedReached grounded reached
    obtain ⟨c, hc, accepted⟩ := found base member
    cases Except.ok.inj (hb.symm.trans hc)
    exact accepted
  acyclic m reached := groundedAcyclic (groundedReached grounded reached)

end StyleScope
end ViewForge
