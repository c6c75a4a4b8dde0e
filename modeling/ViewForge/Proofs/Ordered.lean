import Mathlib.Data.List.Nodup
import ViewForge.Ordered

/-! What the ordered maps hold: a look-up after a change, and the keys, which never repeat. -/
namespace ViewForge.Ordered

variable {κ α : Type} [BEq κ] [LawfulBEq κ]

theorem lookupOfMem {entries : List (κ × α)} (distinct : (entries.map Prod.fst).Nodup)
    {key : κ} {value : α} (member : (key, value) ∈ entries) : entries.lookup key = some value := by
  induction entries with
  | nil => simp at member
  | cons entry rest ih =>
    obtain ⟨fresh, distinct⟩ := List.nodup_cons.mp distinct
    rcases List.mem_cons.mp member with rfl | inside
    · simp
    · have other : (key == entry.1) = false := by
        rw [beq_eq_false_iff_ne]
        rintro rfl
        exact fresh (List.mem_map.mpr ⟨_, inside, rfl⟩)
      rw [List.lookup_cons, other]
      exact ih distinct inside

theorem memOfLookup {entries : List (κ × α)} {key : κ} {value : α}
    (found : entries.lookup key = some value) : (key, value) ∈ entries := by
  induction entries with
  | nil => simp at found
  | cons entry rest ih =>
    obtain ⟨k, v⟩ := entry
    rw [List.lookup_cons] at found
    split at found
    · rename_i same
      cases Option.some.inj found
      rw [eq_of_beq same]
      exact List.mem_cons_self
    · exact List.mem_cons_of_mem _ (ih found)

theorem lookupKnown {entries : List (κ × α)} {key : κ} (known : key ∈ entries.map Prod.fst) :
    (entries.lookup key).isSome := by
  cases found : entries.lookup key with
  | some value => rfl
  | none =>
    obtain ⟨entry, member, rfl⟩ := List.mem_map.mp known
    have absent := List.lookup_eq_none_iff.mp found entry member
    simp at absent

theorem lookupPutSelf (key : κ) (value : α) (entries : List (κ × α)) :
    (put key value entries).lookup key = some value := by
  induction entries with
  | nil => simp [put]
  | cons entry rest ih =>
    obtain ⟨k, v⟩ := entry
    simp only [put]
    split
    · rename_i same
      simp [eq_of_beq same]
    · rename_i other
      have apart : (key == k) = false := by
        rw [beq_eq_false_iff_ne]
        rintro rfl
        exact other (beq_self_eq_true key)
      rw [List.lookup_cons, apart]
      exact ih

theorem memPut {key : κ} {value : α} {entries : List (κ × α)} {entry : κ × α}
    (member : entry ∈ put key value entries) : entry = (key, value) ∨ entry ∈ entries := by
  induction entries with
  | nil => exact .inl (List.mem_singleton.mp member)
  | cons head rest ih =>
    obtain ⟨k, v⟩ := head
    simp only [put] at member
    split at member
    · rename_i same
      rw [eq_of_beq same] at member
      rcases List.mem_cons.mp member with here | later
      · exact .inl here
      · exact .inr (List.mem_cons_of_mem _ later)
    · rcases List.mem_cons.mp member with here | later
      · exact .inr (here ▸ List.mem_cons_self)
      · exact (ih later).imp id (List.mem_cons_of_mem _)

theorem memPutOld (key : κ) (value : α)
    {entries : List (κ × α)} {entry : κ × α} (member : entry ∈ entries) :
    entry ∈ put key value entries ∨ entries.lookup key = some entry.2 := by
  induction entries with
  | nil => simp at member
  | cons head rest ih =>
    obtain ⟨k, v⟩ := head
    simp only [put]
    split
    · rename_i same
      rcases List.mem_cons.mp member with rfl | later
      · exact .inr (by simp [eq_of_beq same])
      · exact .inl (List.mem_cons_of_mem _ later)
    · rename_i apart
      have distinct : (key == k) = false := by
        rw [beq_eq_false_iff_ne]
        rintro rfl
        simp at apart
      rcases List.mem_cons.mp member with rfl | later
      · exact .inl List.mem_cons_self
      · rw [List.lookup_cons, distinct]
        exact (ih later).imp_left (List.mem_cons_of_mem _)

theorem lookupPutOther {key other : κ}
    (apart : other ≠ key) (value : α) (entries : List (κ × α)) :
    (put key value entries).lookup other = entries.lookup other := by
  have distinct : (other == key) = false := beq_false_of_ne apart
  induction entries with
  | nil => simp [put, List.lookup_cons, distinct]
  | cons entry rest ih =>
    obtain ⟨k, v⟩ := entry
    simp only [put]
    split
    · rename_i same
      cases eq_of_beq same
      simp [List.lookup_cons, distinct]
    · simp only [List.lookup_cons, ih]

theorem keysPut [DecidableEq κ] (key : κ) (value : α) (entries : List (κ × α)) :
    (put key value entries).map Prod.fst =
      if key ∈ entries.map Prod.fst then entries.map Prod.fst
      else entries.map Prod.fst ++ [key] := by
  induction entries with
  | nil => simp [put]
  | cons entry rest ih =>
    obtain ⟨k, v⟩ := entry
    by_cases same : k = key
    · simp [put, same]
    · simp only [put, beq_iff_eq, same, if_false, List.map_cons, ih, List.mem_cons, Ne.symm same,
        false_or]
      split <;> rfl

theorem nodupPut {key : κ} {value : α} {entries : List (κ × α)}
    (distinct : (entries.map Prod.fst).Nodup) : ((put key value entries).map Prod.fst).Nodup := by
  classical
  rw [keysPut]
  split
  · exact distinct
  · rename_i fresh
    refine List.nodup_append.mpr ⟨distinct, List.nodup_singleton key, ?_⟩
    rintro k inside other last rfl
    exact fresh (List.mem_singleton.mp last ▸ inside)

theorem putNew {key : κ} {value : α} {entries : List (κ × α)}
    (fresh : key ∉ entries.map Prod.fst) : put key value entries = entries ++ [(key, value)] := by
  induction entries with
  | nil => rfl
  | cons entry rest ih =>
    obtain ⟨k, v⟩ := entry
    simp only [List.map_cons, List.mem_cons, not_or] at fresh
    have other : (k == key) = false := beq_false_of_ne (Ne.symm fresh.1)
    simp only [put, other, Bool.false_eq_true, if_false, ih fresh.2, List.cons_append]

theorem putDistinct {entries more : List (κ × α)}
    (distinct : ((entries ++ more).map Prod.fst).Nodup) :
    more.foldl (fun all p => put p.1 p.2 all) entries = entries ++ more := by
  induction more generalizing entries with
  | nil => simp
  | cons entry rest ih =>
    have fresh : entry.1 ∉ entries.map Prod.fst := by
      intro present
      rw [List.map_append, List.map_cons] at distinct
      exact (List.nodup_append.mp distinct).2.2 _ present _ List.mem_cons_self rfl
    rw [List.foldl_cons, putNew fresh, ih (by simpa using distinct)]
    simp

theorem lookupPutAll {entries more : List (κ × α)} {key : κ} {value : α}
    (found : (more.foldl (fun all p => put p.1 p.2 all) entries).lookup key = some value) :
    (key, value) ∈ more ∨ (key ∉ more.map Prod.fst ∧ entries.lookup key = some value) := by
  classical
  induction more generalizing entries with
  | nil => exact .inr ⟨List.not_mem_nil, found⟩
  | cons entry rest ih =>
    rcases ih found with later | ⟨absent, first⟩
    · exact .inl (List.mem_cons_of_mem _ later)
    · by_cases same : key = entry.1
      · rw [same, lookupPutSelf] at first
        cases Option.some.inj first
        exact .inl (same ▸ List.mem_cons_self)
      · rw [lookupPutOther same] at first
        exact .inr ⟨by simp [same, absent], first⟩

theorem knownPutAll {entries more : List (κ × α)} {key : κ}
    (known : key ∈ (entries ++ more).map Prod.fst) :
    key ∈ (more.foldl (fun all p => put p.1 p.2 all) entries).map Prod.fst := by
  classical
  induction more generalizing entries with
  | nil => rwa [List.append_nil] at known
  | cons entry rest ih =>
    refine ih ?_
    rw [List.map_append, List.map_cons, List.mem_append, List.mem_cons] at known
    rw [List.map_append, keysPut, List.mem_append]
    split
    · rename_i present
      rcases known with old | rfl | later
      · exact .inl old
      · exact .inl present
      · exact .inr later
    · rcases known with old | rfl | later
      · exact .inl (List.mem_append_left _ old)
      · exact .inl (List.mem_append_right _ List.mem_cons_self)
      · exact .inr later

theorem lookupPerm {left right : List (κ × α)}
    (distinct : (left.map Prod.fst).Nodup) (order : left.Perm right) (key : κ) :
    left.lookup key = right.lookup key := by
  have again := (order.map Prod.fst).nodup_iff.mp distinct
  cases found : left.lookup key with
  | some value =>
    rw [lookupOfMem again (order.mem_iff.mp (memOfLookup found))]
  | none =>
    cases there : right.lookup key with
    | none => rfl
    | some value =>
      rw [lookupOfMem distinct (order.mem_iff.mpr (memOfLookup there))] at found
      cases found

/- What comes last is new, or it has come before. -/
theorem eraseDupsNext {α : Type} [DecidableEq α] (xs : List α) (x : α) :
    (xs ++ [x]).eraseDups = if x ∈ xs then xs.eraseDups else xs.eraseDups ++ [x] := by
  rw [List.eraseDups_append]
  split
  · rename_i known
    simp [List.removeAll, known]
  · rename_i fresh
    simp [List.removeAll, fresh, List.eraseDups_cons]

end ViewForge.Ordered
