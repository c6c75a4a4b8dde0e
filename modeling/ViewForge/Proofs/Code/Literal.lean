import Mathlib.Algebra.Ring.Parity
import Mathlib.Data.List.Induction
import ViewForge.Code.Basic

/-! String literals by the rules of those who read them. A backslash takes the character after it,
and the first quote that is not taken ends the literal. A quoted text is a literal as a whole,
whatever the text is, and so no text reaches the code around it. -/
namespace ViewForge.Code

def escaped? : Char → Option Char
  | '"' => some '"'
  | '\\' => some '\\'
  | 'n' => some '\n'
  | 't' => some '\t'
  | 'r' => some '\r'
  | _ => none

def literalText? : List Char → Option (List Char × List Char)
  | [] => none
  | '"' :: rest => some ([], rest)
  | '\\' :: mark :: rest =>
    match escaped? mark with
    | some c => (literalText? rest).map fun p => (c :: p.1, p.2)
    | none => none
  | c :: rest =>
    if c ∈ ['\\', '\n', '\r'] then none else (literalText? rest).map fun p => (c :: p.1, p.2)

def literal? : List Char → Option (List Char × List Char)
  | '"' :: rest => literalText? rest
  | _ => none

/-- Whether a backslash takes the character after the text. Of the backslashes at its end, the
first takes the second, the third the fourth, and the last of an odd number what comes next. -/
def TakesNext (before : List Char) : Prop :=
  Odd (before.reverse.takeWhile (· == '\\')).length

/- The same from the front, one character at a time. -/
def takesFrom (taken : Bool) : List Char → Bool
  | [] => taken
  | c :: rest => takesFrom (!taken && c == '\\') rest

theorem takesFromAppend (taken : Bool) (cs : List Char) (c : Char) :
    takesFrom taken (cs ++ [c]) = (!takesFrom taken cs && c == '\\') := by
  induction cs generalizing taken with
  | nil => rfl
  | cons d rest ih => rw [List.cons_append, takesFrom, ih, takesFrom]

theorem takesNextFrom (before : List Char) : TakesNext before ↔ takesFrom false before = true := by
  induction before using List.reverseRecOn with
  | nil => simp [TakesNext, takesFrom]
  | append_singleton cs c ih =>
    rw [takesFromAppend]
    by_cases mark : c = '\\'
    · subst mark
      have more : TakesNext (cs ++ ['\\']) ↔ ¬ TakesNext cs := by
        simp [TakesNext, Nat.odd_add_one]
      simp [more, ih]
    · simp [TakesNext, mark]

/- A character is written as it is, or as a backslash with a mark that stands for it. -/
theorem escapeCases (c : Char) : (escape c = [c] ∧ c ∉ ['"', '\\', '\n', '\r']) ∨
    ∃ mark, escape c = ['\\', mark] ∧ escaped? mark = some c := by
  unfold escape
  split
  · exact .inr ⟨_, rfl, rfl⟩
  · exact .inr ⟨_, rfl, rfl⟩
  · exact .inr ⟨_, rfl, rfl⟩
  · exact .inr ⟨_, rfl, rfl⟩
  · exact .inr ⟨_, rfl, rfl⟩
  · rename_i quote slash feed tab ret
    refine .inl ⟨rfl, ?_⟩
    simp only [List.mem_cons, List.not_mem_nil, or_false, not_or]
    exact ⟨quote, slash, feed, ret⟩

theorem literalTextEscape (c : Char) (rest : List Char) : literalText? (escape c ++ rest) =
    (literalText? rest).map fun p => (c :: p.1, p.2) := by
  rcases escapeCases c with ⟨same, plain⟩ | ⟨mark, pair, known⟩
  · simp only [List.mem_cons, List.not_mem_nil, or_false, not_or] at plain
    obtain ⟨quote, slash, feed, ret⟩ := plain
    rw [same, List.singleton_append, literalText?.eq_4 _ _ quote fun _ _ mark => absurd mark slash]
    simp [slash, feed, ret]
  · rw [pair, List.cons_append, List.singleton_append, literalText?, known]

theorem quoteChars (s : String) : (quote s).toList = '"' :: (s.toList.flatMap escape ++ ['"']) := by
  rw [quote, String.toList_ofList, List.cons_append]

theorem literalQuote (s : String) (tail : List Char) :
    literal? ((quote s).toList ++ tail) = some (s.toList, tail) := by
  have inside : ∀ cs : List Char,
      literalText? (cs.flatMap escape ++ '"' :: tail) = some (cs, tail) := by
    intro cs
    induction cs with
    | nil => rfl
    | cons c rest ih =>
      rw [List.flatMap_cons, List.append_assoc, literalTextEscape, ih, Option.map_some]
  rw [quoteChars, List.cons_append, List.append_assoc, List.singleton_append, literal?, inside]

theorem escapeOneLine {c d : Char} (member : d ∈ escape c) : d ≠ '\n' ∧ d ≠ '\r' := by
  rcases escapeCases c with ⟨same, plain⟩ | ⟨mark, pair, known⟩
  · rw [same, List.mem_singleton] at member
    subst member
    exact ⟨fun feed => plain (by simp [feed]), fun ret => plain (by simp [ret])⟩
  · rw [pair] at member
    rcases List.mem_cons.mp member with rfl | last
    · decide
    · rw [List.mem_singleton.mp last]
      refine ⟨?_, ?_⟩
      · rintro rfl
        cases known
      · rintro rfl
        cases known

theorem quoteOneLine {s : String} {c : Char} (member : c ∈ (quote s).toList) :
    c ≠ '\n' ∧ c ≠ '\r' := by
  rw [quoteChars, List.mem_cons, List.mem_append, List.mem_singleton] at member
  rcases member with rfl | inside | rfl
  · decide
  · obtain ⟨d, _, written⟩ := List.mem_flatMap.mp inside
    exact escapeOneLine written
  · decide

def Stands (c : Char) (after : List Char) : Prop :=
  (c = '\\' → ∃ mark rest, after = mark :: rest ∧ (escaped? mark).isSome = true) ∧
    (c = '"' → after = [])

/- The induction is on the text, and what has been written for a character leaves nothing taken. -/
theorem standsWritten {text before after : List Char} {c : Char}
    (split : text.flatMap escape ++ ['"'] = before ++ c :: after)
    (free : takesFrom false before = false) : Stands c after := by
  induction text generalizing before with
  | nil =>
    obtain ⟨rfl, last⟩ | ⟨rest, rfl, last⟩ := List.cons_eq_append_iff.mp split
    · cases last
      exact ⟨fun same => absurd same (by decide), fun _ => rfl⟩
    · simp at last
  | cons d rest ih =>
    rw [List.flatMap_cons, List.append_assoc] at split
    rcases escapeCases d with ⟨same, plain⟩ | ⟨mark, pair, known⟩
    · rw [same, List.singleton_append] at split
      obtain ⟨rfl, first⟩ | ⟨more, rfl, later⟩ := List.cons_eq_append_iff.mp split
      · cases first
        exact ⟨fun same => absurd (by simp [same]) plain, fun same => absurd (by simp [same]) plain⟩
      · have slash : (d == '\\') = false := by
          rw [beq_eq_false_iff_ne]
          exact fun same => plain (by simp [same])
        rw [takesFrom, slash] at free
        exact ih later free
    · rw [pair, List.cons_append, List.singleton_append] at split
      obtain ⟨rfl, first⟩ | ⟨more, rfl, later⟩ := List.cons_eq_append_iff.mp split
      · cases first
        exact ⟨fun _ => ⟨mark, _, rfl, by rw [known, Option.isSome_some]⟩,
          fun same => absurd same (by decide)⟩
      · obtain ⟨rfl, _⟩ | ⟨others, rfl, last⟩ := List.cons_eq_append_iff.mp later
        · cases free
        · exact ih last free

theorem quoteStands {s : String} {before after : List Char} {c : Char}
    (split : (quote s).toList = before ++ c :: after) (free : ¬ TakesNext before) :
    before = [] ∨ Stands c after := by
  rw [quoteChars] at split
  obtain ⟨rfl, _⟩ | ⟨more, rfl, later⟩ := List.cons_eq_append_iff.mp split
  · exact .inl rfl
  · rw [takesNextFrom, Bool.not_eq_true] at free
    exact .inr (standsWritten later free)

/- A quoted text is read as the text, up to its last character and no further. There is no end of a
line in it, no backslash but to begin an escape, and no quote that is not taken but the two. -/
theorem quoteContained : (∀ (s : String) (tail : List Char),
      literal? ((quote s).toList ++ tail) = some (s.toList, tail)) ∧
    (∀ s : String, ∀ c ∈ (quote s).toList, c ≠ '\n' ∧ c ≠ '\r') ∧
    (∀ (s : String) (before after : List Char), (quote s).toList = before ++ '\\' :: after →
      ¬ TakesNext before → ∃ mark rest, after = mark :: rest ∧ (escaped? mark).isSome = true) ∧
    (∀ (s : String) (before after : List Char), (quote s).toList = before ++ '"' :: after →
      ¬ TakesNext before → before = [] ∨ after = []) ∧
    Function.Injective quote := by
  refine ⟨literalQuote, fun s c => quoteOneLine, ?_, ?_, ?_⟩
  · intro s before after split free
    rcases quoteStands split free with rfl | ⟨slash, _⟩
    · rw [quoteChars] at split
      cases split
    · exact slash rfl
  · intro s before after split free
    exact (quoteStands split free).imp_right fun stands => stands.2 rfl
  · intro s t same
    have read := literalQuote s []
    rw [same, literalQuote] at read
    exact String.toList_injective (congrArg Prod.fst (Option.some.inj read)).symm

end ViewForge.Code
