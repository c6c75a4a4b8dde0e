import Mathlib.Data.List.Forall2
import ViewForge.Code.Printer

/-! A text with all its lines moved to the right. Character by character, what a character becomes
depends only on whether its line is still empty, so the pieces of a text are moved one by one. -/
namespace ViewForge.Code

def shiftedLine (line : String) : String := if line = "" then "" else indentation 1 ++ line

def shifted (text : String) : String :=
  Text.join "\n" ((Text.cut '\n' text).map shiftedLine)

def shiftedFrom : Bool → List Char → List Char
  | _, [] => []
  | fresh, c :: rest =>
    (if fresh && c != '\n' then (indentation 1).toList else []) ++
      c :: shiftedFrom (c == '\n') rest

def freshAfter : Bool → List Char → Bool
  | fresh, [] => fresh
  | _, c :: rest => freshAfter (c == '\n') rest

theorem shiftedFromAppend (fresh : Bool) (xs ys : List Char) :
    shiftedFrom fresh (xs ++ ys) =
      shiftedFrom fresh xs ++ shiftedFrom (freshAfter fresh xs) ys := by
  induction xs generalizing fresh with
  | nil => rfl
  | cons c rest ih =>
    rw [List.cons_append, shiftedFrom, shiftedFrom, ih, freshAfter, List.append_assoc,
      List.cons_append]

theorem freshAfterAppend (fresh : Bool) (xs ys : List Char) :
    freshAfter fresh (xs ++ ys) = freshAfter (freshAfter fresh xs) ys := by
  induction xs generalizing fresh with
  | nil => rfl
  | cons c rest ih => exact ih _

theorem joinChars (separator first : String) (rest : List String) :
    (Text.join separator (first :: rest)).toList =
      first.toList ++ rest.flatMap fun piece => separator.toList ++ piece.toList := by
  induction rest generalizing first with
  | nil => simp [Text.join]
  | cons next rest ih => simp [Text.join, ih]

theorem shiftedLineChars (cs : List Char) : (shiftedLine (String.ofList cs)).toList =
    if cs = [] then [] else (indentation 1).toList ++ cs := by
  unfold shiftedLine
  by_cases empty : cs = []
  · simp [empty]
  · rw [if_neg empty, if_neg (by simpa using empty), String.toList_append, String.toList_ofList]

/- The first line may have begun before; every other one is moved as a whole. -/
theorem shiftedPieces (cs : List Char) : ∃ first rest, Text.cutChars '\n' cs = first :: rest ∧
    ∀ fresh, shiftedFrom fresh cs =
      (if fresh = true ∧ first ≠ [] then (indentation 1).toList else []) ++ first ++
        rest.flatMap fun piece => '\n' :: (shiftedLine (String.ofList piece)).toList := by
  induction cs with
  | nil => exact ⟨[], [], rfl, fun fresh => by simp [shiftedFrom]⟩
  | cons c cs ih =>
    obtain ⟨first, rest, cut, shift⟩ := ih
    by_cases feed : c = '\n'
    · refine ⟨[], first :: rest, by simp [Text.cutChars, feed, cut], fun fresh => ?_⟩
      rw [shiftedFrom, shift, feed, List.flatMap_cons, shiftedLineChars]
      by_cases empty : first = [] <;> simp [empty]
    · refine ⟨c :: first, rest, by simp [Text.cutChars, feed, cut], fun fresh => ?_⟩
      rw [shiftedFrom, shift, beq_false_of_ne feed]
      simp [feed]

theorem shiftedChars (text : String) : (shifted text).toList = shiftedFrom true text.toList := by
  obtain ⟨first, rest, cut, shift⟩ := shiftedPieces text.toList
  rw [shifted, Text.cut, cut, List.map_cons, List.map_cons, joinChars, shift, shiftedLineChars]
  by_cases empty : first = [] <;> simp [empty, List.flatMap_map]

/-- The second text is the first where all lines but the one that it begins in are moved, and the
first ends within a line. -/
structure Hangs (text moved : String) : Prop where
  begins : text.toList.head? ≠ some '\n'
  ends : freshAfter false text.toList = false
  moved : moved.toList = shiftedFrom false text.toList

/-- The second text is the first with all lines moved, and the first consists of whole lines. -/
structure Lines (text moved : String) : Prop where
  ends : freshAfter true text.toList = true
  moved : moved.toList = shiftedFrom true text.toList

theorem hangsPlain {text : String} (plain : '\n' ∉ text.toList) : Hangs text text := by
  have kept : ∀ cs : List Char, '\n' ∉ cs →
      freshAfter false cs = false ∧ shiftedFrom false cs = cs := by
    intro cs absent
    induction cs with
    | nil => exact ⟨rfl, rfl⟩
    | cons c cs ih =>
      rw [List.mem_cons, not_or] at absent
      rw [shiftedFrom, freshAfter, beq_false_of_ne (Ne.symm absent.1), (ih absent.2).2]
      exact ⟨(ih absent.2).1, rfl⟩
  obtain ⟨ends, same⟩ := kept text.toList plain
  exact ⟨fun head => plain (List.mem_of_mem_head? head), ends, same.symm⟩

theorem hangsNone : Hangs "" "" := hangsPlain List.not_mem_nil

theorem hangsAppend {a b c d : String} (left : Hangs a b) (right : Hangs c d) :
    Hangs (a ++ c) (b ++ d) := by
  refine ⟨?_, ?_, ?_⟩
  · rw [String.toList_append, List.head?_append]
    cases first : a.toList.head? with
    | none => exact right.begins
    | some x =>
      rw [Option.some_or, ← first]
      exact left.begins
  · rw [String.toList_append, freshAfterAppend, left.ends, right.ends]
  · rw [String.toList_append, String.toList_append, shiftedFromAppend, left.ends, left.moved,
      right.moved]

theorem hangsBetween {before after text moved : String} (front : '\n' ∉ before.toList)
    (hangs : Hangs text moved) (back : '\n' ∉ after.toList) :
    Hangs (before ++ text ++ after) (before ++ moved ++ after) :=
  hangsAppend (hangsAppend (hangsPlain front) hangs) (hangsPlain back)

theorem linesAppend {a b c d : String} (left : Lines a b) (right : Lines c d) :
    Lines (a ++ c) (b ++ d) := by
  refine ⟨?_, ?_⟩
  · rw [String.toList_append, freshAfterAppend, left.ends, right.ends]
  · rw [String.toList_append, String.toList_append, shiftedFromAppend, left.ends, left.moved,
      right.moved]

theorem linesNone : Lines "" "" := ⟨rfl, rfl⟩

theorem indentationPlain (level : Nat) : '\n' ∉ (indentation level).toList := by
  unfold indentation
  induction level with
  | zero => simp [Text.repeated]
  | succ level ih =>
    rw [Text.repeated, String.toList_append, List.mem_append]
    exact not_or.mpr ⟨by decide, ih⟩

/- A text that hangs is moved as a whole when it begins a line. -/
theorem hangsIndented {text moved : String} (level : Nat) (hangs : Hangs text moved)
    (inhabited : text ≠ "") : freshAfter true (indentation level ++ text).toList = false ∧
      (indentation (level + 1) ++ moved).toList =
        shiftedFrom true (indentation level ++ text).toList := by
  have whole := hangsAppend (hangsPlain (indentationPlain level)) hangs
  have deeper : (indentation (level + 1) ++ moved).toList =
      (indentation 1).toList ++ (indentation level ++ moved).toList := by
    simp [indentation, Text.repeated]
  rw [deeper, whole.moved]
  have ends := whole.ends
  cases chars : (indentation level ++ text).toList with
  | nil => simp [inhabited] at chars
  | cons c rest =>
    have other : c ≠ '\n' := by
      rintro rfl
      exact whole.begins (by rw [chars, List.head?_cons])
    rw [chars] at ends
    exact ⟨ends, by simp [shiftedFrom, other]⟩

theorem hangsEmpty {text moved : String} (hangs : Hangs text moved) : moved = "" ↔ text = "" := by
  rw [← String.toList_eq_nil_iff, ← String.toList_eq_nil_iff, hangs.moved]
  cases text.toList with
  | nil => simp [shiftedFrom]
  | cons c rest => simp [shiftedFrom]

theorem linesOfHangs {text moved : String} (level : Nat) (hangs : Hangs text moved) :
    Lines (line level text) (line (level + 1) moved) := by
  unfold line
  simp only [hangsEmpty hangs]
  split
  · exact ⟨rfl, rfl⟩
  · rename_i inhabited
    obtain ⟨ends, shift⟩ := hangsIndented level hangs inhabited
    have split : ∀ s : String, (s ++ "\n").toList = s.toList ++ ['\n'] :=
      fun s => String.toList_append
    refine ⟨?_, ?_⟩
    · rw [split, freshAfterAppend]
      rfl
    · rw [split, split, shiftedFromAppend, ends, shift]
      rfl

theorem plainLine {text : String} (level : Nat) (plain : '\n' ∉ text.toList) :
    Lines (line level text) (line (level + 1) text) := linesOfHangs level (hangsPlain plain)

theorem linesClosed {header movedHeader body moved : String} (level : Nat)
    (hangs : Hangs header movedHeader) (lines : Lines body moved) :
    Lines (line level header ++ body ++ line level "\x7d")
      (line (level + 1) movedHeader ++ moved ++ line (level + 1) "\x7d") :=
  linesAppend (linesAppend (linesOfHangs level hangs) lines) (plainLine level (by decide))

/- The opening brace follows other text, and what is printed between the braces is whole lines. -/
theorem hangsBraced {header body moved : String} (level : Nat) (hangs : Hangs header header)
    (inhabited : header ≠ "") (lines : Lines body moved) :
    Hangs (header ++ "\n" ++ body ++ indentation level ++ "\x7d")
      (header ++ "\n" ++ moved ++ indentation (level + 1) ++ "\x7d") := by
  obtain ⟨begins, ends, same⟩ := hangs
  obtain ⟨closes, brace⟩ :=
    hangsIndented level (hangsPlain (show '\n' ∉ "\x7d".toList by decide)) (by decide)
  have front : header.toList.head? ≠ none := by simpa using inhabited
  have split : ∀ (n : Nat) (inner : String),
      (header ++ "\n" ++ inner ++ indentation n ++ "\x7d").toList =
        header.toList ++ '\n' :: (inner.toList ++ (indentation n ++ "\x7d").toList) := by
    simp
  refine ⟨?_, ?_, ?_⟩
  · rw [split, List.head?_append]
    cases first : header.toList.head? with
    | none => exact absurd first front
    | some c =>
      rw [Option.some_or, ← first]
      exact begins
  · rw [split, freshAfterAppend, freshAfter, freshAfterAppend]
    exact (congrArg (freshAfter · _) lines.ends).trans closes
  · have tail : shiftedFrom true (body.toList ++ (indentation level ++ "\x7d").toList) =
        moved.toList ++ (indentation (level + 1) ++ "\x7d").toList := by
      rw [shiftedFromAppend, lines.ends, ← lines.moved, ← brace]
    rw [split, split, shiftedFromAppend, ends, ← same, ← tail]
    rfl

theorem mapsRelated {α : Type} {R : String → String → Prop} {f g : α → String} {xs : List α}
    (each : ∀ x ∈ xs, R (f x) (g x)) : List.Forall₂ R (xs.map f) (xs.map g) :=
  List.forall₂_map_left_iff.mpr (List.forall₂_map_right_iff.mpr (List.forall₂_same.mpr each))

theorem hangsJoin {texts moved : List String} (each : List.Forall₂ Hangs texts moved) :
    Hangs (Text.join ", " texts) (Text.join ", " moved) := by
  induction each with
  | nil => exact hangsPlain (by decide)
  | cons first others ih =>
    cases others with
    | nil => exact first
    | cons next rest => exact hangsAppend (hangsAppend first (hangsPlain (by decide))) ih

theorem linesConcat {texts moved : List String} (each : List.Forall₂ Lines texts moved) :
    Lines (Text.concat texts) (Text.concat moved) := by
  induction each with
  | nil => exact linesNone
  | cons first _ ih => exact linesAppend first ih

theorem linesShifted {text moved : String} (lines : Lines text moved) : moved = shifted text := by
  rw [← String.toList_inj, shiftedChars, lines.moved]

theorem cutPlain {separator : Char} (cs : List Char) :
    ∀ piece ∈ Text.cutChars separator cs, separator ∉ piece := by
  induction cs with
  | nil => simp [Text.cutChars]
  | cons c rest ih =>
    rw [Text.cutChars]
    split
    · exact List.forall_mem_cons.mpr ⟨List.not_mem_nil, ih⟩
    · rename_i other
      split
      · simpa using Ne.symm other
      · rename_i piece pieces cut
        rw [cut] at ih
        obtain ⟨first, others⟩ := List.forall_mem_cons.mp ih
        refine List.forall_mem_cons.mpr ⟨?_, others⟩
        rw [List.mem_cons, not_or]
        exact ⟨Ne.symm other, first⟩

theorem dropReturnPlain {line : List Char} (plain : '\n' ∉ line) : '\n' ∉ Text.dropReturn line := by
  unfold Text.dropReturn
  split
  · rename_i rest reversed
    intro inside
    have listed : '\n' ∈ line.reverse := by
      rw [reversed]
      exact List.mem_cons_of_mem _ (List.mem_reverse.mp inside)
    exact plain (List.mem_reverse.mp listed)
  · exact plain

theorem linesPlain (text : String) : ∀ l ∈ Text.lines text, '\n' ∉ l.toList := by
  have kept : ∀ pieces : List (List Char), (∀ piece ∈ pieces, '\n' ∉ piece) →
      ∀ line ∈ Text.linesOf pieces, '\n' ∉ line := by
    intro pieces plain
    induction pieces using Text.linesOf.induct with
    | case1 => simp [Text.linesOf]
    | case2 last empty => simp [Text.linesOf, empty]
    | case3 last inhabited => simpa [Text.linesOf, inhabited] using plain
    | case4 line rest more ih =>
      obtain ⟨first, others⟩ := List.forall_mem_cons.mp plain
      rw [Text.linesOf]
      · exact List.forall_mem_cons.mpr ⟨dropReturnPlain first, ih others⟩
      · exact more
  intro l member
  obtain ⟨line, inside, rfl⟩ := List.mem_map.mp member
  rw [String.toList_ofList]
  exact kept _ (cutPlain _) line inside

theorem commentLines (level : Nat) (text : String) :
    Lines (comments level text) (comments (level + 1) text) := by
  refine linesConcat (mapsRelated fun l member => linesOfHangs level ?_)
  exact hangsAppend (hangsPlain (by decide)) (hangsPlain (linesPlain text l member))

end ViewForge.Code
