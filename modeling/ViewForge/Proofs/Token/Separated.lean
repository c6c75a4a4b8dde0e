import ViewForge.Proofs.Token

/-! Texts on both sides of a mark. A mark ends every token before it but a string that is still open,
so that the tokens of the whole are those of the two sides, unless the mark ends up in a string. A
blank ends tokens in the same way. -/
namespace ViewForge.Token
open ParseError (Reason)
open Text (isBlank isAsciiDigit isAsciiLetter isNameStart isNamePart)

def IsMark (c : Char) : Prop := (punctuation? c).isSome = true

instance (c : Char) : Decidable (IsMark c) := inferInstanceAs (Decidable (_ = true))

/-- A character that no token but a string goes on with. -/
structure Divides (m : Char) : Prop where
  part : isNamePart m = false
  hexPart : isHexPart m = false
  digit : isAsciiDigit m = false
  point : m ≠ '.'
  second : m ≠ '=' ∧ m ≠ '&' ∧ m ≠ '|'

theorem markPlain {m : Char} (mark : IsMark m) : isBlank m = false := by
  unfold IsMark punctuation? at mark
  split at mark <;> first | decide | cases mark

theorem markDivides {m : Char} (mark : IsMark m) : Divides m := by
  unfold IsMark punctuation? at mark
  split at mark <;> first | (constructor <;> decide) | cases mark

theorem blankDivides {m : Char} (blank : isBlank m = true) : Divides m := by
  have other : ∀ d, isBlank d = false → m ≠ d := by
    rintro d visible rfl
    rw [visible] at blank
    cases blank
  have digit : isAsciiDigit m = false := by
    by_contra digit
    rw [(digitPlain (by simpa using digit)).1] at blank
    cases blank
  have part : isNamePart m = false := by
    by_contra part
    rw [Text.partBlank (by simpa using part)] at blank
    cases blank
  have letter : isAsciiLetter m = false := by
    by_contra letter
    rw [Text.alphabeticBlank (Text.letterAlphabetic (by simpa using letter))] at blank
    cases blank
  refine ⟨part, ?_, digit, other '.' rfl, other '=' rfl, other '&' rfl, other '|' rfl⟩
  rw [isHexPart, letter, digit, Bool.or_false]

theorem takenBefore {p : Char → Bool} {m : Char} (stops : p m = false) (cs more : List Char) :
    (cs ++ m :: more).takeWhile p = cs.takeWhile p ∧
      (cs ++ m :: more).dropWhile p = cs.dropWhile p ++ m :: more := by
  induction cs with
  | nil => simp [stops]
  | cons c rest ih =>
    rw [List.cons_append, List.takeWhile_cons, List.takeWhile_cons, List.dropWhile_cons,
      List.dropWhile_cons, ih.1, ih.2]
    split <;> exact ⟨rfl, rfl⟩

theorem digitsBefore {m : Char} (divides : Divides m) (cs more : List Char) :
    startsWithDigit (cs ++ m :: more) = startsWithDigit cs := by
  cases cs with
  | nil => exact divides.digit
  | cons c rest => rfl

theorem numberBefore {m : Char} (divides : Divides m) (cs more : List Char) :
    startsNumber (cs ++ m :: more) = startsNumber cs := by
  cases cs with
  | nil =>
    unfold startsNumber
    split
    · rename_i same
      cases same
      exact absurd rfl divides.point
    · exact divides.digit
  | cons c rest =>
    unfold startsNumber
    split <;> rename_i first
    · cases first
      rfl
    · split
      · rename_i same
        cases same
        exact absurd rfl (first _)
      · rfl

theorem numberTextBefore {m : Char} (divides : Divides m) (cs more : List Char) :
    numberText (cs ++ m :: more) = ((numberText cs).1, (numberText cs).2 ++ m :: more) := by
  obtain ⟨whole, left⟩ := takenBefore divides.digit cs more
  unfold numberText
  simp only [whole, left]
  cases rest : cs.dropWhile isAsciiDigit with
  | nil =>
    simp only [List.nil_append]
    split
    · rename_i same
      cases same
      exact absurd rfl divides.point
    · rfl
  | cons c tail =>
    rw [List.cons_append]
    by_cases dot : c = '.'
    · subst dot
      obtain ⟨fraction, after⟩ := takenBefore divides.digit tail more
      simp only [digitsBefore divides, fraction, after]
      split <;> rfl
    · split
      · rename_i same
        cases same
        exact absurd rfl dot
      · split
        · rename_i same
          cases same
          exact absurd rfl dot
        · rfl

theorem readNumberBefore {m : Char} (divides : Divides m) (cs more : List Char) :
    readNumber (cs ++ m :: more) =
      (readNumber cs).map fun p => (p.1, p.2 ++ m :: more) := by
  unfold readNumber
  rw [numberTextBefore divides]
  simp only
  split <;> rfl

theorem readOperatorBefore {m : Char} (divides : Divides m) (c : Char) (cs more : List Char) :
    readOperator c (cs ++ m :: more) =
      (readOperator c cs).map fun p => (p.1, p.2 ++ m :: more) := by
  have other := divides.second
  cases cs with
  | nil =>
    rw [List.nil_append]
    unfold readOperator
    split <;> simp_all [Except.map]
  | cons d rest =>
    rw [List.cons_append]
    unfold readOperator
    split <;> simp_all [Except.map]

theorem stringTextBefore {quote : Char} {cs text tail : List Char} (more : List Char)
    (closed : stringText quote cs = some (text, tail)) :
    stringText quote (cs ++ more) = some (text, tail ++ more) := by
  fun_induction stringText quote cs generalizing text tail with
  | case1 => cases closed
  | case2 => cases closed
  | case3 d rest ih =>
    obtain ⟨p, found, same⟩ := Option.map_eq_some_iff.mp closed
    cases same
    rw [List.cons_append, List.cons_append, stringText.eq_def]
    simp [ih found]
  | case4 rest escape =>
    cases closed
    rw [List.cons_append, stringText.eq_def]
    simp [escape]
  | case5 c rest escape quoted ih =>
    obtain ⟨p, found, same⟩ := Option.map_eq_some_iff.mp closed
    cases same
    rw [List.cons_append, stringText.eq_def]
    simp [escape, quoted, ih found]

def IsQuote (c : Char) : Prop := c = '\'' ∨ c = '"'

instance (c : Char) : Decidable (IsQuote c) := inferInstanceAs (Decidable (_ ∨ _))

theorem quoted {c : Char} (quote : IsQuote c) (rest : List Char) : lexeme c rest =
    match stringText c rest with
    | some (text, tail) => .ok (string (String.ofList text), tail)
    | none => .error .unterminatedString := by
  rcases quote with rfl | rfl <;> rfl

/- What a token other than a string takes of a text is decided before the mark. -/
theorem lexemeBefore {m : Char} (divides : Divides m) {c : Char} (other : ¬ IsQuote c)
    (cs more : List Char) :
    lexeme c (cs ++ m :: more) = (lexeme c cs).map fun p => (p.1, p.2 ++ m :: more) := by
  obtain ⟨digits, afterDigits⟩ := takenBefore divides.hexPart cs more
  obtain ⟨name, afterName⟩ := takenBefore divides.part cs more
  have number := readNumberBefore divides (c :: cs) more
  rw [List.cons_append] at number
  unfold IsQuote at other
  unfold lexeme
  rw [digitsBefore divides, numberBefore divides, digits, afterDigits, name, afterName, number,
    readNumberBefore divides, readOperatorBefore divides]
  cases punctuation? c with
  | some t => rfl
  | none =>
    simp only [if_neg other]
    split_ifs
    · rfl
    · cases cs.takeWhile isHexPart <;> rfl
    · cases readNumber cs <;> rfl
    · cases readNumber (c :: cs) <;> rfl
    · rfl
    · rfl
    · rfl

theorem lexemeKept {m : Char} (divides : Divides m) {c : Char} {rest tail : List Char} {t : Token}
    (gives : lexeme c rest = .ok (t, tail)) (more : List Char) :
    lexeme c (rest ++ m :: more) = .ok (t, tail ++ m :: more) := by
  by_cases quote : IsQuote c
  · rw [quoted quote] at gives ⊢
    split at gives
    · rename_i closed
      cases gives
      rw [stringTextBefore _ closed]
    · cases gives
  · rw [lexemeBefore divides quote, gives]
    rfl

/- A string is all that a mark can turn an unreadable rest into. -/
theorem lexemeOpen {m : Char} (divides : Divides m) {c : Char} {rest more tail : List Char} {t : Token}
    {e : Reason} (failed : lexeme c rest = .error e)
    (gives : lexeme c (rest ++ m :: more) = .ok (t, tail)) : ∃ text, t = string text := by
  by_cases quote : IsQuote c
  · rw [quoted quote] at gives
    split at gives
    · cases gives
      exact ⟨_, rfl⟩
    · cases gives
  · rw [lexemeBefore divides quote, failed] at gives
    cases gives

variable {keep : Bool}

theorem scanBlanks {c : Char} (blank : isBlank c = true) (rest : List Char) :
    scan keep (c :: rest) = (scan keep (rest.dropWhile isBlank)).map
      ((if keep then [whitespace (String.ofList (c :: rest.takeWhile isBlank))] else []) ++ ·) := by
  rw [scan, if_pos blank]
  cases keep with
  | true => rfl
  | false => cases scan false (rest.dropWhile isBlank) <;> rfl

theorem mapAgain {α β γ : Type} (x : Except Reason α) (f : α → β) (g : β → γ) :
    (x.map f).map g = x.map fun a => g (f a) := by
  cases x <;> rfl

section
variable {m : Char} {t : Token} (mark : punctuation? m = some t)
include mark

theorem markIs : IsMark m := by rw [IsMark, mark]; rfl

theorem scanBefore {cs : List Char} {ts : List Token} (scanned : scan keep cs = .ok ts)
    (more : List Char) :
    scan keep (cs ++ m :: more) = (scan keep more).map (ts ++ t :: ·) := by
  have plain := markPlain (markIs mark)
  induction cs using scan.induct keep generalizing ts with
  | case1 =>
    rw [scan] at scanned
    cases scanned
    exact scanMark mark plain more
  | case2 c rest blank _ ih | case3 c rest blank _ ih =>
    obtain ⟨run, after⟩ := takenBefore plain rest more
    rw [scanBlanks blank] at scanned
    obtain ⟨others, later, rfl⟩ := Result.mapOk.mp scanned
    rw [List.cons_append, scanBlanks blank, run, after, ih later, mapAgain]
    simp only [List.append_assoc]
  | case4 c rest visible e failed =>
    rw [scanError (by simpa using visible) failed] at scanned
    cases scanned
  | case5 c rest visible first tail given ih =>
    have clear : isBlank c = false := by simpa using visible
    rw [scanToken clear given] at scanned
    obtain ⟨others, later, rfl⟩ := Result.mapOk.mp scanned
    have whole := lexemeKept (markDivides (markIs mark)) given more
    rw [List.cons_append, scanToken clear whole, ih later, mapAgain]
    rfl

/- What has no tokens can only have some with a mark behind it if a string is open. -/
theorem scanOpen {cs more : List Char} {e : Reason} (failed : scan keep cs = .error e)
    {ts : List Token} (scanned : scan keep (cs ++ m :: more) = .ok ts) :
    ∃ text, string text ∈ ts := by
  have plain := markPlain (markIs mark)
  induction cs using scan.induct keep generalizing ts with
  | case1 =>
    rw [scan] at failed
    cases failed
  | case2 c rest blank _ ih | case3 c rest blank _ ih =>
    obtain ⟨_, after⟩ := takenBefore plain rest more
    rw [scanBlanks blank] at failed
    rw [List.cons_append, scanBlanks blank, after] at scanned
    obtain ⟨others, later, rfl⟩ := Result.mapOk.mp scanned
    obtain ⟨text, member⟩ := ih (Result.mapError.mp failed) later
    exact ⟨text, List.mem_append_right _ member⟩
  | case4 c rest visible e' gives =>
    have clear : isBlank c = false := by simpa using visible
    rw [List.cons_append] at scanned
    cases whole : lexeme c (rest ++ m :: more) with
    | error e'' =>
      rw [scanError clear whole] at scanned
      cases scanned
    | ok p =>
      rw [scanToken clear whole] at scanned
      obtain ⟨others, _, rfl⟩ := Result.mapOk.mp scanned
      obtain ⟨text, same⟩ := lexemeOpen (markDivides (markIs mark)) gives whole
      exact ⟨text, by rw [same]; exact List.mem_cons_self⟩
  | case5 c rest visible first tail given ih =>
    have clear : isBlank c = false := by simpa using visible
    rw [scanToken clear given] at failed
    rw [List.cons_append, scanToken clear (lexemeKept (markDivides (markIs mark)) given more)] at scanned
    obtain ⟨others, later, rfl⟩ := Result.mapOk.mp scanned
    obtain ⟨text, member⟩ := ih (Result.mapError.mp failed) later
    exact ⟨text, List.mem_append_right _ member⟩

end

end ViewForge.Token
