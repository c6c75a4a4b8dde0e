import ViewForge.Proofs.Number.Reading
import ViewForge.Proofs.Task
import ViewForge.Token.Lexer

/-! Texts of which the tokens are known. A name ends before the first character that is no part of
it, a number before the first that is neither digit nor point, and a string at its quote. -/
namespace ViewForge

theorem readingOk {α : Type} {value : String} {x : Except ParseError.Reason α} {a : α} :
    reading value x = .ok a ↔ x = .ok a := by
  cases x <;> simp [reading]

namespace Text

theorem digitCode {c : Char} (digit : isAsciiDigit c = true) : 48 ≤ c.toNat ∧ c.toNat ≤ 57 := by
  simpa [isAsciiDigit, Char.le_def, UInt32.le_iff_toNat_le] using digit

theorem letterCode {c : Char} (letter : isAsciiLetter c = true) :
    (97 ≤ c.toNat ∧ c.toNat ≤ 122) ∨ (65 ≤ c.toNat ∧ c.toNat ≤ 90) := by
  simpa [isAsciiLetter, Char.le_def, UInt32.le_iff_toNat_le] using letter

/- No blank is a letter or a digit of any script: the ranges lie apart. -/
theorem blanksApart : ∀ r ∈ blankRanges, ∀ ranges ∈ numericRanges :: alphabeticRanges,
    ranges.all fun q => decide (q.2 < r.1) || decide (r.2 < q.1) := by
  decide +kernel

theorem blankOutside {code : Nat} (blank : blankRanges.holds code = true) {ranges : Ranges}
    (listed : ranges ∈ numericRanges :: alphabeticRanges) : ranges.holds code = false := by
  obtain ⟨r, member, within⟩ := List.any_eq_true.mp blank
  simp only [Bool.and_eq_true, decide_eq_true_eq] at within
  refine List.any_eq_false.mpr fun q inside held => ?_
  simp only [Bool.and_eq_true, decide_eq_true_eq] at held
  have apart := List.all_eq_true.mp (blanksApart r member ranges listed) q inside
  simp only [Bool.or_eq_true, decide_eq_true_eq] at apart
  omega

theorem partBlank {c : Char} (part : isNamePart c = true) : isBlank c = false := by
  simp only [isNamePart, isAlphanumeric, Bool.or_eq_true, beq_iff_eq] at part
  by_contra blank
  rw [Bool.not_eq_false] at blank
  unfold isBlank at blank
  split at blank
  · rename_i ascii
    simp only [isAlphabetic, isNumeric, if_pos ascii, isAsciiLetter, isAsciiDigit, Bool.or_eq_true,
      Bool.and_eq_true, decide_eq_true_eq, Char.le_def, UInt32.le_iff_toNat_le] at part
    simp only [Bool.or_eq_true, beq_iff_eq, Bool.and_eq_true, decide_eq_true_eq] at blank
    rcases blank with rfl | control
    · revert part
      decide
    · rcases part with code | rfl
      · simp at code
        omega
      · revert control
        decide
  · rename_i wide
    have digit := blankOutside blank List.mem_cons_self
    have letter : alphabeticRanges.any (·.holds c.toNat) = false :=
      List.any_eq_false.mpr fun ranges member => by
        rw [blankOutside blank (List.mem_cons_of_mem _ member)]
        exact Bool.false_ne_true
    simp only [isAlphabetic, isNumeric, if_neg wide, letter, digit, Bool.false_eq_true,
      false_or] at part
    subst part
    exact wide (by decide)

theorem letterAlphabetic {c : Char} (letter : isAsciiLetter c = true) : isAlphabetic c = true := by
  have code := letterCode letter
  rw [isAlphabetic, if_pos (by omega)]
  exact letter

theorem alphabeticBlank {c : Char} (letter : isAlphabetic c = true) : isBlank c = false :=
  partBlank (by simp [isNamePart, isAlphanumeric, letter])

theorem alphabeticDigit {c : Char} (letter : isAlphabetic c = true) : isAsciiDigit c = false := by
  by_contra digit
  obtain ⟨least, most⟩ := digitCode (by simpa using digit)
  unfold isAlphabetic at letter
  rw [if_pos (by omega)] at letter
  have code := letterCode letter
  omega

theorem nameStartPlain {c : Char} (start : isNameStart c = true) :
    isBlank c = false ∧ isAsciiDigit c = false := by
  rcases (Bool.or_eq_true _ _).mp start with letter | score
  · exact ⟨alphabeticBlank letter, alphabeticDigit letter⟩
  · obtain rfl := eq_of_beq score
    exact ⟨rfl, rfl⟩

end Text

namespace Token
open ParseError (Reason)
open Text (isBlank isAsciiDigit isNameStart isNamePart isName)

variable {keep : Bool}

theorem scanToken {c : Char} {rest tail : List Char} {t : Token} (plain : isBlank c = false)
    (gives : lexeme c rest = .ok (t, tail)) :
    scan keep (c :: rest) = (scan keep tail).map ([t] ++ ·) := by
  rw [scan, if_neg (by simp [plain])]
  split
  · rename_i failed
    rw [gives] at failed
    cases failed
  · rename_i given
    rw [gives] at given
    cases given
    rfl

theorem scanError {c : Char} {rest : List Char} {e : Reason} (plain : isBlank c = false)
    (fails : lexeme c rest = .error e) : scan keep (c :: rest) = .error e := by
  rw [scan, if_neg (by simp [plain])]
  split
  · rename_i failed
    rw [fails] at failed
    cases failed
    rfl
  · rename_i given
    rw [fails] at given
    cases given

theorem scanBlank {c : Char} (blank : isBlank c = true) (rest : List Char) :
    scan false (c :: rest) = scan false rest := by
  have dropped : scan false (c :: rest) = scan false (rest.dropWhile isBlank) := by
    rw [scan, if_pos blank]
    rfl
  rw [dropped]
  cases rest with
  | nil => rfl
  | cons c more =>
    rw [List.dropWhile_cons]
    split
    · rename_i blank
      rw [scan, if_pos blank]
      rfl
    · rfl

theorem scanMark {c : Char} {t : Token} (mark : punctuation? c = some t) (plain : isBlank c = false)
    (rest : List Char) : scan keep (c :: rest) = (scan keep rest).map ([t] ++ ·) := by
  refine scanToken plain ?_
  unfold lexeme
  rw [mark]

theorem scanPeriod {rest : List Char} (other : startsWithDigit rest = false) :
    scan keep ('.' :: rest) = (scan keep rest).map ([period] ++ ·) := by
  refine scanToken rfl ?_
  unfold lexeme
  simp [punctuation?, other]

def EndsName (tail : List Char) : Prop := ∀ c ∈ tail.head?, isNamePart c = false

def EndsNumber (tail : List Char) : Prop := ∀ c ∈ tail.head?, isAsciiDigit c = false ∧ c ≠ '.'

theorem nameTaken {cs tail : List Char} (parts : ∀ c ∈ cs, isNamePart c = true)
    (ends : EndsName tail) : (cs ++ tail).takeWhile isNamePart = cs ∧
      (cs ++ tail).dropWhile isNamePart = tail := by
  rw [List.takeWhile_append_of_pos parts, List.dropWhile_append_of_pos parts]
  cases tail with
  | nil => simp
  | cons c more =>
    have other : ¬ isNamePart c = true := by simp [ends c rfl]
    rw [List.takeWhile_cons_of_neg other, List.dropWhile_cons_of_neg other, List.append_nil]
    exact ⟨rfl, rfl⟩

theorem nameMark {c : Char} (start : isNameStart c = true) : punctuation? c = none := by
  unfold punctuation?
  split <;> first | rfl | exact absurd start (by decide)

theorem nameLexeme {c : Char} (start : isNameStart c = true) (rest : List Char) :
    lexeme c rest = .ok (identifier (String.ofList (c :: rest.takeWhile isNamePart)),
      rest.dropWhile isNamePart) := by
  have other : ∀ d, isNameStart d = false → c ≠ d := by
    rintro d plain rfl
    rw [plain] at start
    cases start
  have digit := (Text.nameStartPlain start).2
  unfold lexeme
  rw [nameMark start]
  simp [other '.' (by decide), other '#' (by decide), other '\'' (by decide),
    other '"' (by decide), other '-' (by decide), digit, start]

theorem scanName {cs : List Char} (name : isName cs = true) {tail : List Char}
    (ends : EndsName tail) : scan keep (cs ++ tail) =
      (scan keep tail).map ([identifier (String.ofList cs)] ++ ·) := by
  cases cs with
  | nil => cases name
  | cons c rest =>
    obtain ⟨start, parts⟩ := (Bool.and_eq_true _ _).mp name
    obtain ⟨taken, dropped⟩ := nameTaken (List.all_eq_true.mp parts) ends
    have lexed := nameLexeme start (rest ++ tail)
    rw [taken, dropped] at lexed
    exact scanToken (Text.nameStartPlain start).1 lexed

def Unquoted (text : List Char) : Prop := ∀ c ∈ text, c ≠ '\'' ∧ c ≠ '\\'

instance (text : List Char) : Decidable (Unquoted text) := List.decidableBAll _ _

theorem stringEscape (d : Char) (rest : List Char) : stringText '\'' ('\\' :: d :: rest) =
    (stringText '\'' rest).map fun p => (d :: p.1, p.2) := by
  rw [stringText.eq_def]
  simp

theorem stringQuote (rest : List Char) : stringText '\'' ('\'' :: rest) = some ([], rest) := by
  rw [stringText.eq_def]
  simp

theorem stringOther {c : Char} (quote : c ≠ '\'') (escape : c ≠ '\\') (rest : List Char) :
    stringText '\'' (c :: rest) = (stringText '\'' rest).map fun p => (c :: p.1, p.2) := by
  rw [stringText.eq_def]
  simp [quote, escape]

theorem stringTaken {text : List Char} (plain : Unquoted text) (tail : List Char) :
    stringText '\'' (text ++ '\'' :: tail) = some (text, tail) := by
  induction text with
  | nil => exact stringQuote tail
  | cons c rest ih =>
    obtain ⟨⟨quote, escape⟩, plain⟩ := List.forall_mem_cons.mp plain
    rw [List.cons_append, stringOther quote escape, ih plain]
    rfl

theorem quoteLexeme (rest : List Char) : lexeme '\'' rest =
    match stringText '\'' rest with
    | some (text, tail) => .ok (string (String.ofList text), tail)
    | none => .error .unterminatedString := by
  rfl

theorem scanString {text : List Char} (plain : Unquoted text) (tail : List Char) :
    scan keep ('\'' :: (text ++ '\'' :: tail)) =
      (scan keep tail).map ([string (String.ofList text)] ++ ·) := by
  refine scanToken rfl ?_
  rw [quoteLexeme, stringTaken plain]

theorem replicateShifted (k : Nat) (c : Char) (rest : List Char) :
    List.replicate k c ++ c :: rest = List.replicate (k + 1) c ++ rest := by
  rw [List.replicate_succ', List.append_assoc, List.singleton_append]

/- Read between quotes, a text with a quote or a backslash in it does not come back. A backslash is
left out, so that one more of them would have to follow, and so on. -/
theorem stringLost (tail others : List Char) (text : List Char) (k : Nat)
    (more : 0 < k ∨ ¬ Unquoted text) :
    stringText '\'' (text ++ '\'' :: tail) ≠ some (List.replicate k '\\' ++ text, others) := by
  intro same
  match text, more with
  | [], more =>
    rw [List.nil_append, stringQuote, List.append_nil] at same
    cases k with
    | zero => simp [Unquoted] at more
    | succ k => cases same
  | c :: rest, more =>
    rw [List.cons_append] at same
    by_cases escape : c = '\\'
    · subst escape
      rw [replicateShifted, List.replicate_succ, List.cons_append] at same
      match rest with
      | [] =>
        rw [List.nil_append, stringEscape] at same
        obtain ⟨p, _, taken⟩ := Option.map_eq_some_iff.mp same
        cases taken
      | d :: rest =>
        rw [List.cons_append, stringEscape] at same
        obtain ⟨p, read, taken⟩ := Option.map_eq_some_iff.mp same
        injection taken with first second
        injection first with head kept
        subst head
        rw [replicateShifted] at kept
        refine stringLost tail others rest (k + 1) (.inl (Nat.succ_pos k)) ?_
        rw [read, ← kept, ← second]
    · by_cases quote : c = '\''
      · subst quote
        rw [stringQuote] at same
        cases k <;> cases same
      · rw [stringOther quote escape] at same
        obtain ⟨p, read, taken⟩ := Option.map_eq_some_iff.mp same
        injection taken with first second
        cases k with
        | succ k => exact escape (by simpa [List.replicate_succ] using congrArg List.head? first)
        | zero =>
          have lost : ¬ Unquoted rest := by
            intro plain
            rcases more with some | quoted
            · exact absurd some (Nat.lt_irrefl 0)
            · exact quoted (List.forall_mem_cons.mpr ⟨⟨quote, escape⟩, plain⟩)
          injection first with _ kept
          refine stringLost tail others rest 0 (.inr lost) ?_
          rw [read, List.replicate_zero, List.nil_append, ← kept, ← second]

theorem digitPlain {c : Char} (digit : isAsciiDigit c = true) :
    isBlank c = false ∧ punctuation? c = none := by
  obtain ⟨least, most⟩ := Text.digitCode digit
  constructor
  · unfold isBlank
    rw [if_pos (by omega)]
    simp only [Bool.or_eq_false_iff, beq_eq_false_iff_ne, Bool.and_eq_false_iff,
      decide_eq_false_iff_not]
    refine ⟨?_, by omega⟩
    rintro rfl
    cases digit
  · unfold punctuation?
    split <;> first | rfl | cases digit

theorem numberTaken {cs : List Char} {q : ℚ} (reads : Number.decimal? cs = some q)
    {tail : List Char} (ends : EndsNumber tail) : numberText (cs ++ tail) = (cs, tail) := by
  obtain ⟨whole, fraction, left, right, _, _, written⟩ := Number.decimalParts reads
  have stops : ∀ c more, tail = c :: more → isAsciiDigit c = false := by
    rintro c more rfl
    exact (ends c rfl).1
  rcases written with ⟨rfl, rfl⟩ | ⟨some, rfl⟩
  · obtain ⟨taken, dropped⟩ := Number.wholeTaken left stops
    unfold numberText
    simp only [taken, dropped]
    split
    · exact absurd rfl (ends '.' rfl).2
    · rfl
  · obtain ⟨taken, dropped⟩ := Number.wholeTaken left
      (show ∀ c more, '.' :: (fraction ++ tail) = c :: more → _ by rintro c more ⟨⟩; rfl)
    obtain ⟨inner, rest⟩ := Number.wholeTaken right stops
    have digit : startsWithDigit (fraction ++ tail) = true := by
      cases fraction with
      | nil => exact absurd rfl some
      | cons d more => exact right d List.mem_cons_self
    unfold numberText
    rw [List.append_assoc, List.cons_append]
    simp only [taken, dropped, digit, inner, rest, if_true]

theorem numberRead {cs : List Char} {q : ℚ} (reads : Number.decimal? cs = some q) {y : Float}
    (value : Number.read? (String.ofList cs) = some y) {tail : List Char}
    (ends : EndsNumber tail) : readNumber (cs ++ tail) = .ok (y, tail) := by
  unfold readNumber
  rw [numberTaken reads ends, value]

theorem scanNumber {cs : List Char} {x : Float} {negative : Bool}
    (spells : Number.Spells negative cs x) {tail : List Char} (ends : EndsNumber tail) :
    scan keep (Number.signed negative cs ++ tail) = (scan keep tail).map ([number x] ++ ·) := by
  obtain ⟨⟨q, reads⟩, y, value, signed⟩ := spells
  have read := numberRead reads value ends
  obtain ⟨c, rest, rfl, digit⟩ := Number.decimalHead reads
  rw [List.cons_append] at read
  cases negative with
  | false =>
    obtain ⟨blank, mark⟩ := digitPlain digit
    have other : ∀ d, isAsciiDigit d = false → c ≠ d := by
      rintro d plain rfl
      rw [plain] at digit
      cases digit
    refine scanToken blank ?_
    unfold lexeme
    rw [mark]
    simp [other '.' rfl, other '#' rfl, other '\'' rfl, other '"' rfl, other '-' rfl, digit, read]
    exact signed
  | true =>
    refine scanToken rfl ?_
    have starts : startsNumber (c :: (rest ++ tail)) = true := by
      unfold startsNumber
      split
      · rfl
      · exact digit
    rw [← signed]
    unfold lexeme
    simp [punctuation?, starts, read]

theorem markOther {c : Char} {t : Token} (mark : punctuation? c = some t) (name : String) :
    t ≠ identifier name := by
  unfold punctuation? at mark
  split at mark <;> cases mark <;> nofun

theorem operatorOther {c : Char} {rest tail : List Char} {t : Token}
    (gives : readOperator c rest = .ok (t, tail)) (name : String) : t ≠ identifier name := by
  unfold readOperator at gives
  split at gives <;> cases gives <;> nofun

theorem lexemeName {c : Char} {rest tail : List Char} {name : String}
    (gives : lexeme c rest = .ok (identifier name, tail)) : isName name.toList = true := by
  unfold lexeme at gives
  split at gives
  · rename_i mark
    cases gives
    exact absurd rfl (markOther mark name)
  · split_ifs at gives with _ _ _ _ _ start
    · cases gives
    · split at gives <;> cases gives
    · split at gives <;> cases gives
    · split at gives <;> cases gives
    · split at gives <;> cases gives
    · cases gives
      rw [String.toList_ofList, isName, start, Bool.true_and]
      exact List.all_takeWhile
    · exact absurd rfl (operatorOther gives name)

/- Every name among the tokens of a text is a name. -/
theorem scanNames {cs : List Char} {ts : List Token} (scanned : scan keep cs = .ok ts)
    {name : String} (member : identifier name ∈ ts) : isName name.toList = true := by
  induction cs using scan.induct keep generalizing ts with
  | case1 =>
    rw [scan] at scanned
    cases scanned
    cases member
  | case2 c rest blank kept ih =>
    rw [scan, if_pos blank, if_pos kept] at scanned
    obtain ⟨others, tail, rfl⟩ := Result.mapOk.mp scanned
    rcases List.mem_cons.mp member with same | later
    · cases same
    · exact ih tail later
  | case3 c rest blank dropped ih =>
    rw [scan, if_pos blank, if_neg dropped] at scanned
    exact ih scanned member
  | case4 c rest plain e failed =>
    rw [scan, if_neg plain] at scanned
    split at scanned
    · cases scanned
    · rename_i lexed
      rw [failed] at lexed
      cases lexed
  | case5 c rest plain t tail given ih =>
    rw [scanToken (by simpa using plain) given] at scanned
    obtain ⟨others, after, rfl⟩ := Result.mapOk.mp scanned
    rcases List.mem_cons.mp member with rfl | later
    · exact lexemeName given
    · exact ih after later

end Token
end ViewForge
