import ViewForge.Error.Reading
import ViewForge.Token.Basic
/-! Lexical analysis. `lexeme` reads one token at a character that is no blank and returns the
text after it, which is never longer; `scan` repeats it to the end. -/
namespace ViewForge.Token
open ParseError (Reason)
open Text (isBlank isAsciiDigit isAsciiLetter isNameStart isNamePart)

def startsWithDigit : List Char → Bool
  | d :: _ => isAsciiDigit d
  | [] => false

def numberText (cs : List Char) : List Char × List Char :=
  let whole := cs.takeWhile isAsciiDigit
  match cs.dropWhile isAsciiDigit with
  | '.' :: rest =>
    if startsWithDigit rest then
      (whole ++ '.' :: rest.takeWhile isAsciiDigit, rest.dropWhile isAsciiDigit)
    else (whole, '.' :: rest)
  | rest => (whole, rest)

def readNumber (cs : List Char) : Except Reason (Float × List Char) :=
  match Number.read? (String.ofList (numberText cs).1) with
  | some value => .ok (value, (numberText cs).2)
  | none => .error (.invalidNumber (String.ofList (numberText cs).1))

def stringText (quote : Char) : List Char → Option (List Char × List Char)
  | [] => none
  | c :: rest =>
    if c = '\\' then
      match rest with
      | [] => none
      | d :: rest => (stringText quote rest).map fun p => (d :: p.1, p.2)
    else if c = quote then some ([], rest)
    else (stringText quote rest).map fun p => (c :: p.1, p.2)

def readOperator (first : Char) (rest : List Char) : Except Reason (Token × List Char) :=
  let single := Except.ok (operator (String.ofList [first]), rest)
  match first, rest with
  | '=', '=' :: tail => .ok (operator "==", tail)
  | '!', '=' :: tail => .ok (operator "!=", tail)
  | '<', '=' :: tail => .ok (operator "<=", tail)
  | '>', '=' :: tail => .ok (operator ">=", tail)
  | '&', '&' :: tail => .ok (operator "&&", tail)
  | '|', '|' :: tail => .ok (operator "||", tail)
  | '&', _ => .error (.unexpectedCharacter '&')
  | '|', _ => .error (.unexpectedCharacter '|')
  | _, _ => single

def punctuation? : Char → Option Token
  | ':' => some colon
  | ',' => some comma
  | '(' => some parensOpen
  | ')' => some parensClose
  | '[' => some bracketsOpen
  | ']' => some bracketsClose
  | ';' => some semicolon
  | '@' => some atSign
  | '%' => some percent
  | '$' => some dollar
  | _ => none

def isOperatorChar (c : Char) : Bool := "=!<>&|-+*/".toList.contains c

def startsNumber : List Char → Bool
  | '.' :: _ => true
  | cs => startsWithDigit cs

def isHexPart (c : Char) : Bool := isAsciiLetter c || isAsciiDigit c

def lexeme (c : Char) (rest : List Char) : Except Reason (Token × List Char) :=
  match punctuation? c with
  | some token => .ok (token, rest)
  | none =>
    if c = '.' ∧ startsWithDigit rest = false then .ok (period, rest)
    else if c = '#' then
      match rest.takeWhile isHexPart with
      | [] => .error .hexDigitsMissing
      | digits => .ok (hex (String.ofList digits), rest.dropWhile isHexPart)
    else if c = '\'' ∨ c = '"' then
      match stringText c rest with
      | some (text, tail) => .ok (string (String.ofList text), tail)
      | none => .error .unterminatedString
    else if c = '-' ∧ startsNumber rest then
      match readNumber rest with
      | .ok (value, tail) => .ok (number (-value), tail)
      | .error e => .error e
    else if c = '.' ∨ isAsciiDigit c then
      match readNumber (c :: rest) with
      | .ok (value, tail) => .ok (number value, tail)
      | .error e => .error e
    else if isNameStart c then
      .ok (identifier (String.ofList (c :: rest.takeWhile isNamePart)), rest.dropWhile isNamePart)
    else if isOperatorChar c then readOperator c rest
    else .error (.unexpectedCharacter c)

theorem numberTextShortens (cs : List Char) : (numberText cs).2.length ≤ cs.length := by
  have whole := (List.dropWhile_sublist isAsciiDigit (l := cs)).length_le
  unfold numberText
  split
  · rename_i rest eq
    rw [eq, List.length_cons] at whole
    have fraction := (List.dropWhile_sublist isAsciiDigit (l := rest)).length_le
    split <;> simp only [List.length_cons] <;> omega
  · exact whole

theorem readNumberShortens {cs : List Char} {value : Float} {tail : List Char}
    (h : readNumber cs = .ok (value, tail)) : tail.length ≤ cs.length := by
  have bound := numberTextShortens cs
  unfold readNumber at h
  split at h
  · simp only [Except.ok.injEq, Prod.mk.injEq] at h
    rw [← h.2]; exact bound
  · simp at h

theorem readNumberTakes {c : Char} {rest tail : List Char} {value : Float}
    (start : isAsciiDigit c ∨ (c = '.' ∧ startsWithDigit rest))
    (h : readNumber (c :: rest) = .ok (value, tail)) : tail.length ≤ rest.length := by
  unfold readNumber at h
  split at h
  · simp only [Except.ok.injEq, Prod.mk.injEq] at h
    rw [← h.2]
    rcases start with digit | ⟨dot, digit⟩
    · have whole := (List.dropWhile_sublist isAsciiDigit (l := rest)).length_le
      unfold numberText
      simp only [List.dropWhile_cons, digit, if_true]
      split
      · rename_i more eq
        rw [eq, List.length_cons] at whole
        have fraction := (List.dropWhile_sublist isAsciiDigit (l := more)).length_le
        split <;> simp only [List.length_cons] <;> omega
      · exact whole
    · subst dot
      have fraction := (List.dropWhile_sublist isAsciiDigit (l := rest)).length_le
      have notDigit : isAsciiDigit '.' = false := by decide
      simpa [numberText, notDigit, digit] using fraction
  · simp at h

theorem stringTextShortens {quote : Char} {cs text tail : List Char}
    (h : stringText quote cs = some (text, tail)) : tail.length ≤ cs.length := by
  fun_induction stringText quote cs generalizing text tail with
  | case1 => simp at h
  | case2 => simp at h
  | case3 d rest ih =>
    simp only [Option.map_eq_some_iff, Prod.mk.injEq] at h
    obtain ⟨⟨t, r⟩, found, _, rfl⟩ := h
    have := ih found
    simp only [List.length_cons]; omega
  | case4 => simp at h; rw [← h.2]; simp
  | case5 c rest _ _ ih =>
    simp only [Option.map_eq_some_iff, Prod.mk.injEq] at h
    obtain ⟨⟨t, r⟩, found, _, rfl⟩ := h
    have := ih found
    simp only [List.length_cons]; omega

theorem readOperatorShortens {c : Char} {rest tail : List Char} {token : Token}
    (h : readOperator c rest = .ok (token, tail)) : tail.length ≤ rest.length := by
  unfold readOperator at h
  split at h <;> simp at h <;> obtain ⟨_, rfl⟩ := h <;> simp

theorem lexemeShortens {c : Char} {rest tail : List Char} {token : Token}
    (h : lexeme c rest = .ok (token, tail)) : tail.length ≤ rest.length := by
  unfold lexeme at h
  split at h
  · simp at h; exact Nat.le_of_eq (congrArg List.length h.2.symm)
  · split at h
    · simp at h; exact Nat.le_of_eq (congrArg List.length h.2.symm)
    · rename_i noPeriod
      split at h
      · split at h
        · simp at h
        · simp at h; rw [← h.2]; exact (List.dropWhile_sublist _).length_le
      · split at h
        · split at h
          · rename_i found
            simp at h; rw [← h.2]; exact stringTextShortens found
          · simp at h
        · split at h
          · split at h
            · rename_i found
              simp at h; rw [← h.2]; exact readNumberShortens found
            · simp at h
          · split at h
            · rename_i start
              split at h
              · rename_i found
                simp at h; rw [← h.2]
                refine readNumberTakes ?_ found
                rcases start with dot | digit
                · refine .inr ⟨dot, ?_⟩
                  cases e : startsWithDigit rest
                  · exact absurd ⟨dot, e⟩ noPeriod
                  · rfl
                · exact .inl digit
              · simp at h
            · split at h
              · simp at h; rw [← h.2]; exact (List.dropWhile_sublist _).length_le
              · split at h
                · exact readOperatorShortens h
                · simp at h

/-- The tokens of a text; runs of blanks become tokens only when they are kept. -/
def scan (keep : Bool) : List Char → Except Reason (List Token)
  | [] => .ok []
  | c :: rest =>
    if isBlank c then
      let tail := scan keep (rest.dropWhile isBlank)
      if keep then tail.map (whitespace (String.ofList (c :: rest.takeWhile isBlank)) :: ·)
      else tail
    else
      match _h : lexeme c rest with
      | .error e => .error e
      | .ok (token, tail) => (scan keep tail).map (token :: ·)
termination_by cs => cs.length
decreasing_by
  · have := (List.dropWhile_sublist isBlank (l := rest)).length_le
    simp only [List.length_cons]; omega
  · have := lexemeShortens _h
    simp only [List.length_cons]; omega

def tokenize (value : String) : Except ParseError (List Token) :=
  reading value (scan false value.toList)

def tokenizeKeepingBlanks (value : String) : Except ParseError (List Token) :=
  reading value (scan true value.toList)

end ViewForge.Token
