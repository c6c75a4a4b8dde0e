import ViewForge.Settings.Basic
/-! The simple values of TOML documents: texts in four notations, numbers, dates and times. -/
namespace ViewForge.Settings.Toml
open TextReader (hex charOf?)

def isBlank (c : Char) : Bool := c == ' ' || c == '\t'

def skipBlanks (cs : List Char) : List Char := cs.dropWhile isBlank

def newline? : List Char → Option (List Char)
  | '\n' :: rest => some rest
  | '\r' :: '\n' :: rest => some rest
  | _ => none

def isPlain (c : Char) : Bool := c == '\t' || (0x20 ≤ c.toNat && c.toNat != 0x7f)

def simpleEscape? : Char → Option Char
  | 'b' => some '\x08'
  | 't' => some '\t'
  | 'n' => some '\n'
  | 'f' => some '\x0c'
  | 'r' => some '\r'
  | '"' => some '"'
  | '\\' => some '\\'
  | _ => none

def escape : TextReader Char
  | 'u' :: rest => do
    let (code, rest) ← hex 4 0 rest
    return (← charOf? code, rest)
  | 'U' :: rest => do
    let (code, rest) ← hex 8 0 rest
    return (← charOf? code, rest)
  | c :: rest => (simpleEscape? c).map (·, rest)
  | [] => none

def basic : Nat → TextReader (List Char)
  | 0, _ => none
  | _ + 1, '"' :: rest => some ([], rest)
  | fuel + 1, '\\' :: rest => do
    let (c, rest) ← escape rest
    let (others, rest) ← basic fuel rest
    return (c :: others, rest)
  | fuel + 1, c :: rest => do
    if !isPlain c then none
    let (others, rest) ← basic fuel rest
    return (c :: others, rest)
  | _ + 1, [] => none

def literal : TextReader (List Char)
  | '\'' :: rest => some ([], rest)
  | c :: rest => do
    if !isPlain c then none
    let (others, rest) ← literal rest
    return (c :: others, rest)
  | [] => none

/-- The end of a text over several lines: three quotes, before which up to two more belong to the
text. -/
def closing (quote : Char) : TextReader (List Char)
  | a :: b :: c :: d :: e :: rest =>
    if a == quote && b == quote && c == quote then
      if d == quote then
        if e == quote then some ([quote, quote], rest) else some ([quote], e :: rest)
      else some ([], d :: e :: rest)
    else none
  | [a, b, c, d] =>
    if a == quote && b == quote && c == quote then
      if d == quote then some ([quote], []) else some ([], [d])
    else none
  | [a, b, c] => if a == quote && b == quote && c == quote then some ([], []) else none
  | _ => none

def joinLines (cs : List Char) : Option (List Char) :=
  (newline? (skipBlanks cs)).map fun rest =>
    rest.dropWhile fun c => isBlank c || c == '\n' || c == '\r'

def lines (quote : Char) (escapes : Bool) : Nat → TextReader (List Char)
  | 0, _ => none
  | fuel + 1, cs =>
    match closing quote cs with
    | some found => some found
    | none =>
      match newline? cs with
      | some rest => (lines quote escapes fuel rest).map fun p => ('\n' :: p.1, p.2)
      | none =>
        match cs with
        | '\\' :: rest =>
          if escapes then
            match joinLines rest with
            | some rest => lines quote escapes fuel rest
            | none => do
              let (c, rest) ← escape rest
              let (others, rest) ← lines quote escapes fuel rest
              return (c :: others, rest)
          else (lines quote escapes fuel rest).map fun p => ('\\' :: p.1, p.2)
        | c :: rest => do
          if !isPlain c then none
          let (others, rest) ← lines quote escapes fuel rest
          return (c :: others, rest)
        | [] => none

def dropFirstNewline (cs : List Char) : List Char := (newline? cs).getD cs

def text (cs : List Char) : Option (List Char × List Char) :=
  let fuel := cs.length.succ
  match cs with
  | '"' :: '"' :: '"' :: rest => lines '"' true fuel (dropFirstNewline rest)
  | '\'' :: '\'' :: '\'' :: rest => lines '\'' false fuel (dropFirstNewline rest)
  | '"' :: rest => basic fuel rest
  | '\'' :: rest => literal rest
  | _ => none

def groupedDigits (isDigit : Char → Bool) : List Char → Bool
  | [] => false
  | [c] => isDigit c
  | c :: '_' :: rest => isDigit c && groupedDigits isDigit rest
  | c :: rest => isDigit c && groupedDigits isDigit rest

def plainDigits (cs : List Char) : List Char := cs.filter (· != '_')

def numeral (base : Nat) (cs : List Char) : Nat :=
  (plainDigits cs).foldl (fun n c => n * base + (TextReader.hexValue? c).getD 0) 0

def unsigned : List Char → Bool × List Char
  | '+' :: rest => (false, rest)
  | '-' :: rest => (true, rest)
  | cs => (false, cs)

def isDecimal (cs : List Char) : Bool :=
  groupedDigits Char.isDigit cs && (cs.length == 1 || cs.head? != some '0')

def inBase (base : Nat) (cs : List Char) : Bool :=
  groupedDigits (fun c => ((TextReader.hexValue? c).map (decide <| · < base)).getD false) cs
    && decide (numeral base cs < Nat.pow 2 63)

def isInteger (cs : List Char) : Bool :=
  match cs with
  | '0' :: 'x' :: rest => inBase 16 rest
  | '0' :: 'o' :: rest => inBase 8 rest
  | '0' :: 'b' :: rest => inBase 2 rest
  | _ =>
    let (negative, body) := unsigned cs
    isDecimal body && decide (numeral 10 body < if negative then Nat.pow 2 63 + 1 else Nat.pow 2 63)

def isExponent (cs : List Char) : Bool := groupedDigits Char.isDigit (unsigned cs).2

def splitExponent (cs : List Char) : List Char × Option (List Char) :=
  let mantissa := cs.takeWhile fun c => c != 'e' && c != 'E'
  match cs.drop mantissa.length with
  | _ :: exponent => (mantissa, some exponent)
  | [] => (mantissa, none)

def isFloat (cs : List Char) : Bool :=
  let body := (unsigned cs).2
  let (mantissa, exponent) := splitExponent body
  let exponentFits := (exponent.map isExponent).getD true
  body == "inf".toList || body == "nan".toList ||
    (match Text.cutFirstChars? '.' mantissa with
      | some (whole, fraction) =>
        isDecimal whole && groupedDigits Char.isDigit fraction && exponentFits
      | none => isDecimal mantissa && exponent.isSome && exponentFits)

def bounded (count low high : Nat) (cs : List Char) : Option (Nat × List Char) :=
  let digits := cs.take count
  if digits.length == count && digits.all Char.isDigit then
    let n := numeral 10 digits
    if low ≤ n && n ≤ high then some (n, cs.drop count) else none
  else none

def expect (c : Char) : List Char → Option (List Char)
  | d :: rest => if c == d then some rest else none
  | [] => none

def isLeap (year : Nat) : Bool := (year % 4 == 0 && year % 100 != 0) || year % 400 == 0

def daysIn (year month : Nat) : Nat :=
  if month == 2 then (if isLeap year then 29 else 28)
  else if month == 4 || month == 6 || month == 9 || month == 11 then 30
  else 31

def date (cs : List Char) : Option (List Char) := do
  let (year, cs) ← bounded 4 0 9999 cs
  let (month, cs) ← bounded 2 1 12 (← expect '-' cs)
  let (_, cs) ← bounded 2 1 (daysIn year month) (← expect '-' cs)
  return cs

def time (cs : List Char) : Option (List Char) := do
  let (_, cs) ← bounded 2 0 23 cs
  let (_, cs) ← bounded 2 0 59 (← expect ':' cs)
  let (_, cs) ← bounded 2 0 60 (← expect ':' cs)
  match cs with
  | '.' :: rest => TextReader.digits rest
  | _ => return cs

def isOffset : List Char → Bool
  | [] => true
  | ['Z'] | ['z'] => true
  | '+' :: rest | '-' :: rest => ((do
      let (_, cs) ← bounded 2 0 23 rest
      let (_, cs) ← bounded 2 0 59 (← expect ':' cs)
      return cs.isEmpty) : Option Bool).getD false
  | _ => false

def isTimeMark (c : Char) : Bool := c == 'T' || c == 't' || c == ' '

def isMoment (cs : List Char) : Bool :=
  match date cs with
  | some [] => true
  | some (mark :: rest) => isTimeMark mark && ((time rest).map isOffset).getD false
  | none => ((time cs).map (·.isEmpty)).getD false

def isScalarPart (c : Char) : Bool :=
  c.isAlphanum || c == '+' || c == '-' || c == '_' || c == '.' || c == ':'

/-- The characters of a number or a date. A date may go on with a time after a blank. -/
def scalarLength (cs : List Char) : Nat :=
  let first := (cs.takeWhile isScalarPart).length
  match date (cs.take first), cs.drop first with
  | some [], ' ' :: c :: rest =>
    if c.isDigit then first + 1 + ((c :: rest).takeWhile isScalarPart).length else first
  | _, _ => first

def scalar (cs : List Char) : Option (SettingValue × List Char) :=
  let n := scalarLength cs
  let word := cs.take n
  let rest := cs.drop n
  if word == "true".toList then some (.flag true, rest)
  else if word == "false".toList then some (.flag false, rest)
  else if isInteger word || isFloat word || isMoment word then some (.other, rest)
  else none

end ViewForge.Settings.Toml
