import ViewForge.Settings.Basic
/-! Settings written as JSON: an object with the keys of the settings, or an array of their values
in order. -/
namespace ViewForge.Settings.Json
open TextReader (hex charOf?)

def isBlank (c : Char) : Bool := c == ' ' || c == '\t' || c == '\n' || c == '\r'

def skip (cs : List Char) : List Char := cs.dropWhile isBlank

def simpleEscape? : Char → Option Char
  | '"' => some '"'
  | '\\' => some '\\'
  | '/' => some '/'
  | 'b' => some '\x08'
  | 'f' => some '\x0c'
  | 'n' => some '\n'
  | 'r' => some '\r'
  | 't' => some '\t'
  | _ => none

def isHigh (code : Nat) : Bool := 0xD800 ≤ code && code < 0xDC00

def isLow (code : Nat) : Bool := 0xDC00 ≤ code && code < 0xE000

inductive Unit16 where
  | char (c : Char)
  | code (code : Nat)

def pairUp (high low : Nat) : Nat := 0x10000 + (high - 0xD800) * 0x400 + (low - 0xDC00)

def decode : List Unit16 → Option (List Char)
  | [] => some []
  | .char c :: rest => (decode rest).map (c :: ·)
  | .code high :: .code low :: rest =>
    if isHigh high && isLow low then do
      let c ← charOf? (pairUp high low)
      return c :: (← decode rest)
    else do
      let c ← charOf? high
      return c :: (← decode (.code low :: rest))
  | .code code :: rest => do
    let c ← charOf? code
    return c :: (← decode rest)

def units : Nat → TextReader (List Unit16)
  | 0, _ => none
  | _ + 1, '"' :: rest => some ([], rest)
  | fuel + 1, '\\' :: 'u' :: rest => do
    let (code, rest) ← hex 4 0 rest
    let (others, rest) ← units fuel rest
    return (.code code :: others, rest)
  | fuel + 1, '\\' :: c :: rest => do
    let escaped ← simpleEscape? c
    let (others, rest) ← units fuel rest
    return (.char escaped :: others, rest)
  | fuel + 1, c :: rest => do
    if c.toNat < 0x20 then none
    let (others, rest) ← units fuel rest
    return (.char c :: others, rest)
  | _ + 1, [] => none

def fraction (cs : List Char) : Option (List Char) :=
  match cs with
  | '.' :: rest => TextReader.digits rest
  | _ => some cs

def exponent (cs : List Char) : Option (List Char) :=
  match cs with
  | c :: rest =>
    if c == 'e' || c == 'E' then
      match rest with
      | '+' :: more | '-' :: more => TextReader.digits more
      | _ => TextReader.digits rest
    else some cs
  | [] => some cs

def number (cs : List Char) : Option (List Char) := do
  let unsigned := match cs with
    | '-' :: rest => rest
    | _ => cs
  let rest ← match unsigned with
    | '0' :: rest => some rest
    | _ => TextReader.digits unsigned
  (← fraction rest) |> exponent

def keyword (word : String) (value : SettingValue) (cs : List Char) :
    Option (SettingValue × List Char) :=
  (Text.dropLead? word.toList cs).map (value, ·)

mutual

/-- A value. A text that cannot be decoded only matters where it is used. -/
def value : Nat → TextReader SettingValue
  | 0, _ => none
  | fuel + 1, cs =>
    match skip cs with
    | '"' :: rest => do
      let (found, rest) ← units rest.length.succ rest
      return ((decode found).elim .other fun text => .text (String.ofList text), rest)
    | '[' :: rest =>
      match skip rest with
      | ']' :: rest => some (.other, rest)
      | rest => (values fuel rest).map fun p => (.other, p.2)
    | '\x7b' :: rest =>
      match skip rest with
      | '\x7d' :: rest => some (.other, rest)
      | rest => (members fuel rest).map fun p => (.other, p.2)
    | 't' :: rest => keyword "rue" (.flag true) rest
    | 'f' :: rest => keyword "alse" (.flag false) rest
    | 'n' :: rest => keyword "ull" .nothing rest
    | cs => (number cs).map (.other, ·)

def values : Nat → TextReader (List SettingValue)
  | 0, _ => none
  | fuel + 1, cs => do
    let (first, rest) ← value fuel cs
    match skip rest with
    | ',' :: rest => do
      let (others, rest) ← values fuel rest
      return (first :: others, rest)
    | ']' :: rest => return ([first], rest)
    | _ => none

def members : Nat → TextReader (List (String × SettingValue))
  | 0, _ => none
  | fuel + 1, cs => do
    match skip cs with
    | '"' :: rest =>
      let (found, rest) ← units rest.length.succ rest
      let key ← decode found
      match skip rest with
      | ':' :: rest =>
        let (first, rest) ← value fuel rest
        let entry := (String.ofList key, first)
        match skip rest with
        | ',' :: rest => do
          let (others, rest) ← members fuel rest
          return (entry :: others, rest)
        | '\x7d' :: rest => return ([entry], rest)
        | _ => none
      | _ => none
    | _ => none

end

def ofValues (found : List SettingValue) : Option Settings :=
  if found.length ≤ Settings.keys.length then Settings.ofEntries (Settings.keys.zip found)
  else none

def parse (source : String) : Option Settings :=
  let cs := source.toList
  let fuel := cs.length.succ
  let document := match skip cs with
    | '\x7b' :: rest =>
      match skip rest with
      | '\x7d' :: rest => some (some {}, rest)
      | rest => (members fuel rest).map fun p => (Settings.ofEntries p.1, p.2)
    | '[' :: rest =>
      match skip rest with
      | ']' :: rest => some (some {}, rest)
      | rest => (values fuel rest).map fun p => (ofValues p.1, p.2)
    | _ => none
  match document with
  | some (settings, rest) => if (skip rest).isEmpty then settings else none
  | none => none

end ViewForge.Settings.Json
