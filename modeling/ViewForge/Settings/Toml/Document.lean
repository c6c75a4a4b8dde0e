import ViewForge.Settings.Toml.Scalar
/-! TOML documents: lines that set keys and lines that open tables. No key is set twice, and no
table is opened twice. -/
namespace ViewForge.Settings.Toml

inductive Item where
  | value (value : SettingValue)
  /-- A table is implied until a line opens it; dotted keys make tables of their own. -/
  | table (isImplied isDotted : Bool) (entries : List (String × Item))
  /-- The tables of an array, the last one first. -/
  | tables (items : List (List (String × Item)))

abbrev Entries := List (String × Item)

structure Table where
  isImplied : Bool := false
  isDotted : Bool := false
  entries : Entries := []

namespace Table

def toItem (t : Table) : Item := .table t.isImplied t.isDotted t.entries

def put (t : Table) (key : String) (item : Item) : Table :=
  { t with entries := (key, item) :: t.entries.filter (·.1 != key) }

def modifyAt (dotted : Bool) (change : Table → Option Table) : List String → Table → Option Table
  | [], t => change t
  | key :: path, t =>
    match t.entries.lookup key with
    | none => do
      let made ← modifyAt dotted change path { isImplied := true, isDotted := dotted }
      return t.put key made.toItem
    | some (.value _) => none
    | some (.tables []) => none
    | some (.tables (last :: before)) => do
      let changed ← modifyAt dotted change path { entries := last }
      return t.put key (.tables (changed.entries :: before))
    | some (.table isImplied isDotted entries) =>
      if dotted && !isImplied then none
      else do
        let changed ← modifyAt dotted change path { isImplied, isDotted, entries }
        return t.put key changed.toItem

/-- Sets a key that is not there yet. A dotted key leads through dotted tables. -/
def setKey (path : List String) (key : String) (value : SettingValue) (t : Table) : Option Table :=
  t.modifyAt true (fun inner =>
    if inner.isDotted == path.isEmpty || (inner.entries.lookup key).isSome then none
    else some (inner.put key (.value value))) path

def setAll (t : Table) : List ((List String × String) × SettingValue) → Option Table
  | [] => some t
  | ((path, key), value) :: rest => (t.setKey path key value).bind (·.setAll rest)

def openTable (path : List String) (key : String) (t : Table) : Option Table :=
  t.modifyAt false (fun inner =>
    match inner.entries.lookup key with
    | none => some (inner.put key (.table false false []))
    | some (.table true false entries) => some (inner.put key (.table false false entries))
    | some _ => none) path

def openElement (path : List String) (key : String) (t : Table) : Option Table :=
  t.modifyAt false (fun inner =>
    match inner.entries.lookup key with
    | none => some (inner.put key (.tables [[]]))
    | some (.tables items) => some (inner.put key (.tables ([] :: items)))
    | some _ => none) path

end Table

def isBare (c : Char) : Bool := c.isAlphanum || c == '_' || c == '-'

def simpleKey (cs : List Char) : Option (String × List Char) :=
  match cs with
  | '"' :: rest => (basic cs.length rest).map fun p => (String.ofList p.1, p.2)
  | '\'' :: rest => (literal rest).map fun p => (String.ofList p.1, p.2)
  | _ =>
    let word := cs.takeWhile isBare
    if word.isEmpty then none else some (String.ofList word, cs.drop word.length)

def depthLimit : Nat := 80

def dottedKey : Nat → TextReader (List String × String)
  | 0, _ => none
  | fuel + 1, cs => do
    let (first, rest) ← simpleKey (skipBlanks cs)
    match skipBlanks rest with
    | '.' :: rest =>
      let ((path, key), rest) ← dottedKey fuel rest
      return ((first :: path, key), rest)
    | rest => return (([], first), rest)

def key (cs : List Char) : Option ((List String × String) × List Char) :=
  dottedKey (depthLimit - 1) cs

def skipComment : List Char → Option (List Char)
  | '#' :: rest =>
    let after := rest.dropWhile isPlain
    if after.isEmpty || (newline? after).isSome then some after else none
  | cs => some cs

def skipTrivia : Nat → List Char → Option (List Char)
  | 0, _ => none
  | fuel + 1, cs => do
    let rest ← skipComment (skipBlanks cs)
    match newline? rest with
    | some rest => skipTrivia fuel rest
    | none => return rest

mutual

def value : Nat → Nat → TextReader SettingValue
  | 0, _, _ => none
  | fuel + 1, depth, cs =>
    match cs with
    | '"' :: _ | '\'' :: _ => (text cs).map fun p => (.text (String.ofList p.1), p.2)
    | '[' :: rest =>
      if depth + 1 < depthLimit then do
        let rest ← elements fuel (depth + 1) rest
        return (.other, rest)
      else none
    | '\x7b' :: rest =>
      if depth + 1 < depthLimit then
        match skipBlanks rest with
        | '\x7d' :: rest => some (.other, rest)
        | rest => do
          let (pairs, rest) ← members fuel (depth + 1) rest
          let _ ← ({} : Table).setAll pairs
          return (.other, rest)
      else none
    | _ => scalar cs

def elements : Nat → Nat → List Char → Option (List Char)
  | 0, _, _ => none
  | fuel + 1, depth, cs => do
    match ← skipTrivia cs.length.succ cs with
    | ']' :: rest => return rest
    | cs =>
      let (_, rest) ← value fuel depth cs
      match ← skipTrivia rest.length.succ rest with
      | ',' :: rest => elements fuel depth rest
      | ']' :: rest => return rest
      | _ => none

def members : Nat → Nat → TextReader (List ((List String × String) × SettingValue))
  | 0, _, _ => none
  | fuel + 1, depth, cs => do
    let (name, rest) ← key cs
    let rest ← expect '=' rest
    let (found, rest) ← value fuel depth (skipBlanks rest)
    match skipBlanks rest with
    | ',' :: rest =>
      let (others, rest) ← members fuel depth rest
      return ((name, found) :: others, rest)
    | '\x7d' :: rest => return ([(name, found)], rest)
    | _ => none

end

def lineEnd (cs : List Char) : Option (List Char) := do
  match ← skipComment (skipBlanks cs) with
  | [] => return []
  | rest => newline? rest

structure Document where
  root : Table := {}
  current : List String := []

namespace Document

def setKey (d : Document) (name : List String × String) (value : SettingValue) :
    Option Document := do
  let root ← d.root.modifyAt false (fun t => t.setKey name.1 name.2 value) d.current
  return { d with root }

def statement (d : Document) (cs : List Char) : Option (Document × List Char) :=
  match cs with
  | '[' :: '[' :: rest => do
    let ((path, name), rest) ← key rest
    let rest ← expect ']' (← expect ']' rest)
    return ({ root := ← d.root.openElement path name, current := path ++ [name] }, rest)
  | '[' :: rest => do
    let ((path, name), rest) ← key rest
    let rest ← expect ']' rest
    return ({ root := ← d.root.openTable path name, current := path ++ [name] }, rest)
  | _ => do
    let (name, rest) ← key cs
    let rest ← expect '=' rest
    let (found, rest) ← value (2 * cs.length + 2) 0 (skipBlanks rest)
    return (← d.setKey name found, rest)

def read : Nat → Document → List Char → Option Document
  | 0, _, _ => none
  | fuel + 1, d, cs =>
    match skipBlanks cs with
    | [] => some d
    | c :: rest =>
      if c == '#' || c == '\n' || c == '\r' then do
        let rest ← lineEnd (c :: rest)
        d.read fuel rest
      else do
        let (d, rest) ← d.statement (c :: rest)
        d.read fuel (← lineEnd rest)

end Document

def settingOf : Item → SettingValue
  | .value value => value
  | _ => .other

def parse (source : String) : Option Settings := do
  let cs := match source.toList with
    | '\ufeff' :: rest => rest
    | cs => cs
  let d ← Document.read cs.length.succ {} cs
  Settings.ofEntries (d.root.entries.map fun e => (e.1, settingOf e.2))

end ViewForge.Settings.Toml
