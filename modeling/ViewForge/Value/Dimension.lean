import ViewForge.Token.Cursor
/-! Lists of numbers, named or by position, and the geometric values built from them. -/
namespace ViewForge
open ParseError (Reason)
open Token (Parsed)

structure Dimension where
  name : Option String
  value : Float
  deriving DecidableEq, Repr

namespace Dimension

def readAll (ts : List Token) : Except Reason (List Dimension) := do
  let entry ← Token.expectNumber (Token.label? ts).2
  let dimension : Dimension := ⟨(Token.label? ts).1, entry.value⟩
  if entry.rest.isEmpty then return [dimension]
  let comma ← Token.expect .comma entry.rest
  let more ← readAll comma.rest
  return dimension :: more
termination_by ts.length
decreasing_by
  have h₁ := Token.labelShortens ts
  have h₂ := entry.shorter
  have h₃ := comma.shorter
  omega

def parseAll (value : String) : Except ParseError (List Dimension) := do
  let ts ← Token.tokenize value
  reading value (readAll ts)

abbrev Slots := List (Option Float)

def fill : Slots → List Float → Slots × List Float
  | [], values => ([], values)
  | some x :: slots, values => ((some x :: (fill slots values).1), (fill slots values).2)
  | none :: slots, [] => (none :: (fill slots []).1, [])
  | none :: slots, x :: values => (some x :: (fill slots values).1, (fill slots values).2)

def place (names : List String) : Slots → List Dimension → Except Reason (Slots × List Float)
  | slots, [] => .ok (slots, [])
  | slots, ⟨none, x⟩ :: rest => do
    let (placed, others) ← place names slots rest
    return (placed, x :: others)
  | slots, ⟨some name, x⟩ :: rest =>
    match names.idxOf? name with
    | none => .error (.unknownComponent name names)
    | some i =>
      if (slots.getD i none).isSome then .error (.componentTwice name)
      else place names (slots.set i (some x)) rest

def complete : List String → Slots → Except Reason (List Float)
  | name :: names, slot :: slots => do
    match slot with
    | none => .error (.missingComponent name)
    | some x => return x :: (← complete names slots)
  | _, _ => .ok []

def assign (names : List String) (dimensions : List Dimension) : Except Reason (List Float) := do
  if names.length < dimensions.length then .error (.tooManyComponents names.length)
  let (slots, others) ← place names (List.replicate names.length none) dimensions
  complete names (fill slots others).1

def parseAssigned (names : List String) (value : String) : Except ParseError (List Float) := do
  let dimensions ← parseAll value
  reading value (assign names dimensions)

end Dimension

structure Point where
  x : Float
  y : Float
  deriving DecidableEq, Repr

structure Size where
  width : Float
  height : Float
  deriving DecidableEq, Repr

structure Rect where
  x : Float
  y : Float
  width : Float
  height : Float
  deriving DecidableEq, Repr

structure EdgeInsets where
  top : Float
  left : Float
  bottom : Float
  right : Float
  deriving DecidableEq, Repr

def Point.parse (value : String) : Except ParseError Point := do
  let v ← Dimension.parseAssigned ["x", "y"] value
  return ⟨v.getD 0 0.0, v.getD 1 0.0⟩

def Size.parse (value : String) : Except ParseError Size := do
  let v ← Dimension.parseAssigned ["width", "height"] value
  return ⟨v.getD 0 0.0, v.getD 1 0.0⟩

def Rect.parse (value : String) : Except ParseError Rect := do
  let v ← Dimension.parseAssigned ["x", "y", "width", "height"] value
  return ⟨v.getD 0 0.0, v.getD 1 0.0, v.getD 2 0.0, v.getD 3 0.0⟩

namespace EdgeInsets

def edges : List String := ["top", "left", "bottom", "right"]

def put (slots : Dimension.Slots) (index : Nat) (x : Float) (name : String) :
    Except Reason Dimension.Slots :=
  if (slots.getD index none).isSome then .error (.edgeTwice name)
  else .ok (slots.set index (some x))

def place : Dimension.Slots → List Dimension → Except Reason (Dimension.Slots × List Float)
  | slots, [] => .ok (slots, [])
  | slots, ⟨none, x⟩ :: rest => do
    let (placed, others) ← place slots rest
    return (placed, x :: others)
  | slots, ⟨some name, x⟩ :: rest => do
    let slots ←
      if name = "horizontal" then do
        put (← put slots 1 x "left") 3 x "right"
      else if name = "vertical" then do
        put (← put slots 0 x "top") 2 x "bottom"
      else match edges.idxOf? name with
        | none => .error (.unknownEdge name)
        | some i => put slots i x name
    place slots rest

def complete : List String → Dimension.Slots → Except Reason (List Float)
  | name :: names, slot :: slots => do
    match slot with
    | none => .error (.missingEdge name)
    | some x => return x :: (← complete names slots)
  | _, _ => .ok []

/-- The four edges, named or by position; `horizontal` and `vertical` stand for two opposite ones,
and a single number without a name for all. -/
def ofDimensions : List Dimension → Except Reason EdgeInsets
  | [⟨none, x⟩] => .ok ⟨x, x, x, x⟩
  | dimensions => do
    let (slots, others) ← place [none, none, none, none] dimensions
    let (filled, left) := Dimension.fill slots others
    if !left.isEmpty then .error .tooManyEdges
    let v ← complete edges filled
    return ⟨v.getD 0 0.0, v.getD 1 0.0, v.getD 2 0.0, v.getD 3 0.0⟩

def parse (value : String) : Except ParseError EdgeInsets := do
  let dimensions ← Dimension.parseAll value
  reading value (ofDimensions dimensions)

end EdgeInsets

end ViewForge
