import ViewForge.Token.Cursor
/-! The calls that events are bound to: a name, alone or with an argument list. -/
namespace ViewForge
open ParseError (Reason)
open Token (Parsed Optional)

inductive Literal where
  | bool (value : Bool)
  | int (value : Int)
  | double (value : Float)
  | string (text : String)
  deriving DecidableEq, Repr

inductive ReferenceTarget where
  | this
  | element (id : String)
  deriving DecidableEq, Repr

inductive ArgumentValue where
  | constant (literal : Literal)
  | state (name : String)
  | reference (target : ReferenceTarget) (property : Option String)
  deriving DecidableEq, Repr

structure CallArgument where
  label : Option String
  value : ArgumentValue
  deriving DecidableEq, Repr

structure ActionCall where
  name : String
  /-- Without a list the parameters of the event are passed on. -/
  arguments : Option (List CallArgument)
  deriving DecidableEq, Repr

def Literal.display : Literal → String
  | bool value => if value then "true" else "false"
  | int value => toString value
  | double value => Number.text value
  | string text => "'" ++ text ++ "'"

def ReferenceTarget.display : ReferenceTarget → String
  | this => "self"
  | element id => id

def ArgumentValue.display : ArgumentValue → String
  | constant literal => literal.display
  | state name => "$" ++ name
  | reference target (some property) => target.display ++ "." ++ property
  | reference target none => target.display

def CallArgument.display (a : CallArgument) : String :=
  match a.label with
  | some label => label ++ ": " ++ a.value.display
  | none => a.value.display

namespace ActionCall

def display (call : ActionCall) : String :=
  match call.arguments with
  | some arguments => call.name ++ "(" ++ Text.join ", " (arguments.map (·.display)) ++ ")"
  | none => call.name

def numberLiteral (x : Float) : Literal :=
  if Number.isWhole x && Number.abs x < 9223372036854775808.0 then .int (Number.truncate x)
  else .double x

def readReference (name : String) : (ts : List Token) →
    Except Reason (Optional ts ArgumentValue)
  | .period :: rest => do
    let property ← Token.expectIdentifier rest
    return (property.map fun p => .reference (target name) (some p)).behind.toOptional
  | _ => .ok (.unread (.reference (target name) none))
where
  target (name : String) : ReferenceTarget := if name = "self" then .this else .element name

def readValue : (ts : List Token) → Except Reason (Parsed ts ArgumentValue)
  | .dollar :: rest => do
    let name ← Token.expectIdentifier rest
    return (name.map .state).behind
  | .string text :: _ => .ok (.front (.constant (.string text)))
  | .number x :: _ => .ok (.front (.constant (numberLiteral x)))
  | .identifier name :: rest =>
    if name = "true" then .ok (.front (.constant (.bool true)))
    else if name = "false" then .ok (.front (.constant (.bool false)))
    else do
      let value ← readReference name rest
      return value.behind
  | token :: _ => .error (.unexpectedArgument token.display)
  | [] => .error .unterminatedArguments

def readArguments (ts : List Token) : Except Reason (List CallArgument) := do
  let value ← readValue (Token.label? ts).2
  let argument : CallArgument := ⟨(Token.label? ts).1, value.value⟩
  match value.rest with
  | .parensClose :: rest =>
    Token.expectEnd rest
    return [argument]
  | _ =>
    let comma ← Token.expect .comma value.rest
    return argument :: (← readArguments comma.rest)
termination_by ts.length
decreasing_by
  have h₁ := Token.labelShortens ts
  have h₂ := value.shorter
  have h₃ := comma.shorter
  omega

def read (ts : List Token) : Except Reason ActionCall := do
  let name ← Token.expectIdentifier ts
  match name.rest with
  | .parensOpen :: .parensClose :: rest =>
    Token.expectEnd rest
    return ⟨name.value, some []⟩
  | .parensOpen :: rest => return ⟨name.value, some (← readArguments rest)⟩
  | rest =>
    Token.expectEnd rest
    return ⟨name.value, none⟩

def parse (value : String) : Except ParseError ActionCall := do
  let ts ← Token.tokenize value
  reading value (read ts)

end ActionCall

end ViewForge
