import ViewForge.Theme.Access
import ViewForge.Token.Cursor
/-! Fonts and images. -/
namespace ViewForge
open ParseError (Reason)
open Code (Expr)

inductive FontWeight where
  | ultraLight
  | thin
  | light
  | regular
  | medium
  | semibold
  | bold
  | heavy
  | black
  deriving DecidableEq, Repr

namespace FontWeight

def all : List FontWeight :=
  [ultraLight, thin, light, regular, medium, semibold, bold, heavy, black]

def name : FontWeight → String
  | ultraLight => "ultraLight"
  | thin => "thin"
  | light => "light"
  | regular => "regular"
  | medium => "medium"
  | semibold => "semibold"
  | bold => "bold"
  | heavy => "heavy"
  | black => "black"

def ofName? (name : String) : Option FontWeight := all.find? (·.name == name)

def value : FontWeight → Float
  | ultraLight => -0.8
  | thin => -0.6
  | light => -0.4
  | regular => 0.0
  | medium => 0.23
  | semibold => 0.3
  | bold => 0.4
  | heavy => 0.56
  | black => 0.62

end FontWeight

inductive Font where
  | system (weight : FontWeight) (size : Float)
  | named (name : String) (size : Float)
  | themed (name : String)
  deriving DecidableEq, Repr

namespace Font

def isThemed : Font → Bool
  | themed _ => true
  | _ => false

def positive (size : Float) : Except Reason Float :=
  if 0.0 < size then .ok size else .error (.fontSizeNotPositive size)

def readSize (ts : List Token) : Except Reason Float := do
  let size ← Token.expectNumber (ts.dropWhile Token.isWhitespace)
  Token.expectEnd size.rest
  positive size.value

def readNamed (name : String) : List Token → Except Reason Font
  | [] => .error .fontSizeMissing
  | .atSign :: rest => do
    let trimmed := Text.trim name
    if trimmed = "" then .error .fontNameEmpty
    return .named trimmed (← readSize rest)
  | token :: rest => readNamed (name ++ token.display) rest

def read : List Token → Except Reason Font
  | .colon :: rest => do
    let name ← Token.expectIdentifier rest
    if name.rest.isEmpty then return .themed name.value
    match FontWeight.ofName? name.value with
    | none => .error (.unknownFontWeight name.value)
    | some weight =>
      let sign ← Token.expect .atSign name.rest
      return .system weight (← readSize sign.rest)
  | [.number size] => do return .system .regular (← positive size)
  | ts => readNamed "" ts

def parse (value : String) : Except ParseError Font := do
  let ts ← Token.tokenizeKeepingBlanks (Text.trim value)
  reading value (read ts)

def code (theme : ThemeAccess) : Font → Expr
  | system weight size => (Expr.identifier "UIFont").invoke "systemFont" [
      (some "ofSize", .number size), (some "weight", .implicitMember weight.name)]
  | named name size => .binary
      ((Expr.identifier "UIFont").apply [(some "name", .string name), (some "size", .number size)])
      "??" ((Expr.identifier "UIFont").invoke "systemFont" [(some "ofSize", .number size)])
  | themed name => theme.item .font name

end Font

inductive Image where
  | named (name : String)
  | themed (name : String)
  deriving DecidableEq, Repr

namespace Image

def isThemed : Image → Bool
  | themed _ => true
  | _ => false

def parse? (value : String) : Option Image :=
  let value := Text.trim value
  match value.toList with
  | ':' :: name =>
    if !name.isEmpty && name.all Text.isNamePart then some (.themed (String.ofList name)) else none
  | [] => none
  | _ => some (.named value)

def code (theme : ThemeAccess) : Image → Expr
  | named name => (Expr.identifier "UIImage").apply [(some "named", .string name)]
  | themed name => theme.item .image name

end Image

end ViewForge
