import ViewForge.Number.Decimal
/-! The tokens of attribute values. -/
namespace ViewForge

inductive Token where
  | identifier (name : String)
  | number (value : Float)
  | string (text : String)
  | hex (digits : String)
  | operator (symbol : String)
  | colon
  | comma
  | period
  | parensOpen
  | parensClose
  | bracketsOpen
  | bracketsClose
  | semicolon
  | atSign
  | percent
  | dollar
  | whitespace (text : String)
  deriving DecidableEq, Repr

namespace Token

def display : Token → String
  | identifier name => name
  | number value => Number.text value
  | string text => "'" ++ text ++ "'"
  | hex digits => "#" ++ digits
  | operator symbol => symbol
  | colon => ":"
  | comma => ","
  | period => "."
  | parensOpen => "("
  | parensClose => ")"
  | bracketsOpen => "["
  | bracketsClose => "]"
  | semicolon => ";"
  | atSign => "@"
  | percent => "%"
  | dollar => "$"
  | whitespace text => text

def isWhitespace : Token → Bool
  | whitespace _ => true
  | _ => false

/-- Equality of tokens, where numbers are compared by value: zero equals its negative. -/
def agrees : Token → Token → Bool
  | number a, number b => a == b
  | s, t => s == t

end Token

end ViewForge
