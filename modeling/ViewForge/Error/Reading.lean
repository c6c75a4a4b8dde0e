import ViewForge.Number.Decimal
/-! Why an attribute value cannot be read. A reason is a cause; its wording stands in one place. -/
namespace ViewForge

namespace ParseError

inductive Reason where
  | hexDigitsMissing
  | unexpectedCharacter (c : Char)
  | invalidNumber (text : String)
  | unterminatedString
  /-- `found` is the text of the token in the way, or nothing at the end of the value. -/
  | expected (what : String) (found : Option String)
  | tooManyComponents (limit : Nat)
  | unknownComponent (name : String) (names : List String)
  | componentTwice (name : String)
  | missingComponent (name : String)
  | edgeTwice (name : String)
  | unknownEdge (name : String)
  | tooManyEdges
  | missingEdge (name : String)
  | unexpectedArgument (token : String)
  | unterminatedArguments
  | unknownColor (name : String)
  | colorExpected (found : Option String)
  | unknownColorModifier (name : String)
  | invalidHexColor (digits : String)
  | invalidHexLength (digits : String)
  | unknownFontWeight (name : String)
  | fontSizeMissing
  | fontNameEmpty
  | fontSizeNotPositive (size : Float)
  | unknownSizeClass (name : String)
  | unknownComparison (symbol : String)
  | comparisonExpected
  | unknownTrait (name : String)
  | unknownLayoutAttribute (name : String)
  | constantTarget (anchor : String)
  | fieldOnSeveral (name : String)
  | unknownRelation (name : String)
  | unknownAnchor (name : String)
  | targetExpected (found : Option String)
  | divisionByZero
  | unknownConstraintModifier (name : String)
  | unknownPriority (name : String)
  | invalidPriority
  | groupStyleExpected
  | invalidStyleName
  deriving DecidableEq, Repr

def Reason.message : Reason → String
  | hexDigitsMissing => "Expected hex digits after '#'"
  | unexpectedCharacter c => s!"Unexpected character '{c}'"
  | invalidNumber text => s!"Invalid number '{text}'"
  | unterminatedString => "Unterminated string literal"
  | expected what (some found) => s!"Expected {what}, found '{found}'"
  | expected what none => s!"Expected {what}, found end of value"
  | tooManyComponents limit => s!"Expected at most {limit} values"
  | unknownComponent name names =>
    s!"Unknown component '{name}', expected one of: " ++ Text.join ", " names
  | componentTwice name => s!"Component '{name}' given twice"
  | missingComponent name => s!"Missing component '{name}'"
  | edgeTwice name => s!"Edge '{name}' given twice"
  | unknownEdge name =>
    s!"Unknown edge '{name}', expected one of: top, left, bottom, right, horizontal, vertical"
  | tooManyEdges => "Too many edge values"
  | missingEdge name => s!"Missing edge '{name}'"
  | unexpectedArgument token => s!"Unexpected '{token}' in action argument"
  | unterminatedArguments => "Unterminated action argument list"
  | unknownColor name => s!"Unknown color name '{name}'"
  | colorExpected (some found) => s!"Expected color, found '{found}'"
  | colorExpected none => "Expected color, found empty value"
  | unknownColorModifier name => s!"Unknown color modifier '{name}'"
  | invalidHexColor digits => s!"Invalid hex color '#{digits}'"
  | invalidHexLength digits =>
    s!"Invalid color format '#{digits}' (expected 3, 4, 6, or 8 hex digits)"
  | unknownFontWeight name => s!"Unknown font weight '{name}'"
  | fontSizeMissing => "Expected '@' followed by font size"
  | fontNameEmpty => "Font name can't be empty"
  | fontSizeNotPositive size => "Font size must be positive, got " ++ Number.text size
  | unknownSizeClass name => s!"Unknown size class '{name}'"
  | unknownComparison symbol => s!"Unknown comparison '{symbol}'"
  | comparisonExpected => "Expected comparison operator"
  | unknownTrait name => s!"Unknown trait '{name}'"
  | unknownLayoutAttribute name => s!"Unknown layout attribute '{name}'"
  | constantTarget anchor =>
    s!"Constant target is only allowed for width and height, not '{anchor}'"
  | fieldOnSeveral name =>
    s!"Field names can't be used with '{name}', which expands to several constraints"
  | unknownRelation name => s!"Unknown constraint relation '{name}'"
  | unknownAnchor name => s!"Unknown layout anchor '{name}'"
  | targetExpected (some found) => s!"Expected constraint target, found '{found}'"
  | targetExpected none => "Expected constraint target"
  | divisionByZero => "Can't divide by zero"
  | unknownConstraintModifier name => s!"Unknown constraint modifier '{name}'"
  | unknownPriority name => s!"Unknown priority '{name}'"
  | invalidPriority => "Priority must be a name or a whole number between 1 and 1000"
  | groupStyleExpected => "Expected ':group:style'"
  | invalidStyleName => "Invalid style name"

end ParseError

structure ParseError where
  reason : ParseError.Reason
  value : String
  deriving DecidableEq, Repr

def ParseError.message (e : ParseError) : String :=
  e.reason.message ++ s!" (in '" ++ e.value ++ "')"

def reading (value : String) : Except ParseError.Reason α → Except ParseError α
  | .ok a => .ok a
  | .error reason => .error ⟨reason, value⟩

end ViewForge
