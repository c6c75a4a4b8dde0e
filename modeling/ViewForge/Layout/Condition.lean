import ViewForge.Code.Basic
import ViewForge.Token.Cursor
/-! Conditions on the traits of the device and the size of the root view: their grammar, their
meaning and their code. -/
namespace ViewForge
open ParseError (Reason)
open Token (Parsed Optional)
open Code (Expr)

inductive SizeClass where
  | compact
  | regular
  | unspecified
  deriving DecidableEq, Repr

namespace SizeClass

def name : SizeClass → String
  | compact => "compact"
  | regular => "regular"
  | unspecified => "unspecified"

def ofName? : String → Option SizeClass
  | "compact" => some compact
  | "regular" => some regular
  | "unspecified" => some unspecified
  | _ => none

end SizeClass

inductive Axis where
  | horizontal
  | vertical
  deriving DecidableEq, Repr

inductive Idiom where
  | phone
  | pad
  | tv
  | carPlay
  | mac
  deriving DecidableEq, Repr

def Idiom.name : Idiom → String
  | phone => "phone"
  | pad => "pad"
  | tv => "tv"
  | carPlay => "carPlay"
  | mac => "mac"

inductive Orientation where
  | landscape
  | portrait
  deriving DecidableEq, Repr

def Orientation.name : Orientation → String
  | landscape => "landscape"
  | portrait => "portrait"

inductive InterfaceStyle where
  | light
  | dark
  deriving DecidableEq, Repr

def InterfaceStyle.name : InterfaceStyle → String
  | light => "light"
  | dark => "dark"

inductive Extent where
  | width
  | height
  deriving DecidableEq, Repr

def Extent.name : Extent → String
  | width => "width"
  | height => "height"

inductive Comparison where
  | equal
  | notEqual
  | less
  | lessOrEqual
  | greater
  | greaterOrEqual
  deriving DecidableEq, Repr

namespace Comparison

def symbol : Comparison → String
  | equal => "=="
  | notEqual => "!="
  | less => "<"
  | lessOrEqual => "<="
  | greater => ">"
  | greaterOrEqual => ">="

def ofSymbol? : String → Option Comparison
  | "==" => some equal
  | "!=" => some notEqual
  | "<" => some less
  | "<=" => some lessOrEqual
  | ">" => some greater
  | ">=" => some greaterOrEqual
  | _ => none

def holds : Comparison → Float → Float → Bool
  | equal, x, y => x == y
  | notEqual, x, y => x != y
  | less, x, y => x < y
  | lessOrEqual, x, y => x ≤ y
  | greater, x, y => y < x
  | greaterOrEqual, x, y => y ≤ x

end Comparison

inductive Condition where
  | bool (value : Bool)
  | idiom (idiom : Idiom)
  | orientation (orientation : Orientation)
  | style (style : InterfaceStyle)
  | sizeClass (axis : Axis) (equal : Bool) (sizeClass : SizeClass)
  | rootSize (extent : Extent) (comparison : Comparison) (value : Float)
  | not (inner : Condition)
  | and (lhs rhs : Condition)
  | or (lhs rhs : Condition)
  deriving DecidableEq, Repr

structure Traits where
  horizontal : SizeClass := .compact
  vertical : SizeClass := .regular
  idiom : Idiom := .phone
  orientation : Orientation := .portrait
  style : InterfaceStyle := .light
  width : Float := 375.0
  height : Float := 667.0
  deriving DecidableEq, Repr

namespace Condition

def evaluate (traits : Traits) : Condition → Bool
  | bool value => value
  | idiom i => traits.idiom == i
  | orientation o => traits.orientation == o
  | style s => traits.style == s
  | sizeClass axis equal c =>
    let actual := match axis with
      | .horizontal => traits.horizontal
      | .vertical => traits.vertical
    (actual == c) == equal
  | rootSize extent comparison value =>
    let actual := match extent with
      | .width => traits.width
      | .height => traits.height
    comparison.holds actual value
  | not inner => !inner.evaluate traits
  | and lhs rhs => lhs.evaluate traits && rhs.evaluate traits
  | or lhs rhs => lhs.evaluate traits || rhs.evaluate traits

def code (helper : String) : Condition → Expr
  | bool value => .boolean value
  | idiom i => (Expr.identifier helper).invoke "device" [(none, .implicitMember i.name)]
  | orientation o => (Expr.identifier helper).invoke "orientation" [(none, .implicitMember o.name)]
  | style s =>
    .binary ((Expr.identifier helper).member "userInterfaceStyle") "==" (.implicitMember s.name)
  | sizeClass axis equal c =>
    let member := match axis with
      | .horizontal => "horizontalSizeClass"
      | .vertical => "verticalSizeClass"
    .binary ((Expr.identifier helper).member member) (if equal then "==" else "!=")
      (.implicitMember c.name)
  | rootSize extent comparison value =>
    .binary ((Expr.identifier helper).invoke "viewRootSize" [(none, .implicitMember extent.name)])
      comparison.symbol (.number value)
  | not inner => .not (inner.code helper)
  | and lhs rhs => .binary (lhs.code helper) "&&" (rhs.code helper)
  | or lhs rhs => .binary (lhs.code helper) "||" (rhs.code helper)

def keyword? : String → Option Condition
  | "true" => some (bool true)
  | "false" => some (bool false)
  | "phone" | "iphone" => some (idiom .phone)
  | "pad" | "ipad" => some (idiom .pad)
  | "tv" => some (idiom .tv)
  | "carPlay" => some (idiom .carPlay)
  | "mac" => some (idiom .mac)
  | "landscape" => some (orientation .landscape)
  | "portrait" => some (orientation .portrait)
  | "dark" => some (style .dark)
  | "light" => some (style .light)
  | _ => none

def axis? : String → Option Axis
  | "horizontal" => some .horizontal
  | "vertical" => some .vertical
  | _ => none

def extent? : String → Option Extent
  | "width" => some .width
  | "height" => some .height
  | _ => none

def readSizeClass (axis : Axis) : (ts : List Token) → Except Reason (Parsed ts Condition)
  | .operator symbol :: rest =>
    if symbol = "==" ∨ symbol = "!=" then do
      let name ← Token.expectIdentifier rest
      match SizeClass.ofName? name.value with
      | some c => return (name.map fun _ => .sizeClass axis (symbol == "==") c).behind
      | none => .error (.unknownSizeClass name.value)
    else .error (Token.unexpected "'==' or '!='" (.operator symbol :: rest))
  | ts => .error (Token.unexpected "'==' or '!='" ts)

def readRootSize (extent : Extent) : (ts : List Token) → Except Reason (Parsed ts Condition)
  | .operator symbol :: rest =>
    match Comparison.ofSymbol? symbol with
    | some comparison => do
      let number ← Token.expectNumber rest
      return (number.map (.rootSize extent comparison)).behind
    | none => .error (.unknownComparison symbol)
  | _ => .error .comparisonExpected

def readAtom (ts : List Token) : Except Reason (Parsed ts Condition) := do
  let name ← Token.expectIdentifier ts
  match keyword? name.value, axis? name.value, extent? name.value with
  | some c, _, _ => return name.map fun _ => c
  | none, some axis, _ =>
    let c ← readSizeClass axis name.rest
    return name.andThen c
  | none, none, some extent =>
    let c ← readRootSize extent name.rest
    return name.andThen c
  | none, none, none => .error (.unknownTrait name.value)

def isOr (t : Token) : Bool := t == .identifier "or" || t == .operator "||"
def isAnd (t : Token) : Bool := t == .identifier "and" || t == .operator "&&"
def isNot (t : Token) : Bool := t == .identifier "not" || t == .operator "!"

mutual

def readOr (ts : List Token) : Except Reason (Parsed ts Condition) := do
  let lhs ← readAnd ts
  let c ← readOrTail lhs.value lhs.rest
  return lhs.andThenOptional c
termination_by 6 * ts.length + 4
decreasing_by
  · omega
  · have := lhs.shorter
    omega

def readOrTail (lhs : Condition) (ts : List Token) : Except Reason (Optional ts Condition) :=
  match ts with
  | [] => .ok (.unread lhs)
  | t :: more =>
    if isOr t then do
      let rhs ← readAnd more
      let c ← readOrTail (.or lhs rhs.value) rhs.rest
      return (rhs.andThenOptional c).behind.toOptional
    else .ok (.unread lhs)
termination_by 6 * ts.length + 5
decreasing_by
  · simp only [List.length_cons]; omega
  · have := rhs.shorter
    simp only [List.length_cons]; omega

def readAnd (ts : List Token) : Except Reason (Parsed ts Condition) := do
  let lhs ← readUnary ts
  let c ← readAndTail lhs.value lhs.rest
  return lhs.andThenOptional c
termination_by 6 * ts.length + 2
decreasing_by
  · omega
  · have := lhs.shorter
    omega

def readAndTail (lhs : Condition) (ts : List Token) : Except Reason (Optional ts Condition) :=
  match ts with
  | [] => .ok (.unread lhs)
  | t :: more =>
    if isAnd t then do
      let rhs ← readUnary more
      let c ← readAndTail (.and lhs rhs.value) rhs.rest
      return (rhs.andThenOptional c).behind.toOptional
    else .ok (.unread lhs)
termination_by 6 * ts.length + 3
decreasing_by
  · simp only [List.length_cons]; omega
  · have := rhs.shorter
    simp only [List.length_cons]; omega

def readUnary (ts : List Token) : Except Reason (Parsed ts Condition) :=
  match ts with
  | .parensOpen :: more => do
    let inner ← readOr more
    let closing ← Token.expect .parensClose inner.rest
    return (inner.closedBy closing).behind
  | [] => readAtom []
  | t :: more =>
    if isNot t then do
      let inner ← readUnary more
      return (inner.map .not).behind
    else readAtom (t :: more)
termination_by 6 * ts.length + 1
decreasing_by
  · simp only [List.length_cons]; omega
  · simp only [List.length_cons]; omega

end

def read (ts : List Token) : Except Reason Condition := do
  let c ← readOr ts
  Token.expectEnd c.rest
  return c.value

def parse (value : String) : Except ParseError Condition := do
  let ts ← Token.tokenize value
  reading value (read ts)

end Condition

end ViewForge
