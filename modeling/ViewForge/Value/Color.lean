import ViewForge.Theme.Access
import ViewForge.Token.Cursor
/-! Colours: a base and a chain of modifiers, as values, as code and as channels. -/
namespace ViewForge
open ParseError (Reason)
open Token (Parsed)
open Code (Expr)

structure Rgba where
  red : Float
  green : Float
  blue : Float
  alpha : Float
  deriving DecidableEq, Repr

namespace Color

def named : List (String × Rgba) := [
  ("black", ⟨0.0, 0.0, 0.0, 1.0⟩),
  ("darkGray", ⟨1.0 / 3.0, 1.0 / 3.0, 1.0 / 3.0, 1.0⟩),
  ("lightGray", ⟨2.0 / 3.0, 2.0 / 3.0, 2.0 / 3.0, 1.0⟩),
  ("white", ⟨1.0, 1.0, 1.0, 1.0⟩),
  ("gray", ⟨0.5, 0.5, 0.5, 1.0⟩),
  ("red", ⟨1.0, 0.0, 0.0, 1.0⟩),
  ("green", ⟨0.0, 1.0, 0.0, 1.0⟩),
  ("blue", ⟨0.0, 0.0, 1.0, 1.0⟩),
  ("cyan", ⟨0.0, 1.0, 1.0, 1.0⟩),
  ("yellow", ⟨1.0, 1.0, 0.0, 1.0⟩),
  ("magenta", ⟨1.0, 0.0, 1.0, 1.0⟩),
  ("orange", ⟨1.0, 0.5, 0.0, 1.0⟩),
  ("purple", ⟨0.5, 0.0, 0.5, 1.0⟩),
  ("brown", ⟨0.6, 0.4, 0.2, 1.0⟩),
  ("clear", ⟨0.0, 0.0, 0.0, 0.0⟩)]

def system : List String := [
  "label", "secondaryLabel", "tertiaryLabel", "placeholderText", "separator", "link",
  "systemBackground", "secondarySystemBackground", "tertiarySystemBackground",
  "systemGroupedBackground", "systemFill", "systemRed", "systemGreen", "systemBlue",
  "systemOrange", "systemYellow", "systemPink", "systemPurple", "systemTeal", "systemIndigo",
  "systemGray", "tintColor"]

inductive Base where
  | rgba (channels : Rgba)
  | named (name : String)
  | system (name : String)
  | themed (name : String)
  deriving DecidableEq, Repr

inductive Adjustment where
  | lighter
  | darker
  | saturated
  | desaturated
  | fadedOut
  | fadedIn
  | alpha
  deriving DecidableEq, Repr

namespace Adjustment

def name : Adjustment → String
  | lighter => "lighter"
  | darker => "darker"
  | saturated => "saturated"
  | desaturated => "desaturated"
  | fadedOut => "fadedOut"
  | fadedIn => "fadedIn"
  | alpha => "alpha"

def label : Adjustment → String
  | alpha => "at"
  | _ => "by"

def all : List Adjustment := [lighter, darker, saturated, desaturated, fadedOut, fadedIn, alpha]

def ofName? (name : String) : Option Adjustment := all.find? (·.name == name)

end Adjustment

structure Modifier where
  adjustment : Adjustment
  amount : Float
  deriving DecidableEq, Repr

end Color

structure Color where
  base : Color.Base
  modifiers : List Color.Modifier := []
  deriving DecidableEq, Repr

namespace Color

def isThemed (c : Color) : Bool :=
  match c.base with
  | .themed _ => true
  | _ => false

def hexValue (c : Char) : Nat :=
  if Text.isAsciiDigit c then c.toNat - '0'.toNat
  else if 'a' ≤ c then c.toNat - 'a'.toNat + 10
  else c.toNat - 'A'.toNat + 10

def channels : List Char → List Float
  | a :: b :: rest => (16 * hexValue a + hexValue b).toFloat / 255.0 :: channels rest
  | _ => []

def ofHex (digits : String) : Except Reason Rgba :=
  let cs := digits.toList
  if !cs.all Text.isHexDigit then .error (.invalidHexColor digits)
  else
    let expanded :=
      if cs.length = 3 ∨ cs.length = 4 then some (cs.flatMap fun c => [c, c])
      else if cs.length = 6 ∨ cs.length = 8 then some cs
      else none
    match expanded with
    | none => .error (.invalidHexLength digits)
    | some pairs =>
      let v := channels pairs
      .ok ⟨v.getD 0 1.0, v.getD 1 1.0, v.getD 2 1.0, v.getD 3 1.0⟩

def readBase : (ts : List Token) → Except Reason (Parsed ts Base)
  | .hex digits :: _ => do return .front (.rgba (← ofHex digits))
  | .colon :: rest => do
    let name ← Token.expectIdentifier rest
    return (name.map .themed).behind
  | .identifier name :: _ =>
    if (named.lookup name).isSome then .ok (.front (.named name))
    else if system.contains name then .ok (.front (.system name))
    else .error (.unknownColor name)
  | token :: _ => .error (.colorExpected (some token.display))
  | [] => .error (.colorExpected none)

def readModifier (ts : List Token) : Except Reason (Parsed ts Modifier) := do
  let name ← Token.expectIdentifier ts
  match Adjustment.ofName? name.value with
  | none => .error (.unknownColorModifier name.value)
  | some adjustment =>
    let opening ← Token.expect .parensOpen name.rest
    match found : opening.rest with
    | .identifier label :: rest =>
      if label = adjustment.label then
        let colon ← Token.expect .colon rest
        let amount ← Token.expectFraction colon.rest
        let closing ← Token.expect .parensClose amount.rest
        return ⟨⟨adjustment, amount.value⟩, closing.rest, by
          have h₁ := name.shorter
          have h₂ := opening.shorter
          have h₃ := colon.shorter
          have h₄ := amount.shorter
          have h₅ := closing.shorter
          rw [found, List.length_cons] at h₂
          omega⟩
      else .error (Token.unexpected ("argument label '" ++ adjustment.label ++ "'") opening.rest)
    | _ => .error (Token.unexpected ("argument label '" ++ adjustment.label ++ "'") opening.rest)

def readModifiers : List Token → Except Reason (List Modifier)
  | .period :: rest => do
    let modifier ← readModifier rest
    return modifier.value :: (← readModifiers modifier.rest)
  | ts => do
    Token.expectEnd ts
    return []
termination_by ts => ts.length
decreasing_by
  have := modifier.shorter
  simp only [List.length_cons]; omega

def read (ts : List Token) : Except Reason Color := do
  let base ← readBase ts
  return ⟨base.value, ← readModifiers base.rest⟩

def parse (value : String) : Except ParseError Color := do
  let ts ← Token.tokenize value
  reading value (read ts)

def rounded (x : Float) : Float := Number.round (x * 10000.0) / 10000.0

def Base.code (theme : ThemeAccess) : Base → Expr
  | .rgba c => (Expr.identifier "UIColor").apply [
      (some "red", .number (rounded c.red)), (some "green", .number (rounded c.green)),
      (some "blue", .number (rounded c.blue)), (some "alpha", .number (rounded c.alpha))]
  | .named name | .system name => (Expr.identifier "UIColor").member name
  | .themed name => theme.item .color name

def Modifier.code (target : Expr) (m : Modifier) : Expr :=
  target.invoke m.adjustment.name [(some m.adjustment.label, .number (rounded m.amount))]

def code (theme : ThemeAccess) (c : Color) : Expr :=
  c.modifiers.foldl Modifier.code (c.base.code theme)

structure Hsb where
  hue : Float
  saturation : Float
  brightness : Float
  deriving DecidableEq, Repr

def larger (a b : Float) : Float := if a < b then b else a

def smaller (a b : Float) : Float := if b < a then b else a

def Hsb.ofRgba (c : Rgba) : Hsb :=
  let high := larger (larger c.red c.green) c.blue
  let low := smaller (smaller c.red c.green) c.blue
  let delta := high - low
  let hue :=
    if delta == 0.0 then 0.0
    else if high == c.red then Number.cyclic ((c.green - c.blue) / delta) 6 / 6.0
    else if high == c.green then ((c.blue - c.red) / delta + 2.0) / 6.0
    else ((c.red - c.green) / delta + 4.0) / 6.0
  ⟨hue, if high == 0.0 then 0.0 else delta / high, high⟩

def Hsb.toRgba (c : Hsb) (alpha : Float) : Rgba :=
  let sector := Number.cyclic (c.hue * 6.0) 6
  let chroma := c.brightness * c.saturation
  let x := chroma * (1.0 - Number.abs (Number.remainder sector 2 - 1.0))
  let m := c.brightness - chroma
  let (r, g, b) := match Number.truncate sector with
    | 0 => (chroma, x, 0.0)
    | 1 => (x, chroma, 0.0)
    | 2 => (0.0, chroma, x)
    | 3 => (0.0, x, chroma)
    | 4 => (x, 0.0, chroma)
    | _ => (chroma, 0.0, x)
  ⟨r + m, g + m, b + m, alpha⟩

def clamp (x : Float) : Float := if x < 0.0 then 0.0 else if 1.0 < x then 1.0 else x

def Modifier.apply (c : Rgba) (m : Modifier) : Rgba :=
  let hsb := Hsb.ofRgba c
  match m.adjustment with
  | .lighter => { hsb with brightness := clamp (hsb.brightness + m.amount) }.toRgba c.alpha
  | .darker => { hsb with brightness := clamp (hsb.brightness - m.amount) }.toRgba c.alpha
  | .saturated => { hsb with saturation := clamp (hsb.saturation + m.amount) }.toRgba c.alpha
  | .desaturated => { hsb with saturation := clamp (hsb.saturation - m.amount) }.toRgba c.alpha
  | .fadedOut => { c with alpha := clamp (c.alpha - m.amount) }
  | .fadedIn => { c with alpha := clamp (c.alpha + m.amount) }
  | .alpha => { c with alpha := clamp m.amount }

def applyAll (c : Rgba) (modifiers : List Modifier) : Rgba := modifiers.foldl Modifier.apply c

end Color

end ViewForge
