import ViewForge.Value.Color
import ViewForge.Value.Dimension
import ViewForge.Value.Font
import ViewForge.Value.Type
/-! Property values: reading them by type, the theme items they use, and their code. -/
namespace ViewForge
open Code (Expr)

inductive Value where
  | bool (value : Bool)
  | int (value : Int)
  | float (value : Float)
  | double (value : Float)
  | string (text : String)
  | localized (key : String)
  | color (color : Color)
  | layerColor (color : Color)
  | font (font : Font)
  | image (image : Image)
  | point (point : Point)
  | size (size : Size)
  | rect (rect : Rect)
  | edgeInsets (insets : EdgeInsets)
  | keyword (set : KeywordSet) (index : Nat)
  | array (element : ValueType) (items : List Value)
  | absent (wrapped : ValueType)
  | present (wrapped : ValueType) (value : Value)
  | foreign (typeName expression : String)
  deriving Repr

/-- The key in a text such as `localizable(key)`: what stands between the parentheses, without the
blanks around it, if there is anything and no further parenthesis. Of blanks alone the last is the
key. -/
def localizableKey? (raw : String) : Option String :=
  match Text.dropLead? "localizable(".toList (Text.trimStart raw.toList) with
  | none => none
  | some rest =>
    match (Text.trimEnd rest).reverse with
    | ')' :: inner =>
      let body := inner.reverse
      let key := Text.trimChars body
      if body.isEmpty || body.any (fun c => c == '(' || c == ')') then none
      else if key.isEmpty then some (String.ofList (body.drop (body.length - 1)))
      else some (String.ofList key)
    | _ => none

namespace Value

def type : Value → ValueType
  | bool _ => .bool
  | int _ => .int
  | float _ => .float
  | double _ => .double
  | string _ | localized _ => .string
  | color _ => .color
  | layerColor _ => .layerColor
  | font _ => .font
  | image _ => .image
  | point _ => .point
  | size _ => .size
  | rect _ => .rect
  | edgeInsets _ => .edgeInsets
  | keyword set _ => .keyword set
  | array element _ => .array element
  | absent wrapped | present wrapped _ => .optional wrapped
  | foreign typeName _ => .foreign typeName

mutual

def isThemed : Value → Bool
  | color c | layerColor c => c.isThemed
  | font f => f.isThemed
  | image i => i.isThemed
  | array _ items => anyThemed items
  | present _ value => value.isThemed
  | _ => false

def anyThemed : List Value → Bool
  | [] => false
  | v :: rest => v.isThemed || anyThemed rest

end

def colorReferences (c : Color) : List ThemeReference :=
  match c.base with
  | .themed name => [⟨.color, name⟩]
  | _ => []

mutual

def themeReferences : Value → List ThemeReference
  | color c | layerColor c => colorReferences c
  | font (.themed name) => [⟨.font, name⟩]
  | image (.themed name) => [⟨.image, name⟩]
  | array _ items => allReferences items
  | present _ value => value.themeReferences
  | _ => []

def allReferences : List Value → List ThemeReference
  | [] => []
  | v :: rest => v.themeReferences ++ allReferences rest

end

def localizedCode (table : Option String) (key : String) : Expr :=
  (Expr.identifier "NSLocalizedString").apply (
    [(none, .string key)]
      ++ (match table with
        | some name => [(some "tableName", .string name)]
        | none => [])
      ++ [(some "comment", .string "")])

mutual

def code (context : RenderContext) : Value → Expr
  | bool value => .boolean value
  | int value => .constant (toString value)
  | float value | double value => .number value
  | string text => .string text
  | localized key => localizedCode context.localizationTable key
  | color c => c.code context.theme
  | layerColor c => (c.code context.theme).member "cgColor"
  | font f => f.code context.theme
  | image i => i.code context.theme
  | point p => (Expr.identifier "CGPoint").apply [(some "x", .number p.x), (some "y", .number p.y)]
  | size s => (Expr.identifier "CGSize").apply [
      (some "width", .number s.width), (some "height", .number s.height)]
  | rect r => (Expr.identifier "CGRect").apply [
      (some "x", .number r.x), (some "y", .number r.y),
      (some "width", .number r.width), (some "height", .number r.height)]
  | edgeInsets e => (Expr.identifier "UIEdgeInsets").apply [
      (some "top", .number e.top), (some "left", .number e.left),
      (some "bottom", .number e.bottom), (some "right", .number e.right)]
  | keyword set index => .implicitMember (set.keyword index)
  | array _ items => .array (codes context items)
  | absent _ => .nil
  | present _ value => value.code context
  | foreign _ expression => .constant expression

def codes (context : RenderContext) : List Value → List Expr
  | [] => []
  | v :: rest => v.code context :: codes context rest

end

end Value

namespace ValueType

def readFinite? (text : String) : Option Float := (Number.read? text).filter Number.isFinite

def orNone : Except ParseError α → Option α
  | .ok a => some a
  | .error _ => none

def readLeaf? (type : ValueType) (raw : String) : Option Value :=
  let trimmed := Text.trim raw
  match type with
  | bool =>
    if trimmed = "true" then some (.bool true)
    else if trimmed = "false" then some (.bool false)
    else none
  | int => (Number.readInt? trimmed).map .int
  | float => (readFinite? trimmed).map .float
  | double => (readFinite? trimmed).map .double
  | string => some (match localizableKey? raw with
      | some key => .localized key
      | none => .string raw)
  | color => (orNone (Color.parse trimmed)).map .color
  | layerColor => (orNone (Color.parse trimmed)).map .layerColor
  | font => (orNone (Font.parse trimmed)).map .font
  | image => (Image.parse? trimmed).map .image
  | point => (orNone (Point.parse trimmed)).map .point
  | size => (orNone (Size.parse trimmed)).map .size
  | rect => (orNone (Rect.parse trimmed)).map .rect
  | edgeInsets => (orNone (EdgeInsets.parse trimmed)).map .edgeInsets
  | keyword set => (set.index? trimmed).map (.keyword set)
  | foreign name => if trimmed = "" then none else some (.foreign name trimmed)
  | array _ | optional _ => none

/-- Reads a value. A failing array is reported as a whole, a failing optional by its content. -/
def parse : ValueType → String → Result Value
  | array element, raw =>
    let trimmed := Text.trim raw
    if trimmed = "" then .ok (.array element [])
    else match (Text.cut ';' trimmed).mapM element.parse with
      | .ok items => .ok (.array element items)
      | .error _ => .error (.unknownValue raw (array element).name)
  | optional wrapped, raw =>
    if Text.trim raw = "" then .ok (.absent wrapped)
    else (wrapped.parse raw).map (.present wrapped)
  | leaf, raw =>
    match leaf.readLeaf? raw with
    | some value => .ok value
    | none => .error (.unknownValue raw leaf.name)

def default? : ValueType → Option Value
  | bool => some (.bool false)
  | int => some (.int 0)
  | float => some (.float 0.0)
  | double => some (.double 0.0)
  | string => some (.string "")
  | color => some (.color ⟨.rgba ⟨0.0, 0.0, 0.0, 0.0⟩, []⟩)
  | layerColor => some (.layerColor ⟨.rgba ⟨0.0, 0.0, 0.0, 0.0⟩, []⟩)
  | point => some (.point ⟨0.0, 0.0⟩)
  | size => some (.size ⟨0.0, 0.0⟩)
  | rect => some (.rect ⟨0.0, 0.0, 0.0, 0.0⟩)
  | edgeInsets => some (.edgeInsets ⟨0.0, 0.0, 0.0, 0.0⟩)
  | keyword set => some (.keyword set 0)
  | array element => some (.array element [])
  | optional wrapped => some (.absent wrapped)
  | font | image | foreign _ => none

end ValueType

end ViewForge
