import ViewForge.Theme.Items
/-! Values as a running interface takes them: themed items replaced by what they stand for. -/
namespace ViewForge

inductive LiveColor where
  | rgba (channels : Rgba)
  | system (name : String) (modifiers : List Color.Modifier)
  deriving DecidableEq, Repr

inductive LiveValue where
  | nil
  | bool (value : Bool)
  | int (value : Int)
  | float (value : Float)
  | string (text : String)
  | localized (key : String)
  | color (color : LiveColor)
  | font (name : Option String) (weight : FontWeight) (size : Float)
  | image (name : String)
  | point (point : Point)
  | size (size : Size)
  | rect (rect : Rect)
  | edgeInsets (insets : EdgeInsets)
  | keyword (typeName : String) (raw : Int)
  | array (items : List LiveValue)
  | foreign (expression : String)
  deriving Repr

def LiveColor.adjust (modifiers : List Color.Modifier) : LiveColor → LiveColor
  | .rgba c => .rgba (Color.applyAll c modifiers)
  | .system name before => .system name (before ++ modifiers)

/-- Items may refer to items; a longer chain of references counts as a cycle. -/
def themeChainLimit : Nat := 16

structure LiveContext where
  theme : String
  values : ThemeValues
  deriving Repr

namespace LiveContext

def cyclic (item : String) : Error :=
  .cyclicReference s!"theme item '{item}' refers back to itself"

def missing (context : LiveContext) (item : String) : Error :=
  .themedItemNotFound context.theme item

def namedChannels (name : String) : Rgba := (Color.named.lookup name).getD ⟨0.0, 0.0, 0.0, 0.0⟩

def color (context : LiveContext) : Nat → Color → Result LiveColor
  | _, ⟨.rgba c, modifiers⟩ => .ok (LiveColor.adjust modifiers (.rgba c))
  | _, ⟨.named name, modifiers⟩ => .ok (LiveColor.adjust modifiers (.rgba (namedChannels name)))
  | _, ⟨.system name, modifiers⟩ => .ok (LiveColor.adjust modifiers (.system name []))
  | 0, ⟨.themed item, _⟩ => .error (cyclic item)
  | steps + 1, ⟨.themed item, modifiers⟩ =>
    match context.values.colors.get? context.theme item with
    | none => .error (context.missing item)
    | some next => (context.color steps next).map (LiveColor.adjust modifiers)

def font (context : LiveContext) : Nat → Font → Result LiveValue
  | _, .system weight size => .ok (.font none weight size)
  | _, .named name size => .ok (.font (some name) .regular size)
  | 0, .themed item => .error (cyclic item)
  | steps + 1, .themed item =>
    match context.values.fonts.get? context.theme item with
    | none => .error (context.missing item)
    | some next => context.font steps next

def image (context : LiveContext) : Nat → Image → Result LiveValue
  | _, .named name => .ok (.image name)
  | 0, .themed item => .error (cyclic item)
  | steps + 1, .themed item =>
    match context.values.images.get? context.theme item with
    | none => .error (context.missing item)
    | some next => context.image steps next

end LiveContext

namespace Value

mutual

def live (context : LiveContext) : Value → Result LiveValue
  | bool value => .ok (.bool value)
  | int value => .ok (.int value)
  | float value | double value => .ok (.float value)
  | string text => .ok (.string text)
  | localized key => .ok (.localized key)
  | color c | layerColor c => (context.color themeChainLimit c).map .color
  | font f => context.font themeChainLimit f
  | image i => context.image themeChainLimit i
  | point p => .ok (.point p)
  | size s => .ok (.size s)
  | rect r => .ok (.rect r)
  | edgeInsets e => .ok (.edgeInsets e)
  | keyword set index => .ok (.keyword set.runtimeType ((set.raw? index).getD 0))
  | array _ items => (liveAll context items).map .array
  | absent _ => .ok .nil
  | present _ value => value.live context
  | foreign _ expression => .ok (.foreign expression)

def liveAll (context : LiveContext) : List Value → Result (List LiveValue)
  | [] => .ok []
  | v :: rest => do
    let first ← v.live context
    let others ← liveAll context rest
    return first :: others

end

end Value

end ViewForge
