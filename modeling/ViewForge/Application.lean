import ViewForge.Markup.Reader
import ViewForge.Theme.Items
/-! The description of an application: its themes and what they provide. -/
namespace ViewForge
open Markup (Node)

structure Application where
  themes : List String := []
  defaultTheme : String := ""
  localizationTable : Option String := none
  values : ThemeValues := {}
  deriving Repr

namespace Application

def hasTheme (app : Application) (theme : String) : Bool := app.themes.contains theme

def checkReferences (app : Application) (value : Value) : Result Unit :=
  match value.themeReferences.find? (!app.values.hasItem ·) with
  | some reference => .error (.themedItemNotFound app.defaultTheme reference.item)
  | none => .ok ()

def readValues (themes : List String) (parse : String → Result α) :
    List (String × String) → Result (List (String × α))
  | [] => .ok []
  | (theme, raw) :: rest =>
    if theme = "name" then readValues themes parse rest
    else if !themes.contains theme then .error (.unknownValue theme "Theme")
    else do
      let value ← parse raw
      return (theme, value) :: (← readValues themes parse rest)

def readItems (category : String) (themes : List String) (parse : String → Result α) :
    ThemedItems α → List Node → Result (ThemedItems α)
  | items, [] => .ok items
  | items, node :: rest =>
    match node.get? "name" with
    | none => .error (.document (.itemWithoutName category))
    | some name => do
      let values ← readValues themes parse node.attributes
      if (items.lookup name).isSome then .error (.duplicateIdentifier name category)
      readItems category themes parse (items ++ [(name, values)]) rest

def readCategory (root : Node) (category : String) (themes : List String)
    (parse : String → Result α) : Result (ThemedItems α) :=
  match root.child? category with
  | some node => readItems category themes parse [] (node.childrenNamed "item")
  | none => .ok []

def parseImage (raw : String) : Result Image :=
  match Image.parse? raw with
  | some image => .ok image
  | none => .error (.unknownValue raw "Image")

def checkItems (values : ThemeValues) (category : ThemeCategory) (reference? : α → Option String) :
    List (String × α) → Result Unit
  | [] => .ok ()
  | (theme, value) :: rest =>
    match reference? value with
    | some item =>
      if values.hasItem ⟨category, item⟩ then checkItems values category reference? rest
      else .error (.themedItemNotFound theme item)
    | none => checkItems values category reference? rest

def colorReference? (c : Color) : Option String :=
  match c.base with
  | .themed name => some name
  | _ => none

def fontReference? : Font → Option String
  | .themed name => some name
  | _ => none

def imageReference? : Image → Option String
  | .themed name => some name
  | _ => none

def checkValues (values : ThemeValues) : Result Unit := do
  checkItems values .color colorReference? (values.colors.flatMap (·.2))
  checkItems values .font fontReference? (values.fonts.flatMap (·.2))
  checkItems values .image imageReference? (values.images.flatMap (·.2))

def readThemes (root : Node) : List String :=
  match root.child? "Themes" with
  | some node => node.children.map (·.name)
  | none => ["default"]

def readDefaultTheme (root : Node) (themes : List String) : Result String :=
  match root.get? "defaultTheme" with
  | some theme =>
    if themes.contains theme then .ok theme else .error (.unknownValue theme "Theme")
  | none => .ok (themes.head?.getD "default")

def parse (source : String) : Result Application := do
  let root ← Markup.parse source
  if root.name ≠ "Application" then .error (.document (.applicationExpected root.name))
  let themes := readThemes root
  let defaultTheme ← readDefaultTheme root themes
  let colors ← readCategory root "Colors" themes fun raw => Result.ofParse (Color.parse raw)
  let images ← readCategory root "Images" themes parseImage
  let fonts ← readCategory root "Fonts" themes fun raw => Result.ofParse (Font.parse raw)
  checkValues { colors, images, fonts }
  return { themes, defaultTheme, localizationTable := root.get? "localizationTable",
           values := { colors, images, fonts } }

end Application

end ViewForge
