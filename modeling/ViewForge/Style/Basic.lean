import ViewForge.Markup.Reader
import ViewForge.Widget
/-! Styles, their groups, and the sheets they are read from. -/
namespace ViewForge
open Markup (Node)

inductive StyleName where
  | inGroup (name : String)
  | qualified (group name : String)
  deriving DecidableEq, Repr

namespace StyleName

def isPart (cs : List Char) : Bool := !cs.isEmpty && cs.all Text.isNamePart

/-- `title` names a style of the group at hand, `:General:title` one of a global group. -/
def parse (raw : String) : Except ParseError StyleName :=
  let cs := Text.trimChars raw.toList
  let fail := fun reason => Except.error ⟨reason, String.ofList cs⟩
  match cs with
  | ':' :: rest =>
    match Text.cutFirstChars? ':' rest with
    | some (group, name) =>
      if isPart group && isPart name then
        .ok (.qualified (String.ofList group) (String.ofList name))
      else fail .groupStyleExpected
    | none => fail .groupStyleExpected
  | _ => if isPart cs then .ok (.inGroup (String.ofList cs)) else fail .invalidStyleName

def parseList (raw : String) : Except ParseError (List StyleName) := (Text.words raw).mapM parse

def display : StyleName → String
  | inGroup name => name
  | qualified group name => ":" ++ group ++ ":" ++ name

end StyleName

inductive StyleKind where
  | view (widget : Widget)
  | attributedText
  deriving DecidableEq, Repr

namespace StyleKind

def ofTag? (tag : String) : Option StyleKind :=
  if tag = "attributedTextStyle" then some .attributedText
  else (Widget.ofStyleTag? tag).map .view

def table : StyleKind → PropertyTable
  | view w => w.table
  | attributedText => attributedTextTable

def runtimeType : StyleKind → String
  | view w => w.runtimeType
  | attributedText => "NSAttributedString"

def tag : StyleKind → String
  | view w => w.tag ++ "Style"
  | attributedText => "attributedTextStyle"

/-- A style for plain views serves every view; any other serves its own kind. -/
def accepts : StyleKind → StyleKind → Bool
  | view .view, view _ => true
  | a, b => a == b

end StyleKind

structure Style where
  name : String
  extend : List StyleName
  kind : StyleKind
  properties : List Property

def Style.isThemed (s : Style) : Bool := s.properties.any (·.isThemed)

structure StyleGroup where
  name : String
  styles : List Style := []

def StyleGroup.find? (g : StyleGroup) (name : String) : Option Style :=
  g.styles.find? (·.name == name)

def missingAttribute (node : Node) (name : String) : Error :=
  .document (.missingAttribute node.name name)

def required (node : Node) (name : String) : Result String :=
  match node.get? name with
  | some value => .ok value
  | none => .error (missingAttribute node name)

namespace Style

def readProperties (kind : StyleKind) (name : String) :
    List (String × String) → Result (List Property)
  | [] => .ok []
  | (key, raw) :: rest =>
    if key = "name" ∨ key = "extend" then readProperties kind name rest
    else do
      match ← kind.table.property key raw with
      | none => .error (.unknownProperty key kind.tag)
      | some property =>
        if property.state?.isSome then .error (.state (.boundInStyle name key))
        return property :: (← readProperties kind name rest)

def read (node : Node) : Result Style := do
  match StyleKind.ofTag? node.name with
  | none => .error (.document (.unknownStyleType node.name))
  | some kind =>
    let name ← required node "name"
    let _ ← Result.ofParse (StyleName.parse name)
    let extend ← match node.get? "extend" with
      | some raw => Result.ofParse (StyleName.parseList raw)
      | none => pure []
    let properties ← readProperties kind name node.attributes
    return { name, extend, kind, properties }

end Style

namespace StyleGroup

def readStyles (group : StyleGroup) : List Node → Result StyleGroup
  | [] => .ok group
  | node :: rest => do
    let style ← Style.read node
    if (group.find? style.name).isSome then .error (.duplicateIdentifier style.name group.name)
    readStyles { group with styles := group.styles ++ [style] } rest

def read (node : Node) (fallback : Option String) : Result StyleGroup :=
  match (node.get? "name").or fallback with
  | some name => readStyles { name } node.children
  | none => .error (missingAttribute node "name")

def parseSheet (source : String) : Result StyleGroup := do
  let root ← Markup.parse source
  if root.name ≠ "styleGroup" then .error (.document (.styleSheetExpected root.name))
  read root none

end StyleGroup

end ViewForge
