import ViewForge.Style.Basic
import ViewForge.Task
/-! The blocks of a component that are not views: styles, templates, state, overrides and the
navigation bar. -/
namespace ViewForge
open Markup (Node)

structure StateDeclaration where
  name : String
  type : ValueType
  default : Option Value

structure StateDescription where
  items : List StateDeclaration := []
  handler : Option String := none

namespace StateDescription

def isEmpty (d : StateDescription) : Bool := d.items.isEmpty && d.handler.isNone

def readItems (items : List StateDeclaration) : List Node → Result (List StateDeclaration)
  | [] => .ok items
  | node :: rest => do
    let name ← required node "name"
    let type := ValueType.lookup (← required node "type")
    let default ← match node.get? "default" with
      | some raw => (type.parse raw).map some
      | none => pure none
    if items.any (·.name == name) then .error (.state (.declaredTwice name))
    readItems (items ++ [{ name, type, default }]) rest

def read (node : Node) : Result StateDescription := do
  let items ← readItems [] (node.childrenNamed "item")
  return { items, handler := node.get? "didChange" }

end StateDescription

inductive OverrideKind where
  | willMoveToSuperview
  | didMoveToSuperview
  | willMoveToWindow
  | didMoveToWindow
  | layoutSubviews
  deriving DecidableEq, Repr

namespace OverrideKind

def all : List OverrideKind :=
  [willMoveToSuperview, didMoveToSuperview, willMoveToWindow, didMoveToWindow, layoutSubviews]

def name : OverrideKind → String
  | willMoveToSuperview => "willMoveToSuperview"
  | didMoveToSuperview => "didMoveToSuperview"
  | willMoveToWindow => "willMoveToWindow"
  | didMoveToWindow => "didMoveToWindow"
  | layoutSubviews => "layoutSubviews"

def method : OverrideKind → String
  | willMoveToSuperview | willMoveToWindow => "willMove"
  | kind => kind.name

def parameter? : OverrideKind → Option (String × String × String)
  | willMoveToSuperview => some ("toSuperview", "newSuperview", "UIView?")
  | willMoveToWindow => some ("toWindow", "newWindow", "UIWindow?")
  | _ => none

def handlerFirst : OverrideKind → Bool
  | willMoveToSuperview | willMoveToWindow => true
  | _ => false

end OverrideKind

structure Override where
  kind : OverrideKind
  handler : String
  deriving DecidableEq, Repr

namespace Override

def readAttribute : String × String → Result Override
  | (name, handler) =>
    match OverrideKind.all.find? (·.name == name) with
    | some kind => .ok ⟨kind, Text.trim handler⟩
    | none => .error (.unknownProperty name "overrides")

def read (node : Node) : Result (List Override) := do
  let found ← node.attributes.mapM readAttribute
  return OverrideKind.all.flatMap fun kind => found.filter (·.kind == kind)

end Override

structure BoundAction where
  event : String
  call : ActionCall
  deriving DecidableEq, Repr

inductive NavigationPosition where
  | left
  | right
  deriving DecidableEq, Repr

structure NavigationItem where
  id : String
  title : Value
  position : NavigationPosition
  action : Option BoundAction

namespace NavigationItem

def readPosition (node : Node) : Result NavigationPosition :=
  match (node.get? "position").getD "right" with
  | "left" => .ok .left
  | "right" => .ok .right
  | other => .error (.unknownValue other "NavigationPosition")

def read (node : Node) : Result NavigationItem := do
  let position ← readPosition node
  let action ← match node.get? "action" with
    | some raw => do
      let call ← Result.ofParse (ActionCall.parse raw)
      pure (some ⟨"tap", call⟩)
    | none => pure none
  let id ← required node "id"
  let title ← ValueType.string.parse ((node.get? "title").getD "")
  return { id, title, position, action }

def readAll (node : Node) : Result (List NavigationItem) := (node.childrenNamed "item").mapM read

end NavigationItem

inductive Segment where
  | text (text : String)
  | argument (name : String)
  deriving DecidableEq, Repr

structure Template where
  name : String
  style : Option StyleName
  text : String
  arguments : List String
  deriving DecidableEq, Repr

namespace Template

def isArgumentStart (c : Char) : Bool := Text.isAsciiLetter c || c == '_'

def isArgumentPart (c : Char) : Bool := isArgumentStart c || Text.isAsciiDigit c

def placeholder? : List Char → Option (List Char × List Char)
  | '\x7b' :: '\x7b' :: rest =>
    match rest.dropWhile Text.isBlank with
    | c :: more =>
      if isArgumentStart c then
        match (more.dropWhile isArgumentPart).dropWhile Text.isBlank with
        | '\x7d' :: '\x7d' :: tail => some (c :: more.takeWhile isArgumentPart, tail)
        | _ => none
      else none
    | [] => none
  | _ => none

theorem placeholderShortens {cs name tail : List Char}
    (h : placeholder? cs = some (name, tail)) : tail.length < cs.length := by
  unfold placeholder? at h
  split at h
  · rename_i rest
    split at h
    · rename_i c more eq
      split at h
      · split at h
        · rename_i found
          simp only [Option.some.injEq, Prod.mk.injEq] at h
          have h₁ := (List.dropWhile_sublist Text.isBlank (l := rest)).length_le
          have h₂ := (List.dropWhile_sublist isArgumentPart (l := more)).length_le
          have h₃ := (List.dropWhile_sublist Text.isBlank
            (l := more.dropWhile isArgumentPart)).length_le
          rw [eq, List.length_cons] at h₁
          rw [found] at h₃
          rw [← h.2]
          simp only [List.length_cons] at *
          omega
        · simp at h
      · simp at h
    · simp at h
  · simp at h

def placeholders (cs : List Char) : List String :=
  match _h : placeholder? cs with
  | some (name, tail) => String.ofList name :: placeholders tail
  | none =>
    match cs with
    | [] => []
    | _ :: rest => placeholders rest
termination_by cs.length
decreasing_by
  · exact placeholderShortens _h
  · simp

def textSegment (pending : List Char) : List Segment :=
  if pending.isEmpty then [] else [.text (String.ofList pending)]

/-- Cuts a text at its placeholders; `pending` is the text since the last one. -/
def segmentsFrom (pending cs : List Char) : List Segment :=
  match _h : placeholder? cs with
  | some (name, tail) =>
    textSegment pending ++ .argument (String.ofList name) :: segmentsFrom [] tail
  | none =>
    match cs with
    | [] => textSegment pending
    | c :: rest => segmentsFrom (pending ++ [c]) rest
termination_by cs.length
decreasing_by
  · exact placeholderShortens _h
  · simp

def segments (t : Template) : List Segment := segmentsFrom [] t.text.toList

def distinct (names : List String) : List String :=
  names.foldl (fun seen name => if seen.contains name then seen else seen ++ [name]) []

def read (node : Node) : Result Template := do
  if node.name ≠ "attributedText" then .error (.document (.unknownTemplateType node.name))
  let name ← required node "name"
  let style ← match node.get? "style" with
    | some raw => (Result.ofParse (StyleName.parse raw)).map some
    | none => pure none
  return { name, style, text := node.text, arguments := distinct (placeholders node.text.toList) }

end Template

structure Blocks where
  styles : Option StyleGroup := none
  templates : List Template := []
  state : StateDescription := {}
  overrides : List Override := []
  navigation : List NavigationItem := []

namespace Blocks

def tags : List String := ["styles", "templates", "state", "overrides", "navigationBar"]

def addStyles (group : StyleGroup) (blocks : Blocks) : Blocks :=
  match blocks.styles with
  | some existing =>
    { blocks with styles := some { existing with styles := existing.styles ++ group.styles } }
  | none => { blocks with styles := some group }

def absorbTemplates : List Node → Task Blocks Unit
  | [] => pure ()
  | node :: rest => do
    let template ← Template.read node
    modify fun blocks => { blocks with templates := blocks.templates ++ [template] }
    absorbTemplates rest

/-- Adds a block. Styles and templates accumulate; of the other blocks the last one counts. -/
def absorb (component : String) (node : Node) : Task Blocks Unit :=
  match node.name with
  | "styles" => do
    let group ← StyleGroup.read node (some component)
    modify (addStyles group)
  | "templates" => absorbTemplates node.children
  | "state" => do
    let state ← StateDescription.read node
    modify fun blocks => { blocks with state }
  | "overrides" => do
    let overrides ← Override.read node
    modify fun blocks => { blocks with overrides }
  | "navigationBar" => do
    let navigation ← NavigationItem.readAll node
    modify fun blocks => { blocks with navigation }
  | other => throw (.document (.notStructural other))

end Blocks

end ViewForge
