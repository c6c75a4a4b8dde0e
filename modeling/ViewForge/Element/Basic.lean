import ViewForge.Component.Blocks
import ViewForge.Layout.Constraint
/-! The tree of views. An element is of a built-in kind or refers to a component, which may be
defined on the spot; a component definition holds a tree of its own. -/
namespace ViewForge
open Code (Expr Stmt)

structure ElementId where
  name : String
  isProvided : Bool
  deriving DecidableEq, Repr

mutual

structure Element where
  kind : ElementKind
  id : ElementId
  isExported : Bool
  /-- Handed to the initializer instead of created. -/
  isInjected : Bool
  styles : List StyleName
  properties : List Property
  tooling : List (String × String)
  layout : List Constraint
  actions : List BoundAction
  children : List Element

inductive ElementKind where
  | widget (widget : Widget)
  | component (reference : ComponentReference)

structure ComponentReference where
  typeName : String
  arguments : List (String × String)
  definition : Option ComponentDefinition

structure ComponentDefinition where
  typeName : String
  /-- Defined in place, so reachable from there alone. -/
  isAnonymous : Bool
  root : Element
  styles : StyleGroup
  templates : List Template
  state : StateDescription
  overrides : List Override
  navigation : List NavigationItem
  sourcePath : String

end

namespace ElementKind

def reference? : ElementKind → Option ComponentReference
  | component r => some r
  | widget _ => none

def tag : ElementKind → String
  | widget w => w.tag
  | component r => r.typeName

def runtimeType : ElementKind → String
  | widget w => w.runtimeType
  | component r => r.typeName

def imports : ElementKind → List String
  | widget _ => ["UIKit"]
  | component _ => []

def isContainer : ElementKind → Bool
  | widget w => w.isContainer
  | component _ => false

def isAvailable (platform : Platform) : ElementKind → Bool
  | widget w => w.isAvailable platform
  | component _ => true

/-- From outside, a component is a plain view. -/
def table : ElementKind → PropertyTable
  | widget w => w.table
  | component _ => Widget.view.table

/-- The events of built-in kinds; those of a component are known once it is resolved. -/
def events : ElementKind → List EventDescription
  | widget w => w.events
  | component _ => []

def creation : ElementKind → Expr
  | widget w => w.creation
  | component r => (Expr.identifier r.typeName).apply []

def insertion (kind : ElementKind) (parent child : Expr) : Stmt :=
  let method := match kind with
    | widget w => w.insertionMethod
    | component _ => "addSubview"
  .expr (parent.invoke method [(none, child)])

end ElementKind

namespace Element

def bare (kind : ElementKind) (id : ElementId) : Element :=
  { kind, id, isExported := false, isInjected := false, styles := [], properties := [],
    tooling := [], layout := [], actions := [], children := [] }

def rootName : String := "self"

def rootId : ElementId := ⟨rootName, false⟩

mutual

def count : Element → Nat
  | ⟨_, _, _, _, _, _, _, _, _, children⟩ => 1 + countAll children

def countAll : List Element → Nat
  | [] => 0
  | e :: rest => e.count + countAll rest

end

theorem countRoot (e : Element) : e.count = 1 + countAll e.children := by
  cases e; rw [count]

theorem countAllAppend (xs ys : List Element) :
    countAll (xs ++ ys) = countAll xs + countAll ys := by
  induction xs with
  | nil => simp [countAll]
  | cons x xs ih => simp [countAll, ih]; omega

/-- The elements that are waiting, each followed by everything below it. -/
def walk : List Element → List Element
  | [] => []
  | e :: rest => e :: walk (e.children ++ rest)
termination_by pending => countAll pending
decreasing_by
  simp only [countAllAppend, countAll, countRoot]; omega

def descendants (e : Element) : List Element := walk [e]

def find? (e : Element) (id : String) : Option Element :=
  e.descendants.find? (·.id.name == id)

abbrev Parented := Element × Option Element

def childrenOf (e : Element) : List Parented := e.children.map fun c => (c, some e)

theorem childrenOfElements (e : Element) : (childrenOf e).map Prod.fst = e.children := by
  simp [childrenOf, Function.comp_def]

def walkParented : List Parented → List Parented
  | [] => []
  | (e, parent) :: rest => (e, parent) :: walkParented (childrenOf e ++ rest)
termination_by pending => countAll (pending.map Prod.fst)
decreasing_by
  simp only [List.map_append, List.map_cons, childrenOfElements, countAllAppend, countAll,
    countRoot]
  omega

def withParents (e : Element) : List Parented := walkParented [(e, none)]

def escape : Char → List Char
  | '&' => "&amp;".toList
  | '"' => "&quot;".toList
  | '<' => "&lt;".toList
  | '>' => "&gt;".toList
  | c => [c]

def escapeText (s : String) : String := String.ofList (s.toList.flatMap escape)

def writtenAttributes (e : Element) : List (String × String) :=
  (if e.id.isProvided then [("id", e.id.name)] else [])
    ++ (if e.isExported then [("export", "true")] else [])
    ++ (if e.isInjected then [("injected", "true")] else [])
    ++ (if e.styles.isEmpty then [] else [("style", Text.join " " (e.styles.map (·.display)))])
    ++ e.actions.map (fun a => ("action:" ++ a.event, a.call.display))
    ++ e.tooling.map (fun t => ("tools:" ++ t.1, t.2))

def attributeText (a : String × String) : String := " " ++ a.1 ++ "=\"" ++ escapeText a.2 ++ "\""

mutual

def serialize : Element → String
  | ⟨kind, id, isExported, isInjected, styles, properties, tooling, layout, actions, children⟩ =>
    let e : Element :=
      ⟨kind, id, isExported, isInjected, styles, properties, tooling, layout, actions, []⟩
    "<" ++ kind.tag ++ Text.concat (e.writtenAttributes.map attributeText)
      ++ (if children.isEmpty then "/>"
        else ">" ++ serializeAll children ++ "</" ++ kind.tag ++ ">")

def serializeAll : List Element → String
  | [] => ""
  | e :: rest => e.serialize ++ serializeAll rest

end

mutual

def definitions : Element → List ComponentDefinition
  | ⟨.widget _, _, _, _, _, _, _, _, _, children⟩ => definitionsOfAll children
  | ⟨.component ⟨_, _, none⟩, _, _, _, _, _, _, _, _, children⟩ => definitionsOfAll children
  | ⟨.component ⟨_, _, some d⟩, _, _, _, _, _, _, _, _, children⟩ =>
    definitionsOf d ++ definitionsOfAll children

def definitionsOfAll : List Element → List ComponentDefinition
  | [] => []
  | e :: rest => e.definitions ++ definitionsOfAll rest

def definitionsOf : ComponentDefinition → List ComponentDefinition
  | ⟨typeName, isAnonymous, root, styles, templates, state, overrides, navigation, sourcePath⟩ =>
    ⟨typeName, isAnonymous, root, styles, templates, state, overrides, navigation, sourcePath⟩
      :: root.definitions

end

end Element

namespace ComponentDefinition

def elements (d : ComponentDefinition) : List Element := d.root.descendants

def find? (d : ComponentDefinition) (id : String) : Option Element := d.root.find? id

def inlineDefinitions (d : ComponentDefinition) : List ComponentDefinition :=
  d.elements.filterMap fun e => e.kind.reference?.bind (·.definition)

def nested (d : ComponentDefinition) : List ComponentDefinition := Element.definitionsOf d

end ComponentDefinition

end ViewForge
