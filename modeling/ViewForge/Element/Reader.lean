import ViewForge.Element.Basic
import ViewForge.Text.Case
/-! Elements and components from markup. Ids are claimed component by component; an element without
an id gets the next free one for its tag. -/
namespace ViewForge
open Markup (Node)

def forbiddenNames : List String := [
  "RootView", "self", "Self", "super", "switch", "case", "default", "class", "struct", "enum",
  "protocol", "extension", "func", "var", "let", "if", "else", "guard", "for", "while", "repeat",
  "return", "import", "init", "deinit", "in", "is", "as", "true", "false", "nil", "Type", "Any"]

def isForbidden (name : String) : Bool := forbiddenNames.contains name

def isAllowed (name : String) : Bool := !isForbidden name && Text.isName name.toList

structure IdScope where
  component : String
  ids : List String := []
  deriving DecidableEq, Repr

structure ReadState where
  platform : Platform
  path : String
  /-- The last number given to an element of each tag. -/
  counters : List (String × Nat) := []
  scopes : List IdScope := []
  warnings : List String := []
  deriving Repr

namespace ReadState

def claimed (s : ReadState) : List String :=
  match s.scopes with
  | scope :: _ => scope.ids
  | [] => []

def warn (message : String) (s : ReadState) : ReadState :=
  { s with warnings := s.warnings ++ [s.path ++ ": " ++ message] }

def count (s : ReadState) (tag : String) : Nat := (s.counters.lookup tag).getD 0

def setCount (tag : String) (n : Nat) (s : ReadState) : ReadState :=
  { s with counters := (tag, n) :: s.counters.filter (·.1 != tag) }

def pushScope (component : String) (s : ReadState) : ReadState :=
  { s with scopes := { component } :: s.scopes }

def popScope (s : ReadState) : ReadState := { s with scopes := s.scopes.tail }

end ReadState

namespace Element

abbrev Read := Task ReadState

def warn (message : String) : Read Unit := modify (·.warn message)

def invalidName (name : String) : Read α := do
  throw (.invalidType name (← get).path)

def idBase (tag : String) : String :=
  match tag.toList with
  | [] => ""
  | c :: rest => String.ofList (Text.lowercase c ++ rest)

/-- The first number after `last` whose id is not taken; one more attempt than there are taken ids
always finds it. -/
def freeNumber (base : String) (taken : List String) : Nat → Nat → Nat
  | last, 0 => last + 1
  | last, attempts + 1 =>
    if taken.contains (base ++ toString (last + 1)) then
      freeNumber base taken (last + 1) attempts
    else last + 1

def generateId (tag : String) : Read ElementId := do
  let s ← get
  let n := freeNumber (idBase tag) s.claimed (s.count tag) s.claimed.length
  set (s.setCount tag n)
  return ⟨idBase tag ++ toString n, false⟩

/-- Outside any component ids are not claimed. -/
def claim (id : String) : Read Unit := do
  let s ← get
  match s.scopes with
  | [] => pure ()
  | scope :: outer =>
    if scope.ids.contains id then throw (.duplicateIdentifier id scope.component)
    set { s with scopes := { scope with ids := id :: scope.ids } :: outer }

def providedId (raw : String) : Read ElementId :=
  let id := Text.trim raw
  if isAllowed id then pure ⟨id, true⟩ else invalidName id

def readId (tag : String) (given : Option String) : Read ElementId := do
  let id ← match given with
    | some raw => providedId raw
    | none => generateId tag
  claim id.name
  return id

def addArgument (e : Element) (name raw : String) : Option Element :=
  match e.kind with
  | .component r =>
    some { e with kind := .component { r with arguments := r.arguments ++ [(name, raw)] } }
  | .widget _ => none

/-- What remains when layout, actions and tooling are told apart: namespaces, properties, and the
arguments of components. -/
def applyProperty (tag : String) (e : Element) (name raw : String) : Read Element := do
  if Text.startsWith "xmlns" name then return e
  match ← e.kind.table.property name raw with
  | some property => return { e with properties := e.properties ++ [property] }
  | none =>
    match e.addArgument name raw with
    | some extended => return extended
    | none =>
      warn s!"<{tag}> has no property '{name}', attribute ignored"
      return e

def applyAction (e : Element) (event raw : String) : Result Element := do
  let call ← Result.ofParse (ActionCall.parse raw)
  if e.kind.reference?.isNone && (EventDescription.find? e.kind.events event).isNone then
    .error (.unknownAction event e.kind.tag)
  return { e with actions := e.actions ++ [⟨event, call⟩] }

def applyAttribute (tag : String) (e : Element) : String × String → Read Element
  | (name, raw) =>
    match name with
    | "id" => pure e
    | "export" => pure { e with isExported := Text.trim raw == "true" }
    | "injected" => pure { e with isInjected := e.isInjected || Text.trim raw == "true" }
    | "style" => do return { e with styles := ← Result.ofParse (StyleName.parseList raw) }
    | _ =>
      match Text.after? "layout:" name with
      | some anchor => do
        let constraints ← Result.ofParse (Constraint.parseAll anchor raw)
        return { e with layout := e.layout ++ constraints }
      | none =>
        match Text.after? "action:" name with
        | some event => e.applyAction event raw
        | none =>
          match Text.after? "tools:" name with
          | some tool => pure { e with tooling := e.tooling ++ [(tool, raw)] }
          | none => applyProperty tag e name raw

def previewsState (e : Element) (tool : String) : Bool :=
  e.properties.any fun p => p.key == tool && p.state?.isSome

def checkTooling (tag : String) (e : Element) : List (String × String) → Read Unit
  | [] => pure ()
  | (tool, _) :: rest => do
    if !e.previewsState tool then
      warn s!"tools:{tool} on <{tag}> doesn't preview a state-bound property"
    checkTooling tag e rest

def applyAttributes (tag : String) (attributes : List (String × String)) (e : Element) :
    Read Element := do
  let e ← attributes.foldlM (applyAttribute tag) e
  checkTooling tag e e.tooling
  return e

def kindOf (tag : String) : Read ElementKind :=
  match Widget.ofTag? tag with
  | some w => pure (.widget w)
  | none => if isAllowed tag then pure (.component ⟨tag, [], none⟩) else invalidName tag

def dropLayout (tag : String) (root : Element) : Read Element := do
  if root.layout.isEmpty then return root
  warn s!"layout attributes on the root of '{tag}' are ignored"
  return { root with layout := [] }

def define (typeName path : String) (isAnonymous : Bool) (root : Element) (children : List Element)
    (blocks : Blocks) : ComponentDefinition :=
  { typeName, isAnonymous, root := { root with children },
    styles := blocks.styles.getD { name := typeName },
    templates := blocks.templates, state := blocks.state, overrides := blocks.overrides,
    navigation := blocks.navigation, sourcePath := path }

def absorbBlock (component : String) (blocks : Blocks) (node : Node) : Read Blocks := do
  let (outcome, next) := (Blocks.absorb component node).outcome blocks
  let _ ← outcome
  return next

def inScope (component : String) (body : Read α) : Read α := do
  modify (·.pushScope component)
  let outcome ← Task.observed body
  modify (·.popScope)
  outcome

mutual

def read : Node → Read Element
  | ⟨tag, attributes, children, _⟩ => do
    let kind ← kindOf tag
    let s ← get
    if !kind.isAvailable s.platform then throw (.unsupportedPlatform tag s.platform.name)
    let id ← readId tag (attributes.lookup "id")
    let e ← applyAttributes tag attributes (bare kind id)
    if children.isEmpty then return e
    match e.kind with
    | .component r =>
      let (inner, blocks) ← inScope tag (readBody tag {} children)
      let root := bare (.widget .container) rootId
      let definition := define tag s.path true root inner blocks
      return { e with kind := .component { r with definition := some definition } }
    | .widget w =>
      if !w.isContainer then throw (.document (.childrenForbidden tag))
      return { e with children := ← readAll children }

def readAll : List Node → Read (List Element)
  | [] => pure []
  | node :: rest => do
    let first ← read node
    return first :: (← readAll rest)

def readBody (component : String) (blocks : Blocks) : List Node → Read (List Element × Blocks)
  | [] => pure ([], blocks)
  | node :: rest => do
    if Blocks.tags.contains node.name then
      let blocks ← absorbBlock component blocks node
      readBody component blocks rest
    else
      let first ← read node
      let (others, blocks) ← readBody component blocks rest
      return (first :: others, blocks)

end

end Element

namespace ComponentDefinition

def read (node : Node) : Element.Read ComponentDefinition := do
  if !isAllowed node.name || (Widget.ofTag? node.name).isSome then Element.invalidName node.name
  let path := (← get).path
  Element.inScope node.name do
    let root ← Element.applyAttributes node.name node.attributes
      (Element.bare (.widget .container) Element.rootId)
    let root ← Element.dropLayout node.name root
    let (children, blocks) ← Element.readBody node.name {} node.children
    return Element.define node.name path false root children blocks

end ComponentDefinition

end ViewForge
