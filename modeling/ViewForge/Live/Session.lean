import ViewForge.Live.Basic
import ViewForge.Resolve.Component
/-! A component brought to life on a running interface: its views are made, set, put into their
parents and constrained, without any code being generated. -/
namespace ViewForge

structure LiveSession where
  registry : Registry
  host : Host
  theme : String
  traits : Traits

structure LiveState where
  resolver : ResolverState := {}
  made : Nat := 0
  events : List LiveEvent := []

/-- State items with their values; the first entry of a name counts. -/
abbrev StateValues := List (String × Value)

abbrev Live := Task LiveState

namespace Live

def record (event : LiveEvent) : Live Unit :=
  modify fun s => { s with events := s.events ++ [event] }

def resolving (work : Resolve α) : Live α := do
  let s ← get
  let (outcome, resolver) := work.outcome s.resolver
  set { s with resolver }
  outcome

def unset (state : String) (p : Property) : String :=
  s!"State '{state}' has no value, '" ++ p.key ++ "' is left unset"

end Live

namespace LiveSession
open Live

def values (s : LiveSession) : LiveContext := ⟨s.theme, s.registry.application.values⟩

def instantiate (s : LiveSession) (request : Instantiation) : Live ViewNumber := do
  let made := (← get).made
  if !s.host.canMake request made then throw (.missingFactory request.runtimeType)
  modify fun state => { state with made := made + 1 }
  record (.instantiated (made + 1) request)
  return made + 1

def insert (s : LiveSession) (parentType : String) (parent child : ViewNumber) :
    List Inserter → Live Unit
  | [] => throw (.missingInserter parentType)
  | inserter :: rest => do
    record (.inserted parent child inserter (s.host.accepts inserter))
    if !s.host.accepts inserter then s.insert parentType parent child rest

def applyValue (s : LiveSession) (view : ViewNumber) (p : Property) (value : Value) :
    Live Unit := do
  let live ← value.live s.values
  record (.set view p.key live)

/-- Code that is already there cannot be run here, and a property without a value is left alone. -/
def applyProperty (s : LiveSession) (state : StateValues) (view : ViewNumber) (p : Property) :
    Live Unit :=
  match p.binding with
  | .value value => s.applyValue view p value
  | .code _ => pure ()
  | .state name =>
    match state.lookup name with
    | some value => s.applyValue view p value
    | none => resolving (Resolve.warn [unset name p])

def argumentValues (child : Resolved) (state : StateValues) :
    List (String × String) → Result StateValues
  | [] => .ok []
  | (name, raw) :: rest =>
    match stateReference? raw with
    | some source => do
      let others ← argumentValues child state rest
      return ((state.lookup source).map (name, ·)).toList ++ others
    | none =>
      match child.stateItem? name with
      | none => .error (.unknownProperty name child.definition.typeName)
      | some item => do
        let value ← item.type.parse raw
        return (name, value) :: (← argumentValues child state rest)

def componentState (s : LiveSession) (e : Element) (r : ComponentReference) (state : StateValues) :
    Live StateValues := do
  if r.arguments.isEmpty then return []
  let child ← resolving (s.registry.resolveReference e)
  argumentValues child state r.arguments

structure Placed where
  views : List (String × ViewNumber) := []
  nested : List (String × LiveTree) := []

def viewOf (d : ComponentDefinition) (views : List (String × ViewNumber)) (id : String) :
    Result ViewNumber :=
  match views.lookup id with
  | some view => .ok view
  | none => .error (.unknownElement id d.typeName)

abbrev Builder := ComponentDefinition → ViewNumber → StateValues → Live LiveTree

def makeView (s : LiveSession) (d : ComponentDefinition) (placed : Placed) (e parent : Element) :
    Live ViewNumber := do
  let view ← s.instantiate (.ofKind e.kind)
  let parentView ← viewOf d placed.views parent.id.name
  s.insert parent.kind.runtimeType parentView view (Inserter.chain parent.kind)
  return view

def placeNested (s : LiveSession) (build : Builder) (state : StateValues) (view : ViewNumber)
    (placed : Placed) (e : Element) : Live Placed :=
  match e.kind with
  | .widget _ => pure placed
  | .component r => do
    let d ← resolving (s.registry.definitionFor e)
    let values ← s.componentState e r state
    let tree ← build d view values
    return { placed with nested := Ordered.put e.id.name tree placed.nested }

def place (s : LiveSession) (build : Builder) (resolved : Resolved) (state : StateValues)
    (root : ViewNumber) (placed : Placed) : Element.Parented → Live Placed
  | (e, parent) => do
    let view ← match parent with
      | none => pure root
      | some parent => s.makeView resolved.definition placed e parent
    (resolved.propertiesOf e).forM (s.applyProperty state view)
    let placed := { placed with views := Ordered.put e.id.name view placed.views }
    match parent with
    | none => return placed
    | some _ => s.placeNested build state view placed e

def liveTarget (d : ComponentDefinition) (views : List (String × ViewNumber))
    (e parent : Element) (c : Constraint) : Result LiveTarget :=
  match c.target with
  | .parent => (viewOf d views parent.id.name).map (.view · c.targetAnchor)
  | .this => (viewOf d views e.id.name).map (.view · c.targetAnchor)
  | .safeArea => (viewOf d views parent.id.name).map (.safeArea · c.targetAnchor)
  | .field id => (viewOf d views id).map (.view · c.targetAnchor)
  | .constant value => .ok (.constant value)

def holds (s : LiveSession) (c : Constraint) : Bool :=
  match c.condition with
  | some condition => condition.evaluate s.traits
  | none => true

def activate (d : ComponentDefinition) (views : List (String × ViewNumber)) (e parent : Element)
    (c : Constraint) : Live Unit := do
  let target ← liveTarget d views e parent c
  let view ← viewOf d views e.id.name
  record (.activated view
    { anchor := c.anchor, relation := c.relation, target, modifiers := c.modifiers,
      priority := c.priority })

def activateAll (s : LiveSession) (d : ComponentDefinition) (views : List (String × ViewNumber)) :
    List Element.Parented → Live Nat
  | [] => pure 0
  | (_, none) :: rest => s.activateAll d views rest
  | (e, some parent) :: rest => do
    let active := e.layout.filter s.holds
    active.forM (activate d views e parent)
    return active.length + (← s.activateAll d views rest)

/-- Builds a component into a view. Every component within another has a view of its own, so
`depth` need not exceed the number of views that can be made. -/
def build (s : LiveSession) : Nat → Builder
  | 0, d, _, _ => throw (.missingFactory d.typeName)
  | depth + 1, d, root, arguments => do
    let resolved ← resolving (s.registry.resolve d)
    let state := arguments ++ resolved.state.map fun item => (item.name, item.default)
    let elements := d.root.withParents
    let placed ← elements.foldlM (s.place (s.build depth) resolved state root) {}
    let active ← s.activateAll d placed.views elements
    return .node placed.views placed.nested active

def apply (s : LiveSession) (d : ComponentDefinition) : Live LiveTree :=
  s.build (s.host.limit + 1) d 0 []

end LiveSession

end ViewForge
