import ViewForge.Resolve.Types
/-! Actions: the events of a component's elements, gathered by the names of the calls. -/
namespace ViewForge

namespace ResolvedAction

def literalValue : Literal → Value
  | .bool value => .bool value
  | .int value => .int value
  | .double value => .double value
  | .string text => .string text

def describeEvent (resolveChild : ChildResolver) (e : Element) (event : String) :
    Resolve EventDescription := do
  let found ← match e.kind with
    | .component _ => do
      let child ← resolveChild e
      pure ((child.action? event).map (·.description))
    | .widget w => pure (EventDescription.find? w.events event)
  match found with
  | some description => return description
  | none => throw (.unknownAction event e.kind.tag)

def referenceParameter (d : ComponentDefinition) (current : String) (target : ReferenceTarget)
    (property : Option String) : Result (ValueType × ParameterSource) := do
  let id := match target with
    | .this => current
    | .element id => id
  match d.find? id with
  | none => .error (.unknownElement id d.typeName)
  | some e =>
    let source := ParameterSource.reference e.id.name property
    match property with
    | none => return (.foreign e.kind.runtimeType, source)
    | some name =>
      match e.kind.table.find? name with
      | some (description, _) => return (description.type, source)
      | none => .error (.unknownProperty name e.kind.tag)

def argumentParameter (d : ComponentDefinition) (state : List StateItem) (current action : String)
    (argument : CallArgument) : Result ActionParameter := do
  let (type, source) ← match argument.value with
    | .constant literal =>
      let value := literalValue literal
      .ok (value.type, .constant value)
    | .state name =>
      match state.find? (·.name == name) with
      | some item => .ok (item.type, .state name)
      | none => .error (.state (.unknownVariable action name))
    | .reference target property => referenceParameter d current target property
  return ⟨argument.label, type, source⟩

def inheritedParameters : Nat → List EventParameter → List ActionParameter
  | _, [] => []
  | i, p :: rest => ⟨p.label, p.type, .inherited i⟩ :: inheritedParameters (i + 1) rest

def source (d : ComponentDefinition) (state : List StateItem) (id : String) (action : BoundAction)
    (event : EventDescription) : Result ActionSource := do
  let parameters ← match action.call.arguments with
    | none => .ok (inheritedParameters 0 event.parameters)
    | some arguments => arguments.mapM (argumentParameter d state id action.call.name)
  return ⟨id, event.source, event.parameters, parameters⟩

abbrev Sources := List (String × List ActionSource)

def addSource (resolveChild : ChildResolver) (d : ComponentDefinition) (state : List StateItem)
    (e : Element) (sources : Sources) (action : BoundAction) : Resolve Sources := do
  let event ← describeEvent resolveChild e action.event
  let found ← source d state e.id.name action event
  return Ordered.push action.call.name found sources

def barButtonEvent : EventDescription := { name := "tap", source := .barButton }

def addNavigationSource (d : ComponentDefinition) (state : List StateItem) (sources : Sources)
    (item : NavigationItem) : Result Sources :=
  match item.action with
  | none => .ok sources
  | some action => do
    let found ← source d state item.id action barButtonEvent
    return Ordered.push action.call.name found sources

def describeTypes (parameters : List ActionParameter) : String :=
  "(" ++ Text.join ", " (parameters.map (·.type.name)) ++ ")"

def mismatch (name : String) (first other : ActionSource) : Error :=
  .actionMismatch name
    ("'" ++ first.element ++ "' publishes " ++ describeTypes first.parameters ++ " but '"
      ++ other.element ++ "' publishes " ++ describeTypes other.parameters)

def ofSources : String × List ActionSource → Result (Option ResolvedAction)
  | (_, []) => .ok none
  | (name, first :: rest) =>
    let types := fun s : ActionSource => s.parameters.map (·.type)
    match rest.find? (types · != types first) with
    | some other => .error (mismatch name first other)
    | none => .ok (some {
        name, sources := first :: rest
        parameters := first.parameters.map fun p => (p.label, p.type) })

def resolveAll (resolveChild : ChildResolver) (d : ComponentDefinition) (state : List StateItem) :
    Resolve (List ResolvedAction) := do
  let sources ← d.elements.foldlM (fun sources e =>
    e.actions.foldlM (addSource resolveChild d state e) sources) []
  let sources ← show Result _ from d.navigation.foldlM (addNavigationSource d state) sources
  let actions ← show Result _ from sources.mapM ofSources
  return actions.reduceOption

end ResolvedAction

end ViewForge
