import ViewForge.Registry
import ViewForge.Style.Flatten
/-! What becomes of a component when its styles, state and actions are worked out. -/
namespace ViewForge

inductive ApplicationTarget where
  | property (p : Property)
  | componentState (name : String)

structure StateApplication where
  element : String
  target : ApplicationTarget
  type : ValueType

structure StateItem where
  name : String
  type : ValueType
  default : Value
  applications : List StateApplication
  isExplicit : Bool

inductive ParameterSource where
  | inherited (index : Nat)
  | constant (value : Value)
  | state (name : String)
  | reference (element : String) (property : Option String)

structure ActionParameter where
  label : Option String
  type : ValueType
  source : ParameterSource

structure ActionSource where
  element : String
  event : EventSource
  eventParameters : List EventParameter
  parameters : List ActionParameter

structure ResolvedAction where
  name : String
  parameters : List (Option String × ValueType)
  sources : List ActionSource

def numberedParameters : Nat → List (Option String × ValueType) → List EventParameter
  | _, [] => []
  | i, (label, type) :: rest => ⟨label, type, "p" ++ toString i⟩ :: numberedParameters (i + 1) rest

def ResolvedAction.description (a : ResolvedAction) : EventDescription :=
  { name := a.name, parameters := numberedParameters 0 a.parameters, source := .component a.name }

structure Resolved where
  definition : ComponentDefinition
  properties : List (String × List Property)
  state : List StateItem
  actions : List ResolvedAction

namespace Resolved

def stateItem? (r : Resolved) (name : String) : Option StateItem := r.state.find? (·.name == name)

def action? (r : Resolved) (name : String) : Option ResolvedAction :=
  r.actions.find? (·.name == name)

def propertiesOf (r : Resolved) (e : Element) : List Property :=
  (r.properties.lookup e.id.name).getD []

def isThemed (r : Resolved) : Bool := r.properties.any (·.2.any (·.isThemed))

end Resolved

abbrev DefinitionKey := String × String

def ComponentDefinition.key (d : ComponentDefinition) : DefinitionKey := (d.typeName, d.sourcePath)

structure ResolverState where
  cache : List (DefinitionKey × Resolved) := []
  /-- The components that have been begun and not ended, the innermost last. -/
  inProgress : List DefinitionKey := []
  warnings : List String := []

abbrev Resolve := Task ResolverState

def Resolve.warn (messages : List String) : Resolve Unit :=
  modify fun s => { s with warnings := s.warnings ++ messages }

def Resolve.marking (key : DefinitionKey) (work : Resolve α) : Resolve α := do
  modify fun s => { s with inProgress := s.inProgress ++ [key] }
  let outcome ← Task.observed work
  modify fun s => { s with inProgress := s.inProgress.dropLast }
  outcome

abbrev ChildResolver := Element → Resolve Resolved

end ViewForge
