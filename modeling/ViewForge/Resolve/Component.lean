import ViewForge.Resolve.Action
import ViewForge.Resolve.State
/-! Components resolved one through the other. A component on the way cannot be met again, so the
way is never longer than there are definitions. -/
namespace ViewForge

namespace Registry

def orUnknown (typeName : String) : Option ComponentDefinition → Result ComponentDefinition
  | some d => .ok d
  | none => .error (.unknownComponent typeName)

def component (r : Registry) (typeName : String) : Resolve ComponentDefinition := do
  Resolve.warn (r.component? typeName).2
  orUnknown typeName (r.component? typeName).1

def componentIn (r : Registry) (typeName path : String) : Result ComponentDefinition :=
  orUnknown typeName (r.componentIn? typeName path)

def definitionFor (r : Registry) (e : Element) : Resolve ComponentDefinition := do
  match e.kind with
  | .widget w => throw (.unknownComponent w.tag)
  | .component reference =>
    match reference.definition with
    | some d => return d
    | none => r.component reference.typeName

def elementProperties (r : Registry) (scope : StyleScope) (e : Element) :
    Task StyleCache (String × List Property) := do
  let merged ← scope.resolve e
  r.checkReferences merged
  return (e.id.name, merged)

def resolveProperties (r : Registry) (d : ComponentDefinition) :
    Result (List (String × List Property)) := do
  let scope : StyleScope := { groups := r.styleGroups, own := some d.styles }
  let (outcome, _) := (d.elements.mapM (r.elementProperties scope)).outcome []
  let properties ← outcome
  return properties.foldl (fun all p => Ordered.put p.1 p.2 all) []

def cycle (inProgress : List DefinitionKey) (d : ComponentDefinition) : Error :=
  .cyclicReference (Text.join " -> "
    (((inProgress.dropWhile (· != d.key)).map (·.1)) ++ [d.typeName]))

def describe (r : Registry) (resolveChild : ChildResolver) (d : ComponentDefinition) :
    Resolve Resolved := do
  let properties ← r.resolveProperties d
  let state ← StateItem.resolveAll resolveChild d
  let actions ← ResolvedAction.resolveAll resolveChild d state
  return { definition := d, properties, state, actions }

def workOut (r : Registry) (resolveChild : ChildResolver) (d : ComponentDefinition) :
    Resolve Resolved := do
  let resolved ← Resolve.marking d.key (r.describe resolveChild d)
  if !d.isAnonymous then
    modify fun s => { s with cache := (d.key, resolved) :: s.cache }
  return resolved

/-- A component that has been resolved is known, and one in progress cannot be begun again. -/
def unlessSettled (work : ComponentDefinition → Resolve Resolved) (d : ComponentDefinition) :
    Resolve Resolved := do
  let s ← get
  match if d.isAnonymous then none else s.cache.lookup d.key with
  | some resolved => return resolved
  | none =>
    if s.inProgress.contains d.key then throw (cycle s.inProgress d)
    work d

/-- Resolves a definition while at most so many components are begun inside each other; `beyond`
stands for whatever would come of one more. -/
def resolveWithin (r : Registry) (beyond : ComponentDefinition → Resolve Resolved) :
    Nat → ComponentDefinition → Resolve Resolved
  | 0 => unlessSettled beyond
  | allowed + 1 => unlessSettled <| r.workOut fun e => do
      r.resolveWithin beyond allowed (← r.definitionFor e)

/-- More than the number of distinct definitions that can be on the way. -/
def resolveLimit (r : Registry) (d : ComponentDefinition) : Nat :=
  r.allDefinitions.length + d.nested.length + 1

def resolve (r : Registry) (d : ComponentDefinition) : Resolve Resolved :=
  r.resolveWithin (fun d => throw (.cyclicReference d.typeName)) (r.resolveLimit d) d

def resolveReference (r : Registry) (e : Element) : Resolve Resolved := do
  r.resolve (← r.definitionFor e)

end Registry

end ViewForge
