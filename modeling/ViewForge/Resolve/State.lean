import ViewForge.Resolve.Types
/-! State items: those that a component declares, and those that its bindings imply. -/
namespace ViewForge

def ValueType.unify? (a b : ValueType) : Option ValueType :=
  if a = b then some a
  else if a = .optional b then some a
  else if b = .optional a then some b
  else none

def typedDefault (type : ValueType) (declared : Option Value) : ValueType × Value :=
  match declared with
  | some value => (type, value)
  | none =>
    match type.default? with
    | some value => (type, value)
    | none => (.optional type, .absent type)

namespace StateItem

abbrev Uses := List (String × List StateApplication)

def propertyUses (id : String) (uses : Uses) : List Property → Uses
  | [] => uses
  | p :: rest =>
    match p.state? with
    | some name =>
      propertyUses id (Ordered.push name ⟨id, .property p, p.description.type⟩ uses) rest
    | none => propertyUses id uses rest

def argumentUses (id typeName : String) (child : Resolved) (uses : Uses) :
    List (String × String) → Result Uses
  | [] => .ok uses
  | (name, raw) :: rest =>
    match child.stateItem? name with
    | none => .error (.unknownProperty name typeName)
    | some item =>
      match stateReference? raw with
      | some found =>
        argumentUses id typeName child
          (Ordered.push found ⟨id, .componentState name, item.type⟩ uses) rest
      | none => do
        let _ ← item.type.parse raw
        argumentUses id typeName child uses rest

def elementUses (resolveChild : ChildResolver) (uses : Uses) (e : Element) : Resolve Uses := do
  let uses := propertyUses e.id.name uses e.properties
  match e.kind.reference? with
  | none => return uses
  | some r =>
    if r.arguments.isEmpty then return uses
    let child ← resolveChild e
    argumentUses e.id.name r.typeName child uses r.arguments

def declared (uses : Uses) (d : StateDeclaration) : StateItem :=
  let (type, default) := typedDefault d.type d.default
  { name := d.name, type, default, isExplicit := true,
    applications := (uses.lookup d.name).getD [] }

def conflict (name : String) (a b : ValueType) : Error :=
  let (first, second) := if b.name < a.name then (b.name, a.name) else (a.name, b.name)
  .state (.conflictingTypes name first second)

def unifyUses (name : String) (type : ValueType) : List StateApplication → Result ValueType
  | [] => .ok type
  | use :: rest =>
    match type.unify? use.type with
    | some unified => unifyUses name unified rest
    | none => .error (conflict name type use.type)

def inferred : String × List StateApplication → Result (Option StateItem)
  | (_, []) => .ok none
  | (name, first :: rest) => do
    let unified ← unifyUses name first.type rest
    let (type, default) := typedDefault unified none
    return some { name, type, default, applications := first :: rest, isExplicit := false }

/-- The state items of a component: declared ones first, then the others as they are used. -/
def resolveAll (resolveChild : ChildResolver) (d : ComponentDefinition) :
    Resolve (List StateItem) := do
  let uses ← d.elements.foldlM (elementUses resolveChild) []
  let explicit := d.state.items.map (declared uses)
  let others := uses.filter fun u => !d.state.items.any (·.name == u.1)
  let implicit ← show Result _ from others.mapM inferred
  return explicit ++ implicit.reduceOption

end StateItem

end ViewForge
