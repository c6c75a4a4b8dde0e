import ViewForge.Element.Basic
/-! What a style sets once everything it extends is taken into account, and what an element is set
to by its styles and its own attributes. -/
namespace ViewForge

def merge (properties : List Property) (p : Property) : List Property :=
  properties.filter (·.key != p.key) ++ [p]

def mergeAll (properties more : List Property) : List Property := more.foldl merge properties

structure StyleScope where
  groups : List (String × StyleGroup)
  own : Option StyleGroup := none

abbrev StyleCache := List ((String × String) × List Property)

namespace StyleScope

/-- A bare name is looked up in the current group and then in the component's own. -/
def lookup (scope : StyleScope) (name : StyleName) (current : Option StyleGroup) :
    Result (StyleGroup × Style) :=
  let inGroup (name : String) (group : StyleGroup) := (group.find? name).map fun s => (group, s)
  let found := match name with
    | .qualified group name => (scope.groups.lookup group).bind (inGroup name)
    | .inGroup name => (current.toList ++ scope.own.toList).findSome? (inGroup name)
  match found with
  | some result => .ok result
  | none => .error (.unknownStyle name.display)

def cycle (visiting : List String) (name : String) : Error :=
  .cyclicReference (Text.join " -> " (visiting.dropWhile (· != name) ++ [name]))

/-- How many styles there are. A chain without repetition is no longer. -/
def size (scope : StyleScope) : Nat :=
  (scope.groups.map (·.2.styles.length)).foldl (· + ·) 0
    + (scope.own.map (·.styles.length)).getD 0

/-- Bases come first, in the order in which they are named, then the style's own properties; the
last of one key counts. `visiting` are the styles on the way here, of which there are fewer than
`fuel` more to come. -/
def flattenFrom (scope : StyleScope) :
    Nat → List String → StyleName → Option StyleGroup → Task StyleCache (List Property)
  | 0, _, name, _ => throw (.cyclicReference name.display)
  | fuel + 1, visiting, name, current => do
    let (group, style) ← scope.lookup name current
    let qualified := (StyleName.qualified group.name style.name).display
    if visiting.contains qualified then throw (cycle visiting qualified)
    match (← get).lookup (group.name, style.name) with
    | some known => return known
    | none =>
      let inherited ← style.extend.foldlM (fun merged base => do
        let (_, baseStyle) ← scope.lookup base (some group)
        if !baseStyle.kind.accepts style.kind then
          throw (.styleTypeMismatch base.display baseStyle.kind.tag style.kind.tag)
        let properties ← scope.flattenFrom fuel (visiting ++ [qualified]) base (some group)
        return mergeAll merged properties) []
      let flattened := mergeAll inherited style.properties
      modify fun cache => ((group.name, style.name), flattened) :: cache
      return flattened

def flatten (scope : StyleScope) (name : StyleName) (current : Option StyleGroup) :
    Task StyleCache (List Property) :=
  scope.flattenFrom (scope.size + 1) [] name current

def isThemed (scope : StyleScope) (name : StyleName) (current : Option StyleGroup) :
    Task StyleCache Bool := do
  return (← scope.flatten name current).any (·.isThemed)

def suits (style : StyleKind) : ElementKind → Bool
  | .component _ => style == .view .view
  | .widget w => style.accepts (.view w)

def resolve (scope : StyleScope) (e : Element) : Task StyleCache (List Property) := do
  let styled ← e.styles.foldlM (fun merged name => do
    let (_, style) ← scope.lookup name none
    if !suits style.kind e.kind then
      throw (.styleTypeMismatch name.display style.kind.tag e.kind.tag)
    return mergeAll merged (← scope.flatten name none)) []
  return mergeAll styled e.properties

end StyleScope

def literalKeys (properties : List Property) : List String :=
  (properties.filter (·.value?.isSome)).map (·.key)

end ViewForge
