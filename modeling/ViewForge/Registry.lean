import ViewForge.Application
import ViewForge.Element.Basic
import ViewForge.Ordered
/-! Everything that a project declares: its application, styles and components. -/
namespace ViewForge

structure Registry where
  platform : Platform
  application : Application
  styleGroups : List (String × StyleGroup) := []
  components : List (String × List ComponentDefinition) := []

namespace Registry

def addGroup (r : Registry) (group : StyleGroup) : Registry × List String :=
  let name := group.name
  let warnings :=
    if (r.styleGroups.lookup name).isSome then
      [s!"Style group '{name}' is defined more than once, the last definition wins"]
    else []
  ({ r with styleGroups := Ordered.put name group r.styleGroups }, warnings)

/-- A file defines a type once; a later definition takes the place of the earlier. -/
def replaceOrAdd (d : ComponentDefinition) : List ComponentDefinition → List ComponentDefinition
  | [] => [d]
  | e :: rest => if e.sourcePath == d.sourcePath then d :: rest else e :: replaceOrAdd d rest

def addComponent (r : Registry) (d : ComponentDefinition) : Registry :=
  let others := (r.components.lookup d.typeName).getD []
  { r with components := Ordered.put d.typeName (replaceOrAdd d others) r.components }

/-- The definition of a type that is visible everywhere, with a warning if there are several. -/
def component? (r : Registry) (typeName : String) : Option ComponentDefinition × List String :=
  match r.components.lookup typeName with
  | some (first :: _ :: more) =>
    let files := more.length + 2
    (some first,
      [s!"Component '{typeName}' is defined in {files} files, using " ++ first.sourcePath])
  | some [only] => (some only, [])
  | _ => (none, [])

def componentIn? (r : Registry) (typeName path : String) : Option ComponentDefinition :=
  ((r.components.lookup typeName).getD []).find? (·.sourcePath == path)

def definitions (r : Registry) : List ComponentDefinition := r.components.flatMap (·.2)

def allDefinitions (r : Registry) : List ComponentDefinition := r.definitions.flatMap (·.nested)

def renderContext (r : Registry) : RenderContext :=
  { platform := r.platform, localizationTable := r.application.localizationTable }

def checkReferences (r : Registry) : List Property → Result Unit
  | [] => .ok ()
  | p :: rest => do
    match p.value? with
    | some value => r.application.checkReferences value
    | none => pure ()
    r.checkReferences rest

end Registry

end ViewForge
