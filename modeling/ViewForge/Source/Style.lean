import ViewForge.Registry
import ViewForge.Source.Configuration
import ViewForge.Style.Flatten
/-! A group of styles as a struct with a static member for every style. Bases are applied first and
the style's own properties last, which is the order in which styles are merged onto elements. -/
namespace ViewForge
open Code (Expr Stmt Decl)

def StyleGroup.globalType (group : String) : String := Text.capitalized group ++ "Styles"

def StyleGroup.ownType : String := "Styles"

structure StyleSource where
  registry : Registry
  configuration : Configuration
  scope : StyleScope
  group : StyleGroup
  typeName : String

namespace StyleSource

def ofGlobal (r : Registry) (c : Configuration) (group : StyleGroup) : StyleSource :=
  { registry := r, configuration := c, scope := { groups := r.styleGroups }, group,
    typeName := StyleGroup.globalType group.name }

def ofComponent (r : Registry) (c : Configuration) (group : StyleGroup) : StyleSource :=
  { registry := r, configuration := c, scope := { groups := r.styleGroups, own := some group },
    group, typeName := StyleGroup.ownType }

def owner (s : StyleSource) : StyleName → String
  | .inGroup _ => s.typeName
  | .qualified group _ => StyleGroup.globalType group

def reference (s : StyleSource) (theme : Expr) (name : StyleName) : Task StyleCache Expr := do
  let (_, style) ← s.scope.lookup name (some s.group)
  let member := (Expr.identifier (s.owner name)).member style.name
  if ← s.scope.isThemed name (some s.group) then return member.apply [(none, theme)]
  return member

def viewCode (context : RenderContext) (bases : List Expr) (properties : List Property) : Expr :=
  let view := Expr.identifier "view"
  .closure [] ["view"]
    (bases.map (fun base => .expr (base.apply [(none, view)]))
      ++ properties.map fun p => p.apply view (p.code context (.identifier "state")))

def overlay (merged layer : Expr) : Expr :=
  merged.invoke "merging" [
    (none, layer),
    (some "uniquingKeysWith", .closure [] ["_", "new"] [.ret (some (.identifier "new"))])]

def attributedCode (context : RenderContext) (bases : List Expr) (properties : List Property) :
    Expr :=
  let own := Expr.dictionary (properties.map fun p =>
    ⟨.implicitMember p.description.path.flatten, p.code context (.identifier "state")⟩)
  match bases with
  | [] => own
  | first :: rest => (rest ++ [own]).foldl overlay first

def code (context : RenderContext) (bases : List Expr) (style : Style) : Expr × String :=
  match style.kind with
  | .view _ =>
    (viewCode context bases style.properties, "(" ++ style.kind.runtimeType ++ ") -> Void")
  | .attributedText =>
    (attributedCode context bases style.properties, "[NSAttributedString.Key: Any]")

def themedDecl (c : Configuration) (name typeName : String) (value : Expr) : Decl :=
  .function {
    access := c.plainAccess, modifiers := ["static"], name
    parameters := [.unlabelled "theme" "ApplicationTheme"]
    returns := some typeName, body := [.ret (some value)] }

def plainDecl (c : Configuration) (name typeName : String) (value : Expr) : Decl :=
  .property { Code.Property.constant c.plainAccess name value with
    modifiers := ["static"], typeName := some typeName }

def style (s : StyleSource) (style : Style) : Task StyleCache Decl := do
  s.registry.checkReferences style.properties
  let themed ← s.scope.isThemed (.inGroup style.name) (some s.group)
  let bases ← style.extend.mapM (s.reference (.identifier "theme"))
  let context := s.registry.renderContext
  if themed then
    let (value, typeName) := code { context with theme := .parameter "theme" } bases style
    return themedDecl s.configuration style.name typeName value
  let (value, typeName) := code context bases style
  return plainDecl s.configuration style.name typeName value

def decl (s : StyleSource) : Result Decl := do
  let (outcome, _) := (s.group.styles.mapM s.style).outcome []
  return .type .structType s.configuration.plainAccess [] s.typeName [] (← outcome)

end StyleSource

end ViewForge
