import ViewForge.Resolve.Component
import ViewForge.Source.Action
import ViewForge.Source.Imports
import ViewForge.Source.State
import ViewForge.Source.Style
import ViewForge.Source.Theme
/-! The class of a component. It holds the classes of the components that are defined in it. -/
namespace ViewForge
open Code (Expr Stmt Decl Function Parameter Access)

structure ComponentSource where
  imports : Imports
  decl : Decl

namespace ComponentDefinition

def imports (d : ComponentDefinition) (c : Configuration) : Imports :=
  Imports.ofList (["Hyperdrive"] ++ (if c.liveReload then ["HyperdriveLiveUI"] else [])
    ++ d.elements.flatMap fun e =>
      e.kind.imports ++ if e.layout.isEmpty then [] else ["SnapKit"])

def reloadPath (d : ComponentDefinition) (c : Configuration) : List Decl :=
  if c.liveReload then
    [.property { Code.Property.constant c.access "reloadPath" (.string d.sourcePath) with
      modifiers := ["static"] }]
  else []

def declared (access : Access) (name typeName : String) : Decl :=
  .property { Code.Property.stored access name typeName with mutable := false }

def elementField (c : Configuration) (e : Element) : Decl :=
  let access := if e.isExported then c.access else .privateScope
  if e.isInjected then declared access e.id.name e.kind.runtimeType
  else .property (.constant access e.id.name e.kind.creation)

def barButtonField (context : RenderContext) (c : Configuration) (item : NavigationItem) : Decl :=
  .property (.constant c.access item.id ((Expr.identifier "UIBarButtonItem").apply [
    (some "title", item.title.code context), (some "style", .implicitMember "plain"),
    (some "target", .nil), (some "action", .nil)]))

def fields (d : ComponentDefinition) (context : RenderContext) (c : Configuration)
    (plan : LayoutPlan) : List Decl :=
  [declared c.access "state" "State",
      declared c.access "actionPublisher" "ActionPublisher<Action>"]
    ++ (d.elements.drop 1).map (elementField c)
    ++ d.navigation.map (barButtonField context c)
    ++ plan.fieldDecls

def liveCall (d : ComponentDefinition) (method : String) : Stmt :=
  .expr (((Expr.identifier "LiveUI").member "shared").invoke method [
    (none, .self), (some "path", (Expr.identifier d.typeName).member "reloadPath")])

def callOwn (name : String) : Stmt := .expr ((Expr.identifier name).apply [])

def initializer (d : ComponentDefinition) (c : Configuration) : Function :=
  let injected := d.elements.filter (·.isInjected)
  { isInitializer := true, access := c.access, name := "init"
    parameters := [
        { name := "initialState", typeName := "State",
          default := some ((Expr.identifier "State").apply []) },
        { name := "actionPublisher", typeName := "ActionPublisher<Action>",
          default := some ((Expr.identifier "ActionPublisher").apply []) }]
      ++ injected.map fun e => { name := e.id.name, typeName := e.kind.runtimeType }
    body := [
        .assign (Expr.self.member "state") (.identifier "initialState"),
        .assign (Expr.self.member "actionPublisher") (.identifier "actionPublisher")]
      ++ injected.map (fun e => .assign (Expr.self.member e.id.name) (.identifier e.id.name))
      ++ [.expr ((Expr.identifier "super").invoke "init" []),
        callOwn "loadView",
        callOwn "setupConstraints",
        callOwn "observeActions",
        .assign ((Expr.identifier "initialState").member "owner") .self]
      ++ if c.liveReload then [d.liveCall "register"] else [] }

def overrideMethod (o : Override) : Function :=
  let method := o.kind.method
  let arguments := o.kind.parameter?.toList.map fun p => (some p.1, Expr.identifier p.2.1)
  let callSuper : Stmt := .expr ((Expr.identifier "super").invoke method arguments)
  let callHandler := callOwn o.handler
  { access := .moduleScope, modifiers := ["override"], name := method
    parameters := o.kind.parameter?.toList.map fun p =>
      { label := some p.1, name := p.2.1, typeName := p.2.2 }
    body := if o.kind.handlerFirst then [callHandler, callSuper] else [callSuper, callHandler] }

def reloadHook (d : ComponentDefinition) (c : Configuration) : List Decl :=
  if c.liveReload then
    [.function {
      access := .moduleScope, modifiers := ["@objc"], name := "injected"
      body := [d.liveCall "reload"] }]
  else []

def barButtons (d : ComponentDefinition) (c : Configuration) (position : NavigationPosition)
    (name : String) : List Decl :=
  let items := d.navigation.filter (·.position = position)
  if items.isEmpty then []
  else [.property (.computed c.access name "[UIBarButtonItem]"
    [.ret (some (.array (items.map fun item => Expr.self.member item.id)))])]

def navigationDecls (d : ComponentDefinition) (c : Configuration) : List Decl :=
  d.barButtons c .left "leftBarButtonItems" ++ d.barButtons c .right "rightBarButtonItems"

end ComponentDefinition

structure LoadCode where
  once : List Stmt := []
  themed : List Stmt := []

namespace LoadCode

def addProperty (context : RenderContext) (target : Expr) (code : LoadCode) (p : Property) :
    LoadCode :=
  let state := Expr.self.member "state"
  if p.state?.isSome then code
  else if p.isThemed then
    let context := { context with theme := .parameter "theme" }
    { code with themed := code.themed ++ [p.apply target (p.code context state)] }
  else { code with once := code.once ++ [p.apply target (p.code context state)] }

/-- Only values without a dollar sign in front are set here. -/
def isLiteral (raw : String) : Bool := (Text.trimStart raw.toList).head? != some '$'

def argumentCode (context : RenderContext) (target : Expr) (r : ComponentReference)
    (child : Resolved) : List (String × String) → Result (List Stmt)
  | [] => .ok []
  | (name, raw) :: rest =>
    if !isLiteral raw then argumentCode context target r child rest
    else match child.stateItem? name with
      | none => .error (.unknownProperty name r.typeName)
      | some item => do
        let value ← item.type.parse raw
        let others ← argumentCode context target r child rest
        return .assign (target.path ["state", name]) (value.code context) :: others

def componentCode (registry : Registry) (target : Expr) (e : Element) : Resolve (List Stmt) := do
  match e.kind with
  | .widget _ => return []
  | .component r =>
    if r.arguments.isEmpty then return []
    let child ← registry.resolveReference e
    argumentCode registry.renderContext target r child r.arguments

def insertionCode (target : Expr) : Option Element → List Stmt
  | none => []
  | some parent => [parent.kind.insertion (elementCode "self" parent.id.name) target]

def addElement (registry : Registry) (resolved : Resolved) (code : LoadCode) :
    Element.Parented → Resolve LoadCode
  | (e, parent) => do
    let target := elementCode "self" e.id.name
    let code := (resolved.propertiesOf e).foldl (addProperty registry.renderContext target) code
    let arguments ← componentCode registry target e
    return { code with once := code.once ++ arguments ++ insertionCode target parent }

def body (code : LoadCode) : List Stmt :=
  code.once ++
    if code.themed.isEmpty then []
    else [.expr (((Expr.identifier themeType).member "selector").invoke "register" [
      (some "target", .self),
      (some "listener", .closure ["unowned self"] ["theme"] code.themed)])]

end LoadCode

def Registry.loadView (r : Registry) (resolved : Resolved) : Resolve Function := do
  let code ← resolved.definition.root.withParents.foldlM (LoadCode.addElement r resolved) {}
  return { access := .privateScope, name := "loadView", body := code.body }

namespace Template

def segmentCode : Segment → Expr
  | .text text => .string text
  | .argument name => .identifier name

def textCode (t : Template) : Expr :=
  match t.segments.map segmentCode with
  | [] => .string ""
  | first :: rest => rest.foldl (fun sum next => .binary sum "+" next) first

def attributesCode (s : StyleSource) (name : StyleName) : Result Expr := do
  let (_, style) ← s.scope.lookup name (some s.group)
  if style.kind ≠ .attributedText then
    .error (.styleTypeMismatch name.display style.kind.runtimeType "attributedText")
  let theme := (Expr.identifier themeType).member "current"
  ((s.reference theme name).outcome []).1

def function (s : StyleSource) (t : Template) : Result Function := do
  let attributes ← match t.style with
    | some name => attributesCode s name
    | none => pure (.dictionary [])
  return {
    access := s.configuration.plainAccess, modifiers := ["static"], name := t.name
    returns := some "NSAttributedString"
    parameters := t.arguments.map fun name => { name, typeName := "String" }
    body := [.ret (some ((Expr.identifier "NSAttributedString").apply [
      (some "string", t.textCode), (some "attributes", attributes)]))] }

def functions (s : StyleSource) : List Template → Result (List Decl)
  | [] => .ok []
  | t :: rest => do
    let first ← t.function s
    return .function first :: (← functions s rest)

end Template

namespace Registry

def stylesDecl (s : StyleSource) : Result (List Decl) :=
  if s.group.styles.isEmpty then .ok [] else s.decl.map fun d => [d]

def templatesDecl (s : StyleSource) (templates : List Template) : Result (List Decl) :=
  if templates.isEmpty then .ok []
  else (Template.functions s templates).map fun members =>
    [.type .structType s.configuration.plainAccess [] "Templates" [] members]

def members (r : Registry) (c : Configuration) (resolved : Resolved) : Resolve (List Decl) := do
  let d := resolved.definition
  let context := r.renderContext
  let plan ← LayoutPlan.ofDefinition d
  let loadView ← r.loadView resolved
  let own := StyleSource.ofComponent r c d.styles
  let styles ← stylesDecl own
  let templates ← templatesDecl own d.templates
  return [resolved.stateClass context c, resolved.actionEnum c]
    ++ d.reloadPath c
    ++ d.fields context c plan
    ++ [.function (d.initializer c), .function loadView]
    ++ plan.methods
    ++ [.function (resolved.observeActions context c)]
    ++ d.overrides.map (fun o => .function (ComponentDefinition.overrideMethod o))
    ++ d.reloadHook c
    ++ d.navigationDecls c
    ++ styles ++ templates

def classDecl (c : Configuration) (typeName : String) (members : List Decl) : Decl :=
  .type .classType c.access (if c.access = .openScope then [] else ["final"]) typeName
    ["HyperViewBase", "HyperView"] members

def assemble (r : Registry) (c : Configuration) (d : ComponentDefinition)
    (nested : Resolve (List ComponentSource)) : Resolve ComponentSource := do
  let resolved ← r.resolve d
  let members ← r.members c resolved
  let nested ← nested
  return {
    imports := nested.foldl (fun all n => all.union n.imports) (d.imports c)
    decl := classDecl c d.typeName (members ++ nested.map (·.decl)) }

mutual

def componentSource (r : Registry) (c : Configuration) :
    ComponentDefinition → Resolve ComponentSource
  | ⟨typeName, isAnonymous, root, styles, templates, state, overrides, navigation, sourcePath⟩ =>
    r.assemble c
      ⟨typeName, isAnonymous, root, styles, templates, state, overrides, navigation, sourcePath⟩
      (r.inlineSources c root)

def inlineSources (r : Registry) (c : Configuration) : Element → Resolve (List ComponentSource)
  | ⟨.widget _, _, _, _, _, _, _, _, _, children⟩ => r.inlineSourcesOfAll c children
  | ⟨.component ⟨_, _, none⟩, _, _, _, _, _, _, _, _, children⟩ => r.inlineSourcesOfAll c children
  | ⟨.component ⟨_, _, some d⟩, _, _, _, _, _, _, _, _, children⟩ => do
    let first ← r.componentSource c d
    return first :: (← r.inlineSourcesOfAll c children)

def inlineSourcesOfAll (r : Registry) (c : Configuration) :
    List Element → Resolve (List ComponentSource)
  | [] => pure []
  | e :: rest => do
    let first ← r.inlineSources c e
    return first ++ (← r.inlineSourcesOfAll c rest)

end

end Registry

end ViewForge
