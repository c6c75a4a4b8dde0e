import ViewForge.Resolve.Types
import ViewForge.Source.Configuration
import ViewForge.Source.Layout
/-! The actions of a component: an enumeration, and the method that publishes its cases. -/
namespace ViewForge
open Code (Expr Stmt Decl Function)

namespace ActionSource

def parameterCode (context : RenderContext) (s : ActionSource) (p : ActionParameter) : Expr :=
  match p.source with
  | .inherited index =>
    match s.eventParameters[index]? with
    | some event => .constant event.accessor
    | none => .nil
  | .constant value => value.code context
  | .state name => Expr.self.path ["state", name]
  | .reference element (some property) => (elementCode "self" element).member property
  | .reference element none => elementCode "self" element

def publication (context : RenderContext) (a : ResolvedAction) (s : ActionSource) : Stmt :=
  let arguments := List.zipWith (fun declared p => (declared.1, s.parameterCode context p))
    a.parameters s.parameters
  let case := Expr.implicitMember a.name
  let published := if arguments.isEmpty then case else case.apply arguments
  .expr ((Expr.self.member "actionPublisher").invoke "publish" [(some "action", published)])

def usesSender (s : ActionSource) : Bool :=
  s.parameters.any fun p => match p.source with
    | .inherited _ => true
    | _ => false

def handler (parameters : List String) (body : List Stmt) : Expr :=
  .closure ["unowned self"] parameters body

def pattern (name : String) (parameters : List EventParameter) : String :=
  let bindings := Text.join ", " (parameters.map fun p => "let " ++ p.accessor)
  if parameters.isEmpty then s!"case .{name} = action" else s!"case .{name}({bindings}) = action"

def hasClosureActions (c : Configuration) : Bool := c.minimumVersion.atLeast 14 0

def controlCode (c : Configuration) (s : ActionSource) (event : String) (publish : Stmt) : Expr :=
  let target := elementCode "self" s.element
  if hasClosureActions c then
    let body := (if s.usesSender then [Stmt.constant "sender" target] else []) ++ [publish]
    target.invoke "addAction" [
      (none, (Expr.identifier "UIAction").apply [(some "handler", handler ["_"] body)]),
      (some "for", .implicitMember event)]
  else
    (Expr.identifier "ControlEventObserver").invoke "bind" [
      (some "to", target), (some "events", .implicitMember event),
      (some "handler", handler ["sender"] [publish])]

def componentCode (s : ActionSource) (name : String) (publish : Stmt) : Expr :=
  ((elementCode "self" s.element).member "actionPublisher").invoke "listen" [
    (none, handler ["action"] [
      .guard (.constant (pattern name s.eventParameters)) [.ret none],
      publish])]

def barButtonCode (s : ActionSource) (publish : Stmt) : Expr :=
  (Expr.identifier "BarButtonItemObserver").invoke "bind" [
    (some "to", elementCode "self" s.element), (some "handler", handler [] [publish])]

def observation (context : RenderContext) (c : Configuration) (a : ResolvedAction)
    (s : ActionSource) : Stmt :=
  let publish := s.publication context a
  .expr (match s.event with
    | .control event => s.controlCode c event publish
    | .component name => s.componentCode name publish
    | .barButton => s.barButtonCode publish)

end ActionSource

namespace Resolved

def actionEnum (r : Resolved) (c : Configuration) : Decl :=
  .enumeration c.plainAccess "Action" []
    (r.actions.map fun a => {
      name := a.name, associated := a.parameters.map fun p => (p.1, p.2.runtimeType) })
    []

def observeActions (r : Resolved) (context : RenderContext) (c : Configuration) : Function :=
  { access := .privateScope, name := "observeActions"
    body := r.actions.flatMap fun a => a.sources.map (·.observation context c a) }

end Resolved

end ViewForge
