import ViewForge.Resolve.Types
import ViewForge.Source.Configuration
import ViewForge.Source.Layout
/-! The class that holds the state of a component. A change of an item is passed on to every
property that the item is bound to. -/
namespace ViewForge
open Code (Expr Stmt Decl Function)

namespace StateItem

def applicationCode (value : Expr) (a : StateApplication) : Stmt :=
  let target := elementCode "owner" a.element
  match a.target with
  | .property p => p.apply target value
  | .componentState name => .assign (target.path ["state", name]) value

def notification (item : StateItem) : Stmt :=
  .expr ((Expr.identifier "notify").apply [(none, .implicitMember item.name)])

def field (context : RenderContext) (c : Configuration) (item : StateItem) : Decl :=
  .property { Code.Property.stored c.access item.name item.type.runtimeType with
    value := some (item.default.code context), didSet := some [item.notification] }

def changeCase (item : StateItem) : Code.Case :=
  let body := item.applications.map (applicationCode (Expr.self.member item.name))
  let name := item.name
  .on [.implicitMember name]
    (if body.isEmpty then [.comment s!"'{name}' is not bound to any property"] else body)

end StateItem

namespace Resolved

def ownerField (r : Resolved) : Decl :=
  .property { Code.Property.stored .fileScope "owner" (r.definition.typeName ++ "?") with
    modifiers := ["weak"]
    didSet := some [.expr ((Expr.identifier "resynchronize").apply [])] }

def notify (r : Resolved) : Function :=
  { access := .privateScope, name := "notify"
    parameters := [.unlabelled "item" "Item"]
    body := [
        .guard (.constant "let owner = owner") [.ret none],
        .switch (.identifier "item") (r.state.map (·.changeCase))]
      ++ r.definition.state.handler.toList.map fun handler =>
          .expr ((Expr.identifier "owner").invoke handler [(none, .identifier "item")]) }

def notifyDecls (r : Resolved) (c : Configuration) : List Decl :=
  if r.state.isEmpty then []
  else [
    .function r.notify,
    .enumeration c.plainAccess "Item" [] (r.state.map fun item => { name := item.name }) []]

def stateClass (r : Resolved) (context : RenderContext) (c : Configuration) : Decl :=
  .type .classType c.plainAccess ["final"] "State" ["HyperViewState"]
    ([r.ownerField]
      ++ r.state.map (·.field context c)
      ++ [.function { isInitializer := true, access := c.access, name := "init" },
        .function {
          access := c.access, name := "resynchronize"
          body := r.state.map (·.notification) }]
      ++ r.notifyDecls c)

end Resolved

end ViewForge
