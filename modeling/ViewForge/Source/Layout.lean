import ViewForge.Resolve.Types
/-! The code of layout constraints. Constraints without a condition are made once; the others are
made anew whenever the traits change. -/
namespace ViewForge
open Code (Expr Stmt Decl Function)

def elementCode (base id : String) : Expr :=
  if id = Element.rootName then .identifier base else (Expr.identifier base).member id

structure ConstraintGroup where
  element : Element
  parent : Element
  constraints : List Constraint

structure LayoutPlan where
  installed : List ConstraintGroup := []
  reactive : List ConstraintGroup := []
  fields : List String := []

namespace LayoutPlan

def fieldsOf (constraints : List Constraint) : List String := constraints.filterMap (·.field)

def groups (d : ComponentDefinition) (keep : Constraint → Bool) : List ConstraintGroup :=
  d.root.withParents.filterMap fun
    | (_, none) => none
    | (element, some parent) =>
      let constraints := element.layout.filter keep
      if constraints.isEmpty then none else some { element, parent, constraints }

def constraints (d : ComponentDefinition) : List Constraint :=
  d.root.withParents.flatMap fun
    | (_, none) => []
    | (element, some _) => element.layout

def checkTargets (d : ComponentDefinition) : List Constraint → Result Unit
  | [] => .ok ()
  | c :: rest =>
    match c.reference?.filter fun id => (d.find? id).isNone with
    | some id => .error (.unknownElement id d.typeName)
    | none => checkTargets d rest

/-- The names that occur again later, once for every repetition. -/
def repeated : List String → List String → List String
  | _, [] => []
  | seen, name :: rest =>
    if seen.contains name then name :: repeated seen rest else repeated (name :: seen) rest

def repeatedWarning (typeName field : String) : String :=
  s!"Layout field '{field}' in {typeName} has more than one unconditional constraint"

def knownTargets (d : ComponentDefinition) (cs : List Constraint) : List Constraint :=
  cs.takeWhile fun c => match c.reference? with
    | some id => (d.find? id).isSome
    | none => true

def least : List String → Option String
  | [] => none
  | name :: rest =>
    match least rest with
    | some other => if other < name then some other else some name
    | none => some name

def checkFields (cs : List Constraint) : Result Unit :=
  let conditional := fieldsOf (cs.filter (·.isConditional))
  let unconditional := fieldsOf (cs.filter (!·.isConditional))
  match least (unconditional.filter conditional.contains) with
  | some field => .error (.mixedConstraintField field)
  | none => .ok ()

def ofDefinition (d : ComponentDefinition) : Resolve LayoutPlan := do
  let cs := constraints d
  let plain := fieldsOf ((knownTargets d cs).filter (!·.isConditional))
  Resolve.warn ((repeated [] plain).map (repeatedWarning d.typeName))
  checkTargets d cs
  checkFields cs
  return { installed := groups d (!·.isConditional), reactive := groups d (·.isConditional),
           fields := Template.distinct (fieldsOf cs) }

def isReactive (plan : LayoutPlan) : Bool := !plan.reactive.isEmpty

end LayoutPlan

namespace Constraint

def targetView (c : Constraint) (element parent : Element) : Expr :=
  let parentView := elementCode "self" parent.id.name
  match c.target with
  | .parent => parentView
  | .this => elementCode "self" element.id.name
  | .safeArea => parentView.member "safeAreaLayoutGuide"
  | .field id => elementCode "self" id
  | .constant value => .number value

def targetCode (c : Constraint) (element parent : Element) : Expr :=
  let view := c.targetView element parent
  match c.targetAnchor with
  | some anchor => if c.target.isConstant then view else view.path ["snp", anchor.name]
  | none => view

def modifierCode (e : Expr) : ConstraintModifier → Expr
  | .offset value => e.invoke "offset" [(none, .number value)]
  | .inset value => e.invoke "inset" [(none, .number value)]
  | .multipliedBy factor => e.invoke "multipliedBy" [(none, .number factor)]
  | .dividedBy divisor => e.invoke "dividedBy" [(none, .number divisor)]

def code (c : Constraint) (element parent : Element) : Expr :=
  let bare := ((Expr.identifier "make").member c.anchor.name).invoke c.relation.method
    [(none, c.targetCode element parent)]
  let modified := c.modifiers.foldl modifierCode bare
  if c.priority = Priority.required then modified
  else modified.invoke "priority" [(none, .constant (toString c.priority))]

end Constraint

namespace LayoutPlan

def reactiveField : String := "reactiveConstraints"

def reactiveList : Expr := Expr.self.member reactiveField

def remake : Stmt := .expr ((Expr.identifier "remakeReactiveConstraints").apply [])

def groupCode (method : String) (group : ConstraintGroup) (body : List Stmt) : Stmt :=
  .expr (((elementCode "self" group.element.id.name).member "snp").invoke method
    [(none, .closure [] ["make"] body)])

def installedCode (group : ConstraintGroup) (c : Constraint) : Stmt :=
  let made := c.code group.element group.parent
  match c.field with
  | some field => .assign (Expr.self.member field) (made.member "constraint")
  | none => .expr made

def setup (plan : LayoutPlan) : Function :=
  { access := .privateScope, name := "setupConstraints"
    body := plan.installed.map (fun g =>
        groupCode "makeConstraints" g (g.constraints.map (installedCode g)))
      ++ if plan.isReactive then [remake] else [] }

def reactiveCode (group : ConstraintGroup) (c : Constraint) : List Stmt :=
  match c.condition with
  | none => []
  | some condition =>
    let made := Expr.identifier "constraint"
    [.ifThen (condition.code "traits")
      ([.constant "constraint" ((c.code group.element group.parent).member "constraint")]
        ++ (c.field.map fun field => Stmt.assign (Expr.self.member field) made).toList
        ++ [.expr (reactiveList.invoke "append" [(none, made)])])]

def eachReactive (method : String) : Stmt :=
  .expr (reactiveList.invoke "forEach" [
    (none, .closure [] [] [.expr ((Expr.identifier "$0").invoke method [])])])

def resets (plan : LayoutPlan) : List Stmt :=
  (Template.distinct (fieldsOf (plan.reactive.flatMap (·.constraints)))).map fun field =>
    .assign (Expr.self.member field) .nil

def remakeReactive (plan : LayoutPlan) : Function :=
  { access := .privateScope, name := "remakeReactiveConstraints"
    body := [
        .constant "traits" ((Expr.identifier "UITraitHelper").apply [(some "for", .self)]),
        eachReactive "deactivate",
        .assign reactiveList (.array [])]
      ++ plan.resets
      ++ plan.reactive.map (fun g =>
        groupCode "prepareConstraints" g (g.constraints.flatMap (reactiveCode g)))
      ++ [eachReactive "activate"] }

def traitsChanged : Function :=
  let name := "previousTraitCollection"
  { access := .moduleScope, modifiers := ["override"], name := "traitCollectionDidChange"
    parameters := [.unlabelled name "UITraitCollection?"]
    body := [
      .expr ((Expr.identifier "super").invoke "traitCollectionDidChange"
        [(none, .identifier name)]),
      remake] }

def methods (plan : LayoutPlan) : List Decl :=
  .function plan.setup ::
    if plan.isReactive then [.function plan.remakeReactive, .function traitsChanged] else []

def fieldDecls (plan : LayoutPlan) : List Decl :=
  plan.fields.map (fun field => .property (.stored .privateScope field "Constraint?"))
    ++ if plan.isReactive then
        [.property { Code.Property.stored .privateScope reactiveField "[Constraint]" with
          value := some (.array []) }]
      else []

end LayoutPlan

end ViewForge
