import ViewForge.Proofs.Resolve.Applications
import ViewForge.Source.Component

/-! The statements of a class that apply properties. Every statement of the three places is written
either for a property of an element or for something that is no property, and those of each place
are exactly for the properties that belong there. -/
namespace ViewForge
open Code (Expr Stmt Decl)

namespace Place

def base : Place → String
  | changing _ => "owner"
  | _ => "self"

def value (context : RenderContext) (p : Property) : Place → Expr
  | loading => p.code context (Expr.self.member "state")
  | theming => p.code { context with theme := .parameter "theme" } (Expr.self.member "state")
  | changing item => Expr.self.member item

def statement (context : RenderContext) (place : Place) (a : String × Property) : Stmt :=
  a.2.apply (elementCode place.base a.1) (place.value context a.2)

/-- What a statement is written for: the property of an element, or no property at all but a state
item of a component within, or a child that is put into its parent. -/
inductive Written (context : RenderContext) (place : Place) :
    Option (String × Property) → Stmt → Prop where
  | property (a : String × Property) : Written context place (some a) (place.statement context a)
  | argument (id name : String) (value : Expr) : Written context place none
      (.assign ((elementCode place.base id).path ["state", name]) value)
  | insertion (parent : Element) (id : String) : Written context place none
      (parent.kind.insertion (elementCode place.base parent.id.name) (elementCode place.base id))

/-- The statements apply these properties, each once and in this order, and no others. -/
def Applies (context : RenderContext) (place : Place) (statements : List Stmt)
    (applied : List (String × Property)) : Prop :=
  ∃ marks, List.Forall₂ (Written context place) marks statements ∧ marks.reduceOption = applied

variable {context : RenderContext} {place : Place}

end Place

namespace LoadCode

theorem addProperties (context : RenderContext) (id : String) (code : LoadCode)
    (ps : List Property) : ps.foldl (addProperty context (elementCode "self" id)) code =
      { once := code.once ++ (((ps.filter (·.place = .loading)).map fun p => (id, p)).map
          (Place.loading.statement context)),
        themed := code.themed ++ (((ps.filter (·.place = .theming)).map fun p => (id, p)).map
          (Place.theming.statement context)) } := by
  induction ps generalizing code with
  | nil => simp
  | cons p rest ih =>
    rw [List.foldl_cons, ih]
    cases bound : p.state? with
    | some name => simp [addProperty, bound, Property.place]
    | none =>
      cases themed : p.isThemed with
      | true =>
        simp [addProperty, bound, themed, Property.place, Place.statement, Place.base, Place.value]
      | false =>
        simp [addProperty, bound, themed, Property.place, Place.statement, Place.base, Place.value]

variable {r : Registry} {res : Resolved}

end LoadCode

structure Registry.Loads (r : Registry) (res : Resolved) (code : LoadCode) : Prop where
  once : Place.loading.Applies r.renderContext code.once (res.appliedAt .loading)
  themed : Place.theming.Applies r.renderContext code.themed (res.appliedAt .theming)

def StateItem.Changes (context : RenderContext) (res : Resolved) (item : StateItem) : Prop :=
  ∃ body, (Place.changing item.name).Applies context body (res.appliedAt (.changing item.name)) ∧
    item.changeCase = .on [.implicitMember item.name]
      (if body.isEmpty then
        [.comment ("'" ++ item.name ++ "' is not bound to any property")] else body)

/-- The class of a component: two of its members apply properties to its elements, the class of the
state whenever an item changes and the method that loads the view. The others know nothing of the
properties that have been resolved. -/
structure Registry.Emits (r : Registry) (c : Configuration) (res : Resolved) (decl : Decl) :
    Prop where
  changes : ∀ item ∈ res.state, item.Changes r.renderContext res
  members : ∃ (plan : LayoutPlan) (code : LoadCode) (styles templates : List Decl)
      (nested : List ComponentSource), r.Loads res code ∧
    (∃ s t, (LayoutPlan.ofDefinition res.definition).outcome s = (.ok plan, t)) ∧
    (∃ s t, (r.inlineSources c res.definition.root).outcome s = (.ok nested, t)) ∧
    Registry.stylesDecl (.ofComponent r c res.definition.styles) = .ok styles ∧
    Registry.templatesDecl (.ofComponent r c res.definition.styles) res.definition.templates =
      .ok templates ∧
    decl = Registry.classDecl c res.definition.typeName (
      [res.stateClass r.renderContext c, res.actionEnum c]
        ++ res.definition.reloadPath c
        ++ res.definition.fields r.renderContext c plan
        ++ [.function (res.definition.initializer c),
          .function { access := .privateScope, name := "loadView", body := code.body }]
        ++ plan.methods
        ++ [.function (res.observeActions r.renderContext c)]
        ++ res.definition.overrides.map (fun o => .function (ComponentDefinition.overrideMethod o))
        ++ res.definition.reloadHook c
        ++ res.definition.navigationDecls c
        ++ styles ++ templates ++ nested.map (·.decl))

namespace Registry

variable {r : Registry} {c : Configuration} {d : ComponentDefinition}

theorem componentSourceSplit (r : Registry) (c : Configuration) (d : ComponentDefinition) :
    r.componentSource c d = r.assemble c d (r.inlineSources c d.root) := by
  cases d
  rw [componentSource]

structure Assembly (r : Registry) (c : Configuration) (d : ComponentDefinition) (res : Resolved)
    (load : Code.Function) (decl : Decl) (start resolved planned : ResolverState) : Prop where
  resolves : (r.resolve d).outcome start = (.ok res, resolved)
  loads : ∃ loaded, (r.loadView res).outcome planned = (.ok load, loaded)
  members : ∃ (plan : LayoutPlan) (styles templates : List Decl) (nested : List ComponentSource),
    (LayoutPlan.ofDefinition res.definition).outcome resolved = (.ok plan, planned) ∧
    (∃ s t, (r.inlineSources c d.root).outcome s = (.ok nested, t)) ∧
    stylesDecl (.ofComponent r c res.definition.styles) = .ok styles ∧
    templatesDecl (.ofComponent r c res.definition.styles) res.definition.templates =
      .ok templates ∧
    decl = classDecl c d.typeName (
      [res.stateClass r.renderContext c, res.actionEnum c]
        ++ res.definition.reloadPath c
        ++ res.definition.fields r.renderContext c plan
        ++ [.function (res.definition.initializer c), .function load]
        ++ plan.methods
        ++ [.function (res.observeActions r.renderContext c)]
        ++ res.definition.overrides.map (fun o => .function (ComponentDefinition.overrideMethod o))
        ++ res.definition.reloadHook c
        ++ res.definition.navigationDecls c
        ++ styles ++ templates ++ nested.map (·.decl))

theorem sourceAssembly {source : ComponentSource} {s t : ResolverState}
    (ok : (r.componentSource c d).outcome s = (.ok source, t)) :
    ∃ res load resolved planned, r.Assembly c d res load source.decl s resolved planned := by
  rw [componentSourceSplit] at ok
  unfold assemble at ok
  obtain ⟨res, resolved, first, ok⟩ := Task.bindGives.mp ok
  obtain ⟨members, v, own, ok⟩ := Task.bindGives.mp ok
  obtain ⟨nested, w, inline, last⟩ := Task.bindGives.mp ok
  cases last
  unfold Registry.members at own
  obtain ⟨plan, planned, second, own⟩ := Task.bindGives.mp own
  obtain ⟨load, loaded, third, own⟩ := Task.bindGives.mp own
  obtain ⟨styles, styled, own⟩ := Task.liftBindGives own
  obtain ⟨templates, templated, own⟩ := Task.liftBindGives own
  cases own
  exact ⟨res, load, resolved, planned, first, ⟨_, third⟩, plan, styles, templates, nested, second,
    ⟨_, _, inline⟩, styled, templated, rfl⟩

end Registry
end ViewForge
