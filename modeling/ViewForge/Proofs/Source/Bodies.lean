import ViewForge.Proofs.Source.Mention

/-! What the methods for constraints, actions and state changes mention. Constraints lead to elements
that were found when the plan was made, events to the elements that send them, and a change of state
to the elements that are bound to it. -/
namespace ViewForge
open Code (Expr Stmt Decl Trail)

theorem Template.memDistinct {names : List String} {name : String} :
    name ∈ distinct names ↔ name ∈ names := by
  have each : ∀ (names seen : List String), name ∈ names.foldl
      (fun seen name => if seen.contains name then seen else seen ++ [name]) seen ↔
        name ∈ seen ∨ name ∈ names := by
    intro names
    induction names with
    | nil => simp
    | cons first rest ih =>
      intro seen
      rw [List.foldl_cons, ih, List.mem_cons]
      split
      · rename_i known
        have old : first ∈ seen := by simpa using known
        constructor
        · exact Or.imp_right .inr
        · rintro (before | rfl | later)
          · exact .inl before
          · exact .inl old
          · exact .inr later
      · simp [or_assoc]
  rw [distinct, each]
  simp

theorem Condition.codeTrails (c : Condition) : ∀ trail ∈ (c.code "traits").trails [],
    trail.head? = some "traits" := by
  induction c with
  | not inner ih => simpa [code, Expr.trails] using ih
  | and lhs rhs left right =>
    simpa [code, Expr.trails, or_imp, forall_and] using And.intro left right
  | or lhs rhs left right =>
    simpa [code, Expr.trails, or_imp, forall_and] using And.intro left right
  | _ => simp [code, Expr.trails, Expr.boolean]

namespace LayoutPlan

variable {r : Registry} {res : Resolved} {plan : LayoutPlan}

structure Planned (d : ComponentDefinition) (plan : LayoutPlan) : Prop where
  groups : ∀ g ∈ plan.installed ++ plan.reactive, g.element ∈ d.elements ∧ g.parent ∈ d.elements
  listed : ∀ g ∈ plan.installed ++ plan.reactive, ∀ c ∈ g.constraints,
    c ∈ LayoutPlan.constraints d
  targets : ∀ c ∈ LayoutPlan.constraints d, ∀ id, c.reference? = some id →
    ∃ e ∈ d.elements, e.id.name = id
  fields : ∀ c ∈ LayoutPlan.constraints d, ∀ name, c.field = some name → name ∈ plan.fields

theorem checkTargetsFound {d : ComponentDefinition} {cs : List Constraint}
    (ok : checkTargets d cs = .ok ()) :
    ∀ c ∈ cs, ∀ id, c.reference? = some id → (d.find? id).isSome = true := by
  induction cs with
  | nil => simp
  | cons c rest ih =>
    rw [checkTargets] at ok
    split at ok
    · cases ok
    · rename_i none
      refine List.forall_mem_cons.mpr ⟨fun id refers => ?_, ih ok⟩
      simpa [refers, Option.isSome_iff_ne_none] using none

theorem groupWithin {d : ComponentDefinition} {keep : Constraint → Bool} {g : ConstraintGroup}
    (member : g ∈ LayoutPlan.groups d keep) : g.element ∈ d.elements ∧ g.parent ∈ d.elements ∧
      ∀ c ∈ g.constraints, c ∈ LayoutPlan.constraints d := by
  obtain ⟨⟨e, parent⟩, inside, made⟩ := List.mem_filterMap.mp member
  cases parent with
  | none => cases made
  | some parent =>
    simp only at made
    split at made
    · cases made
    · cases made
      refine ⟨Element.memWithParents inside, Element.parentWithin inside, fun c kept => ?_⟩
      exact List.mem_flatMap.mpr ⟨_, inside, (List.mem_filter.mp kept).1⟩

theorem planPlanned {d : ComponentDefinition} {s t : ResolverState}
    (ok : (ofDefinition d).outcome s = (.ok plan, t)) : Planned d plan := by
  unfold ofDefinition at ok
  obtain ⟨_, u, _, ok⟩ := Task.bindGives.mp ok
  obtain ⟨_, checked, ok⟩ := Task.liftBindGives ok
  obtain ⟨_, _, last⟩ := Task.liftBindGives ok
  cases last
  have within : ∀ g ∈ LayoutPlan.groups d (!·.isConditional) ++
      LayoutPlan.groups d (·.isConditional), g.element ∈ d.elements ∧ g.parent ∈ d.elements ∧
        ∀ c ∈ g.constraints, c ∈ LayoutPlan.constraints d := fun g member =>
    (List.mem_append.mp member).elim groupWithin groupWithin
  refine ⟨fun g member => ⟨(within g member).1, (within g member).2.1⟩,
    fun g member => (within g member).2.2, fun c listed id refers => ?_,
    fun c listed name kept => ?_⟩
  · obtain ⟨e, found⟩ := Option.isSome_iff_exists.mp (checkTargetsFound checked c listed id refers)
    exact ⟨e, List.mem_of_find?_eq_some found, by simpa using List.find?_some found⟩
  · exact Template.memDistinct.mpr (List.mem_filterMap.mpr ⟨c, listed, kept⟩)

end LayoutPlan

namespace Constraint

variable {r : Registry} {res : Resolved} {plan : LayoutPlan}

/- What is called on the constraint is called on a result, and begins no trail. -/
theorem codeTrails (c : Constraint) (element parent : Element) (after : List String) :
    (c.code element parent).trails after =
      ["make", c.anchor.name, c.relation.method] :: (c.targetCode element parent).trails [] := by
  have bare : ∀ after, ((((Expr.identifier "make").member c.anchor.name).invoke c.relation.method
      [(none, c.targetCode element parent)]).trails after) =
        ["make", c.anchor.name, c.relation.method] :: (c.targetCode element parent).trails [] := by
    intro after
    simp [Expr.trails]
  have modified : ∀ (modifiers : List ConstraintModifier) (e : Expr), (∀ after, e.trails after =
      ["make", c.anchor.name, c.relation.method] :: (c.targetCode element parent).trails []) →
      ∀ after, (modifiers.foldl modifierCode e).trails after =
        ["make", c.anchor.name, c.relation.method] :: (c.targetCode element parent).trails [] := by
    intro modifiers
    induction modifiers with
    | nil => exact fun _ before => before
    | cons m rest ih =>
      intro e before
      refine ih _ fun after => ?_
      cases m <;> simp [modifierCode, before]
  unfold code
  simp only
  split
  · exact modified c.modifiers _ bare after
  · rw [Expr.invokeTrails, modified c.modifiers _ bare]
    simp [Expr.trails]

theorem anchorTrails (c : Constraint) (element parent : Element) :
    ∃ anchor : Option Anchor, (c.targetCode element parent).trails [] =
      (c.targetView element parent).trails (anchor.toList.flatMap fun a => ["snp", a.name]) := by
  unfold targetCode
  simp only
  split
  · rename_i anchor _
    split
    · exact ⟨none, rfl⟩
    · exact ⟨some anchor, by simp⟩
  · exact ⟨none, rfl⟩

theorem targetMentions {g : ConstraintGroup} {c : Constraint}
    (element : g.element ∈ res.definition.elements) (parent : g.parent ∈ res.definition.elements)
    (target : ∀ id, c.reference? = some id → ∃ e ∈ res.definition.elements, e.id.name = id) :
    ∀ trail ∈ (c.targetCode g.element g.parent).trails [], r.Mention res plan "self" trail := by
  obtain ⟨anchor, trails⟩ := c.anchorTrails g.element g.parent
  have plain : "state" ∉ anchor.toList.flatMap fun a : Anchor => ["snp", a.name] := by
    cases anchor with
    | none => simp
    | some anchor => cases anchor <;> simp [Anchor.name]
  have view : ∀ e ∈ res.definition.elements, r.Mention res plan "self"
      (route "self" e.id.name ++ anchor.toList.flatMap fun a => ["snp", a.name]) := by
    intro e inside
    cases anchor with
    | none => simpa using Registry.WorkedOut.mentionElement inside
    | some anchor =>
      exact Registry.WorkedOut.mentionCommon inside (by simp) (by simpa using plain)
  rw [trails]
  unfold targetView
  simp only
  cases bound : c.target with
  | parent => simpa [elementTrails] using view _ parent
  | this => simpa [elementTrails] using view _ element
  | field id =>
    obtain ⟨e, inside, rfl⟩ := target id (by simp [reference?, bound])
    simpa [elementTrails] using view e inside
  | constant value => simp
  | safeArea =>
    have known : "safeAreaLayoutGuide" ∈ ["addSubview", "snp", "safeAreaLayoutGuide"] := by simp
    simpa [Expr.trails, elementTrails] using
      Registry.WorkedOut.mentionCommon parent known plain

theorem codeMentions {g : ConstraintGroup} {c : Constraint}
    (element : g.element ∈ res.definition.elements) (parent : g.parent ∈ res.definition.elements)
    (target : ∀ id, c.reference? = some id → ∃ e ∈ res.definition.elements, e.id.name = id)
    (after : List String) :
    ∀ trail ∈ (c.code g.element g.parent).trails after, r.Mention res plan "self" trail := by
  rw [codeTrails]
  exact List.forall_mem_cons.mpr
    ⟨Registry.mentionApart (by simp) _, targetMentions element parent target⟩

end Constraint

namespace LayoutPlan

variable {r : Registry} {res : Resolved} {plan : LayoutPlan}

theorem groupMentions {g : ConstraintGroup} (element : g.element ∈ res.definition.elements)
    (method : String) {body : List Stmt}
    (inner : ∀ x ∈ body, ∀ trail ∈ x.trails, r.Mention res plan "self" trail) :
    ∀ trail ∈ (groupCode method g body).trails, r.Mention res plan "self" trail := by
  have group : (groupCode method g body).trails =
      (route "self" g.element.id.name ++ ["snp", method]) :: body.flatMap Stmt.trails := by
    simp [groupCode, Stmt.trails, Expr.trails, elementTrails]
  rw [group]
  refine List.forall_mem_cons.mpr ⟨.object (.view element ?_ fun _ name same => ?_),
    fun trail member => ?_⟩
  · simp
  · cases same
    exact .inl (by simp)
  · obtain ⟨x, inside, own⟩ := List.mem_flatMap.mp member
    exact inner x inside trail own

theorem setupMentions (planned : Planned res.definition plan) :
    ∀ trail ∈ Stmt.allTrails plan.setup.body, r.Mention res plan "self" trail := by
  rw [Stmt.allTrailsFlat, setup, List.flatMap_append]
  refine List.forall_mem_append.mpr ⟨fun trail member => ?_, ?_⟩
  · obtain ⟨_, made, own⟩ := List.mem_flatMap.mp member
    obtain ⟨g, listed, rfl⟩ := List.mem_map.mp made
    have inside := List.mem_append_left plan.reactive listed
    obtain ⟨element, parent⟩ := planned.groups g inside
    refine groupMentions element _ (fun x there => ?_) trail own
    obtain ⟨c, kept, rfl⟩ := List.mem_map.mp there
    have code : ∀ after, ∀ trail ∈ (c.code g.element g.parent).trails after,
        r.Mention res plan "self" trail := Constraint.codeMentions element parent
      (planned.targets c (planned.listed g inside c kept))
    unfold installedCode
    simp only
    split
    · rename_i field named
      rw [Stmt.trails, Expr.trails, Expr.trails]
      refine List.forall_mem_append.mpr ⟨?_, code _⟩
      simpa [Expr.self, Expr.trails] using
        Registry.Mention.object (.field
          (planned.fields c (planned.listed g inside c kept) field named))
    · rw [Stmt.trails]
      exact code []
  · split
    · have call : r.Mention res plan "self" ["remakeReactiveConstraints"] :=
        Registry.mentionApart (by simp) []
      simpa [remake, Stmt.trails, Expr.trails] using call
    · simp

theorem reactiveMentions (reactive : plan.isReactive = true) (planned : Planned res.definition plan)
    {g : ConstraintGroup} (listed : g ∈ plan.reactive) {c : Constraint} (kept : c ∈ g.constraints) :
    ∀ x ∈ reactiveCode g c, ∀ trail ∈ x.trails, r.Mention res plan "self" trail := by
  have inside := List.mem_append_right plan.installed listed
  obtain ⟨element, parent⟩ := planned.groups g inside
  have code : ∀ trail ∈ (c.code g.element g.parent).trails ["constraint"],
      r.Mention res plan "self" trail := Constraint.codeMentions element parent
    (planned.targets c (planned.listed g inside c kept)) ["constraint"]
  unfold reactiveCode
  cases conditional : c.condition with
  | none => simp
  | some condition =>
    refine List.forall_mem_singleton.mpr ?_
    have asked : ∀ trail ∈ (condition.code "traits").trails [],
        r.Mention res plan "self" trail := by
      intro trail member
      have first := condition.codeTrails trail member
      cases trail with
      | nil => cases first
      | cons head members =>
        cases first
        exact Registry.mentionApart (by simp) members
    have made : r.Mention res plan "self" ["constraint"] := Registry.mentionApart (by simp) []
    have kept : ∀ name, c.field = some name → r.Mention res plan "self" ["self", name] :=
      fun name named => .object (.field
        (planned.fields c (planned.listed g inside c kept) name named))
    have append : r.Mention res plan "self" ["self", reactiveField, "append"] :=
      .object (.reactive reactive (by simp))
    rw [Stmt.trails, Stmt.allTrailsFlat]
    refine List.forall_mem_append.mpr ⟨asked, ?_⟩
    cases field : c.field with
    | none =>
      simpa [Stmt.constant, Stmt.trails, Expr.trails, reactiveList, Expr.self, or_imp, forall_and,
        made, append] using code
    | some name =>
      simpa [Stmt.constant, Stmt.trails, Expr.trails, reactiveList, Expr.self, or_imp, forall_and,
        made, append, kept name field] using code

theorem eachMentions (reactive : plan.isReactive = true) (method : String) :
    ∀ trail ∈ (eachReactive method).trails, r.Mention res plan "self" trail := by
  have list : r.Mention res plan "self" ["self", reactiveField, "forEach"] :=
    .object (.reactive reactive (by simp))
  have each : r.Mention res plan "self" ["$0", method] := Registry.mentionApart (by simp) _
  simpa [eachReactive, Stmt.trails, Expr.trails, reactiveList, Expr.self] using ⟨list, each⟩

theorem remakeMentions (worked : r.WorkedOut res) (reactive : plan.isReactive = true)
    (planned : Planned res.definition plan) :
    ∀ trail ∈ Stmt.allTrails plan.remakeReactive.body, r.Mention res plan "self" trail := by
  have object : r.Mention res plan "self" ["self"] := worked.mentionObject
  have helper : r.Mention res plan "self" ["UITraitHelper"] := Registry.mentionApart (by simp) []
  have list : r.Mention res plan "self" ["self", reactiveField] :=
    .object (.reactive reactive (by simp))
  rw [Stmt.allTrailsFlat, remakeReactive]
  simp only [List.flatMap_append, List.forall_mem_append]
  refine ⟨⟨⟨?_, fun trail member => ?_⟩, fun trail member => ?_⟩, ?_⟩
  · simp only [List.flatMap_cons, List.flatMap_nil, List.append_nil, List.forall_mem_append]
    refine ⟨?_, eachMentions reactive _, ?_⟩
    · simpa [Stmt.constant, Stmt.trails, Expr.trails, Expr.self] using ⟨helper, object⟩
    · simpa [Stmt.trails, Expr.trails, reactiveList, Expr.self] using list
  · obtain ⟨_, made, own⟩ := List.mem_flatMap.mp member
    obtain ⟨name, listed, rfl⟩ := List.mem_map.mp made
    obtain ⟨c, within, named⟩ := List.mem_filterMap.mp (Template.memDistinct.mp listed)
    obtain ⟨g, inside, kept⟩ := List.mem_flatMap.mp within
    have field := planned.fields c
      (planned.listed g (List.mem_append_right _ inside) c kept) name named
    simp only [Stmt.trails, Expr.trails, Expr.self, Expr.nil, List.append_nil,
      List.mem_singleton] at own
    rw [own]
    exact .object (.field field)
  · obtain ⟨_, made, own⟩ := List.mem_flatMap.mp member
    obtain ⟨g, listed, rfl⟩ := List.mem_map.mp made
    refine groupMentions (planned.groups g (List.mem_append_right _ listed)).1 _
      (fun x there => ?_) trail own
    obtain ⟨c, kept, here⟩ := List.mem_flatMap.mp there
    exact reactiveMentions reactive planned listed kept x here
  · rw [List.flatMap_singleton]
    exact eachMentions reactive _

end LayoutPlan

namespace ResolvedAction

inductive Written (d : ComponentDefinition) (state : List StateItem) : ParameterSource → Prop where
  | constant (literal : Literal) : Written d state (.constant (literalValue literal))
  | state {item : StateItem} (listed : item ∈ state) : Written d state (.state item.name)
  | element {e : Element} (inside : e ∈ d.elements) : Written d state (.reference e.id.name none)
  | property {e : Element} {name : String} (inside : e ∈ d.elements)
      (known : (e.kind.table.find? name).isSome = true) :
      Written d state (.reference e.id.name (some name))

theorem referenceWritten {d : ComponentDefinition} {state : List StateItem} {current : String}
    {target : ReferenceTarget} {property : Option String} {type : ValueType}
    {source : ParameterSource}
    (ok : referenceParameter d current target property = .ok (type, source)) :
    Written d state source := by
  unfold referenceParameter at ok
  simp only at ok
  split at ok
  · cases ok
  · rename_i e found
    have inside : e ∈ d.elements := List.mem_of_find?_eq_some found
    split at ok
    · cases ok
      exact .element inside
    · split at ok
      · rename_i known
        cases ok
        exact .property inside (by rw [known]; rfl)
      · cases ok

theorem argumentWritten {d : ComponentDefinition} {state : List StateItem} {current action : String}
    {argument : CallArgument} {p : ActionParameter}
    (ok : argumentParameter d state current action argument = .ok p) : Written d state p.source := by
  unfold argumentParameter at ok
  simp only at ok
  split at ok
  · cases ok
    exact .constant _
  · split at ok
    · rename_i item found
      cases ok
      have named := List.find?_some found
      cases beq_iff_eq.mp named
      exact .state (List.mem_of_find?_eq_some found)
    · cases ok
  · obtain ⟨⟨type, source⟩, found, last⟩ := Result.bindOk.mp ok
    cases last
    exact referenceWritten found

theorem sourceWritten {d : ComponentDefinition} {state : List StateItem} {id : String}
    {action : BoundAction} {event : EventDescription} {s : ActionSource}
    (ok : source d state id action event = .ok s) :
    s.element = id ∧ ∀ p ∈ s.parameters,
      (∃ k, p.source = .inherited k) ∨ Written d state p.source := by
  have inherited : ∀ (ps : List EventParameter) (i : Nat), ∀ p ∈ inheritedParameters i ps,
      ∃ k, p.source = .inherited k := by
    intro ps
    induction ps with
    | nil => simp [inheritedParameters]
    | cons first rest ih =>
      intro i
      rw [inheritedParameters]
      exact List.forall_mem_cons.mpr ⟨⟨i, rfl⟩, ih (i + 1)⟩
  unfold source at ok
  simp only at ok
  split at ok
  · cases ok
    exact ⟨rfl, fun p member => .inl (inherited _ _ p member)⟩
  · obtain ⟨parameters, made, last⟩ := Result.bindOk.mp ok
    cases last
    refine ⟨rfl, fun p member => .inr ?_⟩
    obtain ⟨argument, _, parameter⟩ := forallRight (Result.mapMOk made) member
    exact argumentWritten parameter

end ResolvedAction

namespace ActionSource

variable {r : Registry} {res : Resolved} {plan : LayoutPlan}

theorem parameterMentions (worked : r.WorkedOut res) (context : RenderContext) (s : ActionSource)
    {p : ActionParameter} (written : (∃ k, p.source = .inherited k) ∨
      ResolvedAction.Written res.definition res.state p.source) :
    ∀ trail ∈ (s.parameterCode context p).trails [], r.Mention res plan "self" trail := by
  unfold parameterCode
  rcases written with ⟨k, source⟩ | written
  · rw [source]
    simp only
    split <;> simp [Expr.trails, Expr.nil]
  · generalize p.source = source at written
    cases written with
    | constant literal =>
      cases literal <;> simp [ResolvedAction.literalValue, Value.code, Expr.trails, Expr.boolean]
    | state listed =>
      simpa [Expr.self, Expr.trails] using Registry.Mention.object (.state listed)
    | element inside =>
      simpa [elementTrails] using Registry.WorkedOut.mentionElement inside
    | @property e name inside known =>
      rw [Expr.trails, elementTrails]
      refine List.forall_mem_singleton.mpr (.object
        (.view inside (by simp) fun named first same => ?_))
      cases same
      rw [worked.rootOnly inside named] at known
      exact .inr (.inr known)

theorem publicationMentions (worked : r.WorkedOut res) (context : RenderContext)
    (a : ResolvedAction) {s : ActionSource} (written : ∀ p ∈ s.parameters,
      (∃ k, p.source = .inherited k) ∨ ResolvedAction.Written res.definition res.state p.source) :
    ∀ trail ∈ (s.publication context a).trails, r.Mention res plan "self" trail := by
  have arguments : ∀ trail ∈ (List.zipWith (fun declared p => (declared.1,
      s.parameterCode context p)) a.parameters s.parameters).flatMap (·.2.trails []),
      r.Mention res plan "self" trail := by
    intro trail member
    obtain ⟨pair, zipped, own⟩ := List.mem_flatMap.mp member
    have paired : pair ∈ (a.parameters.map Prod.fst).zip
        (s.parameters.map (s.parameterCode context)) := by
      rwa [List.zip, List.zipWith_map]
    obtain ⟨p, inside, same⟩ := List.mem_map.mp (List.of_mem_zip paired).2
    rw [← same] at own
    exact parameterMentions worked context s (written p inside) trail own
  have publish : r.Mention res plan "self" ["self", "actionPublisher", "publish"] :=
    .object .publisher
  unfold publication
  simp only [Stmt.trails, Expr.invokeTrails, Expr.trails, Expr.self, List.flatMap_cons,
    List.flatMap_nil, List.append_nil]
  refine List.forall_mem_append.mpr ⟨List.forall_mem_singleton.mpr publish, ?_⟩
  split
  · simp [Expr.trails]
  · simpa [Expr.trails] using arguments

inductive Observed (r : Registry) (res : Resolved) (s : ActionSource) : Prop where
  | control {e : Element} {event : String} (inside : e ∈ res.definition.elements)
      (named : s.element = e.id.name) (below : e.id.name ≠ Element.rootName)
      (source : s.event = .control event)
  | component {e : Element} {name : String} (inside : e ∈ res.definition.elements)
      (named : s.element = e.id.name) (below : e.id.name ≠ Element.rootName)
      (source : s.event = .component name)
  | barButton {item : NavigationItem} (listed : item ∈ res.definition.navigation)
      (named : s.element = item.id) (source : s.event = .barButton)

theorem widgetEvents {w : Widget} {event : EventDescription} (member : event ∈ w.events) :
    ∃ name, event.source = .control name := by
  cases w <;> simp [Widget.events, EventDescription.control] at member
  all_goals first
    | exact ⟨_, by rw [member]⟩
    | (rcases member with rfl | rfl | rfl | rfl <;> exact ⟨_, rfl⟩)

theorem publishedObserved (worked : r.WorkedOut res) {p : Publisher}
    (listed : p ∈ res.definition.publishers) {s : ActionSource}
    (published : r.Publishes res.definition res.state p s) : Observed r res s := by
  obtain ⟨event, triggers, made⟩ := published
  obtain ⟨element, _⟩ := ResolvedAction.sourceWritten made
  obtain ⟨source, _, _⟩ := ResolvedAction.sourceGives made
  cases triggers with
  | @widget e w action event kind found =>
    have inside := Registry.publisherElement listed rfl
    have sent : event ∈ w.events := List.mem_of_find?_eq_some found
    obtain ⟨name, control⟩ := widgetEvents sent
    refine .control inside element (fun named => ?_) (source.trans control)
    cases kind.symm.trans (worked.rootContainer inside named)
    simp [Widget.events] at sent
  | @component e inner child action a behind derivation found =>
    have inside := Registry.publisherElement listed rfl
    refine .component inside element (worked.tidy.references e inside ?_) source
    unfold Registry.behind? at behind
    obtain ⟨reference, refers, _⟩ := Option.bind_eq_some_iff.mp behind
    rw [refers]
    rfl
  | @item id action =>
    obtain ⟨item, known, named⟩ : ∃ item ∈ res.definition.navigation, item.id = id := by
      rcases List.mem_append.mp listed with elements | items
      · obtain ⟨x, _, actions⟩ := List.mem_flatMap.mp elements
        obtain ⟨_, _, same⟩ := List.mem_map.mp actions
        cases same
      · obtain ⟨item, known, made⟩ := List.mem_filterMap.mp items
        obtain ⟨_, _, same⟩ := Option.map_eq_some_iff.mp made
        cases same
        exact ⟨item, known, rfl⟩
    exact .barButton known (element.trans named.symm) source

theorem observationMentions (worked : r.WorkedOut res) (context : RenderContext)
    (c : Configuration) (a : ResolvedAction) {s : ActionSource} (observed : Observed r res s)
    (written : ∀ p ∈ s.parameters, (∃ k, p.source = .inherited k) ∨
      ResolvedAction.Written res.definition res.state p.source) :
    ∀ trail ∈ (s.observation context c a).trails, r.Mention res plan "self" trail := by
  have publish : ∀ trail ∈ (s.publication context a).trails, r.Mention res plan "self" trail :=
    publicationMentions worked context a written
  unfold observation
  simp only [Stmt.trails]
  cases observed with
  | @control e event inside named below source =>
    have target : r.Mention res plan "self" (route "self" e.id.name) :=
      Registry.WorkedOut.mentionElement inside
    have added : r.Mention res plan "self" (route "self" e.id.name ++ ["addAction"]) :=
      .object (.view inside (by simp) fun root => absurd root below)
    have action : r.Mention res plan "self" ["UIAction"] := Registry.mentionApart (by simp) []
    have observer : r.Mention res plan "self" ["ControlEventObserver", "bind"] :=
      Registry.mentionApart (by simp) _
    simp only [source, controlCode, named]
    split
    · cases sends : s.usesSender with
      | true =>
        simpa [handler, elementTrails, Expr.trails, Stmt.constant, Stmt.trails, added, action,
          target] using publish
      | false =>
        simpa [handler, elementTrails, Expr.trails, added, action] using publish
    · simpa [handler, elementTrails, Expr.trails, observer, target] using publish
  | @component e name inside named below source =>
    have listen : r.Mention res plan "self"
        (route "self" e.id.name ++ ["actionPublisher", "listen"]) :=
      .object (.view inside (by simp) fun root => absurd root below)
    simpa [source, componentCode, named, handler, elementTrails, Expr.trails, Stmt.trails, listen]
      using publish
  | @barButton item listed named source =>
    have target : r.Mention res plan "self" (route "self" item.id) := by
      unfold route
      split
      · exact worked.mentionObject
      · exact .object (.item listed)
    have observer : r.Mention res plan "self" ["BarButtonItemObserver", "bind"] :=
      Registry.mentionApart (by simp) _
    simpa [source, barButtonCode, named, handler, elementTrails, Expr.trails, observer, target]
      using publish

theorem actionsMention (worked : r.WorkedOut res) (context : RenderContext) (c : Configuration) :
    ∀ trail ∈ Stmt.allTrails (res.observeActions context c).body,
      r.Mention res plan "self" trail := by
  intro trail member
  rw [Stmt.allTrailsFlat] at member
  obtain ⟨x, made, own⟩ := List.mem_flatMap.mp member
  obtain ⟨a, listed, observed⟩ := List.mem_flatMap.mp made
  obtain ⟨s, source, rfl⟩ := List.mem_map.mp observed
  obtain ⟨p, called, published⟩ :=
    forallRight ((Registry.derivationListed worked.derivation).sources a listed) source
  have known := (List.mem_filter.mp called).1
  have ⟨_, _, made⟩ := published
  exact observationMentions worked context c a (publishedObserved worked known published)
    (ResolvedAction.sourceWritten made).2 trail own

end ActionSource

namespace StateItem

variable {r : Registry} {res : Resolved} {plan : LayoutPlan}

/- What is passed on is an argument of an element, which the component behind it has accepted. -/
theorem passedItem (worked : r.WorkedOut res) {item : StateItem} (listed : item ∈ res.state)
    {a : StateApplication} (applied : a ∈ item.applications) {name : String}
    (target : a.target = .componentState name) :
    ∃ e ∈ res.definition.elements, e.id.name = a.element ∧ e.arguments ≠ [] ∧ r.ItemOf e name := by
  have passes := Registry.derivationPasses worked.derivation
  have counted := passes.counted item listed a.element name
  have some : 0 < item.applications.countP (·.passes a.element name) :=
    List.countP_pos_iff.mpr ⟨a, applied, by simp [StateApplication.passes, target]⟩
  rw [counted] at some
  unfold ComponentDefinition.passes at some
  obtain ⟨n, member, positive⟩ := List.sum_pos_iff_exists_pos_nat.mp some
  obtain ⟨e, inside, rfl⟩ := List.mem_map.mp member
  unfold Element.passes at positive
  split at positive
  · rename_i named
    obtain ⟨argument, given, same⟩ := List.countP_pos_iff.mp positive
    have nonempty := List.ne_nil_of_mem given
    obtain ⟨inner, child, behind, derivation, accepts⟩ := passes.accepted e inside nonempty
    obtain ⟨own, found, _⟩ := accepts argument given
    have called : own.name = argument.1 := by simpa using List.find?_some found
    have wanted : argument.1 = name := by
      simp only [Bool.and_eq_true, decide_eq_true_eq] at same
      exact same.2
    exact ⟨e, inside, named, nonempty, inner, child, own, behind, derivation,
      List.mem_of_find?_eq_some found, called.trans wanted⟩
  · exact absurd positive (Nat.lt_irrefl 0)

theorem applicationMentions (worked : r.WorkedOut res) {item : StateItem}
    (listed : item ∈ res.state) {a : StateApplication} (applied : a ∈ item.applications)
    (value : Expr) : ∃ way, (applicationCode value a).trails = way :: value.trails [] ∧
      r.Mention res plan "owner" way := by
  unfold applicationCode
  cases target : a.target with
  | property p =>
    have bound : (a.element, p) ∈ res.definition.boundTo item.name := by
      rw [← worked.describes.items.bound item listed]
      exact List.mem_filterMap.mpr ⟨a, applied, by simp [StateApplication.property?, target]⟩
    obtain ⟨e, inside, own⟩ := List.mem_flatMap.mp bound
    obtain ⟨q, kept, same⟩ := List.mem_map.mp own
    obtain ⟨named, rfl⟩ := Prod.mk.inj same
    obtain ⟨_, split, _⟩ :=
      (Resolved.propertiesOfMerged worked.tidy worked.describes inside).own
    have set : q ∈ res.propertiesOf e := by
      rw [split]
      exact List.mem_append_right _ (List.mem_filter.mp kept).1
    refine ⟨_, Property.applyTrails q "owner" a.element value, ?_⟩
    rw [← named]
    exact worked.mentionProperty inside set
  | componentState name =>
    obtain ⟨e, inside, named, given, known⟩ := passedItem worked listed applied target
    have below := argumentBelow worked.tidy inside given
    refine ⟨["owner", a.element, "state", name], ?_, ?_⟩
    · have way : route "owner" a.element = ["owner", a.element] := if_neg (named ▸ below)
      simp [Stmt.trails, elementTrails, way]
    · rw [← named]
      exact .object (.argument inside below known)

theorem changeMentions (worked : r.WorkedOut res) {item : StateItem} (listed : item ∈ res.state) :
    ∀ trail ∈ Code.Case.allTrails [item.changeCase],
      trail = ["self", item.name] ∨ r.Mention res plan "owner" trail := by
  have body : ∀ trail ∈ (item.applications.map
      (applicationCode (Expr.self.member item.name))).flatMap Stmt.trails,
      trail = ["self", item.name] ∨ r.Mention res plan "owner" trail := by
    intro trail member
    obtain ⟨_, made, own⟩ := List.mem_flatMap.mp member
    obtain ⟨a, applied, rfl⟩ := List.mem_map.mp made
    obtain ⟨way, trails, mention⟩ : ∃ way, (applicationCode (Expr.self.member item.name) a).trails =
        way :: (Expr.self.member item.name).trails [] ∧ r.Mention res plan "owner" way :=
      applicationMentions worked listed applied _
    rw [trails] at own
    rcases List.mem_cons.mp own with rfl | read
    · exact .inr mention
    · exact .inl (by simpa [Expr.trails, Expr.self] using read)
  unfold changeCase
  simp only
  split
  · simp [Code.Case.allTrails, Expr.trails, Stmt.trails]
  · simpa [Code.Case.allTrails, Expr.trails] using body

end StateItem

namespace Resolved

variable {r : Registry} {res : Resolved}

theorem notifyMentions (plan : LayoutPlan) (worked : r.WorkedOut res) :
    ∀ trail ∈ Stmt.allTrails res.notify.body,
    (∃ item ∈ res.state, trail = ["self", item.name]) ∨
      (∃ handler ∈ res.definition.state.handler, trail = ["owner", handler]) ∨
      r.Mention res plan "owner" trail := by
  have changed : ∀ items : List StateItem, items ⊆ res.state →
      ∀ trail ∈ Code.Case.allTrails (items.map (·.changeCase)),
        (∃ item ∈ res.state, trail = ["self", item.name]) ∨ r.Mention res plan "owner" trail := by
    intro items
    induction items with
    | nil => simp [Code.Case.allTrails]
    | cons item rest ih =>
      intro within trail member
      obtain ⟨listed, others⟩ := List.cons_subset.mp within
      have split : Code.Case.allTrails (item.changeCase :: rest.map (·.changeCase)) =
          Code.Case.allTrails [item.changeCase] ++
            Code.Case.allTrails (rest.map (·.changeCase)) := by
        cases item.changeCase <;> simp [Code.Case.allTrails]
      rw [List.map_cons, split] at member
      rcases List.mem_append.mp member with here | later
      · exact (StateItem.changeMentions worked listed trail here).imp_left
          fun same => ⟨item, listed, same⟩
      · exact ih others trail later
  have subject : r.Mention res plan "owner" ["item"] := Registry.mentionApart (by simp) []
  intro trail member
  simp only [Stmt.allTrailsFlat, notify, List.flatMap_append, List.flatMap_cons, List.flatMap_nil,
    Stmt.trails, Expr.trails, List.append_nil, List.nil_append, List.mem_append,
    List.mem_singleton] at member
  rcases member with (rfl | cases) | handled
  · exact .inr (.inr subject)
  · exact (changed res.state (List.Subset.refl _) trail cases).imp_right .inr
  · obtain ⟨_, made, own⟩ := List.mem_flatMap.mp handled
    obtain ⟨handler, given, rfl⟩ := List.mem_map.mp made
    have trails : trail = ["owner", handler] ∨ trail = ["item"] := by
      simpa [Stmt.trails, Expr.trails] using own
    rcases trails with rfl | rfl
    · exact .inr (.inl ⟨handler, Option.mem_toList.mp given, rfl⟩)
    · exact .inr (.inr subject)

end Resolved
end ViewForge
