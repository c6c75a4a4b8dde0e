import ViewForge.Proofs.Source.Layout
import ViewForge.Proofs.Within

/-! The two methods of a layout plan. Each constraint is made by one of them, as it has a condition
or not; the second one empties a field before it can set it. -/
namespace ViewForge
open Code (Expr Stmt Decl Function Making)

structure Laid where
  element : Element
  parent : Element
  constraint : Constraint

def Laid.making (l : Laid) : Making where
  view := elementCode "self" l.element.id.name
  condition := l.constraint.condition.map (·.code "traits")
  made := l.constraint.code l.element l.parent

namespace ComponentDefinition

def laid (d : ComponentDefinition) : List Laid :=
  d.root.withParents.flatMap fun
    | (_, none) => []
    | (element, some parent) => element.layout.map (⟨element, parent, ·⟩)

def layouts (d : ComponentDefinition) : List Constraint := d.elements.flatMap (·.layout)

theorem laidConstraints (d : ComponentDefinition) :
    d.laid.map (·.constraint) = LayoutPlan.constraints d := by
  rw [laid, List.map_flatMap, LayoutPlan.constraints]
  refine List.flatMap_congr fun parented _ => ?_
  obtain ⟨element, parent⟩ := parented
  cases parent with
  | none => rfl
  | some parent => simp [Function.comp_def]

theorem layoutsConstraints {d : ComponentDefinition} (unlaid : d.root.layout = []) :
    LayoutPlan.constraints d = d.layouts := by
  have each : ∀ pending : List Element.Parented, (∀ x ∈ pending, x.2.isSome) →
      (pending.flatMap fun
        | (_, none) => []
        | (element, some _) => element.layout) = (pending.map Prod.fst).flatMap (·.layout) := by
    intro pending given
    rw [List.flatMap_map]
    refine List.flatMap_congr fun parented member => ?_
    obtain ⟨element, parent⟩ := parented
    obtain ⟨parent, rfl⟩ := Option.isSome_iff_exists.mp (given _ member)
    rfl
  have children : ∀ x ∈ Element.childrenOf d.root, x.2.isSome := by simp [Element.childrenOf]
  have below := each _ (Element.walkParentedSome children)
  have all : d.elements =
      d.root :: (Element.walkParented (Element.childrenOf d.root)).map Prod.fst := by
    rw [elements, ← Element.withParentsFirst, Element.withParentsSplit, List.map_cons]
  rw [LayoutPlan.constraints, Element.withParentsSplit, List.flatMap_cons, List.nil_append, layouts,
    all, List.flatMap_cons, unlaid, List.nil_append]
  exact below

end ComponentDefinition

theorem elementWithin (base id : String) : (elementCode base id).within = [] := by
  unfold elementCode
  split <;> rfl

theorem Condition.codeWithin (c : Condition) (helper : String) : (c.code helper).within = [] := by
  induction c with
  | not inner ih => simpa [code, Expr.within] using ih
  | and lhs rhs left right => simp [code, Expr.within, left, right]
  | or lhs rhs left right => simp [code, Expr.within, left, right]
  | _ => simp [code, Expr.within, Expr.boolean, Expr.number]

namespace Constraint

theorem codeMade (c : Constraint) (element parent : Element) :
    (c.code element parent).ofMaker = true := by
  have modified : ∀ (ms : List ConstraintModifier) (e : Expr), e.ofMaker = true →
      (ms.foldl modifierCode e).ofMaker = true := by
    intro ms
    induction ms with
    | nil => exact fun _ made => made
    | cons m rest ih =>
      intro e made
      rw [List.foldl_cons]
      exact ih _ (by cases m <;> exact made)
  unfold code
  simp only
  split
  · exact modified _ _ rfl
  · exact modified _ _ rfl

theorem targetWithin (c : Constraint) (element parent : Element) :
    (c.targetCode element parent).within = [] := by
  have view : (c.targetView element parent).within = [] := by
    unfold targetView
    cases c.target <;> simp [elementWithin, Expr.within, Expr.number]
  unfold targetCode
  cases c.targetAnchor with
  | none => exact view
  | some anchor =>
    simp only
    split
    · exact view
    · rw [Expr.pathWithin, view]

theorem codeWithin (c : Constraint) (element parent : Element) :
    (c.code element parent).within = [] := by
  have modified : ∀ (ms : List ConstraintModifier) (e : Expr), e.within = [] →
      (ms.foldl modifierCode e).within = [] := by
    intro ms
    induction ms with
    | nil => exact fun _ none => none
    | cons m rest ih =>
      intro e none
      rw [List.foldl_cons]
      exact ih _ (by cases m <;> simp [modifierCode, none, Expr.number, Expr.within])
  have bare : (((Expr.identifier "make").member c.anchor.name).invoke c.relation.method
      [(none, c.targetCode element parent)]).within = [] := by
    simp [Expr.within, targetWithin]
  unfold code
  simp only
  split
  · exact modified _ _ bare
  · simp [modified _ _ bare, Expr.within]

end Constraint

theorem Template.distinctNodup (names : List String) : (distinct names).Nodup := by
  have each : ∀ (names seen : List String), seen.Nodup → (names.foldl
      (fun seen name => if seen.contains name then seen else seen ++ [name]) seen).Nodup := by
    intro names
    induction names with
    | nil => exact fun _ fine => fine
    | cons first rest ih =>
      intro seen fine
      rw [List.foldl_cons]
      refine ih _ ?_
      split
      · exact fine
      · rename_i fresh
        have fresh : first ∉ seen := by simpa using fresh
        exact (List.perm_append_singleton first seen).nodup_iff.mpr
          (List.nodup_cons.mpr ⟨fresh, fine⟩)
  exact each names [] List.nodup_nil

namespace LayoutPlan

variable {d : ComponentDefinition} {plan : LayoutPlan}

theorem groupsLaid (d : ComponentDefinition) (keep : Constraint → Bool) :
    (groups d keep).flatMap (fun g => g.constraints.map (⟨g.element, g.parent, ·⟩)) =
      d.laid.filter (keep ·.constraint) := by
  rw [groups, List.filterMap_eq_flatMap_toList, List.flatMap_assoc, ComponentDefinition.laid,
    List.filter_flatMap]
  refine List.flatMap_congr fun parented _ => ?_
  obtain ⟨element, parent⟩ := parented
  cases parent with
  | none => rfl
  | some parent =>
    simp only
    split
    · rename_i none
      rw [List.filter_map]
      simp_all [Function.comp_def]
    · simp [List.filter_map, Function.comp_def]

theorem groupMakings {method : String} (known : method = "makeConstraints" ∨
    method = "prepareConstraints") (g : ConstraintGroup) (body : List Stmt) :
    (groupCode method g body).makings =
      body.flatMap (Stmt.makingsFor (elementCode "self" g.element.id.name)) :=
  if_pos known

theorem installedMakings (g : ConstraintGroup) (view : Expr) {c : Constraint}
    (plain : c.isConditional = false) : (installedCode g c).makingsFor view =
      [⟨view, c.condition.map (·.code "traits"), c.code g.element g.parent⟩] := by
  have made := c.codeMade g.element g.parent
  have none : c.condition = none := by simpa [Constraint.isConditional] using plain
  unfold installedCode
  cases c.field with
  | some field => simp [Stmt.makingsFor, Stmt.made?, made, none]
  | none => simp [Stmt.makingsFor, Stmt.made?, made, none]

theorem reactiveMakings (g : ConstraintGroup) (view : Expr) {c : Constraint}
    (conditional : c.isConditional = true) :
    (reactiveCode g c).flatMap (Stmt.makingsFor view) =
      [⟨view, c.condition.map (·.code "traits"), c.code g.element g.parent⟩] := by
  have made := c.codeMade g.element g.parent
  obtain ⟨condition, given⟩ := Option.isSome_iff_exists.mp conditional
  unfold reactiveCode
  rw [given]
  have appended : (reactiveList.invoke "append" [(none, .identifier "constraint")]).ofMaker =
    false := rfl
  cases c.field with
  | some field => simp [Stmt.makingsFor, Stmt.constant, Stmt.made?, made, appended]
  | none => simp [Stmt.makingsFor, Stmt.constant, Stmt.made?, made, appended]

theorem setupMakings (installed : plan.installed = groups d (!·.isConditional)) :
    plan.setup.body.flatMap Stmt.makings =
      (d.laid.filter (!·.constraint.isConditional)).map Laid.making := by
  have last : (if plan.isReactive then [remake] else []).flatMap Stmt.makings = [] := by
    split <;> rfl
  rw [setup, List.flatMap_append, last, List.append_nil, installed, List.flatMap_map,
    ← groupsLaid d (!·.isConditional), List.map_flatMap]
  refine List.flatMap_congr fun g member => ?_
  rw [groupMakings (.inl rfl), List.flatMap_map, List.map_map, List.map_eq_flatMap]
  refine List.flatMap_congr fun c inside => ?_
  exact installedMakings g _ (by simpa using groupKept member c inside)

theorem remakeMakings (reactive : plan.reactive = groups d (·.isConditional)) :
    plan.remakeReactive.body.flatMap Stmt.makings =
      (d.laid.filter (·.constraint.isConditional)).map Laid.making := by
  have resets : plan.resets.flatMap Stmt.makings = [] := by
    rw [resets, List.flatMap_map]
    exact List.flatMap_eq_nil_iff.mpr fun _ _ => rfl
  have made : (plan.reactive.map fun g => groupCode "prepareConstraints" g
      (g.constraints.flatMap (reactiveCode g))).flatMap Stmt.makings =
        (d.laid.filter (·.constraint.isConditional)).map Laid.making := by
    rw [reactive, List.flatMap_map, ← groupsLaid d (·.isConditional), List.map_flatMap]
    refine List.flatMap_congr fun g member => ?_
    rw [groupMakings (.inr rfl), List.flatMap_assoc, List.map_map, List.map_eq_flatMap]
    exact List.flatMap_congr fun c inside => reactiveMakings g _ (groupKept member c inside)
  rw [remakeReactive]
  simp only [List.flatMap_append, resets, made]
  exact List.append_nil _

section
variable {field : String}

theorem groupGives (method : String) (g : ConstraintGroup) (body : List Stmt) :
    (groupCode method g body).gives field = Stmt.allGiven field body := by
  simp [Stmt.gives, groupCode, Stmt.given?, Stmt.within, Expr.within, elementWithin, Stmt.allGiven]

theorem installedGives (g : ConstraintGroup) (c : Constraint) :
    (installedCode g c).gives field =
      if c.field = some field then [(c.code g.element g.parent).member "constraint"] else [] := by
  unfold installedCode
  cases c.field with
  | some name =>
    by_cases same : name = field <;>
      simp [Stmt.gives, Stmt.given?, Stmt.within, Expr.within, Expr.self, Constraint.codeWithin,
        same]
  | none => simp [Stmt.gives, Stmt.given?, Stmt.within, Constraint.codeWithin]

theorem reactiveGives (g : ConstraintGroup) (c : Constraint) :
    (reactiveCode g c).flatMap (Stmt.gives field) =
      if c.isConditional ∧ c.field = some field then [.identifier "constraint"] else [] := by
  unfold reactiveCode Constraint.isConditional
  cases c.condition with
  | none => simp
  | some condition =>
    cases c.field with
    | some name =>
      by_cases same : name = field <;>
        simp [Stmt.gives, Stmt.given?, Stmt.within, Stmt.allWithinFlat, Expr.within, Expr.self,
          Stmt.constant, Constraint.codeWithin, Condition.codeWithin, reactiveList, same]
    | none =>
      simp [Stmt.gives, Stmt.given?, Stmt.within, Stmt.allWithinFlat, Expr.within, Expr.self,
        Stmt.constant, Constraint.codeWithin, Condition.codeWithin, reactiveList]

theorem eachGives (method : String) : (eachReactive method).gives field = [] := by
  simp [Stmt.gives, eachReactive, Stmt.given?, Stmt.within, Stmt.allWithinFlat, Expr.within,
    Expr.self, reactiveList]

theorem resetGives {names : List String} (distinct : names.Nodup) :
    (names.map fun name => Stmt.assign (Expr.self.member name) .nil).flatMap (Stmt.gives field) =
      if field ∈ names then [.nil] else [] := by
  induction names with
  | nil => rfl
  | cons name rest ih =>
    obtain ⟨fresh, distinct⟩ := List.nodup_cons.mp distinct
    have first : (Stmt.assign (Expr.self.member name) .nil).gives field =
        if name = field then [.nil] else [] := by
      by_cases same : name = field <;>
        simp [Stmt.gives, Stmt.given?, Stmt.within, Expr.within, Expr.self, Expr.nil, same]
    rw [List.map_cons, List.flatMap_cons, first, ih distinct]
    by_cases same : name = field
    · subst same
      simp [fresh]
    · simp [same, Ne.symm same]

theorem setupGives (plan : LayoutPlan) : Stmt.allGiven field plan.setup.body =
    plan.installed.flatMap fun g => g.constraints.flatMap fun c =>
      if c.field = some field then [(c.code g.element g.parent).member "constraint"] else [] := by
  have last : (if plan.isReactive then [remake] else []).flatMap (Stmt.gives field) = [] := by
    split
    · simp [Stmt.gives, remake, Stmt.given?, Stmt.within, Expr.within]
    · rfl
  rw [Stmt.allGivenFlat, setup, List.flatMap_append, last, List.append_nil, List.flatMap_map]
  simp only [groupGives, Stmt.allGivenFlat, List.flatMap_map, installedGives]

def reactiveFields (plan : LayoutPlan) : List String :=
  Template.distinct (fieldsOf (plan.reactive.flatMap (·.constraints)))

theorem remakeGives (plan : LayoutPlan) (other : reactiveField ≠ field) :
    Stmt.allGiven field plan.remakeReactive.body =
      (if field ∈ plan.reactiveFields then [.nil] else []) ++
        plan.reactive.flatMap fun g => g.constraints.flatMap fun c =>
          if c.isConditional ∧ c.field = some field then [.identifier "constraint"] else [] := by
  have begins : [.constant "traits" ((Expr.identifier "UITraitHelper").apply [(some "for", .self)]),
      eachReactive "deactivate", .assign reactiveList (.array [])].flatMap (Stmt.gives field) =
        [] := by
    simp only [List.flatMap_cons, List.flatMap_nil, eachGives]
    simp [Stmt.gives, Stmt.constant, Stmt.given?, Stmt.within, Expr.within, Expr.self,
      Expr.allWithin, reactiveList, other]
  rw [Stmt.allGivenFlat, remakeReactive]
  simp only [List.flatMap_append, begins, resets, resetGives (Template.distinctNodup _),
    List.flatMap_map, groupGives, Stmt.allGivenFlat, List.flatMap_assoc, reactiveGives,
    List.flatMap_singleton, eachGives, List.nil_append, List.append_nil]
  rfl

theorem remakeEmpties (plan : LayoutPlan) (other : reactiveField ≠ field)
    (given : Stmt.allGiven field plan.remakeReactive.body ≠ []) :
    field ∈ plan.reactiveFields ∧
      (Stmt.allGiven field plan.remakeReactive.body).countP Expr.isNil = 1 := by
  rw [remakeGives plan other] at given ⊢
  have later : ∀ e ∈ plan.reactive.flatMap (fun g => g.constraints.flatMap fun c =>
      if c.isConditional ∧ c.field = some field then [Expr.identifier "constraint"] else []),
      e.isNil = false ∧ field ∈ plan.reactiveFields := by
    intro e member
    obtain ⟨g, listed, member⟩ := List.mem_flatMap.mp member
    obtain ⟨c, inside, member⟩ := List.mem_flatMap.mp member
    split at member
    · rename_i named
      cases List.mem_singleton.mp member
      refine ⟨rfl, Template.memDistinct.mpr (List.mem_filterMap.mpr ⟨c, ?_, named.2⟩)⟩
      exact List.mem_flatMap.mpr ⟨g, listed, inside⟩
    · simp at member
  have known : field ∈ plan.reactiveFields := by
    by_contra none
    obtain ⟨e, member⟩ := List.exists_mem_of_ne_nil _ given
    simp only [none, if_false, List.nil_append] at member
    exact none (later e member).2
  have none : List.countP Expr.isNil (plan.reactive.flatMap (fun g => g.constraints.flatMap fun c =>
      if c.isConditional ∧ c.field = some field then [Expr.identifier "constraint"] else [])) = 0 :=
    List.countP_eq_zero.mpr fun e member => by simp [(later e member).1]
  refine ⟨known, ?_⟩
  rw [if_pos known, List.countP_append, none]
  rfl

theorem remakeSplits (plan : LayoutPlan) (known : field ∈ plan.reactiveFields) :
    ∃ before after,
      plan.remakeReactive.body = before ++ .assign (Expr.self.member field) .nil :: after ∧
      eachReactive "deactivate" ∈ before ∧ before.flatMap Stmt.makings = [] := by
  obtain ⟨first, second, split⟩ := List.append_of_mem known
  have resets : plan.resets = first.map (fun name => .assign (Expr.self.member name) .nil) ++
      .assign (Expr.self.member field) .nil ::
        second.map (fun name => .assign (Expr.self.member name) .nil) := by
    rw [resets]
    change plan.reactiveFields.map _ = _
    rw [split, List.map_append, List.map_cons]
  let begins := [Stmt.constant "traits" ((Expr.identifier "UITraitHelper").apply
    [(some "for", .self)]), eachReactive "deactivate", .assign reactiveList (.array [])]
  let ends := plan.reactive.map fun g =>
    groupCode "prepareConstraints" g (g.constraints.flatMap (reactiveCode g))
  refine ⟨begins ++ first.map (fun name => .assign (Expr.self.member name) .nil),
    second.map (fun name => .assign (Expr.self.member name) .nil) ++
      (ends ++ [eachReactive "activate"]), ?_, ?_, ?_⟩
  · rw [remakeReactive, resets]
    simp [begins, ends]
  · simp [begins]
  · rw [List.flatMap_append, List.flatMap_map]
    exact List.append_eq_nil_iff.mpr ⟨rfl, List.flatMap_eq_nil_iff.mpr fun _ _ => rfl⟩

end

theorem groupsNone (d : ComponentDefinition) (keep : Constraint → Bool) :
    (groups d keep).isEmpty = true ↔ ∀ c ∈ constraints d, keep c = false := by
  rw [List.isEmpty_iff]
  constructor
  · intro none c listed
    have all := groupsLaid d keep
    rw [none, List.flatMap_nil] at all
    rw [← d.laidConstraints] at listed
    obtain ⟨l, inside, rfl⟩ := List.mem_map.mp listed
    simpa using List.filter_eq_nil_iff.mp all.symm l inside
  · intro none
    refine List.eq_nil_iff_forall_not_mem.mpr fun g member => ?_
    have kept := groupKept member
    have listed := (groupWithin member).2.2
    obtain ⟨⟨element, parent⟩, _, made⟩ := List.mem_filterMap.mp member
    cases parent with
    | none => cases made
    | some parent =>
      simp only at made
      split at made
      · cases made
      · rename_i some
        cases made
        obtain ⟨c, inside⟩ := List.exists_mem_of_ne_nil _ (mt List.isEmpty_iff.mpr some)
        have dropped := none c (listed c inside)
        rw [kept c inside] at dropped
        cases dropped

theorem leastNone {names : List String} : least names = none ↔ names = [] := by
  cases names with
  | nil => simp [least]
  | cons name rest =>
    unfold least
    cases least rest with
    | none => simp
    | some other => by_cases below : other < name <;> simp [below]

def Mixed (cs : List Constraint) : Prop :=
  ∃ a ∈ cs, ∃ b ∈ cs, a.isConditional = true ∧ b.isConditional = false ∧
    ∃ field, a.field = some field ∧ b.field = some field

theorem mixedShared (cs : List Constraint) :
    Mixed cs ↔ (fieldsOf (cs.filter (!·.isConditional))).filter
      (fieldsOf (cs.filter (·.isConditional))).contains ≠ [] := by
  constructor
  · rintro ⟨a, one, b, two, conditional, plain, field, first, second⟩ none
    have left : field ∈ fieldsOf (cs.filter (·.isConditional)) :=
      List.mem_filterMap.mpr ⟨a, List.mem_filter.mpr ⟨one, conditional⟩, first⟩
    have right : field ∈ fieldsOf (cs.filter (!·.isConditional)) :=
      List.mem_filterMap.mpr ⟨b, List.mem_filter.mpr ⟨two, by simp [plain]⟩, second⟩
    exact List.filter_eq_nil_iff.mp none field right (by simpa using left)
  · intro some
    obtain ⟨field, member⟩ := List.exists_mem_of_ne_nil _ some
    obtain ⟨right, left⟩ := List.mem_filter.mp member
    obtain ⟨a, one, first⟩ := List.mem_filterMap.mp (List.contains_iff_mem.mp left)
    obtain ⟨b, two, second⟩ := List.mem_filterMap.mp right
    obtain ⟨one, conditional⟩ := List.mem_filter.mp one
    obtain ⟨two, plain⟩ := List.mem_filter.mp two
    exact ⟨a, one, b, two, conditional, by simpa using plain, field, first, second⟩

theorem checkFieldsMixed (cs : List Constraint) :
    (checkFields cs = .ok () ∧ ¬ Mixed cs) ∨
      ∃ field, checkFields cs = .error (.mixedConstraintField field) ∧ Mixed cs := by
  unfold checkFields
  rw [mixedShared]
  simp only
  split
  · rename_i field found
    refine .inr ⟨field, rfl, fun none => ?_⟩
    rw [leastNone.mpr none] at found
    cases found
  · rename_i none
    exact .inl ⟨rfl, not_not_intro (leastNone.mp none)⟩

theorem checkTargetsOk {cs : List Constraint}
    (found : ∀ c ∈ cs, ∀ id, c.reference? = some id → (d.find? id).isSome = true) :
    checkTargets d cs = .ok () := by
  induction cs with
  | nil => rfl
  | cons c rest ih =>
    obtain ⟨here, later⟩ := List.forall_mem_cons.mp found
    rw [checkTargets]
    cases refers : c.reference? with
    | none => exact ih later
    | some id =>
      have known : (d.find? id).isNone = false := by
        simpa [Option.isSome_iff_ne_none] using here id refers
      rw [Option.filter_some, known]
      exact ih later

/- The plan of a component whose constraints all refer to elements of it. -/
theorem planOutcome (found : ∀ c ∈ constraints d, ∀ id, c.reference? = some id →
    (d.find? id).isSome = true) (s : ResolverState) :
    ∃ plan, ((ofDefinition d).outcome s).1 = (checkFields (constraints d)).map fun _ => plan := by
  have checked := checkTargetsOk found
  unfold ofDefinition
  simp only [checked, Resolve.warn, Task.modifyBind]
  rw [Task.bindOk (Task.outcomeLift _ _), Task.outcomeBind, Task.outcomeLift]
  cases checkFields (constraints d) with
  | error e => exact ⟨{}, rfl⟩
  | ok => exact ⟨_, rfl⟩

theorem planFails (found : ∀ c ∈ constraints d, ∀ id, c.reference? = some id →
    (d.find? id).isSome = true) (s : ResolverState) :
    (∃ field, ((ofDefinition d).outcome s).1 = .error (.mixedConstraintField field)) ↔
      Mixed (constraints d) := by
  obtain ⟨plan, outcome⟩ := planOutcome found s
  rw [outcome]
  rcases checkFieldsMixed (constraints d) with ⟨fine, none⟩ | ⟨field, fails, mixed⟩
  · rw [fine]
    exact iff_of_false (by rintro ⟨_, ⟨⟩⟩) none
  · rw [fails]
    exact iff_of_true ⟨field, rfl⟩ mixed

theorem planFields {s t : ResolverState} (planned : (ofDefinition d).outcome s = (.ok plan, t)) :
    plan.fields = Template.distinct (fieldsOf (constraints d)) ∧ ¬ Mixed (constraints d) := by
  unfold ofDefinition at planned
  obtain ⟨_, u, _, planned⟩ := Task.bindGives.mp planned
  obtain ⟨_, _, planned⟩ := Task.liftBindGives planned
  obtain ⟨_, checked, last⟩ := Task.liftBindGives planned
  cases last
  rcases checkFieldsMixed (constraints d) with ⟨_, apart⟩ | ⟨field, fails, _⟩
  · exact ⟨rfl, apart⟩
  · rw [fails] at checked
    cases checked

theorem setupNames (installed : plan.installed = groups d (!·.isConditional)) {field : String}
    (given : Stmt.allGiven field plan.setup.body ≠ []) :
    ∃ k ∈ constraints d, k.isConditional = false ∧ k.field = some field := by
  rw [setupGives, installed] at given
  obtain ⟨e, member⟩ := List.exists_mem_of_ne_nil _ given
  obtain ⟨g, listed, member⟩ := List.mem_flatMap.mp member
  obtain ⟨k, inside, member⟩ := List.mem_flatMap.mp member
  split at member
  · rename_i named
    have plain := groupKept listed k inside
    exact ⟨k, (groupWithin listed).2.2 k inside, by simpa using plain, named⟩
  · simp at member

theorem reactiveNames (reactive : plan.reactive = groups d (·.isConditional)) {field : String}
    (known : field ∈ plan.reactiveFields) :
    ∃ k ∈ constraints d, k.isConditional = true ∧ k.field = some field := by
  obtain ⟨k, member, named⟩ := List.mem_filterMap.mp (Template.memDistinct.mp known)
  rw [reactive] at member
  obtain ⟨g, listed, inside⟩ := List.mem_flatMap.mp member
  exact ⟨k, (groupWithin listed).2.2 k inside, groupKept listed k inside, named⟩

end LayoutPlan
end ViewForge
