import ViewForge.Proofs.Layout.Plan
import ViewForge.Proofs.Source.Declared

/-! Two ways to install constraints, kept apart in the class of a component. What has no condition
is made once by one method, and the rest made anew by another; no field is set by both. A field that
has taken the name of the list of the constraints that are made anew escapes all this. -/
namespace ViewForge
open Code (Expr Stmt Decl)

namespace LayoutPlan

/- A field is set by one method at most and declared once. The method that makes constraints anew
empties what it sets: once, with the old constraints given up and before it makes any. -/
structure Owned (plan : LayoutPlan) (decl : Decl) (field : String) : Prop where
  apart : decl.gives "setupConstraints" field = [] ∨
    decl.gives "remakeReactiveConstraints" field = []
  declared : (plan.fieldDecls.filterMap (·.storedName?)).count field = 1
  emptied : decl.gives "remakeReactiveConstraints" field ≠ [] →
    (decl.gives "remakeReactiveConstraints" field).countP Expr.isNil = 1 ∧
    ∃ before after, decl.bodies "remakeReactiveConstraints" =
        [before ++ .assign (Expr.self.member field) .nil :: after] ∧
      eachReactive "deactivate" ∈ before ∧ before.flatMap Stmt.makings = []

structure Separates (plan : LayoutPlan) (d : ComponentDefinition) (decl : Decl) : Prop where
  setup : decl.makings "setupConstraints" =
    (d.laid.filter (!·.constraint.isConditional)).map Laid.making
  remake : decl.makings "remakeReactiveConstraints" =
    (d.laid.filter (·.constraint.isConditional)).map Laid.making
  fields : plan.fieldDecls <:+: decl.members
  owned : ∀ k ∈ d.layouts, ∀ field, k.field = some field → (plan.Owned decl field ↔
    (field = reactiveField → ∀ k ∈ d.layouts, k.isConditional = false))

theorem fieldNames (plan : LayoutPlan) : plan.fieldDecls.filterMap (·.storedName?) =
    plan.fields ++ if plan.isReactive then [reactiveField] else [] := by
  rw [fieldDecls, List.filterMap_append, List.filterMap_map]
  congr 1
  · exact List.filterMap_some
  · split <;> rfl

theorem declaredCount (plan : LayoutPlan) {cs : List Constraint}
    (fields : plan.fields = Template.distinct (fieldsOf cs)) {k : Constraint} (listed : k ∈ cs)
    {field : String} (named : k.field = some field) :
    (plan.fieldDecls.filterMap (·.storedName?)).count field =
      if plan.isReactive ∧ field = reactiveField then 2 else 1 := by
  have known : field ∈ plan.fields := by
    rw [fields]
    exact Template.memDistinct.mpr (List.mem_filterMap.mpr ⟨k, listed, named⟩)
  have once : plan.fields.count field = 1 := by
    rw [fields] at known ⊢
    exact List.count_eq_one_of_mem (Template.distinctNodup _) known
  rw [fieldNames, List.count_append, once]
  by_cases reactive : plan.isReactive = true
  · by_cases same : field = reactiveField
    · simp [reactive, same]
    · simp [reactive, same, Ne.symm same]
  · simp [reactive]

end LayoutPlan

namespace Registry

variable {r : Registry} {c : Configuration} {res : Resolved} {plan : LayoutPlan} {code : LoadCode}
  {styles templates : List Decl} {nested : List ComponentSource} {decl : Decl}

theorem typeBody {x : Decl} (type : isType x = true) (name : String) : x.body? name = none := by
  cases x <;> first | rfl | cases type

theorem overrideBody (o : Override) {name : String}
    (layout : name = "setupConstraints" ∨ name = "remakeReactiveConstraints") :
    (Decl.function (ComponentDefinition.overrideMethod o)).body? name = none := by
  refine if_neg fun same => ?_
  change o.kind.method = name at same
  rcases layout with rfl | rfl <;> cases kind : o.kind <;> rw [kind] at same <;>
    exact absurd same (by decide +kernel)

theorem layoutBodies (parts : r.Parts c res plan code styles templates nested decl) {name : String}
    (layout : name = "setupConstraints" ∨ name = "remakeReactiveConstraints") :
    decl.bodies name = plan.methods.filterMap (·.body? name) := by
  have fields : (res.definition.fields r.renderContext c plan).filterMap (·.body? name) = [] := by
    refine List.filterMap_eq_nil_iff.mpr fun x listed => ?_
    obtain ⟨p, rfl, _⟩ := fieldsStored listed
    rfl
  have overrides : (res.definition.overrides.map fun o =>
      Decl.function (ComponentDefinition.overrideMethod o)).filterMap (·.body? name) = [] := by
    refine List.filterMap_eq_nil_iff.mpr fun x listed => ?_
    obtain ⟨o, _, rfl⟩ := List.mem_map.mp listed
    exact overrideBody o layout
  have navigation : (res.definition.navigationDecls c).filterMap (·.body? name) = [] := by
    refine List.filterMap_eq_nil_iff.mpr fun x listed => ?_
    obtain ⟨_, _, _, rfl⟩ := navigationComputed listed
    rfl
  have own : styles.filterMap (·.body? name) = [] :=
    List.filterMap_eq_nil_iff.mpr fun x listed => typeBody (stylesTypes parts.styled x listed) name
  have texts : templates.filterMap (·.body? name) = [] :=
    List.filterMap_eq_nil_iff.mpr fun x listed =>
      typeBody (templatesTypes parts.templated x listed) name
  have inner : (nested.map (·.decl)).filterMap (·.body? name) = [] := by
    refine List.filterMap_eq_nil_iff.mpr fun x listed => ?_
    obtain ⟨source, inside, rfl⟩ := List.mem_map.mp listed
    obtain ⟨d, _, yields⟩ := forallRight parts.inline inside
    exact typeBody (generatedType yields) name
  have path : (res.definition.reloadPath c).filterMap (·.body? name) = [] := by
    unfold ComponentDefinition.reloadPath
    split <;> rfl
  have hook : (res.definition.reloadHook c).filterMap (·.body? name) = [] := by
    unfold ComponentDefinition.reloadHook
    split
    · rcases layout with rfl | rfl <;> rfl
    · rfl
  rw [Decl.bodies, parts.assembled]
  simp only [classDecl, Decl.members, List.filterMap_append, fields, overrides, navigation, own,
    texts, inner, path, hook, List.append_nil]
  rcases layout with rfl | rfl <;> exact List.append_nil _

theorem setupBody (parts : r.Parts c res plan code styles templates nested decl) :
    decl.bodies "setupConstraints" = [plan.setup.body] := by
  rw [layoutBodies parts (.inl rfl)]
  unfold LayoutPlan.methods
  split <;> rfl

theorem remakeBody (parts : r.Parts c res plan code styles templates nested decl) :
    decl.bodies "remakeReactiveConstraints" =
      if plan.isReactive then [plan.remakeReactive.body] else [] := by
  rw [layoutBodies parts (.inr rfl)]
  unfold LayoutPlan.methods
  split <;> rfl

theorem bodyMakings {name : String} {body : List Stmt} (only : decl.bodies name = [body]) :
    decl.makings name = body.flatMap Stmt.makings := by
  rw [Decl.makings, only, List.flatMap_singleton]

theorem bodyGives {name : String} {body : List Stmt} (only : decl.bodies name = [body])
    (field : String) : decl.gives name field = Stmt.allGiven field body := by
  rw [Decl.gives, only, List.flatMap_singleton]

theorem fieldsInside (parts : r.Parts c res plan code styles templates nested decl) :
    plan.fieldDecls <:+: decl.members := by
  have last : plan.fieldDecls <:+: res.definition.fields r.renderContext c plan :=
    (List.suffix_append _ _).isInfix
  rw [parts.assembled]
  change _ <:+: _ ++ nested.map (·.decl)
  iterate 9 apply List.infix_append_of_infix_left
  exact last.trans (List.suffix_append _ _).isInfix

section
variable {field : String} (parts : r.Parts c res plan code styles templates nested decl)
include parts

theorem ownedApart (other : LayoutPlan.reactiveField ≠ field) :
    decl.gives "setupConstraints" field = [] ∨
      decl.gives "remakeReactiveConstraints" field = [] := by
  obtain ⟨s, t, planned⟩ := parts.planned
  obtain ⟨installed, reactive, _⟩ := LayoutPlan.planGroups planned
  by_contra both
  obtain ⟨setup, remake⟩ := not_or.mp both
  rw [bodyGives (setupBody parts)] at setup
  obtain ⟨b, two, plain, second⟩ := LayoutPlan.setupNames installed setup
  have bodies := remakeBody parts
  split at bodies
  · rw [bodyGives bodies] at remake
    obtain ⟨known, _⟩ := plan.remakeEmpties other remake
    obtain ⟨a, one, conditional, first⟩ := LayoutPlan.reactiveNames reactive known
    exact (LayoutPlan.planFields planned).2
      ⟨a, one, b, two, conditional, plain, field, first, second⟩
  · rw [Decl.gives, bodies] at remake
    exact remake rfl

theorem partsOwned (other : LayoutPlan.reactiveField ≠ field)
    {k : Constraint} (listed : k ∈ LayoutPlan.constraints res.definition)
    (named : k.field = some field) : plan.Owned decl field := by
  obtain ⟨s, t, planned⟩ := parts.planned
  refine ⟨ownedApart parts other, ?_, fun given => ?_⟩
  · rw [plan.declaredCount (LayoutPlan.planFields planned).1 listed named]
    exact if_neg fun taken => other taken.2.symm
  · have bodies := remakeBody parts
    split at bodies
    · rw [bodyGives bodies] at given ⊢
      obtain ⟨known, once⟩ := plan.remakeEmpties other given
      obtain ⟨before, after, split, dropped, none⟩ := plan.remakeSplits known
      exact ⟨once, before, after, by rw [bodies, split], dropped, none⟩
    · rw [Decl.gives, bodies] at given
      exact absurd rfl given

theorem partsSeparate (unlaid : res.definition.root.layout = []) :
    plan.Separates res.definition decl := by
  obtain ⟨s, t, planned⟩ := parts.planned
  obtain ⟨installed, reactive, _⟩ := LayoutPlan.planGroups planned
  obtain ⟨fields, _⟩ := LayoutPlan.planFields planned
  have layouts := ComponentDefinition.layoutsConstraints unlaid
  have plain : plan.isReactive = false ↔ ∀ k ∈ res.definition.layouts, k.isConditional = false := by
    rw [← layouts, ← LayoutPlan.groupsNone, ← reactive]
    simp [LayoutPlan.isReactive]
  refine ⟨?_, ?_, fieldsInside parts, fun k listed field named =>
    ⟨fun owned taken => ?_, fun free => ?_⟩⟩
  · rw [bodyMakings (setupBody parts), LayoutPlan.setupMakings installed]
  · have bodies := remakeBody parts
    rw [← LayoutPlan.remakeMakings reactive]
    split at bodies
    · exact bodyMakings bodies
    · rename_i none
      have empty : plan.reactive = [] := by simpa [LayoutPlan.isReactive] using none
      rw [Decl.makings, bodies, LayoutPlan.remakeMakings reactive, ← LayoutPlan.groupsLaid,
        ← reactive, empty]
      rfl
  · rw [← plain, ← Bool.not_eq_true]
    intro reactive
    have count := owned.declared
    rw [plan.declaredCount fields (layouts ▸ listed) named, if_pos ⟨reactive, taken⟩] at count
    cases count
  · by_cases other : LayoutPlan.reactiveField = field
    · have none := plain.mpr (free other.symm)
      have bodies := remakeBody parts
      rw [none] at bodies
      have gives : decl.gives "remakeReactiveConstraints" field = [] := by
        rw [Decl.gives, bodies]
        rfl
      refine ⟨.inr gives, ?_, fun given => absurd gives given⟩
      rw [plan.declaredCount fields (layouts ▸ listed) named, if_neg]
      simp [none]
    · exact partsOwned parts other (layouts ▸ listed) named

end

theorem strategiesApart {d : ComponentDefinition} (filled : r.Filled)
    (member : d ∈ r.allDefinitions) :
    (∀ c s t source, r.Used s → (r.componentSource c d).outcome s = (.ok source, t) →
      ∃ plan, (∃ s t, (LayoutPlan.ofDefinition d).outcome s = (.ok plan, t)) ∧
        plan.Separates d source.decl) ∧
    ((∀ k ∈ d.layouts, ∀ id, k.reference? = some id → (d.find? id).isSome = true) →
      ∀ s, (∃ field, ((LayoutPlan.ofDefinition d).outcome s).1 =
        .error (.mixedConstraintField field)) ↔ LayoutPlan.Mixed d.layouts) := by
  have unlaid := rootsUnlaid filled member
  rw [← ComponentDefinition.layoutsConstraints unlaid]
  refine ⟨fun c s t source used ok => ?_, fun found => LayoutPlan.planFails found⟩
  obtain ⟨res, plan, code, styles, templates, nested, _, rfl, parts⟩ :=
    sourceParts filled member (usedKeeping filled used) ok
  exact ⟨plan, parts.planned, partsSeparate parts unlaid⟩

/- One handle is kept for the title, another one for whichever constraint of the note holds. -/
def panelFile : String × String :=
  ("Panel", "<Panel><Label id=\"title\" layout:top=\"edge = super\"/>" ++
    "<Label id=\"note\" layout:top=\"[landscape] shift = title\"" ++
    " layout:left=\"[portrait] shift = super\"/></Panel>")

def panel : Registry := ofTexts {} [panelFile]

def panelSource : Result ComponentSource × ResolverState :=
  (panel.componentSource { platform := .iOS } (ofText panelFile)).outcome {}

theorem panelComputed : ([panelFile].all fun file => (reading file).isOk) = true ∧
    panelSource.1.isOk = true ∧
    ((ofText panelFile).layouts.any fun k => k.field == some "shift") = true ∧
    ((ofText panelFile).layouts.all fun k => k.reference?.all fun id =>
      ((ofText panelFile).find? id).isSome) = true ∧
    ((ofText panelFile).laid.filter (!·.constraint.isConditional)).length = 1 ∧
    ((ofText panelFile).laid.filter (·.constraint.isConditional)).length = 2 := by
  have read : reading panelFile = _ :=
    readingLetters (Text.lettersAppend (Text.lettersAppend rfl rfl) rfl)
  simp only [panelSource, panel, ofTexts, ofText, List.all_cons, List.foldl_cons, List.foldl_nil,
    read]
  decide +kernel

theorem panelSeparated : ∃ (plan : LayoutPlan) (source : ComponentSource),
    panelSource.1 = .ok source ∧ plan.Owned source.decl "shift" ∧
    (source.decl.makings "setupConstraints").length = 1 ∧
    (source.decl.makings "remakeReactiveConstraints").length = 2 ∧
    ¬ LayoutPlan.Mixed (ofText panelFile).layouts := by
  obtain ⟨readable, generated, shifts, found, once, anew⟩ := panelComputed
  obtain ⟨source, t, ok⟩ := Result.okGives generated
  obtain ⟨k, listed, named⟩ := List.any_eq_true.mp shifts
  have targets : ∀ k ∈ (ofText panelFile).layouts, ∀ id, k.reference? = some id →
      ((ofText panelFile).find? id).isSome = true := by
    intro k inside id refers
    have listed := List.all_eq_true.mp found k inside
    rwa [refers, Option.all_some] at listed
  obtain ⟨separates, fails⟩ := strategiesApart (ofTextsFilled {} readable)
    (definitionIncluded (lastRegistered {} [] panelFile))
  obtain ⟨plan, ⟨s, u, planned⟩, parts⟩ := separates _ _ _ _ .fresh ok
  have owned : plan.Owned source.decl "shift" :=
    (parts.owned k listed "shift" (eq_of_beq named)).mpr fun same => absurd same (by decide)
  have unmixed : ¬ LayoutPlan.Mixed (ofText panelFile).layouts := by
    intro mixed
    obtain ⟨field, failed⟩ := (fails targets s).mpr mixed
    rw [planned] at failed
    cases failed
  refine ⟨plan, source, congrArg Prod.fst ok, owned, ?_, ?_, unmixed⟩
  · rw [parts.setup, List.length_map, once]
  · rw [parts.remake, List.length_map, anew]

/- A field has taken the name of the list of the constraints that are made anew: both methods set
it, and the class declares it twice. -/
def listFile : String × String :=
  ("Card", "<Card><Label id=\"a\" layout:top=\"reactiveConstraints = super\"/>" ++
    "<Label id=\"b\" layout:top=\"[landscape] super\"/></Card>")

def listCard : Registry := ofTexts {} [listFile]

def listSource : Result ComponentSource × ResolverState :=
  (listCard.componentSource { platform := .iOS } (ofText listFile)).outcome {}

theorem fieldShadowsList : ∃ source, listCard.Filled ∧
    ofText listFile ∈ listCard.definitions ∧ listSource.1 = .ok source ∧
    LayoutPlan.reactiveField ∈ LayoutPlan.fieldsOf (ofText listFile).layouts ∧
    source.decl.gives "setupConstraints" LayoutPlan.reactiveField ≠ [] ∧
    source.decl.gives "remakeReactiveConstraints" LayoutPlan.reactiveField ≠ [] ∧
    source.decl.stored.count LayoutPlan.reactiveField = 2 := by
  have computed : ([listFile].all fun file => (reading file).isOk) = true ∧
      LayoutPlan.reactiveField ∈ LayoutPlan.fieldsOf (ofText listFile).layouts ∧
      listSource.1.toOption.any (fun source =>
        !(source.decl.gives "setupConstraints" LayoutPlan.reactiveField).isEmpty &&
        !(source.decl.gives "remakeReactiveConstraints" LayoutPlan.reactiveField).isEmpty &&
        source.decl.stored.count LayoutPlan.reactiveField == 2) = true := by
    have read : reading listFile = _ := readingLetters (Text.lettersAppend rfl rfl)
    simp only [listSource, listCard, ofTexts, ofText, List.all_cons, List.foldl_cons, List.foldl_nil,
      read]
    decide +kernel
  obtain ⟨readable, known, generated⟩ := computed
  obtain ⟨source, ok, shown⟩ := Result.anyOk generated
  simp only [Bool.and_eq_true, Bool.not_eq_true', List.isEmpty_eq_false_iff, beq_iff_eq] at shown
  obtain ⟨⟨setup, remake⟩, twice⟩ := shown
  exact ⟨source, ofTextsFilled {} readable, lastRegistered {} [] listFile, ok, known, setup, remake,
    twice⟩

end Registry

end ViewForge
