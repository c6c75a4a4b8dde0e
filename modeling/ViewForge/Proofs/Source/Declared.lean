import ViewForge.Proofs.Source.Bodies
import ViewForge.Proofs.Source.Nested

/-! Classes mention only what they declare. What their methods reach from the object is a stored
property or a member of every view; what they reach of a state is an item of that state, unless an
element has taken the name of the state. -/
namespace ViewForge
open Code (Expr Stmt Decl Trail)

def Code.Decl.storedName? : Decl → Option String
  | .property p => if p.getter.isNone && p.modifiers.isEmpty then some p.name else none
  | _ => none

def Code.Decl.stored (d : Decl) : List String := d.members.filterMap (·.storedName?)

namespace Registry

/-- What code mentions of the object `base`, against the stored properties of its class and the
methods that its author has to write. -/
structure Covers (r : Registry) (res : Resolved) (stored methods : List String) (base : String)
    (trails : List Trail) : Prop where
  members : ∀ name after, base :: name :: after ∈ trails →
    name ∈ stored ∨ res.OwnMember name ∨ name ∈ methods ∧ after = []
  state : (∀ e ∈ res.definition.elements, e.id.name ≠ "state") → ∀ name after,
    base :: "state" :: name :: after ∈ trails → ∃ item ∈ res.state, item.name = name
  arguments : ∀ e ∈ res.definition.elements, ∀ name after,
    base :: e.id.name :: "state" :: name :: after ∈ trails → r.ItemOf e name

structure Stores (res : Resolved) (plan : LayoutPlan) (stored : List String) : Prop where
  state : "state" ∈ stored
  publisher : "actionPublisher" ∈ stored
  elements : ∀ e ∈ res.definition.elements, e.id.name ≠ Element.rootName → e.id.name ∈ stored
  items : ∀ item ∈ res.definition.navigation, item.id ∈ stored
  fields : ∀ name ∈ plan.fields, name ∈ stored
  reactive : plan.isReactive = true → LayoutPlan.reactiveField ∈ stored

section Mentions

variable {r : Registry} {res : Resolved} {plan : LayoutPlan} {stored : List String}
  {base name : String} {after : List String}

/- The code of a value begins at no object. -/
theorem valueApart {v : Value} {context : RenderContext} (reachable : context.theme.IsReachable)
    (known : base ∈ ["self", "owner"]) : base :: after ∉ (v.code context).trails [] := by
  intro code
  obtain ⟨origin, listed, first⟩ := v.codeBegins reachable [] _ code
  cases Option.some.inj first
  simp only [List.mem_cons, List.not_mem_nil, or_false] at known
  rcases known with rfl | rfl <;> simp [Value.origins] at listed

theorem mentionReach (known : base ∈ ["self", "owner"])
    (mention : r.Mention res plan base (base :: after)) : r.Reach res plan base (base :: after) := by
  generalize same : base :: after = trail at mention
  cases mention with
  | object reach => exact reach
  | property _ _ _ reachable code =>
    rw [← same] at code
    exact absurd code (valueApart reachable known)
  | literal _ code =>
    rw [← same] at code
    exact absurd code (valueApart (.inl rfl) known)
  | elsewhere apart _ =>
    cases same
    exact absurd known apart

/- Trails of an object begin at it, and nothing else begins at the other one. -/
theorem mentionOther {other : String} (known : other ∈ ["self", "owner"]) (apart : other ≠ base) :
    ¬ r.Mention res plan base (other :: after) := by
  intro mention
  generalize same : other :: after = trail at mention
  cases mention with
  | object reach =>
    have first := reachBegins reach
    rw [← same] at first
    exact apart (Option.some.inj first)
  | property _ _ _ reachable code =>
    rw [← same] at code
    exact absurd code (valueApart reachable known)
  | literal _ code =>
    rw [← same] at code
    exact absurd code (valueApart (.inl rfl) known)
  | elsewhere apart _ =>
    cases same
    exact absurd known apart

theorem reachMember (stores : Stores res plan stored)
    (reach : r.Reach res plan base (base :: name :: after)) :
    name ∈ stored ∨ res.OwnMember name := by
  generalize same : base :: name :: after = trail at reach
  cases reach with
  | @view e steps inside outside own =>
    unfold route at same
    split at same
    · rename_i root
      cases same
      exact .inr (own root name rfl)
    · rename_i below
      cases same
      exact .inl (stores.elements e inside below)
  | argument inside below item =>
    cases same
    exact .inl (stores.elements _ inside below)
  | item listed =>
    cases same
    exact .inl (stores.items _ listed)
  | field kept =>
    cases same
    exact .inl (stores.fields _ kept)
  | reactive reactive short =>
    cases same
    exact .inl (stores.reactive reactive)
  | state listed =>
    cases same
    exact .inl stores.state
  | publisher =>
    cases same
    exact .inl stores.publisher

theorem reachState (free : ∀ e ∈ res.definition.elements, e.id.name ≠ "state")
    (reach : r.Reach res plan base (base :: "state" :: name :: after)) :
    ∃ item ∈ res.state, item.name = name := by
  generalize same : base :: "state" :: name :: after = trail at reach
  cases reach with
  | @view e steps inside outside own =>
    unfold route at same
    split at same
    · cases same
      simp at outside
    · have named := (List.cons.inj (List.cons.inj same).2).1
      exact absurd named.symm (free e inside)
  | argument inside below item =>
    have named := (List.cons.inj (List.cons.inj same).2).1
    exact absurd named.symm (free _ inside)
  | state listed =>
    cases same
    exact ⟨_, listed, rfl⟩
  | reactive reactive short => simp [LayoutPlan.reactiveField] at same
  | _ => simp at same

/- Elements have different ids, so that an argument is for the component that the id leads to. -/
theorem reachArgument (worked : r.WorkedOut res) {e : Element}
    (inside : e ∈ res.definition.elements)
    (reach : r.Reach res plan base (base :: e.id.name :: "state" :: name :: after)) :
    r.ItemOf e name := by
  generalize same : base :: e.id.name :: "state" :: name :: after = trail at reach
  cases reach with
  | @view x steps within outside own =>
    unfold route at same
    split at same
    · cases same
      simp at outside
    · have left : "state" :: name :: after = steps := (List.cons.inj (List.cons.inj same).2).2
      rw [← left] at outside
      simp at outside
  | @argument x own within below item =>
    simp only [List.cons.injEq, true_and] at same
    obtain ⟨named, rfl, rfl⟩ := same
    cases List.inj_on_of_nodup_map worked.tidy.ids inside within named
    exact item
  | @reactive steps reactive short =>
    have left : "state" :: name :: after = steps := (List.cons.inj (List.cons.inj same).2).2
    rw [← left] at short
    simp at short
  | _ => simp at same

theorem mentionsDeclare (worked : r.WorkedOut res) (stores : Stores res plan stored)
    (known : base ∈ ["self", "owner"]) {methods : List String} {trails : List Trail}
    (mentions : ∀ after, base :: after ∈ trails →
      (∃ method ∈ methods, after = [method]) ∨ r.Mention res plan base (base :: after)) :
    r.Covers res stored methods base trails where
  members name after member := by
    rcases mentions _ member with ⟨method, listed, same⟩ | mention
    · cases same
      exact .inr (.inr ⟨listed, rfl⟩)
    · exact (reachMember stores (mentionReach known mention)).imp_right .inl
  state free name after member := by
    rcases mentions _ member with ⟨method, listed, same⟩ | mention
    · simp at same
    · exact reachState free (mentionReach known mention)
  arguments e inside name after member := by
    rcases mentions _ member with ⟨method, listed, same⟩ | mention
    · simp at same
    · exact reachArgument worked inside (mentionReach known mention)

end Mentions

section Classes

variable {r : Registry} {c : Configuration} {d : ComponentDefinition} {res : Resolved}

theorem fieldsStore (worked : r.WorkedOut res) (context : RenderContext) (c : Configuration)
    (plan : LayoutPlan) {decl : Decl}
    (fields : res.definition.fields context c plan ⊆ decl.members) :
    Stores res plan decl.stored := by
  have named : ∀ field ∈ res.definition.fields context c plan, ∀ name,
      field.storedName? = some name → name ∈ decl.stored := fun field listed name same =>
    List.mem_filterMap.mpr ⟨field, fields listed, same⟩
  refine ⟨?_, ?_, fun e inside below => ?_, fun item listed => ?_, fun name kept => ?_,
    fun reactive => ?_⟩
  · exact named (ComponentDefinition.declared c.access "state" "State")
      (by simp [ComponentDefinition.fields]) _ rfl
  · exact named (ComponentDefinition.declared c.access "actionPublisher" "ActionPublisher<Action>")
      (by simp [ComponentDefinition.fields]) _ rfl
  · have lower : e ∈ res.definition.elements.drop 1 := by
      have split : res.definition.elements =
          res.definition.root :: Element.walk (res.definition.root.children ++ []) := by
        rw [ComponentDefinition.elements, Element.descendants, Element.walk]
      rw [split] at inside ⊢
      rcases List.mem_cons.mp inside with rfl | later
      · exact absurd worked.rootNamed below
      · exact later
    refine named (ComponentDefinition.elementField c e) ?_ _ ?_
    · simp only [ComponentDefinition.fields, List.mem_append]
      exact .inl (.inl (.inr (List.mem_map_of_mem lower)))
    · unfold ComponentDefinition.elementField
      simp only
      split <;> rfl
  · refine named (ComponentDefinition.barButtonField context c item) ?_ _ rfl
    simp only [ComponentDefinition.fields, List.mem_append]
    exact .inl (.inr (List.mem_map_of_mem listed))
  · refine named (.property (.stored .privateScope name "Constraint?")) ?_ _ rfl
    simp only [ComponentDefinition.fields, LayoutPlan.fieldDecls, List.mem_append]
    exact .inr (.inl (List.mem_map.mpr ⟨name, kept, rfl⟩))
  · refine named (.property { Code.Property.stored .privateScope LayoutPlan.reactiveField
      "[Constraint]" with value := some (.array []) }) ?_ _ rfl
    simp [ComponentDefinition.fields, LayoutPlan.fieldDecls, reactive]

theorem fieldsStored {context : RenderContext} {plan : LayoutPlan} {x : Decl}
    (listed : x ∈ res.definition.fields context c plan) :
    ∃ p, x = .property p ∧ p.getter = none := by
  simp only [ComponentDefinition.fields, LayoutPlan.fieldDecls, List.mem_append, List.mem_cons,
    List.not_mem_nil, or_false, List.mem_map] at listed
  rcases listed with (((rfl | rfl) | ⟨e, _, rfl⟩) | ⟨item, _, rfl⟩) | ⟨name, _, rfl⟩ | reactive
  · exact ⟨_, rfl, rfl⟩
  · exact ⟨_, rfl, rfl⟩
  · unfold ComponentDefinition.elementField
    simp only
    split
    · exact ⟨_, rfl, rfl⟩
    · exact ⟨_, rfl, rfl⟩
  · exact ⟨_, rfl, rfl⟩
  · exact ⟨_, rfl, rfl⟩
  · split at reactive
    · cases List.mem_singleton.mp reactive
      exact ⟨_, rfl, rfl⟩
    · simp at reactive

def bodyNames : List String :=
  ["loadView", "setupConstraints", "remakeReactiveConstraints", "observeActions"]

structure Faithful (r : Registry) (c : Configuration) (res : Resolved) (decl : Decl) : Prop where
  elements : ∀ e ∈ res.definition.elements, e.id.name ≠ Element.rootName → e.id.name ∈ decl.stored
  navigation : ∀ item ∈ res.definition.navigation, item.id ∈ decl.stored
  fields : ∀ constraint ∈ LayoutPlan.constraints res.definition, ∀ name,
    constraint.field = some name → name ∈ decl.stored
  methods : ∀ f, .function f ∈ decl.members → f.name ∈ bodyNames →
    r.Covers res decl.stored [] "self" (Stmt.allTrails f.body)
  getters : ∀ p getter, .property p ∈ decl.members → p.getter = some getter →
    r.Covers res decl.stored [] "self" (Stmt.allTrails getter)
  state : res.stateClass r.renderContext c ∈ decl.members ∧
    (res.state ≠ [] → .function res.notify ∈ (res.stateClass r.renderContext c).members)
  notify : r.Covers res decl.stored res.definition.state.handler.toList "owner"
    (Stmt.allTrails res.notify.body)
  items : ∀ name after, "self" :: name :: after ∈ Stmt.allTrails res.notify.body →
    ∃ item ∈ res.state, item.name = name
  patterns : ∀ subject cases, .switch subject cases ∈ res.notify.body → ∀ name body,
    .on [.implicitMember name] body ∈ cases → ∃ item ∈ res.state, item.name = name

theorem navigationComputed {x : Decl} (member : x ∈ d.navigationDecls c) :
    ∃ name items, items ⊆ d.navigation ∧
      x = .property (.computed c.access name "[UIBarButtonItem]"
        [.ret (some (.array (items.map fun item => Expr.self.member item.id)))]) := by
  obtain ⟨position, name, inside⟩ : ∃ position name, x ∈ d.barButtons c position name :=
    (List.mem_append.mp member).elim (⟨_, _, ·⟩) (⟨_, _, ·⟩)
  unfold ComponentDefinition.barButtons at inside
  simp only at inside
  split at inside
  · simp at inside
  · exact ⟨name, _, List.filter_subset_self _, List.mem_singleton.mp inside⟩

theorem navigationMentions (r : Registry) (plan : LayoutPlan) {x : Decl}
    (member : x ∈ res.definition.navigationDecls c) :
    ∃ p getter, x = .property p ∧ p.getter = some getter ∧
      ∀ trail ∈ Stmt.allTrails getter, r.Mention res plan "self" trail := by
  obtain ⟨name, items, known, rfl⟩ := navigationComputed member
  refine ⟨_, _, rfl, rfl, fun trail own => ?_⟩
  simp only [Stmt.allTrailsFlat, List.flatMap_cons, List.flatMap_nil, List.append_nil,
    Stmt.trails, Expr.trails, Expr.allTrailsFlat] at own
  obtain ⟨_, made, read⟩ := List.mem_flatMap.mp own
  obtain ⟨item, listed, rfl⟩ := List.mem_map.mp made
  have same : trail = ["self", item.id] := by simpa [Expr.trails, Expr.self] using read
  rw [same]
  exact .object (.item (known listed))

theorem notifyPatterns (res : Resolved) {subject : Expr} {cases : List Code.Case}
    (member : .switch subject cases ∈ res.notify.body) {name : String} {body : List Stmt}
    (listed : .on [.implicitMember name] body ∈ cases) : ∃ item ∈ res.state, item.name = name := by
  have switch : cases = res.state.map (·.changeCase) ∧ subject = .identifier "item" := by
    simpa [Resolved.notify, and_comm] using member
  rw [switch.1] at listed
  obtain ⟨item, inside, same⟩ := List.mem_map.mp listed
  simp only [StateItem.changeCase, Code.Case.on.injEq, List.cons.injEq, and_true,
    Expr.implicitMember.injEq] at same
  exact ⟨item, inside, same.1⟩

def isType : Decl → Bool
  | .type _ _ _ _ _ _ => true
  | _ => false

theorem stylesTypes {s : StyleSource} {styles : List Decl} (ok : stylesDecl s = .ok styles) :
    ∀ x ∈ styles, isType x = true := by
  unfold stylesDecl at ok
  split at ok
  · cases ok
    simp
  · obtain ⟨decl, made, rfl⟩ := Result.mapOk.mp ok
    obtain ⟨members, _, last⟩ := Result.bindOk.mp made
    cases last
    simp [isType]

theorem templatesTypes {s : StyleSource} {templates : List Template} {decls : List Decl}
    (ok : templatesDecl s templates = .ok decls) : ∀ x ∈ decls, isType x = true := by
  unfold templatesDecl at ok
  split at ok
  · cases ok
    simp
  · obtain ⟨members, _, rfl⟩ := Result.mapOk.mp ok
    simp [isType]

theorem generatedType {source : ComponentSource} (generated : r.Yields c d source) :
    isType source.decl = true := by
  obtain ⟨s, t, _, ok⟩ := generated
  obtain ⟨_, _, _, _, _, _, _, _, _, _, _, _, _, _, same⟩ := sourceAssembly ok
  rw [same]
  rfl

variable {plan : LayoutPlan} {code : LoadCode} {inner : List Decl}

theorem functionMentions (worked : r.WorkedOut res)
    (planned : LayoutPlan.Planned res.definition plan)
    (loaded : ∀ x ∈ code.once ++ code.themed, LoadCode.Loaded r res x)
    (types : ∀ x ∈ inner, isType x = true) {f : Code.Function}
    (member : r.Member c res plan code inner (.function f)) (named : f.name ∈ bodyNames) :
    ∀ trail ∈ Stmt.allTrails f.body, r.Mention res plan "self" trail := by
  generalize same : Decl.function f = x at member
  cases member with
  | load =>
    cases same
    exact LoadCode.bodyMentions worked plan loaded
  | layout listed =>
    unfold LayoutPlan.methods at listed
    rcases List.mem_cons.mp listed with rfl | more
    · cases same
      exact LayoutPlan.setupMentions planned
    · split at more
      · rename_i reactive
        simp only [List.mem_cons, List.not_mem_nil, or_false] at more
        rcases more with rfl | rfl
        · cases same
          exact LayoutPlan.remakeMentions worked reactive planned
        · cases same
          simp [bodyNames, LayoutPlan.traitsChanged] at named
      · simp at more
  | observe =>
    cases same
    exact ActionSource.actionsMention worked _ _
  | initializer =>
    cases same
    simp [bodyNames, ComponentDefinition.initializer] at named
  | override o =>
    cases same
    obtain ⟨kind, handler⟩ := o
    cases kind <;> simp [bodyNames, ComponentDefinition.overrideMethod, OverrideKind.method,
      OverrideKind.name] at named
  | reloadHook listed =>
    unfold ComponentDefinition.reloadHook at listed
    split at listed
    · cases List.mem_singleton.mp listed
      cases same
      simp [bodyNames] at named
    · simp at listed
  | field listed =>
    obtain ⟨_, property, _⟩ := fieldsStored listed
    cases same.trans property
  | reloadPath listed =>
    unfold ComponentDefinition.reloadPath at listed
    split at listed
    · cases List.mem_singleton.mp listed
      cases same
    · simp at listed
  | navigation listed =>
    obtain ⟨_, _, property, _⟩ := navigationMentions r plan listed
    cases same.trans property
  | inner listed =>
    have type := types _ listed
    rw [← same] at type
    cases type
  | state => cases same
  | actions => cases same

theorem getterMentions (types : ∀ x ∈ inner, isType x = true) {p : Code.Property}
    (member : r.Member c res plan code inner (.property p)) {getter : List Stmt}
    (given : p.getter = some getter) :
    ∀ trail ∈ Stmt.allTrails getter, r.Mention res plan "self" trail := by
  generalize same : Decl.property p = x at member
  cases member with
  | navigation listed =>
    obtain ⟨_, _, property, own, mentions⟩ := navigationMentions r plan listed
    cases same.trans property
    cases Option.some.inj (own.symm.trans given)
    exact mentions
  | field listed =>
    obtain ⟨_, property, none⟩ := fieldsStored listed
    cases same.trans property
    cases none.symm.trans given
  | reloadPath listed =>
    unfold ComponentDefinition.reloadPath at listed
    split at listed
    · cases List.mem_singleton.mp listed
      cases same
      cases given
    · simp at listed
  | layout listed =>
    unfold LayoutPlan.methods at listed
    rcases List.mem_cons.mp listed with rfl | more
    · cases same
    · split at more
      · simp only [List.mem_cons, List.not_mem_nil, or_false] at more
        rcases more with rfl | rfl <;> cases same
      · simp at more
  | reloadHook listed =>
    unfold ComponentDefinition.reloadHook at listed
    split at listed
    · cases List.mem_singleton.mp listed
      cases same
    · simp at listed
  | inner listed =>
    have type := types _ listed
    rw [← same] at type
    cases type
  | _ => cases same

theorem partsFaithful {styles templates : List Decl} {nested : List ComponentSource} {decl : Decl}
    (parts : r.Parts c res plan code styles templates nested decl) : r.Faithful c res decl := by
  have worked := parts.worked
  obtain ⟨_, _, made⟩ := parts.planned
  obtain ⟨_, _, kept, folded⟩ := parts.loaded
  obtain ⟨state, fields, _⟩ := partsHold parts
  have stores : Stores res plan decl.stored := fieldsStore worked r.renderContext c plan fields
  -- methods and getters of the types inside belong to those types
  have types : ∀ x ∈ styles ++ templates ++ nested.map (·.decl), isType x = true := by
    refine List.forall_mem_append.mpr ⟨List.forall_mem_append.mpr
      ⟨stylesTypes parts.styled, templatesTypes parts.templated⟩, fun x listed => ?_⟩
    obtain ⟨source, inside, rfl⟩ := List.mem_map.mp listed
    obtain ⟨_, _, generated⟩ := forallRight parts.inline inside
    exact generatedType generated
  have planned := LayoutPlan.planPlanned made
  refine ⟨stores.elements, stores.items, fun constraint listed name kept =>
      stores.fields name (planned.fields constraint listed name kept),
    fun f inside named => ?_, fun p getter inside given => ?_, ⟨state, fun some => ?_⟩, ?_,
    fun name after member => ?_,
    fun subject cases member name body listed => notifyPatterns res member listed⟩
  · exact mentionsDeclare worked stores (by simp) fun after member => .inr
      (functionMentions worked planned (LoadCode.foldLoaded worked kept folded) types
        (partsMember parts inside) named _ member)
  · exact mentionsDeclare worked stores (by simp) fun after member => .inr
      (getterMentions types (partsMember parts inside) given _ member)
  · simp [Resolved.stateClass, Code.Decl.members, Resolved.notifyDecls, some]
  · refine mentionsDeclare worked stores (by simp) fun after member => ?_
    rcases Resolved.notifyMentions plan worked _ member with
      ⟨item, _, same⟩ | ⟨handler, given, same⟩ | mention
    · simp at same
    · cases same
      exact .inl ⟨handler, Option.mem_toList.mpr given, rfl⟩
    · exact .inr mention
  · rcases Resolved.notifyMentions plan worked _ member with
      ⟨item, listed, same⟩ | ⟨handler, _, same⟩ | mention
    · cases same
      exact ⟨item, listed, rfl⟩
    · simp at same
    · exact absurd mention (mentionOther (by simp) (by simp))

theorem mentionsDeclared (filled : r.Filled) (member : d ∈ r.allDefinitions) {s t : ResolverState}
    (used : r.Used s) {source : ComponentSource}
    (ok : (r.componentSource c d).outcome s = (.ok source, t)) :
    ∃ res, ((r.resolve d).outcome s).1 = .ok res ∧ res.definition = d ∧
      r.Faithful c res source.decl := by
  obtain ⟨res, plan, code, styles, templates, nested, resolved, same, parts⟩ :=
    sourceParts filled member (usedKeeping filled used) ok
  exact ⟨res, resolved, same, partsFaithful parts⟩

end Classes

/- The page gives a caption to its chip, which shows it in a label. -/
def chipFile : String × String :=
  ("Chip", "<Chip><state><item name=\"caption\" type=\"String\"/></state>" ++
    "<Label id=\"label\" text=\"$caption\"/></Chip>")

def pageFile : String × String := ("Page", "<Page><Chip id=\"chip\" caption=\"new\"/></Page>")

def page : Registry := ofTexts {} [chipFile, pageFile]

def pageSource : Result ComponentSource × ResolverState :=
  (page.componentSource { platform := .iOS } (ofText pageFile)).outcome {}

def mentionedIn (name : String) (trail : Trail) (source : ComponentSource) : Bool :=
  source.decl.members.any fun
    | .function f => f.name == name && (Stmt.allTrails f.body).contains trail
    | _ => false

theorem mentionedMember {name : String} {trail : Trail} {source : ComponentSource}
    (mentioned : mentionedIn name trail source = true) :
    ∃ f, .function f ∈ source.decl.members ∧ f.name = name ∧ trail ∈ Stmt.allTrails f.body := by
  obtain ⟨x, member, same⟩ := List.any_eq_true.mp mentioned
  cases x with
  | function f =>
    simp only [Bool.and_eq_true, beq_iff_eq, List.contains_iff_mem] at same
    exact ⟨f, member, same⟩
  | _ => simp at same

theorem pageComputed : ([chipFile, pageFile].all fun file => (reading file).isOk) = true ∧
    pageSource.1.toOption.any (mentionedIn "loadView" ["self", "chip", "state", "caption"]) = true ∧
    ((ofText pageFile).elements.any fun e => e.id.name = "chip") = true := by
  have chip : reading chipFile = _ := readingLetters (Text.lettersAppend rfl rfl)
  have own : reading pageFile = _ := readingLetters rfl
  simp only [pageSource, page, ofTexts, ofText, List.all_cons, List.foldl_cons, List.foldl_nil, chip,
    own]
  decide +kernel

theorem pageDeclared : ∃ source, pageSource.1 = .ok source ∧ "chip" ∈ source.decl.stored ∧
    mentionedIn "loadView" ["self", "chip", "state", "caption"] source = true ∧
    ∃ e ∈ (ofText pageFile).elements, e.id.name = "chip" ∧ page.ItemOf e "caption" := by
  obtain ⟨readable, generated, elements⟩ := pageComputed
  obtain ⟨source, ok, mentioned⟩ := Result.anyOk generated
  obtain ⟨e, inside, named⟩ := List.any_eq_true.mp elements
  have named := of_decide_eq_true named
  obtain ⟨res, _, same, faithful⟩ := mentionsDeclared (ofTextsFilled {} readable)
    (definitionIncluded (lastRegistered {} [chipFile] pageFile)) .fresh (Prod.ext ok rfl)
  rw [← same] at inside
  obtain ⟨f, member, called, trail⟩ := mentionedMember mentioned
  have declares := faithful.methods f member (by rw [called]; decide)
  rw [← named] at trail
  have item := declares.arguments e inside "caption" [] trail
  have stored := faithful.elements e inside (by rw [named]; decide)
  rw [named] at stored
  exact ⟨source, ok, stored, mentioned, e, same ▸ inside, named, item⟩

/- The label has taken the name of the state, so that its text looks like a state item. -/
def shadowFile : String × String := ("Card", "<Card><Label id=\"state\" text=\"hi\"/></Card>")

def shadowed : Registry := ofTexts {} [shadowFile]

def shadowSource : Result ComponentSource × ResolverState :=
  (shadowed.componentSource { platform := .iOS } (ofText shadowFile)).outcome {}

theorem labelShadowsState : ∃ source res, shadowed.Filled ∧
    ofText shadowFile ∈ shadowed.definitions ∧ shadowSource.1 = .ok source ∧
    ((shadowed.resolve (ofText shadowFile)).outcome {}).1 = .ok res ∧
    mentionedIn "loadView" ["self", "state", "text"] source = true ∧ res.state = [] := by
  have computed : ([shadowFile].all fun file => (reading file).isOk) = true ∧
      shadowSource.1.toOption.any (mentionedIn "loadView" ["self", "state", "text"]) = true ∧
      ((shadowed.resolve (ofText shadowFile)).outcome {}).1.toOption.any
        (·.state.isEmpty) = true := by
    have read : reading shadowFile = _ := readingLetters rfl
    simp only [shadowSource, shadowed, ofTexts, ofText, List.all_cons, List.foldl_cons,
      List.foldl_nil, read]
    decide +kernel
  obtain ⟨readable, generated, resolved⟩ := computed
  obtain ⟨source, ok, mentioned⟩ := Result.anyOk generated
  obtain ⟨res, found, none⟩ := Result.anyOk resolved
  exact ⟨source, res, ofTextsFilled {} readable, lastRegistered {} [] shadowFile, ok, found,
    mentioned, List.isEmpty_iff.mp none⟩

end Registry
end ViewForge
