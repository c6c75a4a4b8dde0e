import ViewForge.Proofs.Resolve.Checked
import ViewForge.Proofs.Source.Declared
import ViewForge.Proofs.Style.Reads

/-! The theme items that the class of a component reads. Nobody checks the defaults of its state and
the literals that it gives to other components, and the class reads all items that these refer to;
any other item that it reads is declared. -/
namespace ViewForge
open Code (Expr Stmt Decl Trail)

theorem StateItem.fieldReads {context : RenderContext} (reachable : context.theme.IsReachable)
    (c : Configuration) (item : StateItem) :
    (item.field context c).themeReads = item.default.themeReferences := by
  simp [field, Decl.themeReads, Decl.trails, Code.Property.trails, Code.Property.stored,
    notification, Stmt.trails, Expr.trails, item.default.codeReads reachable]

namespace Registry

inductive Unchecked (r : Registry) (d : ComponentDefinition) (v : Value) : Prop where
  | default {declaration : StateDeclaration} (listed : declaration ∈ d.state.items)
      (given : declaration.default = some v) : Unchecked r d v
  | argument (given : r.Literal d v) : Unchecked r d v

def Sourced (r : Registry) (d : ComponentDefinition) (reference : ThemeReference) : Prop :=
  r.application.values.hasItem reference = true ∨
    ∃ x ∈ d.nested, ∃ v, r.Unchecked x v ∧ reference ∈ v.themeReferences

variable {r : Registry} {c : Configuration} {d : ComponentDefinition} {res : Resolved}
  {plan : LayoutPlan} {base : String} {reference : ThemeReference}

theorem mentionSourced (worked : r.WorkedOut res) (known : base ∈ ["self", "owner"])
    {trail : Trail} (mention : r.Mention res plan base trail)
    (read : ThemeReference.ofTrail? trail = some reference) :
    r.Sourced res.definition reference := by
  cases mention with
  | object reach =>
    -- no object is called like the theme
    have begins := reachBegins reach
    cases trail with
    | nil => cases begins
    | cons head members =>
      cases Option.some.inj begins
      have none : ThemeReference.ofTrail? (base :: members) = none := by
        simp only [List.mem_cons, List.not_mem_nil, or_false] at known
        rcases known with rfl | rfl <;> rfl
      cases none.symm.trans read
  | @property e p v theme _ inside listed bound reachable code =>
    have own := List.mem_filterMap.mpr ⟨trail, code, read⟩
    rw [← themeReads, v.codeReads reachable] at own
    exact .inl (propertyDeclared worked.derivation listed bound reference own)
  | @literal v _ given code =>
    have own := List.mem_filterMap.mpr ⟨trail, code, read⟩
    rw [← themeReads, v.codeReads (.inl rfl)] at own
    exact .inr ⟨_, ComponentDefinition.nestedSelf _, v, .argument given, own⟩
  | elsewhere _ unread => cases unread.symm.trans read

theorem methodSourced (worked : r.WorkedOut res) (plan : LayoutPlan) {f : Code.Function}
    (plain : ∀ p ∈ f.parameters, p.default = none)
    (mentions : ∀ trail ∈ Stmt.allTrails f.body, r.Mention res plan "self" trail)
    (read : reference ∈ (Decl.function f).themeReads) : r.Sourced res.definition reference := by
  obtain ⟨trail, member, own⟩ := List.mem_filterMap.mp read
  rw [Decl.trails, Code.Function.trails] at member
  rcases List.mem_append.mp member with parameter | inside
  · obtain ⟨p, listed, given⟩ := List.mem_flatMap.mp parameter
    simp [plain p listed] at given
  · exact mentionSourced worked (by simp) (mentions trail inside) own

theorem stateSourced (worked : r.WorkedOut res)
    (read : reference ∈ (res.stateClass r.renderContext c).themeReads) :
    r.Sourced res.definition reference := by
  obtain ⟨x, member, own⟩ := Decl.memReads.mp read
  simp only [List.mem_append, List.mem_cons, List.not_mem_nil, or_false, List.mem_map] at member
  rcases member with ((rfl | ⟨item, listed, rfl⟩) | rfl | rfl) | notified
  · simp [Resolved.ownerField, Decl.themeReads, Decl.trails, Code.Property.trails,
      Code.Property.stored, Stmt.trails, Expr.trails] at own
  · rw [item.fieldReads (.inl rfl)] at own
    obtain ⟨declaration, declared, given⟩ := (derivationChecked worked.derivation).2.declared item
      listed (List.ne_nil_of_mem own)
    exact .inr ⟨_, ComponentDefinition.nestedSelf _, _, .default declared given, own⟩
  · simp [Decl.themeReads, Decl.trails, Code.Function.trails] at own
  · simp [Decl.themeReads, Decl.trails, Code.Function.trails, StateItem.notification, Stmt.trails,
      Expr.trails, List.flatMap_map] at own
  · unfold Resolved.notifyDecls at notified
    split at notified
    · simp at notified
    · simp only [List.mem_cons, List.not_mem_nil, or_false] at notified
      rcases notified with rfl | rfl
      · obtain ⟨trail, inside, found⟩ := List.mem_filterMap.mp own
        rw [Decl.trails, Code.Function.trails] at inside
        rcases List.mem_append.mp inside with parameter | body
        · simp [Resolved.notify, Code.Parameter.unlabelled] at parameter
        · rcases Resolved.notifyMentions {} worked trail body with
            ⟨item, _, rfl⟩ | ⟨handler, _, rfl⟩ | mention
          · cases found
          · cases found
          · exact mentionSourced worked (by simp) mention found
      · simp [Decl.themeReads, Decl.trails] at own

theorem fieldUnread (worked : r.WorkedOut res) {x : Decl}
    (listed : x ∈ res.definition.fields r.renderContext c plan) : x.themeReads = [] := by
  obtain ⟨path, origin⟩ := worked.origin
  unfold ComponentDefinition.fields at listed
  simp only [List.mem_append, List.mem_cons, List.not_mem_nil, or_false, List.mem_map] at listed
  rcases listed with (((rfl | rfl) | ⟨e, _, rfl⟩) | ⟨item, inside, rfl⟩) | constraint
  · rfl
  · rfl
  · have creation : themeReads (e.kind.creation.trails []) = [] := by
      cases e.kind with
      | component reference => simp [ElementKind.creation, Expr.trails]
      | widget w => cases w <;> simp [ElementKind.creation, Widget.creation, Expr.trails]
    unfold ComponentDefinition.elementField
    simp only
    split
    · rfl
    · simp [Decl.themeReads, Decl.trails, Code.Property.trails, Code.Property.constant, creation]
  · have title : themeReads ((item.title.code r.renderContext).trails []) = [] := by
      rw [item.title.codeReads (.inl rfl), origin.titles item inside]
    simp [ComponentDefinition.barButtonField, Decl.themeReads, Decl.trails, Code.Property.trails,
      Code.Property.constant, Expr.trails, Expr.nil, title]
  · unfold LayoutPlan.fieldDecls at constraint
    rcases List.mem_append.mp constraint with kept | reactive
    · obtain ⟨name, _, rfl⟩ := List.mem_map.mp kept
      rfl
    · split at reactive
      · cases List.mem_singleton.mp reactive
        rfl
      · simp at reactive

/- These are the same in all classes but for names. -/
theorem initializerUnread (d : ComponentDefinition) (c : Configuration) :
    (Decl.function (d.initializer c)).themeReads = [] := by
  have live : themeReads ((if c.liveReload then [d.liveCall "register"] else []).flatMap
      Stmt.trails) = [] := by
    split <;> simp [ComponentDefinition.liveCall, Stmt.trails, Expr.trails, Expr.self]
  simp [ComponentDefinition.initializer, Decl.themeReads, Decl.trails, Code.Function.trails,
    ComponentDefinition.callOwn, Stmt.trails, Expr.trails, Expr.self, List.flatMap_map, live]

theorem overrideUnread (o : Override) :
    (Decl.function (ComponentDefinition.overrideMethod o)).themeReads = [] := by
  obtain ⟨kind, handler⟩ := o
  cases kind <;> simp [ComponentDefinition.overrideMethod, OverrideKind.handlerFirst,
    OverrideKind.parameter?, Decl.themeReads, Decl.trails, Code.Function.trails,
    ComponentDefinition.callOwn, Stmt.trails, Expr.trails]

theorem navigationUnread {x : Decl} (listed : x ∈ d.navigationDecls c) : x.themeReads = [] := by
  obtain ⟨name, items, _, rfl⟩ := navigationComputed listed
  simp [Decl.themeReads, Decl.trails, Code.Property.trails, Code.Property.computed, Stmt.trails,
    Expr.trails, Expr.self, List.flatMap_map]

theorem memberSourced {code : LoadCode} {styles templates : List Decl}
    {nested : List ComponentSource} {decl x : Decl}
    (parts : r.Parts c res plan code styles templates nested decl) {inner : List Decl}
    (below : ∀ y ∈ inner, reference ∈ y.themeReads → r.Sourced res.definition reference)
    (member : r.Member c res plan code inner x) (read : reference ∈ x.themeReads) :
    r.Sourced res.definition reference := by
  have worked := parts.worked
  obtain ⟨_, _, made⟩ := parts.planned
  obtain ⟨_, _, kept, folded⟩ := parts.loaded
  have planned := LayoutPlan.planPlanned made
  cases member with
  | state => exact stateSourced worked read
  | actions => simp [Resolved.actionEnum, Decl.themeReads, Decl.trails] at read
  | reloadPath listed =>
    unfold ComponentDefinition.reloadPath at listed
    split at listed
    · cases List.mem_singleton.mp listed
      simp [Decl.themeReads, Decl.trails, Code.Property.trails, Code.Property.constant] at read
    · simp at listed
  | field listed => simp [fieldUnread worked listed] at read
  | initializer => simp [initializerUnread] at read
  | load =>
    exact methodSourced worked plan (by simp)
      (LoadCode.bodyMentions worked plan (LoadCode.foldLoaded worked kept folded)) read
  | layout listed =>
    unfold LayoutPlan.methods at listed
    rcases List.mem_cons.mp listed with rfl | more
    · exact methodSourced worked plan (by simp [LayoutPlan.setup])
        (LayoutPlan.setupMentions planned) read
    · split at more
      · rename_i reactive
        simp only [List.mem_cons, List.not_mem_nil, or_false] at more
        rcases more with rfl | rfl
        · exact methodSourced worked plan (by simp [LayoutPlan.remakeReactive])
            (LayoutPlan.remakeMentions worked reactive planned) read
        · simp [LayoutPlan.traitsChanged, LayoutPlan.remake, Decl.themeReads, Decl.trails,
            Code.Function.trails, Code.Parameter.unlabelled, Stmt.trails, Expr.trails] at read
      · simp at more
  | observe =>
    exact methodSourced worked plan (by simp [Resolved.observeActions])
      (ActionSource.actionsMention worked _ _) read
  | override o => simp [overrideUnread] at read
  | reloadHook listed =>
    unfold ComponentDefinition.reloadHook at listed
    split at listed
    · cases List.mem_singleton.mp listed
      simp [ComponentDefinition.liveCall, Decl.themeReads, Decl.trails, Code.Function.trails,
        Stmt.trails, Expr.trails, Expr.self] at read
    · simp at listed
  | navigation listed => simp [navigationUnread listed] at read
  | inner listed => exact below _ listed read

theorem stylesSourced {styles : List Decl} {group : StyleGroup} (read : group.IsRead)
    (ok : stylesDecl (.ofComponent r c group) = .ok styles) : ∀ x ∈ styles,
    ∀ reference ∈ x.themeReads, r.application.values.hasItem reference = true := by
  unfold stylesDecl at ok
  split at ok
  · cases ok
    simp
  · obtain ⟨decl, made, rfl⟩ := Result.mapOk.mp ok
    exact List.forall_mem_singleton.mpr
      (StyleSource.declReads StyleSource.ownTypeElsewhere read made)

theorem templatesUnread {group : StyleGroup} {templates : List Template} {decls : List Decl}
    (ok : templatesDecl (.ofComponent r c group) templates = .ok decls) :
    ∀ x ∈ decls, x.themeReads = [] := by
  unfold templatesDecl at ok
  split at ok
  · cases ok
    simp
  · obtain ⟨members, made, rfl⟩ := Result.mapOk.mp ok
    refine List.forall_mem_singleton.mpr (List.eq_nil_iff_forall_not_mem.mpr ?_)
    intro reference read
    obtain ⟨x, listed, own⟩ := Decl.memReads.mp read
    simp [Template.functionsUnread StyleSource.ownTypeElsewhere made x listed] at own

/- The types inside a class: its styles are checked as they are written, its templates read nothing,
and the classes of the components in it are classes like it. -/
theorem classSourced (filled : r.Filled) : ∀ d, d ∈ r.allDefinitions → ∀ source,
    r.Yields c d source → ∀ reference ∈ source.decl.themeReads, r.Sourced d reference := by
  refine ComponentDefinition.nestedInduction fun d ih member source generated reference read => ?_
  obtain ⟨s, t, kept, ok⟩ := generated
  obtain ⟨res, plan, code, styles, templates, nested, _, rfl, parts⟩ :=
    sourceParts filled member kept ok
  have inner : ∀ y ∈ styles ++ templates ++ nested.map (·.decl), reference ∈ y.themeReads →
      r.Sourced res.definition reference := by
    intro y listed own
    simp only [List.mem_append, List.mem_map] at listed
    rcases listed with (style | template) | ⟨below, inside, rfl⟩
    · exact .inl (stylesSourced parts.worked.tidy.styles parts.styled y style reference own)
    · simp [templatesUnread parts.templated y template] at own
    · -- the class stands for a component at one of the elements, of which the induction knows
      obtain ⟨x, defined, generated⟩ := forallRight parts.inline inside
      obtain ⟨e, element, here⟩ := List.mem_filterMap.mp defined
      have known := inlineIncluded member element here
      rcases ih e element x here known below generated reference own with
        declared | ⟨y, within, v, unchecked⟩
      · exact .inl declared
      · exact .inr ⟨y, ComponentDefinition.memNested.mpr (.inr ⟨e, element, x, here, within⟩), v,
          unchecked⟩
  rw [parts.assembled] at read
  obtain ⟨x, listed, own⟩ := Decl.memReads.mp read
  refine memberSourced parts inner (partsMember parts ?_) own
  rw [parts.assembled]
  exact listed

theorem memberReads {decl x : Decl} (member : x ∈ decl.members)
    (read : reference ∈ x.themeReads) : reference ∈ decl.themeReads := by
  cases decl with
  | type => exact Decl.memReads.mpr ⟨x, member, read⟩
  | _ => simp [Code.Decl.members] at member

theorem argumentTrails {s : Stmt} {id name : String} {value : Expr}
    (given : s.argument? base id name = some value) : value.trails [] ⊆ s.trails := by
  unfold Code.Stmt.argument? at given
  split at given
  · split at given
    · cases given
      rw [Stmt.trails]
      exact List.subset_append_right _ _
    · cases given
  · cases given

theorem uncheckedRead {code : LoadCode} {styles templates : List Decl}
    {nested : List ComponentSource} {decl : Decl}
    (parts : r.Parts c res plan code styles templates nested decl) {v : Value}
    (unchecked : r.Unchecked res.definition v) (refers : reference ∈ v.themeReferences) :
    reference ∈ decl.themeReads := by
  have worked := parts.worked
  obtain ⟨state, _, load, _⟩ := partsHold parts
  cases unchecked with
  | default listed given =>
    obtain ⟨item, inside, rfl⟩ := (derivationChecked worked.derivation).2.listed _ listed v given
    refine memberReads state (memberReads (x := item.field r.renderContext c) ?_ ?_)
    · simp only [Resolved.stateClass, Code.Decl.members, List.mem_append, List.mem_map]
      exact .inl (.inl (.inr ⟨item, inside, rfl⟩))
    · rw [item.fieldReads (.inl rfl)]
      exact refers
  | argument given =>
    obtain ⟨s, t, kept, folded⟩ := parts.loaded
    obtain @⟨e, name, raw, inner, child, item, _, inside, argument, literal, behind, derivation,
      listed, parsed⟩ := given
    -- the literal is assigned once, and the code of the value is what is assigned
    have once := (loadedGiven worked.filled worked.member worked.describes kept folded inside
      argument behind derivation listed).2.2 v literal parsed
    obtain ⟨stmt, written, assigned⟩ : ∃ stmt ∈ code.once,
        stmt.argument? "self" e.id.name name = some (v.code r.renderContext) :=
      List.mem_filterMap.mp (by rw [once]; exact List.mem_singleton_self _)
    have code : reference ∈ themeReads ((v.code r.renderContext).trails []) := by
      rw [v.codeReads (.inl rfl)]
      exact refers
    obtain ⟨trail, inside, found⟩ := List.mem_filterMap.mp code
    refine memberReads load (List.mem_filterMap.mpr ⟨trail, ?_, found⟩)
    rw [Decl.trails, Code.Function.trails, Stmt.allTrailsFlat, LoadCode.body, List.flatMap_append]
    exact List.mem_append_right _ (List.mem_append_left _
      (List.mem_flatMap.mpr ⟨stmt, written, argumentTrails assigned inside⟩))

theorem classReads (filled : r.Filled) : ∀ d, d ∈ r.allDefinitions → ∀ source,
    r.Yields c d source → ∀ x ∈ d.nested, ∀ v, r.Unchecked x v →
      ∀ reference ∈ v.themeReferences, reference ∈ source.decl.themeReads := by
  refine ComponentDefinition.nestedInduction
    fun d ih member source generated x within v unchecked reference refers => ?_
  obtain ⟨s, t, kept, ok⟩ := generated
  obtain ⟨res, plan, code, styles, templates, nested, _, rfl, parts⟩ :=
    sourceParts filled member kept ok
  rcases ComponentDefinition.memNested.mp within with rfl | ⟨e, element, inline, here, below⟩
  · exact uncheckedRead parts unchecked refers
  · have defined : inline ∈ res.definition.inlineDefinitions :=
      List.mem_filterMap.mpr ⟨e, element, here⟩
    obtain ⟨inner, inside, generated⟩ := forallLeft parts.inline defined
    have known := inlineIncluded member element here
    have read := ih e element inline here known inner generated x below v unchecked reference refers
    exact memberReads ((partsHold parts).2.2.2 (List.mem_map_of_mem inside)) read

end Registry
end ViewForge
