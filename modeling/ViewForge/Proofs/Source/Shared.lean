import ViewForge.Proofs.Source.Argument
import ViewForge.Proofs.Source.Nested
import ViewForge.Proofs.Style.Shared

/-! One component in two projects. Its class is the same in both if the styles that it names are
shared and the components that it refers to offer the same; nothing else in a project matters. -/
namespace ViewForge
open Code (Expr Stmt Decl)
open ViewForge.Task

/-- The element can use both components in the same way: the state items that it sets have the same
types, and the actions that it observes the same parameters. -/
structure Element.Offered (e : Element) (a b : Resolved) : Prop where
  items : ∀ name ∈ e.arguments.map Prod.fst,
    (a.stateItem? name).map (·.type) = (b.stateItem? name).map (·.type)
  actions : ∀ action ∈ e.actions,
    (a.action? action.event).map (·.description) = (b.action? action.event).map (·.description)

instance (e : Element) (a b : Resolved) : Decidable (e.Offered a b) :=
  decidable_of_iff (_ ∧ _) ⟨fun ⟨items, actions⟩ => ⟨items, actions⟩,
    fun ⟨items, actions⟩ => ⟨items, actions⟩⟩

variable {a b : Resolved}

theorem Element.offeredSelf (e : Element) (a : Resolved) : e.Offered a a :=
  ⟨fun _ _ => rfl, fun _ _ => rfl⟩

theorem Element.argumentsOf {e : Element} {reference : ComponentReference}
    (kind : e.kind = .component reference) : e.arguments = reference.arguments := by
  simp [Element.arguments, kind, ElementKind.reference?]

/- Nothing is asked of a state item but whether it is there and its type. -/
theorem itemsSame {name : String}
    (types : (a.stateItem? name).map (·.type) = (b.stateItem? name).map (·.type)) :
    (a.stateItem? name = none ∧ b.stateItem? name = none) ∨ ∃ item other,
      a.stateItem? name = some item ∧ b.stateItem? name = some other ∧ item.type = other.type := by
  cases left : a.stateItem? name with
  | none =>
    rw [left, Option.map_none, eq_comm, Option.map_eq_none_iff] at types
    exact .inl ⟨rfl, types⟩
  | some item =>
    rw [left, Option.map_some, eq_comm, Option.map_eq_some_iff] at types
    obtain ⟨other, right, same⟩ := types
    exact .inr ⟨item, other, rfl, right, same.symm⟩

theorem StateItem.argumentUsesOffered {arguments : List (String × String)}
    (items : ∀ name ∈ arguments.map Prod.fst,
      (a.stateItem? name).map (·.type) = (b.stateItem? name).map (·.type))
    (id typeName : String) (uses : Uses) :
    argumentUses id typeName a uses arguments = argumentUses id typeName b uses arguments := by
  induction arguments generalizing uses with
  | nil => rfl
  | cons argument rest ih =>
    obtain ⟨own, others⟩ := List.forall_mem_cons.mp items
    obtain ⟨name, raw⟩ := argument
    rw [argumentUses, argumentUses]
    rcases itemsSame own with ⟨left, right⟩ | ⟨item, other, left, right, same⟩
    · rw [left, right]
    · simp only [left, right, same, ih others]

theorem LoadCode.argumentCodeOffered {arguments : List (String × String)}
    (items : ∀ name ∈ arguments.map Prod.fst,
      (a.stateItem? name).map (·.type) = (b.stateItem? name).map (·.type))
    (context : RenderContext) (target : Expr) (reference : ComponentReference) :
    argumentCode context target reference a arguments =
      argumentCode context target reference b arguments := by
  induction arguments with
  | nil => rfl
  | cons argument rest ih =>
    obtain ⟨own, others⟩ := List.forall_mem_cons.mp items
    obtain ⟨name, raw⟩ := argument
    rw [argumentCode, argumentCode, ih others]
    rcases itemsSame own with ⟨left, right⟩ | ⟨item, other, left, right, same⟩
    · rw [left, right]
    · simp only [left, right, same]

section Described

variable {R : ResolverState → ResolverState → Prop} {child other : ChildResolver}

theorem StateItem.elementUsesMeets {e : Element}
    (needed : e.Needs → Meets R e.Offered (child e) (other e)) (uses : Uses) :
    Meets R Eq (elementUses child uses e) (elementUses other uses e) := by
  unfold elementUses
  simp only
  split
  · exact meetsPure rfl
  · rename_i reference found
    split
    · exact meetsPure rfl
    · rename_i given
      have kind := ElementKind.referenceComponent found
      refine meetsBind (needed ⟨reference, kind, .inl ?_⟩) fun a b offered => ?_
      · simpa using given
      · rw [argumentUsesOffered (Element.argumentsOf kind ▸ offered.items)]
        exact meetsSame _

theorem StateItem.resolveAllMeets {d : ComponentDefinition}
    (needed : ∀ e ∈ d.elements, e.Needs → Meets R e.Offered (child e) (other e)) :
    Meets R Eq (resolveAll child d) (resolveAll other d) := by
  unfold resolveAll
  refine meetsBind (meetsFold (fun e member uses _ same => ?_) rfl) fun uses _ same => ?_
  · subst same
    exact elementUsesMeets (needed e member) uses
  · subst same
    exact meetsBind (meetsSame _) fun implicit _ same => meetsPure (by rw [same])

theorem ResolvedAction.addSourceMeets {d : ComponentDefinition} {state : List StateItem}
    {e : Element} {action : BoundAction} (member : action ∈ e.actions)
    (needed : e.Needs → Meets R e.Offered (child e) (other e)) (sources : Sources) :
    Meets R Eq (addSource child d state e sources action)
      (addSource other d state e sources action) := by
  have described : Meets R Eq (describeEvent child e action.event)
      (describeEvent other e action.event) := by
    unfold describeEvent
    cases kind : e.kind with
    | widget w =>
      refine meetsBind (meetsPure rfl) fun found _ same => ?_
      subst same
      cases found
      · exact meetsThrow _ _
      · exact meetsPure rfl
    | component reference =>
      have needs : e.Needs := ⟨reference, kind, .inr (List.ne_nil_of_mem member)⟩
      refine meetsBind (needed needs) fun a b offered => ?_
      rw [offered.actions action member]
      refine meetsBind (meetsPure rfl) fun found _ same => ?_
      subst same
      cases found
      · exact meetsThrow _ _
      · exact meetsPure rfl
  unfold addSource
  refine meetsBind described fun event _ same => ?_
  subst same
  exact meetsBind (meetsSame _) fun found _ same => meetsPure (by rw [same])

theorem ResolvedAction.resolveAllMeets {d : ComponentDefinition} (state : List StateItem)
    (needed : ∀ e ∈ d.elements, e.Needs → Meets R e.Offered (child e) (other e)) :
    Meets R Eq (resolveAll child d state) (resolveAll other d state) := by
  unfold resolveAll
  refine meetsBind (meetsFold (fun e member sources _ same => ?_) rfl) fun sources _ same => ?_
  · subst same
    refine meetsFold (fun action inside sources _ same => ?_) rfl
    subst same
    exact addSourceMeets inside (needed e member) sources
  · subst same
    refine meetsBind (meetsSame _) fun sources _ same => ?_
    subst same
    exact meetsBind (meetsSame _) fun actions _ same => meetsPure (by rw [same])

end Described

def ComponentDefinition.styleNames (d : ComponentDefinition) : List StyleName :=
  d.elements.flatMap (·.styles) ++ d.styles.bases ++ d.templates.filterMap (·.style)

namespace Registry

/-- What the component takes from elsewhere is the same in both projects: the styles that it names,
and what the components behind its elements offer. -/
structure AlikeFor (r r' : Registry) (d : ComponentDefinition) : Prop where
  styles : ∀ group name, .qualified group name ∈ d.styleNames →
    (r.scopeOf d).Shares (r'.scopeOf d) (.qualified group name) none none
  components : ∀ e ∈ d.elements, e.Needs → e.definition? = none → ∀ inner inner' a b,
    r.behind? e = some inner → r'.behind? e = some inner' →
    r.Derivation inner a → r'.Derivation inner' b → e.Offered a b

variable {r r' : Registry} {c : Configuration} {d : ComponentDefinition}

theorem alikeHome (alike : r.AlikeFor r' d) :
    (r.scopeOf d).Home (r'.scopeOf d) d.styles where
  own := rfl
  only _ own := (Option.some.inj own).symm
  bases group name member := alike.styles group name
    (List.mem_append_left _ (List.mem_append_right _ member))

theorem resolvePropertiesSame (alike : r.AlikeFor r' d) {xs ys : List (String × List Property)}
    (left : r.resolveProperties d = .ok xs) (right : r'.resolveProperties d = .ok ys) :
    xs = ys := by
  have each : Meets Eq Eq (d.elements.mapM (r.elementProperties (r.scopeOf d)))
      (d.elements.mapM (r'.elementProperties (r'.scopeOf d))) := by
    refine meetsMap fun e member => ?_
    unfold elementProperties
    refine meetsBind (StyleScope.resolveMeets fun name named => ?_) fun ps _ same => ?_
    · refine StyleScope.homeFixed (alikeHome alike) (by simp) fun group style same => ?_
      subst same
      refine alike.styles group style (List.mem_append_left _ (List.mem_append_left _ ?_))
      exact List.mem_flatMap.mpr ⟨e, member, named⟩
    · refine meetsBind (meetsLift (P := fun _ _ => True) fun _ _ _ _ => trivial) fun _ _ _ => ?_
      exact meetsPure (by rw [same])
  unfold resolveProperties at left right
  obtain ⟨one, found, last⟩ := Result.bindOk.mp left
  obtain ⟨two, found', last'⟩ := Result.bindOk.mp right
  cases last
  cases last'
  cases meetsOutcome each found found'
  rfl

theorem describeFromSame (alike : r.AlikeFor r' d) {oracle other : Element → Result Resolved}
    (offered : ∀ e ∈ d.elements, e.Needs → ∀ a b, oracle e = .ok a → other e = .ok b →
      e.Offered a b)
    (left : r.describeFrom oracle d = .ok a) (right : r'.describeFrom other d = .ok b) : a = b := by
  have both : Meets Eq Eq (r.describe (fun e => liftM (oracle e)) d)
      (r'.describe (fun e => liftM (other e)) d) := by
    have needed : ∀ e ∈ d.elements, e.Needs → Meets Eq e.Offered
        (liftM (oracle e) : Resolve Resolved) (liftM (other e) : Resolve Resolved) :=
      fun e member needs => meetsLift (offered e member needs)
    unfold describe
    refine meetsBind (meetsLift fun _ _ => resolvePropertiesSame alike) fun ps _ same => ?_
    subst same
    refine meetsBind (StateItem.resolveAllMeets needed) fun state _ same => ?_
    subst same
    exact meetsBind (ResolvedAction.resolveAllMeets state needed) fun actions _ same =>
      meetsPure (by rw [same])
  exact meetsOutcome both left right

theorem behindInline {e : Element} {inline : ComponentDefinition}
    (here : e.definition? = some inline) : r.behind? e = some inline := by
  obtain ⟨reference, refers, defined⟩ := Option.bind_eq_some_iff.mp here
  simp [behind?, refers, defined]

/- What stands in place comes to the same, and what is from elsewhere offers the same. -/
theorem offeredBehind (alike : r.AlikeFor r' d) {e : Element} (member : e ∈ d.elements)
    (needs : e.Needs) (inline : ∀ x, e.definition? = some x → ∀ a b,
      r.Derivation x a → r'.Derivation x b → a = b) {inner inner' : ComponentDefinition}
    (behind : r.behind? e = some inner) (behind' : r'.behind? e = some inner')
    (left : r.Derivation inner a) (right : r'.Derivation inner' b) : e.Offered a b := by
  cases here : e.definition? with
  | none => exact alike.components e member needs here inner inner' a b behind behind' left right
  | some x =>
    cases Option.some.inj ((behindInline here).symm.trans behind)
    cases Option.some.inj ((behindInline here).symm.trans behind')
    cases inline _ here a b left right
    exact e.offeredSelf a

theorem nestedAlike (alike : ∀ x ∈ d.nested, r.AlikeFor r' x) {e : Element}
    (member : e ∈ d.elements) {inline : ComponentDefinition} (here : e.definition? = some inline) :
    ∀ x ∈ inline.nested, r.AlikeFor r' x := fun x inside =>
  alike x (ComponentDefinition.nestedTrans (ComponentDefinition.nestedAt member here) inside)

theorem derivationSame (d : ComponentDefinition) : (∀ x ∈ d.nested, r.AlikeFor r' x) →
    ∀ a b, r.Derivation d a → r'.Derivation d b → a = b := by
  induction d using ComponentDefinition.nestedInduction with
  | step d ih =>
    intro alike a b left right
    obtain ⟨oracle, next, behind, children, described⟩ := left
    obtain ⟨other, next', behind', children', described'⟩ := right
    refine describeFromSame (alike d d.nestedSelf) ?_ described described'
    intro e member needs x y found found'
    exact offeredBehind (alike d d.nestedSelf) member needs
      (fun inline here => ih e member inline here (nestedAlike alike member here))
      (behind e member needs) (behind' e member needs) (children e member needs x found)
      (children' e member needs y found')

/- The arguments of an element are written in the types of the component behind it. -/
theorem partSame (context : r.renderContext = r'.renderContext) {e : Element}
    (offered : e.arguments ≠ [] → ∀ inner inner' a b, r.behind? e = some inner →
      r'.behind? e = some inner' → r.Derivation inner a → r'.Derivation inner' b → e.Offered a b)
    {part part' : List Stmt} (left : LoadCode.Part r e part) (right : LoadCode.Part r' e part') :
    part = part' := by
  rcases left with ⟨none, rfl⟩ | ⟨reference, inner, a, kind, behind, derivation, written⟩
  · rcases right with ⟨_, rfl⟩ | ⟨_, _, _, _, _, _, written'⟩
    · rfl
    · rw [none] at written'
      cases written'
      rfl
  · rcases right with ⟨none, rfl⟩ | ⟨_, inner', b, kind', behind', derivation', written'⟩
    · rw [none] at written
      cases written
      rfl
    · cases kind.symm.trans kind'
      by_cases given : e.arguments = []
      · rw [given] at written written'
        cases written
        cases written'
        rfl
      · have same := LoadCode.argumentCodeOffered
          (offered given inner inner' a b behind behind' derivation derivation').items
        rw [same, context] at written
        exact Except.ok.inj (written.symm.trans written')

/- The statements of one element, from resolvers that have kept what is true. -/
theorem addElementMeets (filled : r.Filled) (filled' : r'.Filled)
    (context : r.renderContext = r'.renderContext) (member : d ∈ r.allDefinitions)
    (member' : d ∈ r'.allDefinitions) (alike : ∀ x ∈ d.nested, r.AlikeFor r' x) {e : Element}
    (element : e ∈ d.elements) (res : Resolved) (code : LoadCode) (parent : Option Element) :
    Meets (fun s t => r.Keeping s ∧ r'.Keeping t) Eq (LoadCode.addElement r res code (e, parent))
      (LoadCode.addElement r' res code (e, parent)) := by
  rintro s t x u y v ⟨kept, kept'⟩ one two
  have still := (addElementKeeps filled member element res code parent s kept).1
  have still' := (addElementKeeps filled' member' element res code parent t kept').1
  rw [one] at still
  rw [two] at still'
  refine ⟨?_, still, still'⟩
  unfold LoadCode.addElement at one two
  obtain ⟨part, _, component, last⟩ := Task.bindGives.mp one
  obtain ⟨part', _, component', last'⟩ := Task.bindGives.mp two
  cases last
  cases last'
  have same : part = part' := by
    refine partSame context (fun given inner inner' a b => ?_)
      (LoadCode.componentPart filled member element kept component)
      (LoadCode.componentPart filled' member' element kept' component')
    exact offeredBehind (alike d d.nestedSelf) element (Element.argumentsNeed given)
      fun inline here => derivationSame inline (nestedAlike alike element here)
  rw [same, context]

theorem planMeets (d : ComponentDefinition) : Meets (fun _ _ => True) Eq
    (LayoutPlan.ofDefinition d) (LayoutPlan.ofDefinition d) := by
  unfold LayoutPlan.ofDefinition
  refine meetsBind (P := fun _ _ => True) (fun _ _ _ _ _ _ _ _ _ => ⟨trivial, trivial⟩)
    fun _ _ _ => ?_
  refine meetsBind (meetsSame _) fun _ _ _ => ?_
  exact meetsBind (meetsSame _) fun _ _ _ => meetsPure rfl

theorem componentBeside (context : r.renderContext = r'.renderContext) (alike : r.AlikeFor r' d) :
    (StyleSource.ofComponent r c d.styles).Beside (.ofComponent r' c d.styles) :=
  ⟨context, rfl, rfl, rfl, alikeHome alike⟩

theorem stylesSame (context : r.renderContext = r'.renderContext) (alike : r.AlikeFor r' d)
    {xs ys : List Decl} (left : stylesDecl (.ofComponent r c d.styles) = .ok xs)
    (right : stylesDecl (.ofComponent r' c d.styles) = .ok ys) : xs = ys := by
  have beside := componentBeside (c := c) context alike
  unfold stylesDecl at left right
  rw [← beside.group] at right
  split at left
  · rename_i none
    rw [if_pos none] at right
    exact Except.ok.inj (left.symm.trans right)
  · rename_i some
    rw [if_neg some] at right
    obtain ⟨x, one, rfl⟩ := Result.mapOk.mp left
    obtain ⟨y, two, rfl⟩ := Result.mapOk.mp right
    rw [StyleSource.declSame beside one two]

theorem templatesSame (context : r.renderContext = r'.renderContext) (alike : r.AlikeFor r' d)
    {xs ys : List Decl}
    (left : templatesDecl (.ofComponent r c d.styles) d.templates = .ok xs)
    (right : templatesDecl (.ofComponent r' c d.styles) d.templates = .ok ys) : xs = ys := by
  have beside := componentBeside (c := c) context alike
  have fixed : ∀ t ∈ d.templates, ∀ name, t.style = some name →
      StyleScope.Fixed (r.scopeOf d) (r'.scopeOf d) name (some d.styles) := by
    intro t member name styled
    refine StyleSource.besideFixed beside fun group style same => ?_
    subst same
    exact alike.styles group style
      (List.mem_append_right _ (List.mem_filterMap.mpr ⟨t, member, styled⟩))
  unfold templatesDecl at left right
  split at left
  · rename_i none
    rw [if_pos none] at right
    exact Except.ok.inj (left.symm.trans right)
  · rename_i some
    rw [if_neg some] at right
    obtain ⟨x, one, rfl⟩ := Result.mapOk.mp left
    obtain ⟨y, two, rfl⟩ := Result.mapOk.mp right
    rw [StyleSource.functionsSame beside fixed one two]
    rfl

theorem yieldsSame {xs : List ComponentDefinition} {left right : List ComponentSource}
    (one : List.Forall₂ (r.Yields c) xs left) (two : List.Forall₂ (r'.Yields c) xs right)
    (each : ∀ x ∈ xs, ∀ a b, r.Yields c x a → r'.Yields c x b → a = b) : left = right := by
  induction one generalizing right with
  | nil =>
    cases two
    rfl
  | cons first _ ih =>
    cases two with
    | cons second rest =>
      obtain ⟨own, others⟩ := List.forall_mem_cons.mp each
      rw [own _ _ first second, ih rest others]

theorem classSame (filled : r.Filled) (filled' : r'.Filled)
    (context : r.renderContext = r'.renderContext) (d : ComponentDefinition) :
    d ∈ r.allDefinitions → d ∈ r'.allDefinitions → (∀ x ∈ d.nested, r.AlikeFor r' x) →
    ∀ x y, r.Yields c d x → r'.Yields c d y → x = y := by
  induction d using ComponentDefinition.nestedInduction with
  | step d ih =>
    rintro member member' alike x y ⟨s, t, kept, ok⟩ ⟨s', t', kept', ok'⟩
    obtain ⟨res, plan, code, styles, templates, nested, _, same, parts, imports⟩ :=
      sourceMade filled member kept ok
    obtain ⟨res', plan', code', styles', templates', nested', _, same', parts', imports'⟩ :=
      sourceMade filled' member' kept' ok'
    have comes := parts.worked.derivation
    have comes' := parts'.worked.derivation
    rw [same] at comes
    rw [same'] at comes'
    cases derivationSame d alike res res' comes comes'
    subst same
    have own := alike _ res.definition.nestedSelf
    have planned : plan = plan' := by
      obtain ⟨_, _, one⟩ := parts.planned
      obtain ⟨_, _, two⟩ := parts'.planned
      exact (planMeets res.definition _ _ _ _ _ _ trivial one two).1
    have loaded : code = code' := by
      obtain ⟨_, _, kept, one⟩ := parts.loaded
      obtain ⟨_, _, kept', two⟩ := parts'.loaded
      refine (meetsFold (R := fun s t => r.Keeping s ∧ r'.Keeping t) ?_ rfl _ _ _ _ _ _
        ⟨kept, kept'⟩ one two).1
      rintro ⟨e, parent⟩ inside code _ rfl
      exact addElementMeets filled filled' context member member' alike
        (Element.memWithParents inside) res code parent
    have inline : nested = nested' := by
      refine yieldsSame parts.inline parts'.inline fun x listed => ?_
      obtain ⟨e, element, here⟩ := List.mem_filterMap.mp listed
      exact ih e element x here (inlineIncluded member element here)
        (inlineIncluded member' element here) (nestedAlike alike element here)
    subst planned loaded inline
    cases stylesSame context own parts.styled parts'.styled
    cases templatesSame context own parts.templated parts'.templated
    have decls := parts.assembled
    rw [context, ← parts'.assembled] at decls
    obtain ⟨names, decl⟩ := x
    obtain ⟨names', decl'⟩ := y
    simp only at imports imports' decls
    rw [imports, imports', decls]

end Registry
end ViewForge
