import ViewForge.Proofs.Resolve.Cache
import ViewForge.Proofs.Source.Action
import ViewForge.Proofs.Source.Argument
import ViewForge.Proofs.Theme

/-! What the methods of a class mention. Every trail in them begins at the object and leads to an
element, a field or a state item, or it comes from the code of a value, or it begins elsewhere and
reads no theme; each kind of code has its own reason for what it may name. -/
namespace ViewForge
open Code (Expr Stmt Decl Trail)

def route (base id : String) : Trail := if id = Element.rootName then [base] else [base, id]

theorem elementTrails (base id : String) (after : List String) :
    (elementCode base id).trails after = [route base id ++ after] := by
  unfold elementCode route
  split <;> simp [Expr.trails]

namespace Property

def steps (p : Property) : List String :=
  p.description.path.scope ++ [p.description.setter.method?.getD p.description.path.name]

theorem applyTrails (p : Property) (base id : String) (value : Expr) :
    (p.apply (elementCode base id) value).trails =
      (route base id ++ p.steps) :: value.trails [] := by
  unfold apply steps
  cases p.description.setter with
  | assign =>
    simp [Stmt.trails, PropertyPath.memberOf, Expr.trails, elementTrails, Setter.method?]
  | perState method => simp [Stmt.trails, Expr.trails, elementTrails, Setter.method?]

theorem stepsOutside {p : Property} (outside : p.IsOutside) : "state" ∉ p.steps.dropLast := by
  rw [steps, List.dropLast_concat]
  exact outside

end Property

theorem Element.parentWithin {e child parent : Element}
    (member : (child, some parent) ∈ e.withParents) : parent ∈ e.descendants := by
  have each : ∀ pending : List Parented, ∀ x ∈ walkParented pending, ∀ p, x.2 = some p →
      p ∈ walk (pending.map Prod.fst) ∨ ∃ y ∈ pending, y.2 = some p := by
    intro pending
    induction pending using walkParented.induct with
    | case1 => simp [walkParented]
    | case2 e parent rest ih =>
      intro x member p above
      rw [walkParented] at member
      rcases List.mem_cons.mp member with rfl | later
      · exact .inr ⟨_, List.mem_cons_self, above⟩
      · rcases ih x later p above with inside | ⟨y, pending, given⟩
        · rw [List.map_append, childrenOfElements] at inside
          refine .inl ?_
          rw [List.map_cons, walk]
          exact List.mem_cons_of_mem _ inside
        · rcases List.mem_append.mp pending with child | other
          · obtain ⟨c, _, rfl⟩ := List.mem_map.mp child
            cases given
            refine .inl ?_
            rw [List.map_cons, walk]
            exact List.mem_cons_self
          · exact .inr ⟨y, List.mem_cons_of_mem _ other, given⟩
  rcases each _ _ member parent rfl with inside | ⟨y, only, given⟩
  · exact inside
  · cases List.mem_singleton.mp only
    cases given

def Resolved.OwnMember (res : Resolved) (name : String) : Prop :=
  name ∈ ["addSubview", "snp", "safeAreaLayoutGuide"] ∨
    (∃ p ∈ res.propertiesOf res.definition.root, p.steps.head? = some name) ∨
    (res.definition.root.kind.table.find? name).isSome = true

namespace Registry

def ItemOf (r : Registry) (e : Element) (name : String) : Prop :=
  ∃ inner child item, r.behind? e = some inner ∧ r.Derivation inner child ∧ item ∈ child.state ∧
    item.name = name

inductive Literal (r : Registry) (d : ComponentDefinition) : Value → Prop where
  | given {e : Element} {name raw : String} {inner : ComponentDefinition} {child : Resolved}
      {item : StateItem} {value : Value} (inside : e ∈ d.elements)
      (argument : (name, raw) ∈ e.arguments) (literal : LoadCode.isLiteral raw = true)
      (behind : r.behind? e = some inner) (derivation : r.Derivation inner child)
      (listed : child.stateItem? name = some item) (parsed : item.type.parse raw = .ok value) :
      Literal r d value

inductive Reach (r : Registry) (res : Resolved) (plan : LayoutPlan) (base : String) :
    Trail → Prop where
  | view {e : Element} {steps : List String} (inside : e ∈ res.definition.elements)
      (outside : "state" ∉ steps.dropLast)
      (own : e.id.name = Element.rootName → ∀ name, steps.head? = some name → res.OwnMember name) :
      Reach r res plan base (route base e.id.name ++ steps)
  | argument {e : Element} {name : String} (inside : e ∈ res.definition.elements)
      (below : e.id.name ≠ Element.rootName) (item : r.ItemOf e name) :
      Reach r res plan base [base, e.id.name, "state", name]
  | item {item : NavigationItem} (listed : item ∈ res.definition.navigation) :
      Reach r res plan base [base, item.id]
  | field {name : String} (kept : name ∈ plan.fields) : Reach r res plan base [base, name]
  | reactive {steps : List String} (reactive : plan.isReactive = true) (short : steps.length ≤ 1) :
      Reach r res plan base (base :: LayoutPlan.reactiveField :: steps)
  | state {item : StateItem} (listed : item ∈ res.state) :
      Reach r res plan base [base, "state", item.name]
  | publisher : Reach r res plan base [base, "actionPublisher", "publish"]

inductive Mention (r : Registry) (res : Resolved) (plan : LayoutPlan) (base : String) :
    Trail → Prop where
  | object {trail : Trail} (reach : r.Reach res plan base trail) : Mention r res plan base trail
  | property {e : Element} {p : Property} {v : Value} {theme : ThemeAccess} {trail : Trail}
      (inside : e ∈ res.definition.elements) (listed : p ∈ res.propertiesOf e)
      (bound : p.binding = .value v) (reachable : theme.IsReachable)
      (code : trail ∈ (v.code { r.renderContext with theme }).trails []) :
      Mention r res plan base trail
  | literal {v : Value} {trail : Trail} (given : r.Literal res.definition v)
      (code : trail ∈ (v.code r.renderContext).trails []) : Mention r res plan base trail
  | elsewhere {head : String} {members : List String} (apart : head ∉ ["self", "owner"])
      (unread : ThemeReference.ofTrail? (head :: members) = none) :
      Mention r res plan base (head :: members)

theorem reachBegins {r : Registry} {res : Resolved} {plan : LayoutPlan} {base : String}
    {trail : Trail} (reach : r.Reach res plan base trail) : trail.head? = some base := by
  cases reach with
  | view =>
    unfold route
    split <;> rfl
  | _ => rfl

theorem mentionApart {r : Registry} {res : Resolved} {plan : LayoutPlan} {base head : String}
    (apart : head ∉ ["self", "owner", "theme", "ApplicationTheme"]) (members : List String) :
    r.Mention res plan base (head :: members) := by
  simp only [List.mem_cons, List.not_mem_nil, or_false, not_or] at apart
  refine .elsewhere (by simp [apart.1, apart.2.1]) ?_
  exact ThemeReference.elsewhereNone apart.2.2.1 apart.2.2.2 members

structure WorkedOut (r : Registry) (res : Resolved) : Prop where
  filled : r.Filled
  member : res.definition ∈ r.allDefinitions
  derivation : r.Derivation res.definition res

namespace WorkedOut

variable {r : Registry} {res : Resolved} {plan : LayoutPlan} {base : String}

theorem tidy (worked : r.WorkedOut res) : res.definition.Tidy :=
  allDefinitionsTidy worked.filled worked.member

theorem describes (worked : r.WorkedOut res) : res.Describes res.definition :=
  derivationDescribes worked.filled worked.member worked.derivation

theorem origin (worked : r.WorkedOut res) : ∃ path, res.definition.From path := by
  obtain ⟨outer, registered, inside⟩ := List.mem_flatMap.mp worked.member
  exact ⟨_, nestedFrom worked.filled registered inside⟩

theorem rootInside (res : Resolved) : res.definition.root ∈ res.definition.elements := by
  rw [ComponentDefinition.elements, Element.descendants, Element.walk]
  exact List.mem_cons_self

theorem rootNamed (worked : r.WorkedOut res) : res.definition.root.id.name = Element.rootName := by
  obtain ⟨path, origin⟩ := worked.origin
  rw [origin.root]
  rfl

/- No other element has the name of the root. -/
theorem rootOnly (worked : r.WorkedOut res) {e : Element} (inside : e ∈ res.definition.elements)
    (named : e.id.name = Element.rootName) : e = res.definition.root :=
  List.inj_on_of_nodup_map worked.tidy.ids inside (rootInside res)
    (named.trans worked.rootNamed.symm)

theorem rootContainer (worked : r.WorkedOut res) {e : Element}
    (inside : e ∈ res.definition.elements) (named : e.id.name = Element.rootName) :
    e.kind = .widget .container := by
  obtain ⟨path, origin⟩ := worked.origin
  rw [worked.rootOnly inside named]
  exact origin.container

theorem mentionElement {e : Element} (inside : e ∈ res.definition.elements) :
    r.Mention res plan base (route base e.id.name) := by
  refine .object ?_
  have bare : r.Reach res plan base (route base e.id.name ++ []) :=
    .view inside (by simp) (by simp)
  rwa [List.append_nil] at bare

theorem mentionObject (worked : r.WorkedOut res) : r.Mention res plan base [base] := by
  have bare : r.Mention res plan base (route base res.definition.root.id.name) :=
    mentionElement (rootInside res)
  rwa [worked.rootNamed] at bare

/- Steps that every view can take, of a known element. -/
theorem mentionCommon {e : Element} (inside : e ∈ res.definition.elements) {first : String}
    {more : List String} (common : first ∈ ["addSubview", "snp", "safeAreaLayoutGuide"])
    (outside : "state" ∉ more) :
    r.Mention res plan base (route base e.id.name ++ first :: more) := by
  refine .object (.view inside (fun again => ?_) fun _ name same => ?_)
  · rcases List.mem_cons.mp (List.dropLast_subset _ again) with rfl | later
    · simp at common
    · exact outside later
  · cases same
    exact .inl common

theorem mentionProperty (worked : r.WorkedOut res) {e : Element}
    (inside : e ∈ res.definition.elements) {p : Property} (listed : p ∈ res.propertiesOf e) :
    r.Mention res plan base (route base e.id.name ++ p.steps) := by
  have merged := Resolved.propertiesOfMerged worked.tidy worked.describes inside
  refine .object (.view inside (Property.stepsOutside (merged.outside p listed))
    fun named name first => ?_)
  rw [worked.rootOnly inside named] at listed
  exact .inr (.inl ⟨p, listed, first⟩)

end WorkedOut
end Registry

namespace LoadCode

inductive Loaded (r : Registry) (res : Resolved) : Stmt → Prop where
  | property {e : Element} {p : Property} {theme : ThemeAccess}
      (inside : e ∈ res.definition.elements) (listed : p ∈ res.propertiesOf e)
      (stateless : p.state? = none) (reachable : theme.IsReachable) :
      Loaded r res (p.apply (elementCode "self" e.id.name)
        (p.code { r.renderContext with theme } (Expr.self.member "state")))
  | argument {e : Element} {name : String} {v : Value} (inside : e ∈ res.definition.elements)
      (given : r.Literal res.definition v) (item : r.ItemOf e name)
      (below : e.id.name ≠ Element.rootName) :
      Loaded r res (.assign ((elementCode "self" e.id.name).path ["state", name])
        (v.code r.renderContext))
  | insertion {e parent : Element} (inside : e ∈ res.definition.elements)
      (above : parent ∈ res.definition.elements) :
      Loaded r res (parent.kind.insertion (elementCode "self" parent.id.name)
        (elementCode "self" e.id.name))

variable {r : Registry} {res : Resolved}

theorem addPropertyLoaded {code : LoadCode} {e : Element} (inside : e ∈ res.definition.elements)
    {p : Property} (listed : p ∈ res.propertiesOf e)
    (before : ∀ s ∈ code.once ++ code.themed, Loaded r res s) :
    ∀ s ∈ (addProperty r.renderContext (elementCode "self" e.id.name) code p).once ++
      (addProperty r.renderContext (elementCode "self" e.id.name) code p).themed,
      Loaded r res s := by
  intro s member
  unfold addProperty at member
  split at member
  · exact before s member
  · rename_i stateless
    have unbound : p.state? = none := by simpa using stateless
    have own : ∀ theme : ThemeAccess, theme.IsReachable → Loaded r res
        (p.apply (elementCode "self" e.id.name)
          (p.code { r.renderContext with theme } (Expr.self.member "state"))) :=
      fun theme reachable => .property inside listed unbound reachable
    split at member
    · simp only [List.mem_append, List.mem_singleton] at member
      rcases member with once | themed | rfl
      · exact before s (List.mem_append_left _ once)
      · exact before s (List.mem_append_right _ themed)
      · exact own _ (.inr rfl)
    · simp only [List.mem_append, List.mem_singleton] at member
      rcases member with (once | rfl) | themed
      · exact before s (List.mem_append_left _ once)
      · exact own .current (.inl rfl)
      · exact before s (List.mem_append_right _ themed)

theorem argumentLoaded {e : Element} (inside : e ∈ res.definition.elements)
    (below : e.id.name ≠ Element.rootName) {reference : ComponentReference}
    {inner : ComponentDefinition} {child : Resolved} (behind : r.behind? e = some inner)
    (derivation : r.Derivation inner child) {arguments : List (String × String)}
    (given : arguments ⊆ e.arguments) {part : List Stmt}
    (ok : argumentCode r.renderContext (elementCode "self" e.id.name) reference child arguments =
      .ok part) : ∀ s ∈ part, Loaded r res s := by
  induction arguments generalizing part with
  | nil =>
    cases ok
    simp
  | cons argument rest ih =>
    obtain ⟨name, raw⟩ := argument
    obtain ⟨own, others⟩ := List.cons_subset.mp given
    rw [argumentCode] at ok
    split at ok
    · exact ih others ok
    · rename_i literal
      split at ok
      · cases ok
      · rename_i item listed
        obtain ⟨value, parsed, ok⟩ := Result.bindOk.mp ok
        obtain ⟨more, tail, last⟩ := Result.bindOk.mp ok
        cases last
        refine List.forall_mem_cons.mpr ⟨?_, ih others tail⟩
        have found : item ∈ child.state := List.mem_of_find?_eq_some listed
        have named : item.name = name := by simpa using List.find?_some listed
        exact .argument inside
          (.given inside own (by simpa using literal) behind derivation listed parsed)
          ⟨inner, child, item, behind, derivation, found, named⟩ below

theorem partLoaded (worked : r.WorkedOut res) {e : Element} (inside : e ∈ res.definition.elements)
    {part : List Stmt} (made : Part r e part) : ∀ s ∈ part, Loaded r res s := by
  rcases made with ⟨_, rfl⟩ | ⟨reference, inner, child, kind, behind, derivation, ok⟩
  · simp
  · have below : e.id.name ≠ Element.rootName :=
      worked.tidy.references e inside (by rw [kind]; rfl)
    exact argumentLoaded inside below behind derivation (List.Subset.refl _) ok

theorem addElementLoaded (worked : r.WorkedOut res) {code next : LoadCode} {e : Element}
    {parent : Option Element} (member : (e, parent) ∈ res.definition.root.withParents)
    {s t : ResolverState} (kept : r.Keeping s)
    (before : ∀ x ∈ code.once ++ code.themed, Loaded r res x)
    (ok : (addElement r res code (e, parent)).outcome s = (.ok next, t)) :
    ∀ x ∈ next.once ++ next.themed, Loaded r res x := by
  have inside : e ∈ res.definition.elements := Element.memWithParents member
  unfold addElement at ok
  simp only at ok
  obtain ⟨part, u, component, last⟩ := Task.bindGives.mp ok
  cases last
  have own := partLoaded worked inside (componentPart worked.filled worked.member inside kept
    component)
  have properties : ∀ (ps : List Property) (code : LoadCode), ps ⊆ res.propertiesOf e →
      (∀ x ∈ code.once ++ code.themed, Loaded r res x) →
      ∀ x ∈ (ps.foldl (addProperty r.renderContext (elementCode "self" e.id.name)) code).once ++
        (ps.foldl (addProperty r.renderContext (elementCode "self" e.id.name)) code).themed,
        Loaded r res x := by
    intro ps
    induction ps with
    | nil => exact fun _ _ before => before
    | cons p rest ih =>
      intro code within before
      obtain ⟨listed, others⟩ := List.cons_subset.mp within
      exact ih _ others (addPropertyLoaded inside listed before)
  have set := properties (res.propertiesOf e) code (List.Subset.refl _) before
  intro x found
  simp only [List.mem_append] at found set
  rcases found with ((once | argument) | inserted) | themed
  · exact set x (.inl once)
  · exact own x argument
  · cases parent with
    | none => simp [insertionCode] at inserted
    | some parent =>
      cases List.mem_singleton.mp inserted
      exact .insertion inside (Element.parentWithin member)
  · exact set x (.inr themed)

/- The invariant of the fold is that all statements so far are such, and that the resolver has kept
what is true. -/
theorem foldLoaded (worked : r.WorkedOut res) {code : LoadCode} {s t : ResolverState}
    (kept : r.Keeping s)
    (ok : (res.definition.root.withParents.foldlM (addElement r res) {}).outcome s =
      (.ok code, t)) : ∀ x ∈ code.once ++ code.themed, Loaded r res x := by
  have run := Task.foldlKeeps
    (I := fun code s => r.Keeping s ∧ ∀ x ∈ code.once ++ code.themed, Loaded r res x)
    (fun parented member before s next u holds step => by
      obtain ⟨e, parent⟩ := parented
      have keeps := (Registry.addElementKeeps worked.filled worked.member
        (Element.memWithParents member) res before parent s holds.1).1
      rw [step] at keeps
      exact ⟨keeps, addElementLoaded worked member holds.1 holds.2 step⟩)
    ⟨kept, by simp⟩ ok
  exact run.2

theorem loadedMentions (worked : r.WorkedOut res) (plan : LayoutPlan) {x : Stmt}
    (loaded : Loaded r res x) : ∀ trail ∈ x.trails, r.Mention res plan "self" trail := by
  cases loaded with
  | @property e p theme inside listed stateless reachable =>
    rw [Property.applyTrails]
    refine List.forall_mem_cons.mpr ⟨worked.mentionProperty inside listed, ?_⟩
    rcases Resolved.propertyBound worked.tidy worked.describes inside p listed with
      ⟨v, bound⟩ | ⟨name, bound⟩
    · rw [Property.code, bound]
      exact fun trail code => .property inside listed bound reachable code
    · simp [Property.state?, bound] at stateless
  | @argument e name v inside given item below =>
    have way : route "self" e.id.name = ["self", e.id.name] := if_neg below
    rw [Stmt.trails, Expr.pathTrails, elementTrails, way]
    refine List.forall_mem_append.mpr ⟨?_, fun trail code => .literal given code⟩
    simpa using Registry.Mention.object (.argument inside below item)
  | @insertion e parent inside above =>
    have method : ∃ name, name ∈ ["addSubview", "addArrangedSubview"] ∧
        (parent.id.name = Element.rootName → name = "addSubview") ∧
        (parent.kind.insertion (elementCode "self" parent.id.name)
          (elementCode "self" e.id.name)).trails =
          [route "self" parent.id.name ++ [name], route "self" e.id.name] := by
      cases kind : parent.kind with
      | component reference =>
        exact ⟨"addSubview", by simp, fun _ => rfl,
          by simp [ElementKind.insertion, Stmt.trails, elementTrails]⟩
      | widget w =>
        refine ⟨w.insertionMethod, by cases w <;> simp [Widget.insertionMethod], fun named => ?_,
          by simp [ElementKind.insertion, Stmt.trails, elementTrails]⟩
        cases kind.symm.trans (worked.rootContainer above named)
        rfl
    obtain ⟨name, listed, own, trails⟩ := method
    rw [trails]
    refine List.forall_mem_cons.mpr ⟨.object (.view above (by simp) fun named first same => ?_),
      List.forall_mem_singleton.mpr (Registry.WorkedOut.mentionElement inside)⟩
    cases same
    rw [own named]
    exact .inl (by simp)

theorem bodyMentions (worked : r.WorkedOut res) (plan : LayoutPlan) {code : LoadCode}
    (loaded : ∀ x ∈ code.once ++ code.themed, Loaded r res x) :
    ∀ trail ∈ Stmt.allTrails code.body, r.Mention res plan "self" trail := by
  have each : ∀ xs : List Stmt, (∀ x ∈ xs, Loaded r res x) → ∀ trail ∈ xs.flatMap Stmt.trails,
      r.Mention res plan "self" trail := by
    intro xs all trail member
    obtain ⟨x, inside, own⟩ := List.mem_flatMap.mp member
    exact loadedMentions worked plan (all x inside) trail own
  obtain ⟨once, themed⟩ := List.forall_mem_append.mp loaded
  rw [Stmt.allTrailsFlat, body, List.flatMap_append]
  refine List.forall_mem_append.mpr ⟨each _ once, ?_⟩
  split
  · simp
  · have root : r.Mention res plan "self" ["self"] := worked.mentionObject
    have register : r.Mention res plan "self" ["ApplicationTheme", "selector", "register"] :=
      .elsewhere (by simp) rfl
    simpa [Stmt.trails, Expr.trails, themeType, Expr.self, register, root] using each _ themed

end LoadCode
end ViewForge
