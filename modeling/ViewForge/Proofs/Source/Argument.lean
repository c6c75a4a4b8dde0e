import ViewForge.Proofs.Code
import ViewForge.Proofs.Resolve.Argument
import ViewForge.Proofs.Resolver
import ViewForge.Proofs.Source.Component

/-! The statements of a class that give values to the components within it. A variable is passed on
where its state item changes, and a literal is set when the view is loaded, each by one statement; a
text with a dollar sign in front that names no variable is set nowhere. -/
namespace ViewForge
open Code (Expr Stmt Decl)

namespace Code

def Stmt.argument? (base id name : String) : Stmt → Option Expr
  | .assign (.member (.member (.member (.identifier b) i) "state") n) value =>
    if b = base ∧ i = id ∧ n = name then some value else none
  | _ => none

def Case.body : Case → List Stmt
  | .on _ body => body
  | .default body => body

end Code

section Statements

variable {base id name : String}

theorem argumentSelf (below : id ≠ Element.rootName) (value : Expr) :
    (Stmt.assign ((elementCode base id).path ["state", name]) value).argument? base id name =
      some value := by
  simp [elementCode, below, Expr.path, Code.Stmt.argument?]

theorem argumentOther {i n : String} (apart : i ≠ id ∨ n ≠ name) (value : Expr) :
    (Stmt.assign ((elementCode base i).path ["state", n]) value).argument? base id name = none := by
  unfold elementCode
  split
  · rfl
  · simp only [Expr.path, List.foldl, Code.Stmt.argument?]
    exact if_neg fun same => apart.elim (· same.2.1) (· same.2.2)

/- A path into a state has to name it, as elements are no states. -/
theorem pathInState {b i : String} {target : Expr} {outer : String} {scope : List String}
    (same : (elementCode b i).path scope = .member (.member target outer) "state") :
    "state" ∈ scope := by
  rcases List.eq_nil_or_concat scope with rfl | ⟨front, last, rfl⟩
  · unfold elementCode at same
    split at same
    · cases same
    · cases same
  · rw [List.concat_eq_append] at same ⊢
    rw [Expr.path, List.foldl_append, List.foldl_cons, List.foldl_nil, Expr.member.injEq] at same
    simp [same.2]

theorem propertyNone {p : Property} (outside : p.IsOutside) (b i : String) (value : Expr) :
    (p.apply (elementCode b i) value).argument? base id name = none := by
  unfold Property.apply
  split
  · unfold PropertyPath.memberOf Code.Stmt.argument?
    split
    · rename_i same
      rw [Stmt.assign.injEq, Expr.member.injEq] at same
      exact absurd (pathInState same.1.1) outside
    · rfl
  · rfl

end Statements

namespace LoadCode

variable {context : RenderContext} {element id name raw : String} {reference : ComponentReference}
  {child : Resolved} {arguments : List (String × String)} {part : List Stmt}

/- A literal alone is set here, and by the element that it is given at. -/
theorem partOther
    (ok : argumentCode context (elementCode "self" element) reference child arguments = .ok part)
    (apart : element ≠ id ∨ ∀ raw, (name, raw) ∈ arguments → isLiteral raw = false) :
    part.filterMap (·.argument? "self" id name) = [] := by
  induction arguments generalizing part with
  | nil =>
    cases ok
    rfl
  | cons argument rest ih =>
    obtain ⟨own, text⟩ := argument
    have later : element ≠ id ∨ ∀ raw, (name, raw) ∈ rest → isLiteral raw = false :=
      apart.imp_right fun none raw inside => none raw (List.mem_cons_of_mem _ inside)
    rw [argumentCode] at ok
    split at ok
    · exact ih ok later
    · rename_i literal
      split at ok
      · cases ok
      · obtain ⟨value, _, ok⟩ := Result.bindOk.mp ok
        obtain ⟨others, more, last⟩ := Result.bindOk.mp ok
        cases last
        have here : element ≠ id ∨ own ≠ name := by
          refine apart.imp_right fun none same => literal ?_
          rw [none text (same ▸ List.mem_cons_self)]
          rfl
        rw [List.filterMap_cons_none (argumentOther here _), ih more later]

theorem partOwn (below : element ≠ Element.rootName)
    (ok : argumentCode context (elementCode "self" element) reference child arguments = .ok part)
    (distinct : (arguments.map Prod.fst).Nodup) (given : (name, raw) ∈ arguments)
    (literal : isLiteral raw = true) {item : StateItem} (listed : child.stateItem? name = some item)
    {value : Value} (parsed : item.type.parse raw = .ok value) :
    part.filterMap (·.argument? "self" element name) = [value.code context] := by
  induction arguments generalizing part with
  | nil => simp at given
  | cons argument rest ih =>
    obtain ⟨own, text⟩ := argument
    obtain ⟨fresh, others⟩ := List.nodup_cons.mp distinct
    rw [argumentCode] at ok
    rcases List.mem_cons.mp given with same | later
    · cases same
      simp only [literal, Bool.not_true, Bool.false_eq_true, if_false, listed] at ok
      obtain ⟨read, found, ok⟩ := Result.bindOk.mp ok
      obtain ⟨more, tail, last⟩ := Result.bindOk.mp ok
      cases last
      cases Except.ok.inj (found.symm.trans parsed)
      rw [List.filterMap_cons_some (argumentSelf below _), partOther tail (.inr ?_)]
      exact fun again inside => absurd (List.mem_map_of_mem (f := Prod.fst) inside) fresh
    · have apart : own ≠ name := fun same =>
        fresh (List.mem_map.mpr ⟨_, later, same.symm⟩)
      split at ok
      · exact ih ok others later
      · split at ok
        · cases ok
        · obtain ⟨_, _, ok⟩ := Result.bindOk.mp ok
          obtain ⟨more, tail, last⟩ := Result.bindOk.mp ok
          cases last
          rw [List.filterMap_cons_none (argumentOther (.inr apart) _)]
          exact ih tail others later

variable {r : Registry} {res : Resolved} {d : ComponentDefinition}

theorem statementsNone {place : Place} {ps : List Property} (outside : ∀ p ∈ ps, p.IsOutside)
    (context : RenderContext) (element base id name : String) :
    ((((ps.filter (·.place = place)).map fun p => (element, p)).map
      (place.statement context)).filterMap (·.argument? base id name)) = [] := by
  refine List.filterMap_eq_nil_iff.mpr fun statement member => ?_
  simp only [List.map_map, List.mem_map, List.mem_filter] at member
  obtain ⟨p, ⟨inside, _⟩, rfl⟩ := member
  exact propertyNone (outside p inside) _ _ _

def Part (r : Registry) (e : Element) (part : List Stmt) : Prop :=
  (e.arguments = [] ∧ part = []) ∨ ∃ reference inner child, e.kind = .component reference ∧
    r.behind? e = some inner ∧ r.Derivation inner child ∧
    argumentCode r.renderContext (elementCode "self" e.id.name) reference child e.arguments =
      .ok part

theorem componentPart (filled : r.Filled) (member : d ∈ r.allDefinitions) {e : Element}
    (inside : e ∈ d.elements) {s t : ResolverState} (kept : r.Keeping s)
    (ok : (componentCode r (elementCode "self" e.id.name) e).outcome s = (.ok part, t)) :
    Part r e part := by
  unfold componentCode at ok
  cases kind : e.kind with
  | widget w =>
    simp only [kind] at ok
    cases ok
    exact .inl ⟨by simp [Element.arguments, kind, ElementKind.reference?], rfl⟩
  | component reference =>
    have same : e.arguments = reference.arguments := by
      simp [Element.arguments, kind, ElementKind.reference?]
    simp only [kind] at ok
    split at ok
    · rename_i none
      cases ok
      exact .inl ⟨by rw [same]; exact List.isEmpty_iff.mp none, rfl⟩
    · obtain ⟨child, u, resolved, last⟩ := Task.bindGives.mp ok
      have written := (Task.liftGives last).1
      unfold Registry.resolveReference at resolved
      obtain ⟨inner, v, found, resolved⟩ := Task.bindGives.mp resolved
      have behind : r.behind? e = some inner := by
        cases looked : r.behind? e with
        | none =>
          obtain ⟨_, _, missing⟩ := Registry.definitionForMissing looked s
          rw [missing] at found
          cases found
        | some other =>
          obtain ⟨_, run⟩ := Registry.definitionForFound looked s
          rw [run] at found
          cases found
          rfl
      have still : r.Keeping v := by
        have keeps := (Registry.definitionForKeeps member inside s kept).1
        rwa [found] at keeps
      have derivation := Registry.resolveSound filled
        (Registry.behindIncluded member inside behind) still (congrArg Prod.fst resolved)
      exact .inr ⟨reference, inner, child, kind, behind, derivation, by rw [same]; exact written⟩

theorem addElementArguments {code next : LoadCode} {e : Element} {parent : Option Element}
    (outside : ∀ p ∈ res.propertiesOf e, p.IsOutside) {s t : ResolverState}
    (ok : (addElement r res code (e, parent)).outcome s = (.ok next, t)) :
    ∃ part u, (componentCode r (elementCode "self" e.id.name) e).outcome s = (.ok part, u) ∧
      ∀ id name, next.once.filterMap (·.argument? "self" id name) =
          code.once.filterMap (·.argument? "self" id name) ++
            part.filterMap (·.argument? "self" id name) ∧
        next.themed.filterMap (·.argument? "self" id name) =
          code.themed.filterMap (·.argument? "self" id name) := by
  unfold addElement at ok
  simp only [addProperties] at ok
  obtain ⟨part, u, component, last⟩ := Task.bindGives.mp ok
  cases last
  refine ⟨part, _, component, fun id name => ?_⟩
  have inserted : (insertionCode (elementCode "self" e.id.name) parent).filterMap
      (·.argument? "self" id name) = [] := by
    cases parent with
    | none => rfl
    | some parent => rfl
  simp only [List.filterMap_append, statementsNone outside, inserted, List.append_nil, and_self]

theorem loadArguments (filled : r.Filled) (member : d ∈ r.allDefinitions)
    {es : List Element.Parented} (within : ∀ x ∈ es, x.1 ∈ d.elements)
    (outside : ∀ e ∈ d.elements, ∀ p ∈ res.propertiesOf e, p.IsOutside) {code next : LoadCode}
    {s t : ResolverState} (kept : r.Keeping s)
    (ok : (es.foldlM (addElement r res) code).outcome s = (.ok next, t)) :
    ∃ parts, List.Forall₂ (Part r) (es.map Prod.fst) parts ∧ ∀ id name,
      next.once.filterMap (·.argument? "self" id name) =
        code.once.filterMap (·.argument? "self" id name) ++
          parts.flatten.filterMap (·.argument? "self" id name) ∧
      next.themed.filterMap (·.argument? "self" id name) =
        code.themed.filterMap (·.argument? "self" id name) := by
  induction es generalizing code s with
  | nil =>
    cases ok
    exact ⟨[], .nil, fun id name => ⟨by simp, rfl⟩⟩
  | cons parented rest ih =>
    obtain ⟨e, parent⟩ := parented
    obtain ⟨here, later⟩ := List.forall_mem_cons.mp within
    obtain ⟨between, u, first, others⟩ := Task.foldlGives.mp ok
    obtain ⟨part, v, component, own⟩ := addElementArguments (outside e here) first
    have still : r.Keeping u := by
      have keeps := (Registry.addElementKeeps filled member here res code parent s kept).1
      rwa [first] at keeps
    obtain ⟨parts, each, more⟩ := ih later still others
    refine ⟨part :: parts, .cons (componentPart filled member here kept component) each,
      fun id name => ⟨?_, (more id name).2.trans (own id name).2⟩⟩
    rw [(more id name).1, (own id name).1, List.flatten_cons, List.filterMap_append,
      List.append_assoc]

end LoadCode

def Resolved.given (res : Resolved) (code : LoadCode) (id name : String) : List (Place × Expr) :=
  (code.once.filterMap (·.argument? "self" id name)).map (Place.loading, ·) ++
    (code.themed.filterMap (·.argument? "self" id name)).map (Place.theming, ·) ++
    res.state.flatMap fun item =>
      (item.changeCase.body.filterMap (·.argument? "owner" id name)).map
        (Place.changing item.name, ·)

section Given

variable {r : Registry} {d : ComponentDefinition} {res : Resolved}

theorem partsOwn {R : Element → List Stmt → Prop} {es : List Element} {parts : List (List Stmt)}
    (each : List.Forall₂ R es parts) (distinct : (es.map (·.id.name)).Nodup) {e : Element}
    (member : e ∈ es) {f : Stmt → Option Expr}
    (others : ∀ x part, R x part → x.id.name ≠ e.id.name → part.filterMap f = []) :
    ∃ part, R e part ∧ parts.flatten.filterMap f = part.filterMap f := by
  have none : ∀ {es : List Element} {parts : List (List Stmt)}, List.Forall₂ R es parts →
      e.id.name ∉ es.map (·.id.name) → parts.flatten.filterMap f = [] := by
    intro es parts each
    induction each with
    | nil => exact fun _ => rfl
    | @cons x part _ _ first _ ih =>
      intro fresh
      obtain ⟨here, later⟩ := not_or.mp (List.mem_cons.not.mp fresh)
      rw [List.flatten_cons, List.filterMap_append, others x part first (Ne.symm here), ih later,
        List.nil_append]
  induction each with
  | nil => simp at member
  | @cons x part es parts first rest ih =>
    obtain ⟨fresh, distinct⟩ := List.nodup_cons.mp distinct
    rw [List.flatten_cons, List.filterMap_append]
    rcases List.mem_cons.mp member with rfl | later
    · exact ⟨part, first, by rw [none rest fresh, List.append_nil]⟩
    · obtain ⟨own, related, same⟩ := ih distinct later
      have apart : x.id.name ≠ e.id.name := fun equal =>
        fresh (List.mem_map.mpr ⟨e, later, equal.symm⟩)
      exact ⟨own, related, by rw [others x part first apart, same, List.nil_append]⟩

/- Only the root has the name of the root, and only what is below it refers to a component. -/
theorem argumentBelow (tidy : d.Tidy) {e : Element} (inside : e ∈ d.elements)
    (given : e.arguments ≠ []) : e.id.name ≠ Element.rootName := by
  refine tidy.references e inside ?_
  unfold Element.arguments at given
  cases refers : e.kind.reference? with
  | none => simp [refers] at given
  | some reference => rfl

theorem loadedGiven (filled : r.Filled) (member : d ∈ r.allDefinitions)
    (describes : res.Describes d) {code : LoadCode} {s t : ResolverState} (kept : r.Keeping s)
    (ok : (res.definition.root.withParents.foldlM (LoadCode.addElement r res) {}).outcome s =
      (.ok code, t)) {e : Element} (inside : e ∈ d.elements) {name raw : String}
    (given : (name, raw) ∈ e.arguments) {inner : ComponentDefinition}
    (behind : r.behind? e = some inner) {child : Resolved} (derivation : r.Derivation inner child)
    {item : StateItem} (listed : child.stateItem? name = some item) :
    code.themed.filterMap (·.argument? "self" e.id.name name) = [] ∧
      (LoadCode.isLiteral raw = false →
        code.once.filterMap (·.argument? "self" e.id.name name) = []) ∧
      ∀ value, LoadCode.isLiteral raw = true → item.type.parse raw = .ok value →
        code.once.filterMap (·.argument? "self" e.id.name name) = [value.code r.renderContext] := by
  have tidy := Registry.allDefinitionsTidy filled member
  have below := argumentBelow tidy inside (List.ne_nil_of_mem given)
  rw [describes.definition] at ok
  obtain ⟨parts, each, written⟩ := LoadCode.loadArguments filled member
    (fun x within => Element.memWithParents within)
    (fun x within => (Resolved.propertiesOfMerged tidy describes within).outside) kept ok
  obtain ⟨once, themed⟩ := written e.id.name name
  rw [Element.withParentsFirst] at each
  obtain ⟨part, own, same⟩ := partsOwn each tidy.ids inside
    (f := (·.argument? "self" e.id.name name)) (by
      rintro x part (⟨_, rfl⟩ | ⟨reference, _, child, _, _, _, made⟩) apart
      · rfl
      · exact LoadCode.partOther made (.inl apart))
  rw [once, same]
  refine ⟨themed, ?_⟩
  rcases own with ⟨none, _⟩ | ⟨reference, other, resolved, _, found, again, made⟩
  · simp [none] at given
  · cases Option.some.inj (found.symm.trans behind)
    cases Registry.derivationUnique again derivation
    have distinct := (tidy.elements e inside).arguments
    refine ⟨fun passed => LoadCode.partOther made (.inr fun text again => ?_),
      fun value literal parsed => LoadCode.partOwn below made distinct given literal listed parsed⟩
    cases List.inj_on_of_nodup_map distinct given again rfl
    exact passed

end Given

namespace Registry

variable {r : Registry} {c : Configuration} {d : ComponentDefinition}

structure Holds (r : Registry) (c : Configuration) (res : Resolved) (code : LoadCode)
    (decl : Decl) : Prop where
  load : .function { access := .privateScope, name := "loadView", body := code.body } ∈ decl.members
  state : res.stateClass r.renderContext c ∈ decl.members

structure Gives (r : Registry) (res : Resolved) (code : LoadCode) (e : Element) (name raw : String)
    (inner : ComponentDefinition) (child : Resolved) (item : StateItem) : Prop where
  behind : r.behind? e = some inner
  derivation : r.Derivation inner child
  resolved : ∀ t other, r.Used t → ((r.resolve inner).outcome t).1 = .ok other → other = child
  listed : child.stateItem? name = some item
  passed : ∀ v, stateReference? raw = some v → (∃ own ∈ res.state, own.name = v) ∧
    res.given code e.id.name name = [(.changing v, Expr.self.member v)]
  literal : stateReference? raw = none → ∃ value, item.type.parse raw = .ok value ∧
    res.given code e.id.name name =
      if LoadCode.isLiteral raw then [(.loading, value.code r.renderContext)] else []

/- The caption is a literal and the note a variable; the price is neither, for it is no name that
stands after its dollar sign. -/
def badgeFile : String × String :=
  ("Badge", "<Badge><state><item name=\"caption\" type=\"String\"/>" ++
    "<item name=\"note\" type=\"String\"/><item name=\"price\" type=\"String\"/></state></Badge>")

def screenFile : String × String :=
  ("Screen", "<Screen><Badge id=\"b\" caption=\"new\" note=\"$about\" price=\"$5\"/></Screen>")

def screen : Registry := ofTexts {} [badgeFile, screenFile]

end Registry
end ViewForge
