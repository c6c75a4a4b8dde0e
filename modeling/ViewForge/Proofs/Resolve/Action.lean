import ViewForge.Proofs.Resolve.Derivation
import ViewForge.Proofs.Resolve.State

/-! Actions and what publishes them. Every call that is bound to an event of an element or to a
navigation item is one source of the action it names; the sources of an action stand in the order of
the elements, with the navigation items last, and publish values of the same types. -/
namespace ViewForge

structure Publisher where
  id : String
  action : BoundAction
  element : Option Element

def Publisher.name (p : Publisher) : String := p.action.call.name

def Element.publisher (e : Element) (action : BoundAction) : Publisher :=
  ⟨e.id.name, action, some e⟩

def NavigationItem.publisher? (item : NavigationItem) : Option Publisher :=
  item.action.map fun action => ⟨item.id, action, none⟩

def ComponentDefinition.publishers (d : ComponentDefinition) : List Publisher :=
  d.elements.flatMap (fun e => e.actions.map e.publisher) ++
    d.navigation.filterMap (·.publisher?)

namespace Registry

inductive Triggers (r : Registry) : Publisher → EventDescription → Prop where
  | widget {e : Element} {w : Widget} {action : BoundAction} {event : EventDescription}
      (kind : e.kind = .widget w)
      (found : EventDescription.find? w.events action.event = some event) :
      Triggers r (e.publisher action) event
  | component {e : Element} {inner : ComponentDefinition} {child : Resolved} {action : BoundAction}
      {a : ResolvedAction} (behind : r.behind? e = some inner)
      (derivation : r.Derivation inner child) (found : child.action? action.event = some a) :
      Triggers r (e.publisher action) a.description
  | item {id : String} {action : BoundAction} :
      Triggers r ⟨id, action, none⟩ ResolvedAction.barButtonEvent

def Publishes (r : Registry) (d : ComponentDefinition) (state : List StateItem) (p : Publisher)
    (s : ActionSource) : Prop :=
  ∃ event, r.Triggers p event ∧ ResolvedAction.source d state p.id p.action event = .ok s

end Registry

namespace ResolvedAction

/-- The sources of every name are those of the calls of that name, one for each and in order. -/
structure Gathered (R : Publisher → ActionSource → Prop) (ps : List Publisher)
    (sources : Sources) : Prop where
  distinct : (sources.map Prod.fst).Nodup
  each : ∀ name, List.Forall₂ R (ps.filter (·.name = name)) ((sources.lookup name).getD [])

section Gathering

variable {R : Publisher → ActionSource → Prop} {ps : List Publisher} {sources found : Sources}

theorem gatheredNil : Gathered R [] [] := ⟨List.nodup_nil, fun _ => .nil⟩

theorem gatheredPush {p : Publisher} {s : ActionSource} (gathered : Gathered R ps sources)
    (related : R p s) : Gathered R (ps ++ [p]) (Ordered.push p.name s sources) where
  distinct := Ordered.nodupPush gathered.distinct
  each name := by
    rw [List.filter_append]
    by_cases same : p.name = name
    · subst same
      rw [Ordered.lookupPushSelf, Option.getD_some]
      have one : [p].filter (·.name = p.name) = [p] := by simp
      rw [one]
      exact List.rel_append (gathered.each p.name) (.cons related .nil)
    · have none : [p].filter (·.name = name) = [] := by simp [same]
      rw [Ordered.lookupPushOther (Ne.symm same), none, List.append_nil]
      exact gathered.each name

variable {r : Registry} {d : ComponentDefinition} {state : List StateItem}
  {oracle : Element → Result Resolved}

theorem describeEventGives {e : Element} {name : String} {event : EventDescription}
    {s t : ResolverState}
    (ok : (describeEvent (fun e => liftM (oracle e)) e name).outcome s = (.ok event, t)) :
    (∃ w, e.kind = .widget w ∧ EventDescription.find? w.events name = some event) ∨
      ∃ reference child a, e.kind = .component reference ∧ oracle e = .ok child ∧
        child.action? name = some a ∧ event = a.description := by
  unfold describeEvent at ok
  cases kind : e.kind with
  | widget w =>
    simp only [kind, pure_bind] at ok
    split at ok
    · rename_i description found
      cases ok
      exact .inl ⟨w, rfl, found⟩
    · cases ok
  | component reference =>
    simp only [kind] at ok
    obtain ⟨child, answered, ok⟩ := Task.liftBindGives ok
    simp only [pure_bind] at ok
    split at ok
    · rename_i description found
      cases ok
      obtain ⟨a, listed, rfl⟩ := Option.map_eq_some_iff.mp found
      exact .inr ⟨reference, child, a, rfl, answered, listed, rfl⟩
    · cases ok

def Answered (r : Registry) (oracle : Element → Result Resolved) (e : Element) : Prop :=
  e.Needs → ∃ inner, r.behind? e = some inner ∧
    ∀ child, oracle e = .ok child → r.Derivation inner child

theorem addSourceGathered {e : Element} (answered : Answered r oracle e) {action : BoundAction}
    (member : action ∈ e.actions) (gathered : Gathered (r.Publishes d state) ps sources)
    {s t : ResolverState}
    (ok : (addSource (fun e => liftM (oracle e)) d state e sources action).outcome s =
      (.ok found, t)) :
    Gathered (r.Publishes d state) (ps ++ [e.publisher action]) found := by
  unfold addSource at ok
  obtain ⟨event, u, described, ok⟩ := Task.bindGives.mp ok
  obtain ⟨source, made, last⟩ := Task.liftBindGives ok
  cases last
  refine gatheredPush gathered ⟨event, ?_, made⟩
  rcases describeEventGives described with ⟨w, kind, listed⟩ | ⟨reference, child, a, kind, rest⟩
  · exact .widget kind listed
  · obtain ⟨asked, listed, rfl⟩ := rest
    have needs : e.Needs := ⟨reference, kind, .inr (List.ne_nil_of_mem member)⟩
    obtain ⟨inner, behind, derived⟩ := answered needs
    exact .component behind (derived child asked) listed

theorem elementGathered {e : Element} (answered : Answered r oracle e) {actions : List BoundAction}
    (within : actions ⊆ e.actions) (gathered : Gathered (r.Publishes d state) ps sources)
    {s t : ResolverState}
    (ok : (actions.foldlM (addSource (fun e => liftM (oracle e)) d state e) sources).outcome s =
      (.ok found, t)) :
    Gathered (r.Publishes d state) (ps ++ actions.map e.publisher) found := by
  induction actions generalizing ps sources s with
  | nil =>
    cases ok
    simpa using gathered
  | cons action rest ih =>
    obtain ⟨between, u, first, others⟩ := Task.foldlGives.mp ok
    obtain ⟨here, later⟩ := List.cons_subset.mp within
    have next := ih later (addSourceGathered answered here gathered first) others
    simpa using next

theorem elementsGathered {es : List Element} (answered : ∀ e ∈ es, Answered r oracle e)
    (gathered : Gathered (r.Publishes d state) ps sources) {s t : ResolverState}
    (ok : (es.foldlM (fun sources (e : Element) => e.actions.foldlM
      (addSource (fun e => liftM (oracle e)) d state e) sources) sources).outcome s =
        (.ok found, t)) :
    Gathered (r.Publishes d state) (ps ++ es.flatMap fun e => e.actions.map e.publisher) found := by
  induction es generalizing ps sources s with
  | nil =>
    cases ok
    simpa using gathered
  | cons e rest ih =>
    obtain ⟨between, u, first, others⟩ := Task.foldlGives.mp ok
    obtain ⟨here, later⟩ := List.forall_mem_cons.mp answered
    have next := ih later (elementGathered here (List.Subset.refl _) gathered first) others
    simpa using next

theorem navigationGathered {items : List NavigationItem}
    (gathered : Gathered (r.Publishes d state) ps sources)
    (ok : items.foldlM (addNavigationSource d state) sources = .ok found) :
    Gathered (r.Publishes d state) (ps ++ items.filterMap (·.publisher?)) found := by
  induction items generalizing ps sources with
  | nil =>
    cases ok
    simpa using gathered
  | cons item rest ih =>
    rw [List.foldlM_cons] at ok
    obtain ⟨between, first, others⟩ := Result.bindOk.mp ok
    unfold addNavigationSource at first
    cases bound : item.action with
    | none =>
      simp only [bound] at first
      cases first
      simpa [NavigationItem.publisher?, bound] using ih gathered others
    | some action =>
      simp only [bound] at first
      obtain ⟨source, made, last⟩ := Result.bindOk.mp first
      cases last
      have next := ih (gatheredPush (p := ⟨item.id, action, none⟩) gathered ⟨_, .item, made⟩) others
      simpa [NavigationItem.publisher?, bound] using next

end Gathering

theorem ofSourcesGives {entry : String × List ActionSource} {a : ResolvedAction}
    (ok : ofSources entry = .ok (some a)) :
    a.name = entry.1 ∧ a.sources = entry.2 ∧
      ∀ s ∈ a.sources, s.parameters.map (·.type) = a.parameters.map Prod.snd := by
  obtain ⟨name, sources⟩ := entry
  cases sources with
  | nil => cases ok
  | cons first rest =>
    rw [ofSources] at ok
    simp only at ok
    split at ok
    · cases ok
    · rename_i same
      cases ok
      refine ⟨rfl, rfl, fun s member => ?_⟩
      have types : s.parameters.map (·.type) = first.parameters.map (·.type) := by
        rcases List.mem_cons.mp member with rfl | later
        · rfl
        · simpa using List.find?_eq_none.mp same s later
      rw [types, List.map_map]
      rfl

theorem ofSourcesSome {entry : String × List ActionSource} {found : Option ResolvedAction}
    (used : entry.2 ≠ []) (ok : ofSources entry = .ok found) : found.isSome = true := by
  obtain ⟨name, sources⟩ := entry
  cases sources with
  | nil => exact absurd rfl used
  | cons first rest =>
    rw [ofSources] at ok
    simp only at ok
    split at ok
    · cases ok
    · cases ok
      rfl

theorem ofSourcesNames {sources : Sources} {found : List (Option ResolvedAction)}
    (each : List.Forall₂ (fun entry a => ofSources entry = .ok a) sources found) :
    List.Sublist (found.reduceOption.map (·.name)) (sources.map Prod.fst) :=
  Ordered.namesReduced (each.imp fun _ _ ok _ same => (ofSourcesGives (same ▸ ok)).1)

/-- The actions are those that are named, each with one source for every call of its name. -/
structure Listed (R : Publisher → ActionSource → Prop) (ps : List Publisher)
    (actions : List ResolvedAction) : Prop where
  distinct : (actions.map (·.name)).Nodup
  covers : ∀ p ∈ ps, ∃ a ∈ actions, a.name = p.name
  sources : ∀ a ∈ actions, List.Forall₂ R (ps.filter (·.name = a.name)) a.sources
  types : ∀ a ∈ actions, ∀ s ∈ a.sources,
    s.parameters.map (·.type) = a.parameters.map Prod.snd

theorem gatheredListed {R : Publisher → ActionSource → Prop} {ps : List Publisher}
    {sources : Sources} (gathered : Gathered R ps sources) {found : List (Option ResolvedAction)}
    (each : List.Forall₂ (fun entry a => ofSources entry = .ok a) sources found) :
    Listed R ps found.reduceOption := by
  have origin : ∀ a ∈ found.reduceOption, ∃ entry ∈ sources, ofSources entry = .ok (some a) :=
    fun a member => forallRight each (List.reduceOption_mem_iff.mp member)
  refine ⟨gathered.distinct.sublist (ofSourcesNames each), ?_, ?_, ?_⟩
  · intro p member
    have here : p ∈ ps.filter (·.name = p.name) := List.mem_filter.mpr ⟨member, by simp⟩
    obtain ⟨s, listed, _⟩ := forallLeft (gathered.each p.name) here
    cases looked : sources.lookup p.name with
    | none => simp [looked] at listed
    | some bound =>
      rw [looked, Option.getD_some] at listed
      obtain ⟨a, kept, ok⟩ := forallLeft each (Ordered.memOfLookup looked)
      have used : (p.name, bound).2 ≠ [] := List.ne_nil_of_mem listed
      obtain ⟨a, rfl⟩ := Option.isSome_iff_exists.mp (ofSourcesSome used ok)
      exact ⟨a, List.reduceOption_mem_iff.mpr kept, (ofSourcesGives ok).1⟩
  · intro a member
    obtain ⟨entry, inside, ok⟩ := origin a member
    obtain ⟨named, sourced, _⟩ := ofSourcesGives ok
    have looked := Ordered.lookupOfMem gathered.distinct inside
    have each := gathered.each entry.1
    rw [looked, Option.getD_some] at each
    rw [named, sourced]
    exact each
  · intro a member
    obtain ⟨entry, _, ok⟩ := origin a member
    exact (ofSourcesGives ok).2.2

end ResolvedAction

theorem Registry.derivationListed {r : Registry} {d : ComponentDefinition} {res : Resolved}
    (derivation : r.Derivation d res) :
    ResolvedAction.Listed (r.Publishes d res.state) d.publishers res.actions := by
  obtain ⟨oracle, next, behind, children, described⟩ := derivation
  have answered : ∀ e ∈ d.elements, ResolvedAction.Answered r oracle e := fun e member needs =>
    ⟨next e, behind e member needs, fun child ok => children e member needs child ok⟩
  have run := describeLifted r oracle d {}
  rw [described] at run
  unfold describe at run
  obtain ⟨properties, _, run⟩ := Task.liftBindGives run
  obtain ⟨state, s₁, _, run⟩ := Task.bindGives.mp run
  obtain ⟨actions, s₂, acted, last⟩ := Task.bindGives.mp run
  cases last
  unfold ResolvedAction.resolveAll at acted
  obtain ⟨sources, s₃, folded, acted⟩ := Task.bindGives.mp acted
  obtain ⟨all, navigated, acted⟩ := Task.liftBindGives acted
  obtain ⟨found, made, last⟩ := Task.liftBindGives acted
  cases last
  have elements := ResolvedAction.elementsGathered answered ResolvedAction.gatheredNil folded
  exact ResolvedAction.gatheredListed (ResolvedAction.navigationGathered elements navigated)
    (Result.mapMOk made)

end ViewForge
