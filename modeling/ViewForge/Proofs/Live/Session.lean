import ViewForge.Live.Session
import ViewForge.Proofs.Element.Tree
import ViewForge.Proofs.Ordered
import ViewForge.Proofs.Task

/-! What a run on a live interface adds to the events: element after element its view is made, the
properties are set, and the component within it is built. The views of a component are its own but
for those of references, which the component behind takes for its root. -/
namespace ViewForge

def LiveEvent.setsView (view : ViewNumber) : LiveEvent → Bool
  | set other _ _ => other == view
  | _ => false

/-- Whatever is set among the events is set on the one view, or on views with numbers between. -/
def Confined (root low high : ViewNumber) (events : List LiveEvent) : Prop :=
  ∀ event ∈ events, ∀ view, event.setsView view = true → view = root ∨ (low < view ∧ view ≤ high)

def Quiet (events : List LiveEvent) : Prop := ∀ event ∈ events, ∀ view, event.setsView view = false

def LiveEvent.activatesView (view : ViewNumber) : LiveEvent → Bool
  | activated other _ => other == view
  | _ => false

def Constrains (low high : ViewNumber) (events : List LiveEvent) : Prop :=
  ∀ event ∈ events, ∀ view, event.activatesView view = true → low < view ∧ view ≤ high

def Loose (events : List LiveEvent) : Prop :=
  ∀ event ∈ events, ∀ view, event.activatesView view = false

theorem quietAppend {xs ys : List LiveEvent} (left : Quiet xs) (right : Quiet ys) :
    Quiet (xs ++ ys) := List.forall_mem_append.mpr ⟨left, right⟩

theorem quietConfined {root low high : ViewNumber} {events : List LiveEvent}
    (quiet : Quiet events) : Confined root low high events := by
  intro event member view sets
  rw [quiet event member view] at sets
  cases sets

theorem looseAppend {xs ys : List LiveEvent} (left : Loose xs) (right : Loose ys) :
    Loose (xs ++ ys) := List.forall_mem_append.mpr ⟨left, right⟩

theorem looseConstrains {low high : ViewNumber} {events : List LiveEvent}
    (loose : Loose events) : Constrains low high events := by
  intro event member view activates
  rw [loose event member view] at activates
  cases activates

namespace Live

theorem recordGives (event : LiveEvent) (state : LiveState) : (record event).outcome state =
    (.ok ⟨⟩, { state with events := state.events ++ [event] }) := rfl

theorem resolvingOutcome {α : Type} (work : Resolve α) (state : LiveState) :
    (resolving work).outcome state = ((work.outcome state.resolver).1,
      { state with resolver := (work.outcome state.resolver).2 }) := rfl

theorem resolvingGives {α : Type} {work : Resolve α} {state next : LiveState} {a : α}
    (ok : (resolving work).outcome state = (.ok a, next)) :
    ∃ resolver, work.outcome state.resolver = (.ok a, resolver) ∧
      next = { state with resolver } := by
  rw [resolvingOutcome] at ok
  obtain ⟨result, rfl⟩ := Prod.mk.inj ok
  exact ⟨_, Prod.ext result rfl, rfl⟩

end Live

def Property.valueIn (values : StateValues) (p : Property) : Option Value :=
  match p.binding with
  | .value v => some v
  | .state name => values.lookup name
  | .code _ => none

namespace LiveSession
open Live ViewForge.Task

variable {s : LiveSession} {state next : LiveState}

theorem instantiateGives {request : Instantiation} {view : ViewNumber}
    (ok : (s.instantiate request).outcome state = (.ok view, next)) :
    view = state.made + 1 ∧ next = { state with
      made := state.made + 1
      events := state.events ++ [.instantiated (state.made + 1) request] } := by
  unfold instantiate at ok
  simp only [Task.getBind] at ok
  split at ok
  · simp at ok
  · cases ok
    exact ⟨rfl, rfl⟩

theorem insertGives {parentType : String} {parent child : ViewNumber} {inserters : List Inserter}
    (ok : (s.insert parentType parent child inserters).outcome state = (.ok ⟨⟩, next)) :
    ∃ tried, Quiet tried ∧ Loose tried ∧ next = { state with events := state.events ++ tried } := by
  induction inserters generalizing state with
  | nil => simp [insert] at ok
  | cons inserter rest ih =>
    rw [insert] at ok
    rw [Task.bindOk (recordGives _ _)] at ok
    have quiet : Quiet [LiveEvent.inserted parent child inserter (s.host.accepts inserter)] := by
      simp [Quiet, LiveEvent.setsView]
    have loose : Loose [LiveEvent.inserted parent child inserter (s.host.accepts inserter)] := by
      simp [Loose, LiveEvent.activatesView]
    split at ok
    · obtain ⟨tried, others, free, rfl⟩ := ih ok
      exact ⟨_, quietAppend quiet others, looseAppend loose free, by simp⟩
    · cases ok
      exact ⟨_, quiet, loose, rfl⟩

theorem makeViewGives {d : ComponentDefinition} {placed : Placed} {e parent : Element}
    {view : ViewNumber} (ok : (s.makeView d placed e parent).outcome state = (.ok view, next)) :
    view = state.made + 1 ∧ ∃ making, Quiet making ∧ Loose making ∧ next = { state with
      made := state.made + 1, events := state.events ++ making } := by
  unfold makeView at ok
  obtain ⟨made, u, instantiated, ok⟩ := Task.bindGives.mp ok
  obtain ⟨rfl, rfl⟩ := instantiateGives instantiated
  obtain ⟨parentView, _, ok⟩ := Task.liftBindGives ok
  obtain ⟨_, u, inserted, last⟩ := Task.bindGives.mp ok
  obtain ⟨tried, quiet, loose, rfl⟩ := insertGives inserted
  cases last
  have first : Quiet [LiveEvent.instantiated (state.made + 1) (.ofKind e.kind)] := by
    simp [Quiet, LiveEvent.setsView]
  have free : Loose [LiveEvent.instantiated (state.made + 1) (.ofKind e.kind)] := by
    simp [Loose, LiveEvent.activatesView]
  exact ⟨rfl, _, quietAppend first quiet, looseAppend free loose, by simp⟩

def itemValues (res : Resolved) (arguments : StateValues) : StateValues :=
  arguments ++ res.state.map fun item => (item.name, item.default)

def settingEvents (view : ViewNumber) (settings : List (Property × LiveValue)) : List LiveEvent :=
  settings.map fun a => .set view a.1.key a.2

def Valued (s : LiveSession) (values : StateValues) (settings : List (Property × LiveValue)) :
    Prop :=
  ∀ a ∈ settings, ∃ v, a.1.valueIn values = some v ∧ v.live s.values = .ok a.2

theorem applyValueGives {view : ViewNumber} {p : Property} {v : Value}
    (ok : (s.applyValue view p v).outcome state = (.ok ⟨⟩, next)) :
    ∃ live, v.live s.values = .ok live ∧
      next = { state with events := state.events ++ settingEvents view [(p, live)] } := by
  unfold applyValue at ok
  obtain ⟨live, rendered, last⟩ := Task.liftBindGives ok
  cases last
  exact ⟨live, rendered, rfl⟩

/- A property without a value adds no event, whatever else is done instead. -/
theorem applyPropertyGives {values : StateValues} {view : ViewNumber} {p : Property}
    (ok : (s.applyProperty values view p).outcome state = (.ok ⟨⟩, next)) :
    (∃ v live, p.valueIn values = some v ∧ v.live s.values = .ok live ∧
      next = { state with events := state.events ++ settingEvents view [(p, live)] }) ∨
    (p.valueIn values = none ∧ next.events = state.events ∧ next.made = state.made) := by
  unfold applyProperty at ok
  unfold Property.valueIn
  cases bound : p.binding with
  | value v =>
    simp only [bound] at ok
    obtain ⟨live, rendered, rfl⟩ := applyValueGives ok
    exact .inl ⟨v, live, rfl, rendered, rfl⟩
  | code e =>
    simp only [bound] at ok
    cases ok
    exact .inr ⟨rfl, rfl, rfl⟩
  | state name =>
    simp only [bound] at ok
    cases found : values.lookup name with
    | some v =>
      simp only [found] at ok
      obtain ⟨live, rendered, rfl⟩ := applyValueGives ok
      exact .inl ⟨v, live, found, rendered, rfl⟩
    | none =>
      simp only [found, resolvingOutcome] at ok
      cases ok
      exact .inr ⟨found, rfl, rfl⟩

theorem applyPropertiesGive {values : StateValues} {view : ViewNumber} {ps : List Property}
    (ok : (ps.forM (s.applyProperty values view)).outcome state = (.ok ⟨⟩, next)) :
    ∃ settings, s.Valued values settings ∧ next.made = state.made ∧
      next.events = state.events ++ settingEvents view settings ∧
      ((∀ p ∈ ps, (p.valueIn values).isSome) → settings.map Prod.fst = ps) := by
  induction ps generalizing state with
  | nil =>
    cases ok
    exact ⟨[], by simp [Valued], rfl, by simp [settingEvents], fun _ => rfl⟩
  | cons p rest ih =>
    rw [List.forM] at ok
    obtain ⟨_, between, first, others⟩ := Task.bindGives.mp ok
    obtain ⟨settings, valued, made, events, all⟩ := ih others
    rcases applyPropertyGives first with ⟨v, live, given, rendered, rfl⟩ | ⟨none, same, kept⟩
    · refine ⟨(p, live) :: settings, ?_, made, ?_, fun each => ?_⟩
      · exact List.forall_mem_cons.mpr ⟨⟨v, given, rendered⟩, valued⟩
      · rw [events, List.append_assoc]
        rfl
      · rw [List.map_cons, all (List.forall_mem_cons.mp each).2]
    · refine ⟨settings, valued, made.trans kept, by rw [events, same], fun each => ?_⟩
      have some := (List.forall_mem_cons.mp each).1
      rw [none] at some
      cases some

/-- What happens while an element is placed: its view is made and put into its parent, properties are
set, and the component behind the element is built into the view. -/
structure Placement where
  element : Element
  view : ViewNumber
  making : List LiveEvent := []
  settings : List (Property × LiveValue)
  inner : List LiveEvent := []

namespace Placement

def own (p : Placement) : List LiveEvent := settingEvents p.view p.settings

def events (p : Placement) : List LiveEvent := p.making ++ p.own ++ p.inner

def Apart (p q : Placement) : Prop :=
  (∀ event ∈ p.events, event.setsView q.view = false) ∧
    ∀ event ∈ q.events, event.setsView p.view = false

end Placement

structure Places (s : LiveSession) (res : Resolved) (values : StateValues) (p : Placement) :
    Prop where
  making : Quiet p.making
  valued : s.Valued values p.settings
  complete : (∀ q ∈ res.propertiesOf p.element, (q.valueIn values).isSome) →
    p.settings.map Prod.fst = res.propertiesOf p.element

/- What is kept, step by step, while elements are placed. -/
structure Stays (s : LiveSession) (build : Builder) (elements : List Element)
    (I : LiveState → Prop) : Prop where
  making : ∀ d placed e parent, Keeps I (fun _ => True) (s.makeView d placed e parent)
  setting : ∀ values view p, Keeps I (fun _ => True) (s.applyProperty values view p)
  nesting : ∀ e ∈ elements, ∀ values view placed,
    Keeps I (fun _ => True) (s.placeNested build values view placed e)

theorem staysAlways (s : LiveSession) (build : Builder) (elements : List Element) :
    s.Stays build elements fun _ => True where
  making _ _ _ _ := keepsTrue
  setting _ _ _ := keepsTrue
  nesting _ _ _ _ _ := keepsTrue

/- The inner events are those of the component behind the element, built into the element's view. -/
def Nests (s : LiveSession) (build : Builder) (values : StateValues) (I : LiveState → Prop)
    (p : Placement) : Prop :=
  ∃ before after first last, I first ∧ p.view ≤ first.made ∧
    (s.placeNested build values p.view before p.element).outcome first = (.ok after, last) ∧
    last.events = first.events ++ p.inner

/-- Builders that add events and views, set nothing but on the view that they are given and on those
that they make, and constrain only what they make. -/
def Builder.IsConfined (build : Builder) : Prop :=
  ∀ d root arguments before tree after, root ≤ before.made →
    (build d root arguments).outcome before = (.ok tree, after) →
    before.made ≤ after.made ∧ ∃ added, after.events = before.events ++ added ∧
      Confined root before.made after.made added ∧ Constrains before.made after.made added

structure Placing (s : LiveSession) (res : Resolved) (values : StateValues)
    (state next : LiveState) (before after : Placed) (p : Placement) : Prop where
  places : s.Places res values p
  events : next.events = state.events ++ p.events
  made : state.made ≤ next.made
  views : after.views = Ordered.put p.element.id.name p.view before.views
  confined : Confined p.view state.made next.made p.events
  constrains : Constrains p.view next.made p.events

variable {build : Builder} {res : Resolved} {values : StateValues} {root : ViewNumber}
  {before after : Placed} {e : Element}

theorem ownConfined (p : Placement) (low high : ViewNumber) : Confined p.view low high p.own := by
  intro event member view sets
  obtain ⟨a, _, rfl⟩ := List.mem_map.mp member
  exact .inl (eq_of_beq sets).symm

theorem ownLoose (p : Placement) : Loose p.own := by
  intro event member view
  obtain ⟨a, _, rfl⟩ := List.mem_map.mp member
  rfl

theorem settingKept {I : LiveState → Prop} {elements : List Element}
    (stays : s.Stays build elements I) (holds : I state) {view : ViewNumber} {ps : List Property}
    (ok : (ps.forM (s.applyProperty values view)).outcome state = (.ok ⟨⟩, next)) : I next :=
  keepsEnd (keepsEach fun p _ => stays.setting values view p) holds ok

theorem placeRoot {I : LiveState → Prop} {elements : List Element}
    (stays : s.Stays build elements I) (holds : I state)
    (ok : (s.place build res values root before (e, none)).outcome state = (.ok after, next)) :
    ∃ p : Placement, p.element = e ∧ p.view = root ∧ p.inner = [] ∧ Loose p.events ∧
      s.Placing res values state next before after p ∧ I next := by
  unfold place at ok
  obtain ⟨_, _, first, ok⟩ := Task.bindGives.mp ok
  cases first
  obtain ⟨_, u, applied, last⟩ := Task.bindGives.mp ok
  have kept := settingKept stays holds applied
  obtain ⟨settings, valued, made, events, all⟩ := applyPropertiesGive applied
  cases last
  let p : Placement := { element := e, view := root, settings }
  have simple : p.events = p.own := by simp [p, Placement.events]
  have loose : Loose p.events := by
    rw [simple]
    exact ownLoose p
  refine ⟨p, rfl, rfl, rfl, loose, ⟨⟨by simp [p, Quiet], valued, all⟩, ?_, Nat.le_of_eq made.symm,
    rfl, ?_, looseConstrains loose⟩, kept⟩
  · rw [events, simple]
    rfl
  · rw [simple]
    exact ownConfined p _ _

theorem componentStateGives {reference : ComponentReference} {found : StateValues}
    (ok : (s.componentState e reference values).outcome state = (.ok found, next)) :
    next.events = state.events ∧ next.made = state.made := by
  unfold componentState at ok
  split at ok
  · cases ok
    exact ⟨rfl, rfl⟩
  · obtain ⟨child, u, resolved, last⟩ := Task.bindGives.mp ok
    obtain ⟨_, rfl⟩ := Task.liftGives last
    obtain ⟨_, _, rfl⟩ := resolvingGives resolved
    exact ⟨rfl, rfl⟩

/- What is built into the view of an element: nothing, or the component behind it. -/
theorem placeNestedCases {view : ViewNumber}
    (ok : (s.placeNested build values view before e).outcome state = (.ok after, next)) :
    (e.kind.reference? = none ∧ after = before ∧ next = state) ∨
    ∃ reference x defined arguments given tree, e.kind = .component reference ∧
      (resolving (s.registry.definitionFor e)).outcome state = (.ok x, defined) ∧
      (s.componentState e reference values).outcome defined = (.ok arguments, given) ∧
      (build x view arguments).outcome given = (.ok tree, next) ∧
      after = { before with nested := Ordered.put e.id.name tree before.nested } := by
  unfold placeNested at ok
  cases kind : e.kind with
  | widget w =>
    simp only [kind] at ok
    cases ok
    exact .inl ⟨rfl, rfl, rfl⟩
  | component reference =>
    simp only [kind] at ok
    obtain ⟨x, defined, found, ok⟩ := Task.bindGives.mp ok
    obtain ⟨arguments, given, passed, ok⟩ := Task.bindGives.mp ok
    obtain ⟨tree, last, built, done⟩ := Task.bindGives.mp ok
    cases done
    exact .inr ⟨reference, x, defined, arguments, given, tree, rfl, found, passed, built, rfl⟩

theorem placeNestedGives (confined : build.IsConfined) {view : ViewNumber}
    (below : view ≤ state.made)
    (ok : (s.placeNested build values view before e).outcome state = (.ok after, next)) :
    after.views = before.views ∧ state.made ≤ next.made ∧ ∃ inner,
      next.events = state.events ++ inner ∧ Confined view state.made next.made inner ∧
      Constrains state.made next.made inner := by
  rcases placeNestedCases ok with
    ⟨_, rfl, rfl⟩ | ⟨reference, x, _, arguments, _, tree, _, found, given, built, rfl⟩
  · exact ⟨rfl, Nat.le_refl _, [], by simp, by simp [Confined], by simp [Constrains]⟩
  · obtain ⟨_, _, rfl⟩ := resolvingGives found
    obtain ⟨events, made⟩ := componentStateGives given
    obtain ⟨more, inner, added, within, constrains⟩ :=
      confined _ _ _ _ _ _ (made.symm ▸ below) built
    rw [made] at more within constrains
    exact ⟨rfl, more, inner, by rw [added, events], within, constrains⟩

theorem placeChild (confined : build.IsConfined) {I : LiveState → Prop} {elements : List Element}
    (stays : s.Stays build elements I) (holds : I state) (member : e ∈ elements) {parent : Element}
    (ok : (s.place build res values root before (e, some parent)).outcome state =
      (.ok after, next)) : ∃ p : Placement, p.element = e ∧ p.view = state.made + 1 ∧
        p.view ≤ next.made ∧ s.Placing res values state next before after p ∧
        s.Nests build values I p ∧ I next := by
  unfold place at ok
  obtain ⟨view, u, made, ok⟩ := Task.bindGives.mp ok
  have first : I u := keepsEnd (stays.making _ _ _ _) holds made
  obtain ⟨rfl, making, quiet, loose, rfl⟩ := makeViewGives made
  obtain ⟨_, w, applied, nested⟩ := Task.bindGives.mp ok
  have second : I w := settingKept stays first applied
  have last : I next := keepsEnd (stays.nesting e member _ _ _) second nested
  obtain ⟨settings, valued, kept, events, all⟩ := applyPropertiesGive applied
  simp only at kept
  have low : state.made + 1 ≤ w.made := Nat.le_of_eq kept.symm
  obtain ⟨views, more, inner, added, within, constrains⟩ := placeNestedGives confined low nested
  let p : Placement := { element := e, view := state.made + 1, making, settings, inner }
  rw [kept] at more within constrains
  refine ⟨p, rfl, rfl, more, ⟨⟨quiet, valued, all⟩, ?_, by omega, views, ?_, ?_⟩,
    ⟨_, _, w, next, second, low, nested, added⟩, last⟩
  · rw [added, events]
    simp [p, Placement.events, Placement.own]
  · refine List.forall_mem_append.mpr ⟨List.forall_mem_append.mpr
      ⟨quietConfined quiet, ownConfined p _ _⟩, fun event member v sets => ?_⟩
    rcases within event member v sets with same | between
    · exact .inl same
    · exact .inr ⟨Nat.lt_of_succ_lt between.1, between.2⟩
  · exact List.forall_mem_append.mpr
      ⟨looseConstrains (looseAppend loose (ownLoose p)), constrains⟩

structure Progress (s : LiveSession) (build : Builder) (res : Resolved) (values : StateValues)
    (I : LiveState → Prop) (root : ViewNumber) (start now : LiveState) (placed : Placed)
    (ps : List Placement) : Prop where
  holds : I now
  each : ∀ p ∈ ps, s.Places res values p
  rooted : ∃ first more, ps = first :: more ∧ first.view = root ∧ first.inner = [] ∧
    ∀ p ∈ more, s.Nests build values I p
  events : now.events = start.events ++ ps.flatMap Placement.events
  made : start.made ≤ now.made
  views : placed.views = ps.foldl (fun all p => Ordered.put p.element.id.name p.view all) []
  near : ∀ p ∈ ps, p.view = root ∨ (start.made < p.view ∧ p.view ≤ now.made)
  confined : Confined root start.made now.made (ps.flatMap Placement.events)
  distinct : (ps.map (·.view)).Nodup
  apart : ps.Pairwise Placement.Apart
  constrains : Constrains start.made now.made (ps.flatMap Placement.events)
  foreign : ∀ event ∈ ps.flatMap Placement.events, ∀ p ∈ ps, event.activatesView p.view = false

variable {I : LiveState → Prop} {elements : List Element} {start now : LiveState} {placed : Placed}
  {ps : List Placement}

theorem progressRoot (stays : s.Stays build elements I) (holds : I start)
    (ok : (s.place build res values root {} (e, none)).outcome start = (.ok after, now)) :
    ∃ p : Placement, p.element = e ∧ s.Progress build res values I root start now after [p] := by
  obtain ⟨p, rfl, rfl, plain, loose, placing, kept⟩ := placeRoot stays holds ok
  exact ⟨p, rfl, {
    holds := kept
    each := by simpa using placing.places
    rooted := ⟨p, [], rfl, rfl, plain, by simp⟩
    events := by simpa using placing.events
    made := placing.made
    views := placing.views
    near := by simp
    confined := by simpa using placing.confined
    distinct := by simp
    apart := by simp
    constrains := by simpa using looseConstrains loose
    foreign := by simpa using fun event member => loose event member p.view }⟩

theorem progressOld (below : root ≤ start.made)
    (progress : s.Progress build res values I root start now placed ps) {q : Placement}
    (member : q ∈ ps) : q.view ≤ now.made := by
  rcases progress.near q member with same | ⟨_, known⟩
  · exact same ▸ Nat.le_trans below progress.made
  · exact known

theorem progressEarly (below : root ≤ start.made)
    (progress : s.Progress build res values I root start now placed ps) {event : LiveEvent}
    (member : event ∈ ps.flatMap Placement.events) {view : ViewNumber}
    (sets : event.setsView view = true) : view ≤ now.made := by
  rcases progress.confined event member view sets with same | ⟨_, known⟩
  · exact same ▸ Nat.le_trans below progress.made
  · exact known

theorem freshDistinct (below : root ≤ start.made)
    (progress : s.Progress build res values I root start now placed ps) {p : Placement}
    (fresh : p.view = now.made + 1) : ((ps ++ [p]).map (·.view)).Nodup := by
  rw [List.map_append]
  refine List.nodup_append.mpr ⟨progress.distinct, List.nodup_singleton _, ?_⟩
  rintro view earlier other last rfl
  obtain ⟨q, member, rfl⟩ := List.mem_map.mp earlier
  have known := progressOld below progress member
  have same : q.view = p.view := List.mem_singleton.mp last
  rw [same, fresh] at known
  exact absurd known (Nat.not_succ_le_self _)

/- A new view has a number that no event so far knows, and what follows knows of no earlier view
but through its own. -/
section Fresh

variable {p : Placement} (placing : s.Placing res values now next placed after p)
  (fresh : p.view = now.made + 1)
include placing fresh

theorem freshSets (most : p.view ≤ next.made) {event : LiveEvent} (member : event ∈ p.events)
    {view : ViewNumber} (sets : event.setsView view = true) :
    now.made < view ∧ view ≤ next.made := by
  rcases placing.confined event member view sets with rfl | between
  · exact ⟨by rw [fresh]; exact Nat.lt_succ_self _, most⟩
  · exact between

theorem freshActivates {event : LiveEvent} (member : event ∈ p.events) {view : ViewNumber}
    (activates : event.activatesView view = true) :
    now.made < view ∧ p.view < view ∧ view ≤ next.made := by
  obtain ⟨low, high⟩ := placing.constrains event member view activates
  have beyond := low
  rw [fresh] at beyond
  exact ⟨Nat.lt_of_succ_lt beyond, low, high⟩

variable (progress : s.Progress build res values I root start now placed ps)
include progress

theorem freshNear (most : p.view ≤ next.made) (q : Placement) (member : q ∈ ps ++ [p]) :
    q.view = root ∨ (start.made < q.view ∧ q.view ≤ next.made) := by
  rcases List.mem_append.mp member with earlier | last
  · exact (progress.near q earlier).imp id fun known =>
      ⟨known.1, Nat.le_trans known.2 placing.made⟩
  · cases List.mem_singleton.mp last
    exact .inr ⟨by rw [fresh]; exact Nat.lt_succ_of_le progress.made, most⟩

theorem freshConfined (most : p.view ≤ next.made) :
    Confined root start.made next.made ((ps ++ [p]).flatMap Placement.events) := by
  rw [List.flatMap_append, List.flatMap_singleton]
  refine List.forall_mem_append.mpr ⟨fun event member view sets => ?_,
    fun event member view sets => ?_⟩
  · exact (progress.confined event member view sets).imp id fun known =>
      ⟨known.1, Nat.le_trans known.2 placing.made⟩
  · obtain ⟨low, high⟩ := freshSets placing fresh most member sets
    exact .inr ⟨Nat.lt_of_le_of_lt progress.made low, high⟩

theorem freshConstrains :
    Constrains start.made next.made ((ps ++ [p]).flatMap Placement.events) := by
  rw [List.flatMap_append, List.flatMap_singleton]
  refine List.forall_mem_append.mpr ⟨fun event member view activates => ?_,
    fun event member view activates => ?_⟩
  · obtain ⟨low, high⟩ := progress.constrains event member view activates
    exact ⟨low, Nat.le_trans high placing.made⟩
  · obtain ⟨low, _, high⟩ := freshActivates placing fresh member activates
    exact ⟨Nat.lt_of_le_of_lt progress.made low, high⟩

variable (below : root ≤ start.made)
include below

theorem freshApart (most : p.view ≤ next.made) : (ps ++ [p]).Pairwise Placement.Apart := by
  refine List.pairwise_append.mpr ⟨progress.apart, List.pairwise_singleton _ _, ?_⟩
  intro q member other last
  cases List.mem_singleton.mp last
  constructor
  · intro event inside
    by_contra sets
    have known := progressEarly below progress (List.mem_flatMap.mpr ⟨q, member, inside⟩)
      (eq_true_of_ne_false sets)
    rw [fresh] at known
    exact absurd known (Nat.not_succ_le_self _)
  · intro event inside
    by_contra sets
    have later := (freshSets placing fresh most inside (eq_true_of_ne_false sets)).1
    exact absurd (progressOld below progress member) (Nat.not_le_of_lt later)

theorem freshForeign (event : LiveEvent) (member : event ∈ (ps ++ [p]).flatMap Placement.events)
    (q : Placement) (listed : q ∈ ps ++ [p]) : event.activatesView q.view = false := by
  by_contra activates
  have active := eq_true_of_ne_false activates
  rw [List.flatMap_append, List.flatMap_singleton] at member
  rcases List.mem_append.mp member with early | late
  · have known := (progress.constrains event early _ active).2
    rcases List.mem_append.mp listed with earlier | last
    · exact activates (progress.foreign event early q earlier)
    · rw [List.mem_singleton.mp last, fresh] at known
      exact absurd known (Nat.not_succ_le_self _)
  · obtain ⟨later, beyond, _⟩ := freshActivates placing fresh late active
    rcases List.mem_append.mp listed with earlier | last
    · exact absurd (progressOld below progress earlier) (Nat.not_le_of_lt later)
    · rw [List.mem_singleton.mp last] at beyond
      exact absurd beyond (Nat.lt_irrefl _)

end Fresh

theorem progressChild (confined : build.IsConfined) (stays : s.Stays build elements I)
    (below : root ≤ start.made) (member : e ∈ elements) {parent : Element}
    (progress : s.Progress build res values I root start now placed ps)
    (ok : (s.place build res values root placed (e, some parent)).outcome now = (.ok after, next)) :
    ∃ p : Placement, p.element = e ∧
      s.Progress build res values I root start next after (ps ++ [p]) := by
  obtain ⟨p, rfl, fresh, most, placing, nests, kept⟩ :=
    placeChild confined stays progress.holds member ok
  obtain ⟨first, more, split, same, plain, others⟩ := progress.rooted
  exact ⟨p, rfl, {
    holds := kept
    each := List.forall_mem_append.mpr ⟨progress.each, by simpa using placing.places⟩
    rooted := ⟨first, more ++ [p], by rw [split, List.cons_append], same, plain,
      List.forall_mem_append.mpr ⟨others, by simpa using nests⟩⟩
    events := by simp [placing.events, progress.events]
    made := Nat.le_trans progress.made placing.made
    views := by simp [placing.views, progress.views]
    near := freshNear placing fresh progress most
    confined := freshConfined placing fresh progress most
    distinct := freshDistinct below progress fresh
    apart := freshApart placing fresh progress below most
    constrains := freshConstrains placing fresh progress
    foreign := freshForeign placing fresh progress below }⟩

theorem progressChildren (confined : build.IsConfined) (stays : s.Stays build elements I)
    (below : root ≤ start.made) {children : List Element.Parented}
    (within : ∀ child ∈ children, child.1 ∈ elements ∧ child.2.isSome)
    (progress : s.Progress build res values I root start now placed ps)
    (ok : (children.foldlM (s.place build res values root) placed).outcome now =
      (.ok after, next)) :
    ∃ more : List Placement, more.map (·.element) = children.map Prod.fst ∧
      s.Progress build res values I root start next after (ps ++ more) := by
  induction children generalizing now placed ps with
  | nil =>
    cases ok
    exact ⟨[], rfl, by simpa using progress⟩
  | cons child rest ih =>
    obtain ⟨⟨member, some⟩, others⟩ := List.forall_mem_cons.mp within
    obtain ⟨e, parent⟩ := child
    obtain ⟨parent, rfl⟩ := Option.isSome_iff_exists.mp some
    obtain ⟨between, u, first, last⟩ := Task.foldlGives.mp ok
    obtain ⟨p, rfl, step⟩ := progressChild confined stays below member progress first
    obtain ⟨more, same, whole⟩ := ih others step last
    refine ⟨p :: more, by rw [List.map_cons, List.map_cons, same], ?_⟩
    rwa [List.append_assoc, List.singleton_append] at whole

/- The root takes the view that is there, and all other elements follow it. -/
theorem placedGives (confined : build.IsConfined) {d : ComponentDefinition}
    (stays : s.Stays build d.elements I) (holds : I start) (below : root ≤ start.made)
    (ok : (d.root.withParents.foldlM (s.place build res values root) {}).outcome start =
      (.ok placed, now)) :
    ∃ ps : List Placement, ps.map (·.element) = d.elements ∧
      s.Progress build res values I root start now placed ps := by
  have walked := Element.withParentsSplit d.root
  have parents : ∀ child ∈ Element.walkParented (Element.childrenOf d.root), child.2.isSome :=
    Element.walkParentedSome (by simp [Element.childrenOf])
  have elements := Element.withParentsFirst d.root
  rw [walked] at ok elements
  have within : ∀ child ∈ Element.walkParented (Element.childrenOf d.root),
      child.1 ∈ d.elements ∧ child.2.isSome := by
    refine fun child member => ⟨?_, parents child member⟩
    rw [ComponentDefinition.elements, ← elements]
    exact List.mem_map_of_mem (List.mem_cons_of_mem _ member)
  obtain ⟨between, u, rooted, children⟩ := Task.foldlGives.mp ok
  obtain ⟨p, same, progress⟩ := progressRoot stays holds rooted
  obtain ⟨more, others, whole⟩ := progressChildren confined stays below within progress children
  refine ⟨[p] ++ more, ?_, whole⟩
  rw [List.map_append, others, List.map_singleton, same]
  exact elements

theorem viewsListed {d : ComponentDefinition} (distinct : (d.elements.map (·.id.name)).Nodup)
    (elements : ps.map (·.element) = d.elements)
    (progress : s.Progress build res values I root start now placed ps) :
    placed.views = ps.map fun p => (p.element.id.name, p.view) := by
  have ids : (ps.map fun p => (p.element.id.name, p.view)).map Prod.fst =
      d.elements.map (·.id.name) := by
    rw [List.map_map, ← elements, List.map_map]
    rfl
  rw [progress.views, ← List.nil_append (ps.map _), ← Ordered.putDistinct, List.foldl_map]
  rw [List.nil_append, ids]
  exact distinct

def Ties (views : List (String × ViewNumber)) (elements : List Element.Parented)
    (events : List LiveEvent) : Prop :=
  ∀ event ∈ events, ∀ view, event.activatesView view = true → ∃ e parent,
    (e, some parent) ∈ elements ∧ views.lookup e.id.name = some view

theorem tiesWithin {views : List (String × ViewNumber)} {elements more : List Element.Parented}
    {events : List LiveEvent} (ties : Ties views elements events) (within : elements ⊆ more) :
    Ties views more events := by
  intro event member view activates
  obtain ⟨e, parent, listed, found⟩ := ties event member view activates
  exact ⟨e, parent, within listed, found⟩

theorem viewOfGives {d : ComponentDefinition} {views : List (String × ViewNumber)} {id : String}
    {view : ViewNumber} (ok : viewOf d views id = .ok view) : views.lookup id = some view := by
  unfold viewOf at ok
  split at ok
  · rename_i found
    rw [found, Except.ok.inj ok]
  · cases ok

theorem activateGives {d : ComponentDefinition} {views : List (String × ViewNumber)}
    {parent : Element} {c : Constraint}
    (ok : (activate d views e parent c).outcome state = (.ok ⟨⟩, next)) :
    ∃ added, Quiet added ∧ Ties views [(e, some parent)] added ∧
      next = { state with events := state.events ++ added } := by
  unfold activate at ok
  obtain ⟨target, _, ok⟩ := Task.liftBindGives ok
  obtain ⟨view, found, last⟩ := Task.liftBindGives ok
  cases last
  refine ⟨_, by simp [Quiet, LiveEvent.setsView], ?_, rfl⟩
  intro event member other activates
  cases List.mem_singleton.mp member
  cases eq_of_beq activates
  exact ⟨e, parent, List.mem_singleton_self _, viewOfGives found⟩

theorem activateEachGives {d : ComponentDefinition} {views : List (String × ViewNumber)}
    {parent : Element} {cs : List Constraint}
    (ok : (cs.forM (activate d views e parent)).outcome state = (.ok ⟨⟩, next)) :
    ∃ added, Quiet added ∧ Ties views [(e, some parent)] added ∧
      next = { state with events := state.events ++ added } := by
  induction cs generalizing state with
  | nil =>
    cases ok
    exact ⟨[], by simp [Quiet], by simp [Ties], by simp⟩
  | cons c rest ih =>
    rw [List.forM] at ok
    obtain ⟨_, u, first, others⟩ := Task.bindGives.mp ok
    obtain ⟨added, quiet, ties, rfl⟩ := activateGives first
    obtain ⟨more, still, tied, rfl⟩ := ih others
    exact ⟨added ++ more, quietAppend quiet still, List.forall_mem_append.mpr ⟨ties, tied⟩, by simp⟩

theorem activateAllGives {d : ComponentDefinition} {views : List (String × ViewNumber)}
    {elements : List Element.Parented} {active : Nat}
    (ok : (s.activateAll d views elements).outcome state = (.ok active, next)) :
    ∃ added, Quiet added ∧ Ties views elements added ∧
      next = { state with events := state.events ++ added } := by
  induction elements generalizing state active next with
  | nil =>
    cases ok
    exact ⟨[], by simp [Quiet], by simp [Ties], by simp⟩
  | cons parented rest ih =>
    obtain ⟨e, parent⟩ := parented
    cases parent with
    | none =>
      obtain ⟨added, quiet, ties, same⟩ := ih ok
      exact ⟨added, quiet, tiesWithin ties (List.subset_cons_self _ _), same⟩
    | some parent =>
      rw [activateAll] at ok
      obtain ⟨_, u, first, ok⟩ := Task.bindGives.mp ok
      obtain ⟨added, quiet, ties, rfl⟩ := activateEachGives first
      obtain ⟨others, u, remaining, last⟩ := Task.bindGives.mp ok
      obtain ⟨more, still, tied, rfl⟩ := ih remaining
      cases last
      refine ⟨added ++ more, quietAppend quiet still, List.forall_mem_append.mpr ⟨?_, ?_⟩, by simp⟩
      · exact tiesWithin ties (by simp)
      · exact tiesWithin tied (List.subset_cons_self _ _)

/- An element with a parent has a view that was made for it, or for a later one of the same name. -/
theorem tiesConstrain {d : ComponentDefinition} (elements : ps.map (·.element) = d.elements)
    (progress : s.Progress build res values I root start now placed ps) {events : List LiveEvent}
    (ties : Ties placed.views d.root.withParents events) :
    Constrains start.made now.made events := by
  intro event member view activates
  obtain ⟨e, parent, listed, found⟩ := ties event member view activates
  obtain ⟨first, more, rfl, rfl, _, _⟩ := progress.rooted
  have below : e ∈ more.map (·.element) := by
    have walked := Element.withParentsFirst d.root
    rw [Element.withParentsSplit] at walked listed
    have tail := List.tail_eq_of_cons_eq (walked.trans elements.symm)
    rw [← tail]
    rcases List.mem_cons.mp listed with root | inside
    · cases root
    · exact List.mem_map_of_mem inside
  obtain ⟨p, inside, rfl⟩ := List.mem_map.mp below
  rw [progress.views, List.foldl_cons, ← List.foldl_map (f := fun p : Placement =>
    (p.element.id.name, p.view)) (g := fun all p => Ordered.put p.1 p.2 all)] at found
  obtain ⟨q, later, same⟩ : ∃ q ∈ more,
      (q.element.id.name, q.view) = (p.element.id.name, view) := by
    rcases Ordered.lookupPutAll found with listed | ⟨absent, _⟩
    · exact List.mem_map.mp listed
    · exact absurd (List.mem_map_of_mem (List.mem_map_of_mem inside)) absent
  cases congrArg Prod.snd same
  have apart : q.view ≠ first.view := by
    intro same
    exact (List.nodup_cons.mp progress.distinct).1 (List.mem_map.mpr ⟨q, later, same⟩)
  exact (progress.near q (List.mem_cons_of_mem _ later)).resolve_left apart

structure Built (s : LiveSession) (build : Builder) (d : ComponentDefinition) (res : Resolved)
    (I : LiveState → Prop) (root : ViewNumber) (arguments : StateValues) (state next : LiveState)
    (tree : LiveTree) (ps : List Placement) : Prop where
  resolved : ((s.registry.resolve d).outcome state.resolver).1 = .ok res
  elements : ps.map (·.element) = d.elements
  progress : ∃ now placed nested active added,
    s.Progress build res (itemValues res arguments) I root state now placed ps ∧
    Quiet added ∧ Constrains state.made now.made added ∧
    next = { now with events := now.events ++ added } ∧
    tree = .node placed.views nested active

/- The resolver that the component leaves is the one that its elements begin with. -/
theorem buildGives {depth : Nat} (confined : (s.build depth).IsConfined) {d : ComponentDefinition}
    (stays : s.Stays (s.build depth) d.elements I)
    (resolves : Keeps I (fun _ => True) (resolving (s.registry.resolve d))) (holds : I state)
    {arguments : StateValues} (below : root ≤ state.made) {tree : LiveTree}
    (ok : (s.build (depth + 1) d root arguments).outcome state = (.ok tree, next)) :
    ∃ res ps, s.Built (s.build depth) d res I root arguments state next tree ps := by
  rw [build] at ok
  obtain ⟨res, u, first, ok⟩ := Task.bindGives.mp ok
  have kept : I u := keepsEnd resolves holds first
  obtain ⟨resolver, resolved, rfl⟩ := resolvingGives first
  obtain ⟨placed, now, folded, ok⟩ := Task.bindGives.mp ok
  obtain ⟨active, u, activated, last⟩ := Task.bindGives.mp ok
  obtain ⟨added, quiet, ties, rfl⟩ := activateAllGives activated
  cases last
  have low : root ≤ ({ state with resolver } : LiveState).made := below
  obtain ⟨ps, elements, whole⟩ := placedGives confined stays kept low folded
  exact ⟨res, ps, congrArg Prod.fst resolved, elements, now, placed, placed.nested, active, added,
    { whole with }, quiet, tiesConstrain elements whole ties, rfl, rfl⟩

theorem buildConfined (s : LiveSession) (depth : Nat) : (s.build depth).IsConfined := by
  induction depth with
  | zero =>
    intro d root arguments before tree after _ ok
    simp [build] at ok
  | succ depth ih =>
    intro d root arguments before tree after below ok
    obtain ⟨res, ps, built⟩ := buildGives ih (staysAlways _ _ _) keepsTrue trivial below ok
    obtain ⟨now, placed, nested, active, added, progress, quiet, within, rfl, _⟩ := built.progress
    refine ⟨progress.made, ps.flatMap Placement.events ++ added, ?_, ?_, ?_⟩
    · rw [progress.events, List.append_assoc]
    · exact List.forall_mem_append.mpr ⟨progress.confined, quietConfined quiet⟩
    · exact List.forall_mem_append.mpr ⟨progress.constrains, within⟩

end LiveSession
end ViewForge
