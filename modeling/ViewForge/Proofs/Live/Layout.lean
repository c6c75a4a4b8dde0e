import ViewForge.Proofs.Live.Session
import ViewForge.Proofs.Source.Layout

/-! Generated and live layout agree. Once the views of a component are there, all its constraints
that hold are activated, and they are those that the layout methods of its class install while the
traits are the same. -/
namespace ViewForge

def owner? (views : List (String × ViewNumber)) (view : ViewNumber) : Option String :=
  (views.find? (·.2 == view)).map Prod.fst

def Bound.ofTarget? (views : List (String × ViewNumber)) : LiveTarget → Option Bound
  | .view view anchor => (owner? views view).map fun id => .surface (.element id) anchor
  | .safeArea view anchor => (owner? views view).map fun id => .surface (.safeArea id) anchor
  | .constant value => some (.constant (Number.plain value))

def Installed.ofEvent? (views : List (String × ViewNumber)) : LiveEvent → Option Installed
  | .activated view c => do
    let element ← owner? views view
    let target ← Bound.ofTarget? views c.target
    return { element, anchor := c.anchor, relation := c.relation, target,
             modifiers := c.modifiers.map ConstraintModifier.plain, priority := c.priority }
  | _ => none

def LiveEvent.constrains (views : List (String × ViewNumber)) : LiveEvent → Bool
  | activated view _ => (owner? views view).isSome
  | _ => false

theorem readConstrains {views : List (String × ViewNumber)} {events : List LiveEvent}
    {read : List Installed} (reads : events.map (Installed.ofEvent? views) = read.map some) :
    events.filter (·.constrains views) = events := by
  refine List.filter_eq_self.mpr fun event member => ?_
  have some := List.mem_map_of_mem (f := Installed.ofEvent? views) member
  rw [reads] at some
  obtain ⟨installed, _, same⟩ := List.mem_map.mp some
  cases event with
  | activated view c =>
    obtain ⟨element, owner, _⟩ := Option.bind_eq_some_iff.mp same.symm
    rw [LiveEvent.constrains, owner]
    rfl
  | _ => cases same

structure Housed (d : ComponentDefinition) (views : List (String × ViewNumber)) : Prop where
  elements : ∀ e ∈ d.elements, e.id.name ∈ views.map Prod.fst
  distinct : (views.map Prod.snd).Nodup

namespace Housed

variable {d : ComponentDefinition} {views : List (String × ViewNumber)}

theorem viewFound (housed : Housed d views) {e : Element} (member : e ∈ d.elements) :
    ∃ view, LiveSession.viewOf d views e.id.name = .ok view ∧
      owner? views view = some e.id.name := by
  obtain ⟨view, found⟩ := Option.isSome_iff_exists.mp
    (Ordered.lookupKnown (housed.elements e member))
  refine ⟨view, by rw [LiveSession.viewOf, found], ?_⟩
  have listed := Ordered.memOfLookup found
  have known : (views.find? (·.2 == view)).isSome = true :=
    List.find?_isSome.mpr ⟨_, listed, beq_self_eq_true view⟩
  obtain ⟨entry, first⟩ := Option.isSome_iff_exists.mp known
  have same : entry.2 = view := by simpa using List.find?_some first
  have inside := List.mem_of_find?_eq_some first
  have only := List.inj_on_of_nodup_map housed.distinct inside listed same
  rw [owner?, first, only]
  rfl

theorem viewBound (housed : Housed d views) {e : Element} (member : e ∈ d.elements)
    (anchor : Option Anchor) : ∃ target,
      (LiveSession.viewOf d views e.id.name).map (.view · anchor) = .ok target ∧
        Bound.ofTarget? views target = some (.surface (.element e.id.name) anchor) := by
  obtain ⟨view, found, owner⟩ := housed.viewFound member
  refine ⟨.view view anchor, by rw [found]; rfl, ?_⟩
  rw [Bound.ofTarget?, owner]
  rfl

theorem safeAreaBound (housed : Housed d views) {e : Element} (member : e ∈ d.elements)
    (anchor : Option Anchor) : ∃ target,
      (LiveSession.viewOf d views e.id.name).map (.safeArea · anchor) = .ok target ∧
        Bound.ofTarget? views target = some (.surface (.safeArea e.id.name) anchor) := by
  obtain ⟨view, found, owner⟩ := housed.viewFound member
  refine ⟨.safeArea view anchor, by rw [found]; rfl, ?_⟩
  rw [Bound.ofTarget?, owner]
  rfl

theorem targetFound (housed : Housed d views) {e parent : Element} (here : e ∈ d.elements)
    (above : parent ∈ d.elements) {c : Constraint}
    (refers : ∀ id, c.reference? = some id → ∃ e ∈ d.elements, e.id.name = id) :
    ∃ target, LiveSession.liveTarget d views e parent c = .ok target ∧
      Bound.ofTarget? views target = some (c.bound e parent) := by
  unfold LiveSession.liveTarget Constraint.bound
  cases target : c.target with
  | parent => exact housed.viewBound above c.targetAnchor
  | this => exact housed.viewBound here c.targetAnchor
  | safeArea => exact housed.safeAreaBound above c.targetAnchor
  | field id =>
    obtain ⟨other, member, rfl⟩ := refers id (by rw [Constraint.reference?, target])
    exact housed.viewBound member c.targetAnchor
  | constant value => exact ⟨.constant value, rfl, rfl⟩

end Housed

namespace LiveSession

variable {s : LiveSession} {d : ComponentDefinition} {views : List (String × ViewNumber)}

theorem activateReads (housed : Housed d views) {e parent : Element} (here : e ∈ d.elements)
    (above : parent ∈ d.elements) {c : Constraint}
    (refers : ∀ id, c.reference? = some id → ∃ e ∈ d.elements, e.id.name = id)
    (state : LiveState) : ∃ event, (activate d views e parent c).outcome state =
      (.ok ⟨⟩, { state with events := state.events ++ [event] }) ∧
        Installed.ofEvent? views event = some (c.installed e parent) := by
  obtain ⟨target, bound, reads⟩ := housed.targetFound here above refers
  obtain ⟨view, found, owner⟩ := housed.viewFound here
  refine ⟨.activated view ⟨c.anchor, c.relation, target, c.modifiers, c.priority⟩, ?_, ?_⟩
  · rw [activate, bound, found]
    rfl
  · rw [Installed.ofEvent?, owner, reads]
    rfl

theorem activateEachReads (housed : Housed d views) {e parent : Element} (here : e ∈ d.elements)
    (above : parent ∈ d.elements) {cs : List Constraint}
    (refers : ∀ c ∈ cs, ∀ id, c.reference? = some id → ∃ e ∈ d.elements, e.id.name = id)
    (state : LiveState) : ∃ added, (cs.forM (activate d views e parent)).outcome state =
      (.ok ⟨⟩, { state with events := state.events ++ added }) ∧
        added.map (Installed.ofEvent? views) = (cs.map (·.installed e parent)).map some := by
  induction cs generalizing state with
  | nil => exact ⟨[], by rw [List.append_nil]; rfl, rfl⟩
  | cons c rest ih =>
    obtain ⟨first, others⟩ := List.forall_mem_cons.mp refers
    obtain ⟨event, activated, reads⟩ := activateReads housed here above first state
    obtain ⟨added, remaining, readAll⟩ := ih others { state with events := state.events ++ [event] }
    refine ⟨event :: added, ?_, ?_⟩
    · rw [List.forM, Task.bindOk activated, remaining]
      simp
    · rw [List.map_cons, reads, readAll]
      rfl

theorem holdsActive (s : LiveSession) : s.holds = Constraint.active s.traits := by
  funext c
  unfold holds Constraint.active
  cases c.condition <;> rfl

/- An element after the other, no constraint fails, since the elements that it needs have views. -/
theorem activateAllReads (housed : Housed d views) {elements : List Element.Parented}
    (within : ∀ e parent, (e, some parent) ∈ elements → e ∈ d.elements ∧ parent ∈ d.elements ∧
      ∀ c ∈ e.layout, ∀ id, c.reference? = some id → ∃ e ∈ d.elements, e.id.name = id)
    (state : LiveState) : ∃ added, (s.activateAll d views elements).outcome state =
      (.ok added.length, { state with events := state.events ++ added }) ∧
        added.map (Installed.ofEvent? views) = (elements.flatMap fun
          | (_, none) => []
          | (e, some parent) =>
            (e.layout.filter (·.active s.traits)).map (·.installed e parent)).map some := by
  induction elements generalizing state with
  | nil => exact ⟨[], by rw [List.append_nil]; rfl, rfl⟩
  | cons parented rest ih =>
    obtain ⟨e, parent⟩ := parented
    have later := ih fun e parent member => within e parent (List.mem_cons_of_mem _ member)
    cases parent with
    | none => exact later state
    | some parent =>
      obtain ⟨here, above, refers⟩ := within e parent List.mem_cons_self
      obtain ⟨added, activated, reads⟩ := activateEachReads housed here above
        (fun c kept => refers c (List.mem_filter.mp kept).1) state
      obtain ⟨more, remaining, readAll⟩ := later { state with events := state.events ++ added }
      refine ⟨added ++ more, ?_, ?_⟩
      · rw [activateAll, holdsActive, Task.bindOk activated, Task.bindOk remaining]
        have count := congrArg List.length reads
        simp only [List.length_map] at count
        simp [count]
      · rw [List.map_append, reads, readAll, ← List.map_append]
        rfl

theorem ownerListed {ps : List Placement}
    (listed : views = ps.map fun p => (p.element.id.name, p.view)) {view : ViewNumber}
    (owned : (owner? views view).isSome = true) : ∃ p ∈ ps, p.view = view := by
  rw [owner?, Option.isSome_map, List.find?_isSome, listed] at owned
  obtain ⟨entry, member, same⟩ := owned
  obtain ⟨p, inside, rfl⟩ := List.mem_map.mp member
  exact ⟨p, inside, eq_of_beq same⟩

def placeAll (s : LiveSession) (inner : Builder) (d : ComponentDefinition) (root : ViewNumber)
    (arguments : StateValues) : Live Placed := do
  let resolved ← Live.resolving (s.registry.resolve d)
  let state := arguments ++ resolved.state.map fun item => (item.name, item.default)
  d.root.withParents.foldlM (s.place inner resolved state root) {}

theorem buildAfter {depth : Nat} {root : ViewNumber} {arguments : StateValues}
    {state now next : LiveState} {placed : Placed} {active : Nat}
    (views : (s.placeAll (s.build depth) d root arguments).outcome state = (.ok placed, now))
    (activated : (s.activateAll d placed.views d.root.withParents).outcome now =
      (.ok active, next)) :
    (s.build (depth + 1) d root arguments).outcome state =
      (.ok (.node placed.views placed.nested active), next) := by
  obtain ⟨res, u, resolved, folded⟩ := Task.bindGives.mp views
  rw [build, Task.bindOk resolved, Task.bindOk folded, Task.bindOk activated]
  rfl

/- Nothing is known of the views of a component but to the component itself: what is built within it
has constraints on views of its own only. -/
theorem placedHoused (distinct : (d.elements.map (·.id.name)).Nodup) {depth : Nat}
    {root : ViewNumber} {arguments : StateValues} {state now : LiveState} {placed : Placed}
    (below : root ≤ state.made)
    (views : (s.placeAll (s.build depth) d root arguments).outcome state = (.ok placed, now)) :
    Housed d placed.views ∧ ∃ placing, now.events = state.events ++ placing ∧
      placing.filter (·.constrains placed.views) = [] := by
  obtain ⟨res, u, resolved, folded⟩ := Task.bindGives.mp views
  obtain ⟨resolver, _, rfl⟩ := Live.resolvingGives resolved
  have low : root ≤ ({ state with resolver } : LiveState).made := below
  obtain ⟨ps, elements, progress⟩ :=
    placedGives (buildConfined s depth) (staysAlways _ _ _) trivial low folded
  have listed := viewsListed distinct elements progress
  refine ⟨⟨?_, ?_⟩, ps.flatMap Placement.events, progress.events, ?_⟩
  · intro e member
    rw [← elements] at member
    obtain ⟨p, inside, rfl⟩ := List.mem_map.mp member
    rw [listed, List.map_map]
    exact List.mem_map_of_mem inside
  · rw [listed, List.map_map]
    exact progress.distinct
  · refine List.filter_eq_nil_iff.mpr fun event member constrains => ?_
    cases event with
    | activated view c =>
      obtain ⟨p, inside, same⟩ := ownerListed listed constrains
      have foreign := progress.foreign _ member p inside
      rw [LiveEvent.activatesView, same, beq_self_eq_true] at foreign
      cases foreign
    | _ => cases constrains

theorem buildLaysOut (distinct : (d.elements.map (·.id.name)).Nodup) {plan : LayoutPlan}
    {before after : ResolverState}
    (planned : (LayoutPlan.ofDefinition d).outcome before = (.ok plan, after))
    (free : d.find? "safeAreaLayoutGuide" = none) {depth : Nat} {root : ViewNumber}
    {arguments : StateValues} {state now : LiveState} {placed : Placed}
    (below : root ≤ state.made)
    (views : (s.placeAll (s.build depth) d root arguments).outcome state = (.ok placed, now)) :
    ∃ next run, (s.build (depth + 1) d root arguments).outcome state =
        (.ok (.node placed.views placed.nested (plan.installs d s.traits).length), next) ∧
      next.events = state.events ++ run ∧
      ((run.filter (·.constrains placed.views)).map (Installed.ofEvent? placed.views)).Perm
        ((plan.installs d s.traits).map some) := by
  obtain ⟨housed, placing, events, foreign⟩ := placedHoused distinct below views
  have targets := (LayoutPlan.planPlanned planned).targets
  obtain ⟨added, activated, reads⟩ := activateAllReads housed
    (fun e parent inside => ⟨Element.memWithParents inside, Element.parentWithin inside,
      fun c listed => targets c (List.mem_flatMap.mpr ⟨_, inside, listed⟩)⟩) now
  have same : (added.map (Installed.ofEvent? placed.views)).Perm
      ((plan.installs d s.traits).map some) := by
    rw [reads]
    exact ((LayoutPlan.installsActive free planned s.traits).map some).symm
  have count : added.length = (plan.installs d s.traits).length := by
    simpa using same.length_eq
  rw [← count]
  refine ⟨_, placing ++ added, buildAfter views activated, ?_, ?_⟩
  · rw [events, List.append_assoc]
  · rwa [List.filter_append, foreign, readConstrains reads, List.nil_append]

end LiveSession

namespace Registry

theorem layoutsAgree {s : LiveSession} (filled : s.registry.Filled) {d : ComponentDefinition}
    (member : d ∈ s.registry.allDefinitions) {plan : LayoutPlan} {before after : ResolverState}
    (planned : (LayoutPlan.ofDefinition d).outcome before = (.ok plan, after))
    (free : d.find? "safeAreaLayoutGuide" = none) {state now : LiveState}
    {placed : LiveSession.Placed}
    (views : (s.placeAll (s.build s.host.limit) d 0 []).outcome state = (.ok placed, now)) :
    ∃ next run, (s.apply d).outcome state =
        (.ok (.node placed.views placed.nested (plan.installs d s.traits).length), next) ∧
      next.events = state.events ++ run ∧
      ((run.filter (·.constrains placed.views)).map (Installed.ofEvent? placed.views)).Perm
        ((plan.installs d s.traits).map some) :=
  LiveSession.buildLaysOut (allDefinitionsTidy filled member).ids planned free (Nat.zero_le _) views

def sessionOf (files : List (String × String)) : LiveSession :=
  { registry := ofTexts {} files, host := {}, theme := "default", traits := {} }

def placedBy (s : LiveSession) (d : ComponentDefinition) : Result LiveSession.Placed × LiveState :=
  (s.placeAll (s.build s.host.limit) d 0 []).outcome {}

def activatedBy (s : LiveSession) (d : ComponentDefinition) (views : List (String × ViewNumber)) :
    List (Option Installed) :=
  (((s.apply d).outcome {}).2.events.filter (·.constrains views)).map (Installed.ofEvent? views)

/- On a phone, the constraint for a pad is not activated, and the mark within the tag is constrained
by the tag alone. -/
def tagFile : String × String := ("Tag", "<Tag><Label id=\"mark\" layout:top=\"super\"/></Tag>")

def shelfFile : String × String :=
  ("Shelf", "<Shelf>" ++
    "<Label id=\"title\" layout:top=\"safeArea\" layout:width=\"[phone] :lt 40 @high\"/>" ++
    "<Tag id=\"tag\" layout:below=\"title offset(8)\" layout:left=\"[pad] super\"/></Shelf>")

def shelfPlan : Result LayoutPlan × ResolverState :=
  (LayoutPlan.ofDefinition (ofText shelfFile)).outcome {}

def shelfViews : List (String × ViewNumber) := [("self", 0), ("title", 1), ("tag", 2)]

def shelfLayout : List Installed :=
  [{ element := "title", anchor := .top, relation := .equal,
     target := .surface (.safeArea "self") none, modifiers := [], priority := 1000 },
   { element := "title", anchor := .width, relation := .lessOrEqual, target := .constant 40.0,
     modifiers := [], priority := 750 },
   { element := "tag", anchor := .top, relation := .equal,
     target := .surface (.element "title") (some .bottom), modifiers := [.offset 8.0],
     priority := 1000 }]

theorem shelfComputed : ([tagFile, shelfFile].all fun file => (reading file).isOk) = true ∧
    shelfPlan.1.isOk = true ∧ ((ofText shelfFile).find? "safeAreaLayoutGuide").isNone = true ∧
    ((placedBy (sessionOf [tagFile, shelfFile]) (ofText shelfFile)).1.toOption.any fun placed =>
      placed.views == shelfViews) = true ∧
    activatedBy (sessionOf [tagFile, shelfFile]) (ofText shelfFile) shelfViews =
      shelfLayout.map some := by
  have tag : reading tagFile = _ := readingLetters rfl
  have own : reading shelfFile = _ :=
    readingLetters (Text.lettersAppend (Text.lettersAppend rfl rfl) rfl)
  simp only [shelfPlan, sessionOf, ofTexts, ofText, List.all_cons, List.foldl_cons, List.foldl_nil,
    tag, own]
  decide +kernel

theorem shelfLaidOut : ∃ plan t, shelfPlan = (.ok plan, t) ∧
    (plan.installs (ofText shelfFile) {}).Perm shelfLayout := by
  obtain ⟨readable, planned, free, placed, activated⟩ := shelfComputed
  obtain ⟨plan, t, planned⟩ := Result.okGives planned
  obtain ⟨placed, ok, views⟩ := Result.anyOk placed
  obtain ⟨next, run, built, events, same⟩ := layoutsAgree (s := sessionOf [tagFile, shelfFile])
    (ofTextsFilled {} readable) (definitionIncluded (lastRegistered {} [tagFile] shelfFile))
    planned (Option.isNone_iff_eq_none.mp free) (Prod.ext ok rfl)
  refine ⟨plan, t, planned, (List.map_perm_map_iff (Option.some_injective _)).mp ?_⟩
  rw [eq_of_beq views] at same
  rw [activatedBy, built, events] at activated
  exact same.symm.trans (.of_eq activated)

/- A container has taken the name of the safe area: the one text names the container for the label
within, and the safe area for the label below. -/
def guideFile : String × String :=
  ("Card", "<Card><Container id=\"safeAreaLayoutGuide\">" ++
    "<Label id=\"inner\" layout:top=\"super\"/></Container>" ++
    "<Label id=\"title\" layout:top=\"safeArea\"/></Card>")

def guideSession : LiveSession := sessionOf [guideFile]

def guidePlan : Result LayoutPlan × ResolverState :=
  (LayoutPlan.ofDefinition (ofText guideFile)).outcome {}

theorem guideShadowsSafeArea : ∃ plan placed, guideSession.registry.Filled ∧
    ofText guideFile ∈ guideSession.registry.allDefinitions ∧ guidePlan.1 = .ok plan ∧
    (placedBy guideSession (ofText guideFile)).1 = .ok placed ∧
    ((guideSession.apply (ofText guideFile)).outcome {}).1.isOk = true ∧
    ¬ (activatedBy guideSession (ofText guideFile) placed.views).Perm
      ((plan.installs (ofText guideFile) {}).map some) := by
  have computed : ([guideFile].all fun file => (reading file).isOk) = true ∧
      ((guideSession.apply (ofText guideFile)).outcome {}).1.isOk = true ∧
      (guidePlan.1.toOption.any fun plan =>
        (placedBy guideSession (ofText guideFile)).1.toOption.any fun placed =>
          !decide ((activatedBy guideSession (ofText guideFile) placed.views).Perm
            ((plan.installs (ofText guideFile) {}).map some))) = true := by
    have read : reading guideFile = _ :=
      readingLetters (Text.lettersAppend (Text.lettersAppend rfl rfl) rfl)
    simp only [guidePlan, guideSession, sessionOf, ofTexts, ofText, List.all_cons, List.foldl_cons,
      List.foldl_nil, read]
    decide +kernel
  obtain ⟨readable, applied, shown⟩ := computed
  obtain ⟨plan, planned, shown⟩ := Result.anyOk shown
  obtain ⟨placed, views, apart⟩ := Result.anyOk shown
  have member := definitionIncluded (lastRegistered {} [] guideFile)
  exact ⟨plan, placed, ofTextsFilled {} readable, member, planned, views, applied,
    by simpa using apart⟩

end Registry
end ViewForge
