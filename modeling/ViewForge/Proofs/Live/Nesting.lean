import Mathlib.Algebra.Order.BigOperators.Group.List
import Mathlib.Algebra.Order.Group.Nat
import ViewForge.Proofs.Live.Session
import ViewForge.Proofs.Resolve.Component

/-! Components built one into the other. A run ends if no component that is met contains itself, and
then the components under construction are never more than there are definitions; a component that
does contain itself is built until no further view can be made. Runs that are allowed more views or
a deeper nesting are followed side by side with runs that are allowed less. -/
open Relation (ReflTransGen TransGen)
namespace ViewForge

def Registry.Contains (r : Registry) (d inner : ComponentDefinition) : Prop :=
  ∃ e parent, (e, some parent) ∈ d.root.withParents ∧ r.behind? e = some inner

def Registry.Unnested (r : Registry) (d : ComponentDefinition) : Prop :=
  ∀ x, ReflTransGen r.Contains d x → ¬ TransGen r.Contains x x

theorem Registry.containedIncluded {r : Registry} {d inner : ComponentDefinition}
    (member : d ∈ r.allDefinitions) (step : r.Contains d inner) : inner ∈ r.allDefinitions := by
  obtain ⟨e, parent, listed, found⟩ := step
  exact behindIncluded member (Element.memWithParents listed) found

theorem Registry.unnestedStep {r : Registry} {d inner : ComponentDefinition}
    (unnested : r.Unnested d) (step : r.Contains d inner) : r.Unnested inner :=
  fun x reached => unnested x (.head step reached)

namespace Live

/-- Where so many views have been made that `P` holds, the two runs are the same, and if they
succeed `Q` holds of the views that have been made in the end. -/
def Agree {α : Type} (P Q : Nat → Prop) (x y : Live α) : Prop :=
  ∀ state, P state.made → x.outcome state = y.outcome state ∧
    ∀ a next, x.outcome state = (.ok a, next) → Q next.made

variable {α β : Type} {P M Q : Nat → Prop}

theorem agreeImp {P' Q' : Nat → Prop} {x y : Live α} (agree : Agree P Q x y)
    (before : ∀ made, P' made → P made) (after : ∀ made, Q made → Q' made) : Agree P' Q' x y := by
  intro state holds
  obtain ⟨same, kept⟩ := agree state (before _ holds)
  exact ⟨same, fun a next ok => after _ (kept a next ok)⟩

theorem agreeSelf {x : Live α}
    (kept : ∀ state a next, x.outcome state = (.ok a, next) → next.made = state.made) :
    Agree P P x x := by
  intro state holds
  refine ⟨rfl, fun a next ok => ?_⟩
  rw [kept state a next ok]
  exact holds

theorem agreePure (a : α) : Agree P P (pure a : Live α) (pure a) := by
  refine agreeSelf fun state b next ok => ?_
  cases ok
  rfl

theorem agreeBind {x y : Live α} {f g : α → Live β} (first : Agree P M x y)
    (rest : ∀ a, (∃ state next, x.outcome state = (.ok a, next)) → Agree M Q (f a) (g a)) :
    Agree P Q (x >>= f) (y >>= g) := by
  intro state holds
  obtain ⟨same, kept⟩ := first state holds
  cases run : x.outcome state with
  | mk result next =>
    rw [run] at same
    cases result with
    | error e =>
      rw [Task.bindError run, Task.bindError same.symm]
      exact ⟨rfl, fun a next ok => by cases ok⟩
    | ok a =>
      rw [Task.bindOk run, Task.bindOk same.symm]
      exact rest a ⟨state, next, run⟩ next (kept a next run)

theorem agreeFold {J : Nat → Nat → Prop} {f g : β → α → Live β} {as : List α}
    (each : ∀ a ∈ as, ∀ i b, Agree (J (i + 1)) (J i) (f b a) (g b a)) (b : β) :
    Agree (J as.length) (J 0) (as.foldlM f b) (as.foldlM g b) := by
  induction as generalizing b with
  | nil => exact agreePure b
  | cons a as ih =>
    rw [List.foldlM_cons, List.foldlM_cons]
    refine agreeBind (each a List.mem_cons_self as.length b) fun m _ => ?_
    exact ih (fun x member => each x (List.mem_cons_of_mem _ member)) m

theorem agreeResolving (work : Resolve α) : Agree P P (resolving work) (resolving work) := by
  refine agreeSelf fun state a next ok => ?_
  obtain ⟨_, _, rfl⟩ := resolvingGives ok
  rfl

end Live

namespace LiveSession
open Live

def withLimit (s : LiveSession) (limit : Nat) : LiveSession :=
  { s with host := { s.host with limit } }

def buildFrom (s : LiveSession) (inner : Builder) : Builder := fun d root arguments => do
  let resolved ← resolving (s.registry.resolve d)
  let state := arguments ++ resolved.state.map fun item => (item.name, item.default)
  let placed ← d.root.withParents.foldlM (s.place inner resolved state root) {}
  let active ← s.activateAll d placed.views d.root.withParents
  return .node placed.views placed.nested active

/-- Builds a component while at most so many components are built inside each other; `beyond` stands
for whatever would come of one more. -/
def buildWithin (s : LiveSession) (beyond : Builder) : Nat → Builder
  | 0 => beyond
  | n + 1 => s.buildFrom (s.buildWithin beyond n)

def exhausted : Builder := fun d _ _ => throw (.missingFactory d.typeName)

theorem buildIs (s : LiveSession) (n : Nat) : s.build n = s.buildWithin exhausted n := by
  induction n with
  | zero =>
    funext d root arguments
    rw [build]
    rfl
  | succ n ih =>
    funext d root arguments
    rw [build, buildWithin, ← ih]
    rfl

variable {s : LiveSession} {limit : Nat} {J M : Nat → Nat → Prop} {b other : Builder}

theorem insertLimit (s : LiveSession) (limit : Nat) : (s.withLimit limit).insert = s.insert := by
  funext parentType parent child inserters
  induction inserters with
  | nil => rfl
  | cons inserter rest ih =>
    rw [insert, insert, ih]
    rfl

theorem activateAllLimit (s : LiveSession) (limit : Nat) :
    (s.withLimit limit).activateAll = s.activateAll := by
  funext d views elements
  induction elements with
  | nil => rfl
  | cons parented rest ih =>
    obtain ⟨e, parent⟩ := parented
    cases parent with
    | none => rw [activateAll, activateAll, ih]
    | some parent =>
      rw [activateAll, activateAll, ih]
      rfl

/-- What is known of the number of views while one element after the other is placed, with so many
yet to come: before an element, and as soon as its view is made. -/
structure Budget (s : LiveSession) (limit : Nat) (J M : Nat → Nat → Prop) : Prop where
  making : ∀ i request, Agree (J (i + 1)) (M i) (s.instantiate request)
    ((s.withLimit limit).instantiate request)
  idle : ∀ i made, M i made → J i made
  skip : ∀ i made, J (i + 1) made → J i made

theorem makeViewAgrees (budget : s.Budget limit J M) (i : Nat) (d : ComponentDefinition)
    (placed : Placed) (e parent : Element) :
    Agree (J (i + 1)) (M i) (s.makeView d placed e parent)
      ((s.withLimit limit).makeView d placed e parent) := by
  unfold makeView
  rw [insertLimit]
  refine agreeBind (budget.making i _) fun view _ => agreeSelf fun state a next ok => ?_
  obtain ⟨parentView, _, ok⟩ := Task.liftBindGives ok
  obtain ⟨_, _, inserted, last⟩ := Task.bindGives.mp ok
  obtain ⟨_, _, _, rfl⟩ := insertGives inserted
  cases last
  rfl

theorem definitionForBehind {r : Registry} {e : Element} {x : ComponentDefinition}
    {state next : LiveState}
    (ok : (resolving (r.definitionFor e)).outcome state = (.ok x, next)) :
    r.behind? e = some x := by
  obtain ⟨_, run, _⟩ := resolvingGives ok
  exact Registry.definitionForGives run

theorem placeNestedAgrees {P Q : Nat → Prop} {e : Element}
    (inner : ∀ x, s.registry.behind? e = some x → ∀ view arguments,
      Agree P Q (b x view arguments) (other x view arguments)) (idle : ∀ made, P made → Q made)
    (values : StateValues) (view : ViewNumber) (placed : Placed) :
    Agree P Q (s.placeNested b values view placed e)
      ((s.withLimit limit).placeNested other values view placed e) := by
  unfold placeNested
  cases e.kind with
  | widget w => exact agreeImp (agreePure placed) (fun _ holds => holds) idle
  | component reference =>
    refine agreeBind (agreeResolving _) fun x found => ?_
    obtain ⟨_, _, found⟩ := found
    refine agreeBind (agreeSelf fun state a next ok => (componentStateGives ok).2)
      fun arguments _ => ?_
    exact agreeBind (inner x (definitionForBehind found) view arguments) fun tree _ => agreePure _

theorem placeAgrees (budget : s.Budget limit J M) {e : Element} {parent : Option Element}
    (inner : parent.isSome = true → ∀ x, s.registry.behind? e = some x → ∀ i view arguments,
      Agree (M i) (J i) (b x view arguments) (other x view arguments)) (i : Nat)
    (res : Resolved) (values : StateValues) (root : ViewNumber) (placed : Placed) :
    Agree (J (i + 1)) (J i) (s.place b res values root placed (e, parent))
      ((s.withLimit limit).place other res values root placed (e, parent)) := by
  have applied : ∀ (P : Nat → Prop) view, Agree P P
      ((res.propertiesOf e).forM (s.applyProperty values view))
      ((res.propertiesOf e).forM ((s.withLimit limit).applyProperty values view)) :=
    fun P view => agreeSelf fun state a next ok => (applyPropertiesGive ok).choose_spec.2.1
  unfold place
  cases parent with
  | none =>
    refine agreeImp (agreeBind (agreePure root) fun view _ => ?_) (fun _ holds => holds)
      (budget.skip i)
    exact agreeBind (applied _ view) fun _ _ => agreePure _
  | some parent =>
    refine agreeBind (makeViewAgrees budget i _ _ _ _) fun view _ => ?_
    refine agreeBind (applied _ view) fun _ _ => ?_
    exact placeNestedAgrees (fun x found => inner rfl x found i) (budget.idle i) _ _ _

theorem buildFromAgrees (budget : s.Budget limit J M) {d : ComponentDefinition}
    (inner : ∀ x, s.registry.Contains d x → ∀ i view arguments,
      Agree (M i) (J i) (b x view arguments) (other x view arguments))
    (root : ViewNumber) (arguments : StateValues) :
    Agree (J d.elements.length) (J 0) (s.buildFrom b d root arguments)
      ((s.withLimit limit).buildFrom other d root arguments) := by
  have count : d.elements.length = d.root.withParents.length := by
    rw [← List.length_map (f := Prod.fst), Element.withParentsFirst]
    rfl
  unfold buildFrom
  rw [activateAllLimit, count]
  refine agreeBind (agreeResolving _) fun res _ => ?_
  refine agreeBind (agreeFold (fun parented listed i placed => ?_) _) fun placed _ => ?_
  · obtain ⟨e, parent⟩ := parented
    refine placeAgrees budget (fun some x found => ?_) i _ _ _ _
    obtain ⟨parent, rfl⟩ := Option.isSome_iff_exists.mp some
    exact inner x ⟨e, parent, listed, found⟩
  · refine agreeBind (agreeSelf fun state a next ok => ?_) fun active _ => agreePure _
    obtain ⟨_, _, _, rfl⟩ := activateAllGives ok
    rfl

theorem instantiateLimit (request : Instantiation) (state : LiveState)
    (same : state.made < s.host.limit ↔ state.made < limit) :
    ((s.withLimit limit).instantiate request).outcome state =
      (s.instantiate request).outcome state := by
  have able : (s.withLimit limit).host.canMake request state.made =
      s.host.canMake request state.made :=
    congrArg (!s.host.unsupported.contains request.runtimeType && ·)
      (decide_eq_decide.mpr same.symm)
  unfold instantiate
  simp only [Task.getBind, able]

theorem instantiateMakes {request : Instantiation} {state next : LiveState} {view : ViewNumber}
    (ok : (s.instantiate request).outcome state = (.ok view, next)) :
    state.made < s.host.limit ∧ next.made = state.made + 1 := by
  obtain ⟨_, rfl⟩ := instantiateGives ok
  refine ⟨?_, rfl⟩
  unfold instantiate at ok
  simp only [Task.getBind] at ok
  split at ok
  · simp at ok
  · rename_i able
    simp only [Host.canMake, Bool.not_eq_true', Bool.not_eq_false, Bool.and_eq_true,
      decide_eq_true_eq] at able
    exact able.2

/- Whatever is nested has been given a view, so that the views bound the nesting as well. -/
theorem withinViews (beyond other : Builder) {k n m : Nat} (room : k ≤ n) (room' : k ≤ m)
    (d : ComponentDefinition) (root : ViewNumber) (arguments : StateValues) :
    Agree (fun made => s.host.limit < made + (k + 1)) (fun made => s.host.limit < made + (k + 1))
      (s.buildWithin beyond (n + 1) d root arguments)
      (s.buildWithin other (m + 1) d root arguments) := by
  induction k generalizing n m d root arguments with
  | zero =>
    have budget : s.Budget s.host.limit (fun _ made => s.host.limit < made + 1)
        (fun _ _ => False) := by
      refine ⟨fun _ request state few => ⟨rfl, fun view next ok => ?_⟩, by simp, by simp⟩
      have below := (instantiateMakes ok).1
      omega
    exact buildFromAgrees budget (fun _ _ _ _ _ _ never => never.elim) root arguments
  | succ k ih =>
    have budget : s.Budget s.host.limit (fun _ made => s.host.limit < made + (k + 2))
        (fun _ made => s.host.limit < made + (k + 1)) := by
      refine ⟨fun _ request state few => ⟨rfl, fun view next ok => ?_⟩, ?_, by simp⟩
      · have more := (instantiateMakes ok).2
        omega
      · intro _ made few
        omega
    obtain ⟨n, rfl⟩ := Nat.exists_eq_add_of_le' (Nat.le_trans (Nat.le_add_left 1 k) room)
    obtain ⟨m, rfl⟩ := Nat.exists_eq_add_of_le' (Nat.le_trans (Nat.le_add_left 1 k) room')
    refine buildFromAgrees budget (fun x _ _ view given => ?_) root arguments
    refine agreeImp (ih (by omega) (by omega) x view given) (fun _ few => few) fun _ few => ?_
    omega

structure Affords (s : LiveSession) (limit : Nat) (I : Nat → Nat → Prop) : Prop where
  weaker : ∀ {c c' made}, c ≤ c' → I c' made → I c made
  making : ∀ c request, Agree (I (c + 1)) (I c) (s.instantiate request)
    ((s.withLimit limit).instantiate request)

theorem affordsBudget {I : Nat → Nat → Prop} (affords : s.Affords limit I) (c v : Nat) :
    s.Budget limit (fun i => I (c + i * (v + 1))) (fun i => I (c + i * (v + 1) + v)) where
  making i request := by
    have step := affords.making (c + i * (v + 1) + v) request
    have same : c + i * (v + 1) + v + 1 = c + (i + 1) * (v + 1) := by
      rw [Nat.succ_mul]
      omega
    rwa [same] at step
  idle i made := affords.weaker (Nat.le_add_right _ _)
  skip i made := affords.weaker (by rw [Nat.succ_mul]; omega)

def viewsWithin (most : Nat) : Nat → Nat
  | 0 => 0
  | depth + 1 => most * (viewsWithin most depth + 1)

/- The components around one that is being built, in the order in which they contain each other. -/
structure Way (r : Registry) (way : List ComponentDefinition) (d : ComponentDefinition) : Prop where
  distinct : way.Nodup
  within : way ⊆ r.allDefinitions
  leads : ∀ x ∈ way, TransGen r.Contains x d

theorem wayEnters {r : Registry} {way : List ComponentDefinition} {d : ComponentDefinition}
    (whole : Way r way d) (member : d ∈ r.allDefinitions) (unnested : r.Unnested d) :
    (way ++ [d]).Nodup ∧ way ++ [d] ⊆ r.allDefinitions := by
  have fresh : d ∉ way := fun inside => unnested d .refl (whole.leads d inside)
  constructor
  · refine List.nodup_append.mpr ⟨whole.distinct, List.nodup_singleton _, ?_⟩
    rintro x before last final rfl
    exact fresh (List.mem_singleton.mp final ▸ before)
  · exact List.append_subset.mpr ⟨whole.within, by simpa using member⟩

theorem wayStep {r : Registry} {way : List ComponentDefinition} {d inner : ComponentDefinition}
    (whole : Way r way d) (member : d ∈ r.allDefinitions) (unnested : r.Unnested d)
    (step : r.Contains d inner) : Way r (way ++ [d]) inner := by
  obtain ⟨distinct, within⟩ := wayEnters whole member unnested
  refine ⟨distinct, within, fun x listed => ?_⟩
  rcases List.mem_append.mp listed with before | final
  · exact (whole.leads x before).tail step
  · exact List.mem_singleton.mp final ▸ .single step

theorem withinDefinitions {I : Nat → Nat → Prop} (affords : s.Affords limit I)
    (beyond other : Builder) {most : Nat}
    (fewer : ∀ x ∈ s.registry.allDefinitions, x.elements.length ≤ most) {k n m : Nat}
    (room : k ≤ n) (room' : k ≤ m) {way : List ComponentDefinition} {d : ComponentDefinition}
    (whole : Way s.registry way d) (left : s.registry.allDefinitions.length ≤ k + way.length)
    (member : d ∈ s.registry.allDefinitions) (unnested : s.registry.Unnested d) (c : Nat)
    (root : ViewNumber) (arguments : StateValues) :
    Agree (I (c + viewsWithin most k)) (I c) (s.buildWithin beyond n d root arguments)
      ((s.withLimit limit).buildWithin other m d root arguments) := by
  induction k generalizing n m way d c root arguments with
  | zero =>
    -- A way as long as there are definitions would hold the component already.
    obtain ⟨distinct, within⟩ := wayEnters whole member unnested
    have short := (List.subperm_of_subset distinct within).length_le
    rw [List.length_append, List.length_singleton] at short
    omega
  | succ k ih =>
    obtain ⟨n, rfl⟩ := Nat.exists_eq_add_of_le' (Nat.le_trans (Nat.le_add_left 1 k) room)
    obtain ⟨m, rfl⟩ := Nat.exists_eq_add_of_le' (Nat.le_trans (Nat.le_add_left 1 k) room')
    have inner : ∀ x, s.registry.Contains d x → ∀ i view given,
        Agree (I (c + i * (viewsWithin most k + 1) + viewsWithin most k))
          (I (c + i * (viewsWithin most k + 1))) (s.buildWithin beyond n x view given)
          ((s.withLimit limit).buildWithin other m x view given) := by
      intro x contained i view given
      refine ih (by omega) (by omega) (wayStep whole member unnested contained) ?_
        (Registry.containedIncluded member contained) (Registry.unnestedStep unnested contained)
        _ view given
      rw [List.length_append, List.length_singleton]
      omega
    have step := buildFromAgrees (affordsBudget affords c (viewsWithin most k)) inner root arguments
    refine agreeImp step (fun made => affords.weaker ?_) fun made => affords.weaker (by simp)
    have bound := Nat.mul_le_mul_right (viewsWithin most k + 1) (fewer d member)
    rw [viewsWithin]
    omega

theorem affordsAny (s : LiveSession) : s.Affords s.host.limit fun _ _ => True :=
  ⟨fun _ _ => trivial, fun _ _ _ _ => ⟨rfl, fun _ _ _ => trivial⟩⟩

theorem affordsBelow {most : Nat} (below : most ≤ s.host.limit) (below' : most ≤ limit) :
    s.Affords limit fun c made => made + c ≤ most where
  weaker fewer room := by omega
  making c request state room := by
    have same : ((s.withLimit limit).instantiate request).outcome state =
        (s.instantiate request).outcome state :=
      instantiateLimit request state ⟨fun _ => by omega, fun _ => by omega⟩
    refine ⟨same.symm, fun view next ok => ?_⟩
    have more := (instantiateMakes ok).2
    omega

theorem elementsBounded (r : Registry) : ∃ most, ∀ x ∈ r.allDefinitions,
    x.elements.length ≤ most := by
  refine ⟨(r.allDefinitions.map fun x => x.elements.length).sum, fun x member => ?_⟩
  exact List.single_le_sum (by simp) _ (List.mem_map_of_mem member)

theorem startOfWay (r : Registry) (d : ComponentDefinition) : Way r [] d :=
  ⟨List.nodup_nil, List.nil_subset _, by simp⟩

/- A component that is built has all its components built, which comes to an end. -/
theorem builtStep {b : Builder} {d inner : ComponentDefinition} {root : ViewNumber}
    {arguments : StateValues} {state next : LiveState} {tree : LiveTree}
    (ok : (s.buildFrom b d root arguments).outcome state = (.ok tree, next))
    (step : s.registry.Contains d inner) :
    ∃ view given before tree after, (b inner view given).outcome before = (.ok tree, after) := by
  obtain ⟨e, parent, listed, found⟩ := step
  unfold buildFrom at ok
  obtain ⟨res, _, _, ok⟩ := Task.bindGives.mp ok
  obtain ⟨placed, _, folded, _⟩ := Task.bindGives.mp ok
  obtain ⟨_, _, _, _, placed⟩ := Task.foldlGivesEach folded listed
  unfold place at placed
  obtain ⟨view, _, _, placed⟩ := Task.bindGives.mp placed
  obtain ⟨_, _, _, nested⟩ := Task.bindGives.mp placed
  rcases placeNestedCases nested with
    ⟨plain, _, _⟩ | ⟨_, x, _, given, before, tree, _, defined, _, built, _⟩
  · simp [Registry.behind?, plain] at found
  · cases Option.some.inj ((definitionForBehind defined).symm.trans found)
    exact ⟨view, given, before, tree, _, built⟩

theorem builtAccessible {n : Nat} {d : ComponentDefinition} {root : ViewNumber}
    {arguments : StateValues} {state next : LiveState} {tree : LiveTree}
    (ok : (s.buildWithin exhausted n d root arguments).outcome state = (.ok tree, next)) :
    Acc (fun inner outer => s.registry.Contains outer inner) d := by
  induction n generalizing d root arguments state tree next with
  | zero => cases ok
  | succ n ih =>
    refine ⟨d, fun inner step => ?_⟩
    obtain ⟨_, _, _, _, _, built⟩ := builtStep ok step
    exact ih built

theorem accessibleUnnested {r : Registry} {d : ComponentDefinition}
    (accessible : Acc (fun inner outer => r.Contains outer inner) d) : r.Unnested d := by
  intro x reached
  have below : Acc (fun inner outer => r.Contains outer inner) x := by
    induction reached with
    | refl => exact accessible
    | tail _ step ih => exact ih.inv step
  induction below with
  | intro x _ ih =>
    intro cycle
    obtain ⟨next, step, back⟩ := TransGen.head'_iff.mp cycle
    exact ih next step (reached.tail step) (TransGen.tail' back step)

theorem applyEnds {d : ComponentDefinition} (member : d ∈ s.registry.allDefinitions) :
    (s.registry.Unnested d →
      (∀ beyond n, s.registry.allDefinitions.length ≤ n → ∀ state,
        (s.buildWithin beyond n d 0 []).outcome state = (s.apply d).outcome state) ∧
      ∃ views, ∀ state, ∃ outcome, ∀ limit, state.made + views ≤ limit →
        ((s.withLimit limit).apply d).outcome state = outcome) ∧
    ∀ state tree next, (s.apply d).outcome state = (.ok tree, next) → s.registry.Unnested d := by
  obtain ⟨most, fewer⟩ := elementsBounded s.registry
  refine ⟨fun unnested => ⟨fun beyond n room state => ?_, ?_⟩, fun state tree next ok => ?_⟩
  · -- The nesting that the views allow for and the one that the definitions allow for.
    let deep := n + s.host.limit
    calc (s.buildWithin beyond n d 0 []).outcome state
        = (s.buildWithin beyond (deep + 1) d 0 []).outcome state :=
          (withinDefinitions (affordsAny s) beyond beyond fewer room (by omega) (startOfWay _ d)
            (by simp) member unnested 0 0 [] state trivial).1
      _ = (s.buildWithin exhausted (s.host.limit + 1) d 0 []).outcome state :=
          (withinViews beyond exhausted (k := s.host.limit) (by omega) (Nat.le_refl _) d 0 [] state
            (by omega)).1
      _ = (s.apply d).outcome state := by rw [apply, buildIs]
  · let views := viewsWithin most s.registry.allDefinitions.length
    refine ⟨views + s.registry.allDefinitions.length, fun state => ?_⟩
    let enough := state.made + (views + s.registry.allDefinitions.length)
    refine ⟨((s.withLimit enough).apply d).outcome state, fun limit more => ?_⟩
    have affords : (s.withLimit enough).Affords limit fun c made => made + c ≤ enough :=
      affordsBelow (Nat.le_refl enough) more
    have agree := withinDefinitions affords exhausted exhausted fewer
      (k := s.registry.allDefinitions.length) (n := enough + 1) (m := limit + 1) (by omega)
      (by omega) (startOfWay _ d) (by simp [withLimit]) member unnested 0 0 [] state (by omega)
    rw [apply, apply, buildIs, buildIs]
    exact agree.1.symm
  · rw [apply, buildIs] at ok
    exact accessibleUnnested (builtAccessible ok)

/- The list holds two rows. -/
def listRow : String × String := ("Row", "<Row><Label text=\"x\"/></Row>")

def listFile : String × String := ("List", "<List><Row id=\"a\"/><Row id=\"b\"/></List>")

def listSession : LiveSession :=
  { registry := .ofTexts {} [listRow, listFile], host := {}, theme := "default", traits := {} }

def listDefinition : ComponentDefinition := Registry.ofText listFile

theorem listBuilds : ((listSession.apply listDefinition).outcome {}).1.isOk = true := by
  decide +kernel

theorem listEnds : listSession.registry.Unnested listDefinition ∧
    (∀ beyond n, listSession.registry.allDefinitions.length ≤ n → ∀ state,
      (listSession.buildWithin beyond n listDefinition 0 []).outcome state =
        (listSession.apply listDefinition).outcome state) ∧
    ∃ views, ∀ state, ∃ outcome, ∀ limit, state.made + views ≤ limit →
      ((listSession.withLimit limit).apply listDefinition).outcome state = outcome := by
  obtain ⟨ends, unnested⟩ := applyEnds (s := listSession)
    (Registry.definitionIncluded (Registry.lastRegistered {} [listRow] listFile))
  have ok := Result.okGetD listBuilds (.node [] [] 0)
  have apart := unnested {} _ _ (Prod.ext ok rfl)
  exact ⟨apart, ends apart⟩

/- The component holds nothing but itself. -/
def loopFile : String × String := ("A", "<A><A id=\"a\"/></A>")

def loop : Registry := .ofTexts {} [loopFile]

def loopDefinition : ComponentDefinition := Registry.ofText loopFile

def loopReference : Element :=
  loopDefinition.root.children.headD (Element.bare (.widget .container) Element.rootId)

def loopResolved : Result Resolved := ((loop.resolve loopDefinition).outcome {}).1

/- All that has to be computed, at once: what stands in the component, and that it resolves to one
without properties. -/
theorem loopComputed : (Registry.reading loopFile).isOk = true ∧
    (loopDefinition.typeName, loopDefinition.isAnonymous) = ("A", false) ∧
    loopDefinition.root.children.length = 1 ∧ loopReference.children.length = 0 ∧
    (loopReference.kind matches .component ⟨"A", [], none⟩) = true ∧
    (loopDefinition.root.kind matches .widget .container) = true ∧
    (loopResolved.toOption.any fun res => res.properties.all (·.2.isEmpty)) = true := by
  decide +kernel

theorem loopKind : loopReference.kind = .component ⟨"A", [], none⟩ := by
  have shape := loopComputed.2.2.2.2.1
  split at shape
  · assumption
  · cases shape

theorem loopRootKind : loopDefinition.root.kind = .widget .container := by
  have shape := loopComputed.2.2.2.2.2.1
  split at shape
  · assumption
  · cases shape

theorem loopWalk : loopDefinition.root.withParents =
    [(loopDefinition.root, none), (loopReference, some loopDefinition.root)] := by
  obtain ⟨_, _, single, leaf, _⟩ := loopComputed
  obtain ⟨e, only⟩ := List.length_eq_one_iff.mp single
  have here : loopReference = e := by rw [loopReference, only, List.headD_cons]
  rw [here] at leaf ⊢
  simp [Element.withParents, Element.walkParented, Element.childrenOf, only,
    List.length_eq_zero_iff.mp leaf]

theorem loopBehind : loop.behind? loopReference = some loopDefinition := by
  have named : loopDefinition.typeName = "A" := congrArg Prod.fst loopComputed.2.1
  have listed : loop.components = [("A", [loopDefinition])] := by
    change Ordered.put loopDefinition.typeName [loopDefinition] [] = _
    rw [named]
    rfl
  simp [Registry.behind?, loopKind, ElementKind.reference?, Registry.component?, listed]

theorem loopContains : loop.Contains loopDefinition loopDefinition :=
  ⟨loopReference, loopDefinition.root, by simp [loopWalk], loopBehind⟩

section Loop

variable {res : Resolved} {values : StateValues} {root : ViewNumber} {placed : Placed}

theorem propertiesNone (bare : (res.properties.all (·.2.isEmpty)) = true) (e : Element) :
    res.propertiesOf e = [] := by
  unfold Resolved.propertiesOf
  cases found : res.properties.lookup e.id.name with
  | none => rfl
  | some ps =>
    have empty := List.all_eq_true.mp bare _ (Ordered.memOfLookup found)
    exact List.isEmpty_iff.mp empty

theorem loopPlaceRoot (bare : (res.properties.all (·.2.isEmpty)) = true) (state : LiveState) :
    (s.place b res values root {} (loopDefinition.root, none)).outcome state =
      (.ok { views := [(loopDefinition.root.id.name, root)] }, state) := by
  unfold place
  simp only [propertiesNone bare]
  rfl

theorem loopPlaceFull {state : LiveState} (full : s.host.limit ≤ state.made) :
    (s.place b res values root placed (loopReference, some loopDefinition.root)).outcome state =
      (.error (.missingFactory "A"), state) := by
  have unable : s.host.canMake (.ofKind loopReference.kind) state.made = false := by
    simp [Host.canMake, full]
  have failed : (s.instantiate (.ofKind loopReference.kind)).outcome state =
      (.error (.missingFactory "A"), state) := by
    unfold instantiate
    rw [Task.getBind]
    simp only [unable]
    rw [loopKind]
    rfl
  unfold place makeView
  exact Task.bindError (Task.bindError failed)

theorem loopMakeView (d : ComponentDefinition) (makes : s.host.unsupported = [])
    (takes : s.host.inserters = none) {state : LiveState} (few : state.made < s.host.limit)
    (known : placed.views.lookup loopDefinition.root.id.name = some root) :
    ∃ events, (s.makeView d placed loopReference loopDefinition.root).outcome state =
      (.ok (state.made + 1), { state with made := state.made + 1, events }) := by
  have able : s.host.canMake (.ofKind loopReference.kind) state.made = true := by
    simp [Host.canMake, makes, few]
  have taken : s.host.accepts .subview = true := by simp [Host.accepts, takes]
  have made : (s.instantiate (.ofKind loopReference.kind)).outcome state =
      (.ok (state.made + 1), { state with
        made := state.made + 1
        events := state.events ++ [.instantiated (state.made + 1) (.ofKind loopReference.kind)] })
      := by
    unfold instantiate
    rw [Task.getBind]
    simp only [able]
    rfl
  unfold makeView
  rw [Task.bindOk made, loopRootKind]
  simp only [viewOf, known, Inserter.chain, insert, taken]
  exact ⟨_, rfl⟩

theorem loopPlaceNext (b : Builder) (placed : Placed) (state : LiveState)
    (same : s.registry = loop) (makes : s.host.unsupported = []) (takes : s.host.inserters = none)
    (bare : (res.properties.all (·.2.isEmpty)) = true) (few : state.made < s.host.limit)
    (known : placed.views.lookup loopDefinition.root.id.name = some root) :
    ∃ next, next.made = state.made + 1 ∧ next.resolver.cache = state.resolver.cache ∧
      ∀ values e after, (b loopDefinition (state.made + 1) []).outcome next = (.error e, after) →
        (s.place b res values root placed (loopReference, some loopDefinition.root)).outcome state =
          (.error e, after) := by
  obtain ⟨events, made⟩ := loopMakeView res.definition makes takes few known
  have behind := loopBehind
  rw [← same] at behind
  obtain ⟨warnings, found⟩ := Registry.definitionForFound behind state.resolver
  refine ⟨{ resolver := { state.resolver with warnings }, made := state.made + 1, events }, rfl,
    rfl, fun values e after failed => ?_⟩
  have defined : (resolving (s.registry.definitionFor loopReference)).outcome
      { state with made := state.made + 1, events } =
        (.ok loopDefinition, ⟨{ state.resolver with warnings }, state.made + 1, events⟩) := by
    rw [resolvingOutcome, found]
  unfold place
  simp only [propertiesNone bare]
  rw [Task.bindOk made, List.forM, pure_bind]
  unfold placeNested
  simp only [loopKind]
  rw [Task.bindOk defined]
  have given : (s.componentState loopReference ⟨"A", [], none⟩ values).outcome
      ⟨{ state.resolver with warnings }, state.made + 1, events⟩ = (.ok [], _) := rfl
  rw [Task.bindOk given]
  exact Task.bindError failed

theorem loopBuildStep (same : s.registry = loop)
    (bare : (res.properties.all (·.2.isEmpty)) = true) {state next : LiveState}
    {resolver : ResolverState}
    (resolved : (loop.resolve loopDefinition).outcome state.resolver = (.ok res, resolver))
    {e : Error} (failed : ∀ values, (s.place b res values root
      { views := [(loopDefinition.root.id.name, root)] }
      (loopReference, some loopDefinition.root)).outcome { state with resolver } =
        (.error e, next)) :
    (s.buildFrom b loopDefinition root []).outcome state = (.error e, next) := by
  have first : (resolving (s.registry.resolve loopDefinition)).outcome state =
      (.ok res, { state with resolver }) := by
    rw [resolvingOutcome, same, resolved]
  unfold buildFrom
  rw [Task.bindOk first, loopWalk]
  refine Task.bindError ?_
  rw [List.foldlM_cons, Task.bindOk (loopPlaceRoot bare _), List.foldlM_cons]
  exact Task.bindError (failed _)

/- The component is resolved once and is known from then on, so that every step finds it. -/
theorem loopBuildFails (same : s.registry = loop) (makes : s.host.unsupported = [])
    (takes : s.host.inserters = none) (bare : (res.properties.all (·.2.isEmpty)) = true)
    (beyond : Builder) {k n : Nat} (room : k ≤ n) (root : ViewNumber) {state : LiveState}
    (left : state.made + k = s.host.limit) {resolver : ResolverState}
    (resolved : (loop.resolve loopDefinition).outcome state.resolver = (.ok res, resolver)) :
    ∃ next, (s.buildWithin beyond (n + 1) loopDefinition root []).outcome state =
      (.error (.missingFactory "A"), next) ∧ next.made = s.host.limit := by
  induction k generalizing n root state resolver with
  | zero =>
    have full : s.host.limit ≤ state.made := Nat.le_of_eq left.symm
    exact ⟨{ state with resolver },
      loopBuildStep same bare resolved fun _ => loopPlaceFull full, left⟩
  | succ k ih =>
    obtain ⟨n, rfl⟩ := Nat.exists_eq_add_of_le' (Nat.le_trans (Nat.le_add_left 1 k) room)
    have few : state.made < s.host.limit := by omega
    have named : loopDefinition.isAnonymous = false := congrArg Prod.snd loopComputed.2.1
    have known := Registry.resolveKnown named resolved
    obtain ⟨between, made, cache, nested⟩ := loopPlaceNext (s.buildWithin beyond (n + 1))
      { views := [(loopDefinition.root.id.name, root)] } { state with resolver } same makes takes
      bare few List.lookup_cons_self
    have again : between.resolver.known? loopDefinition = some res := by
      rw [← known, ResolverState.known?, ResolverState.known?, cache]
    obtain ⟨next, failed, all⟩ := ih (n := n) (by omega) (state.made + 1)
      (by simp only [made]; omega) (Registry.settledKnown again)
    exact ⟨next, loopBuildStep same bare resolved fun values => nested values _ _ failed, all⟩

end Loop

theorem loopNeverEnds : loop.Filled ∧ loopDefinition ∈ loop.definitions ∧
    (∃ res, loopResolved = .ok res) ∧ loop.Contains loopDefinition loopDefinition ∧
    ∀ s : LiveSession, s.registry = loop → s.host.unsupported = [] → s.host.inserters = none →
      ∃ next, (s.apply loopDefinition).outcome {} = (.error (.missingFactory "A"), next) ∧
        next.made = s.host.limit ∧
        ∀ beyond n, s.host.limit < n →
          (s.buildWithin beyond n loopDefinition 0 []).outcome {} =
            (.error (.missingFactory "A"), next) := by
  obtain ⟨res, ok, bare⟩ := Result.anyOk loopComputed.2.2.2.2.2.2
  refine ⟨Registry.ofTextsFilled {} (by simpa using loopComputed.1),
    Registry.lastRegistered {} [] loopFile, ⟨res, ok⟩, loopContains, fun s same makes takes => ?_⟩
  have start : ({} : LiveState).made + s.host.limit = s.host.limit := Nat.zero_add _
  obtain ⟨next, failed, all⟩ := loopBuildFails same makes takes bare exhausted (Nat.le_refl _) 0
    start (Prod.ext ok rfl)
  refine ⟨next, by rw [apply, buildIs, failed], all, fun beyond n room => ?_⟩
  obtain ⟨n, rfl⟩ := Nat.exists_eq_add_of_le' (Nat.lt_of_le_of_lt (Nat.zero_le _) room)
  have agree := withinViews (s := s) beyond exhausted (k := s.host.limit) (n := n) (by omega)
    (Nat.le_refl _) loopDefinition 0 [] {} (by omega)
  rw [agree.1, failed]

end LiveSession
end ViewForge
