import ViewForge.Proofs.Element.Origin
import ViewForge.Proofs.Resolve.Component

/-! The cache of a resolver against resolving without one. What a component comes to on a way is
said by `settle`, which keeps nothing. Where no two registered definitions share a file, an inline
definition is met only below the owner of its file, so that nothing that the cache holds could have
failed on another way: a run with the cache gives what `settle` gives. -/
open Relation (ReflTransGen TransGen)
namespace ViewForge

namespace Registry
open ResolverState

def FilesApart (r : Registry) : Prop := (r.definitions.map (·.sourcePath)).Nodup

theorem fileOwner {r : Registry} (apart : r.FilesApart) {c d : ComponentDefinition}
    (left : c ∈ r.definitions) (right : d ∈ r.definitions) (same : c.sourcePath = d.sourcePath) :
    c = d := List.inj_on_of_nodup_map apart left right same

theorem nestedFrom {r : Registry} (filled : r.Filled) {d x : ComponentDefinition}
    (registered : d ∈ r.definitions) (inside : x ∈ d.nested) : x.From d.sourcePath := by
  obtain ⟨⟨name, ds⟩, entry, member⟩ := List.mem_flatMap.mp registered
  obtain ⟨_, path, _, _, read⟩ := (componentsOfType filled entry).read d member
  have origin := Compilation.readComponentFrom read
  rw [(origin d d.nestedSelf).path]
  exact origin x inside

/- What is behind an element is registered, or stands in the same file. -/
theorem behindFile {r : Registry} (filled : r.Filled) {d inner : ComponentDefinition} {e : Element}
    (member : d ∈ r.allDefinitions) (element : e ∈ d.elements) (found : r.behind? e = some inner) :
    inner ∈ r.definitions ∨ inner.sourcePath = d.sourcePath := by
  obtain ⟨reference, refers, found⟩ := Option.bind_eq_some_iff.mp found
  cases inline : reference.definition with
  | none =>
    rw [inline, Option.none_or] at found
    exact .inl (visibleRegistered found)
  | some own =>
    rw [inline, Option.some_or] at found
    cases found
    obtain ⟨outer, registered, inside⟩ := List.mem_flatMap.mp member
    have here : e.definition? = some inner := by simp [Element.definition?, refers, inline]
    have within := ComponentDefinition.nestedTrans inside
      (ComponentDefinition.nestedAt element here)
    exact .inr ((nestedFrom filled registered within).path.trans
      (nestedFrom filled registered inside).path.symm)

def located (r : Registry) (e : Element) : Result ComponentDefinition :=
  ((r.definitionFor e).outcome {}).1

theorem definitionForLocated (r : Registry) (e : Element) (s : ResolverState) :
    ∃ warnings, (r.definitionFor e).outcome s = (r.located e, { s with warnings }) := by
  unfold located definitionFor
  cases e.kind with
  | widget w => exact ⟨s.warnings, rfl⟩
  | component reference =>
    cases inline : reference.definition with
    | some own => exact ⟨s.warnings, by simp [inline]⟩
    | none =>
      refine ⟨s.warnings ++ (r.component? reference.typeName).2, ?_⟩
      simp [inline, component, Resolve.warn]

theorem locatedBehind {r : Registry} {e : Element} {d : ComponentDefinition} :
    r.located e = .ok d ↔ r.behind? e = some d := by
  unfold located
  cases found : r.behind? e with
  | none =>
    obtain ⟨error, warnings, run⟩ := definitionForMissing found {}
    simp [run]
  | some own =>
    obtain ⟨warnings, run⟩ := definitionForFound found {}
    simp [run]

def keptFor (kept : List (DefinitionKey × Resolved)) (d : ComponentDefinition) : Option Resolved :=
  known? d { cache := kept }

/-- What a component comes to on a way of components in progress, when nothing but `kept` is ever
known of another one. -/
def settle (r : Registry) (kept : List (DefinitionKey × Resolved)) :
    Nat → List DefinitionKey → ComponentDefinition → Result Resolved
  | 0, way, d =>
    match keptFor kept d with
    | some res => .ok res
    | none => .error (cycle way d)
  | allowed + 1, way, d =>
    match keptFor kept d with
    | some res => .ok res
    | none =>
      if d.key ∈ way then .error (cycle way d)
      else r.describeFrom
        (fun e => do r.settle kept allowed (way ++ [d.key]) (← r.located e)) d

def settleBehind (r : Registry) (kept : List (DefinitionKey × Resolved)) (n : Nat)
    (way : List DefinitionKey) (e : Element) : Result Resolved := do
  r.settle kept n way (← r.located e)

section Settling

variable {r : Registry} {kept : List (DefinitionKey × Resolved)} {n : Nat}
  {way : List DefinitionKey} {d : ComponentDefinition} {res : Resolved}

theorem keptRegistered (filled : r.Filled) (member : d ∈ r.allDefinitions)
    (found : keptFor kept d = some res) : d ∈ r.definitions := by
  unfold keptFor known? at found
  split at found
  · cases found
  · rename_i named
    exact namedRegistered filled member (by simpa using named)

@[simp] theorem keptNone : keptFor [] d = none := by simp [keptFor, known?]

theorem settleKnown (found : keptFor kept d = some res) : r.settle kept n way d = .ok res := by
  cases n <;> simp only [settle, found]

theorem settleCyclic (unknown : keptFor kept d = none) (begun : d.key ∈ way) :
    r.settle kept n way d = .error (cycle way d) := by
  cases n with
  | zero => simp only [settle, unknown]
  | succ n => simp only [settle, unknown, if_pos begun]

theorem settleOpen (unknown : keptFor kept d = none) (fresh : d.key ∉ way) :
    r.settle kept (n + 1) way d =
      r.describeFrom (r.settleBehind kept n (way ++ [d.key])) d := by
  simp only [settle, unknown, if_neg fresh]
  rfl

theorem settleGives (unknown : keptFor kept d = none) (ok : r.settle kept n way d = .ok res) :
    d.key ∉ way ∧ ∃ m, n = m + 1 ∧
      r.describeFrom (r.settleBehind kept m (way ++ [d.key])) d = .ok res := by
  have fresh : d.key ∉ way := by
    intro begun
    rw [settleCyclic unknown begun] at ok
    cases ok
  refine ⟨fresh, ?_⟩
  cases n with
  | zero =>
    simp only [settle, unknown] at ok
    cases ok
  | succ m =>
    rw [settleOpen unknown fresh] at ok
    exact ⟨m, rfl, ok⟩

theorem settleBehindGives {e : Element} (ok : r.settleBehind kept n way e = .ok res) :
    ∃ inner, r.behind? e = some inner ∧ r.settle kept n way inner = .ok res := by
  obtain ⟨inner, found, settled⟩ := Result.bindOk.mp ok
  exact ⟨inner, locatedBehind.mp found, settled⟩

theorem settleBehindOk {e : Element} {inner : ComponentDefinition} (found : r.behind? e = some inner)
    (ok : r.settle kept n way inner = .ok res) : r.settleBehind kept n way e = .ok res :=
  Result.bindOk.mpr ⟨inner, locatedBehind.mpr found, ok⟩

/- A description that succeeds is the same from any answers that give as much. -/
theorem describeFollows {oracle other : Element → Result Resolved}
    (ok : r.describeFrom oracle d = .ok res)
    (follows : ∀ e ∈ d.elements, e.Needs → ∀ a, oracle e = .ok a → other e = .ok a) :
    r.describeFrom other d = .ok res := by
  rw [← ok]
  refine describeFromCongr fun e member needs => ?_
  obtain ⟨a, answered⟩ := describeAnswered ok member needs
  rw [answered, follows e member needs a answered]

theorem settleDerived (filled : r.Filled) (sound : r.Sound (fun _ => True) { cache := kept })
    (member : d ∈ r.allDefinitions) (ok : r.settle kept n way d = .ok res) :
    r.Derivation d res := by
  induction n using Nat.strongRecOn generalizing d way res with
  | ind n ih =>
    cases found : keptFor kept d with
    | some known =>
      rw [settleKnown found] at ok
      cases ok
      exact (knownSound filled member sound found).1
    | none =>
      obtain ⟨_, m, rfl, described⟩ := settleGives found ok
      refine .mk _ (fun e => (r.behind? e).getD d) ?_ ?_ described
      · intro e element needs
        obtain ⟨a, answered⟩ := describeAnswered described element needs
        obtain ⟨inner, behind, _⟩ := settleBehindGives answered
        simp [behind]
      · intro e element needs a answered
        obtain ⟨inner, behind, settled⟩ := settleBehindGives answered
        rw [behind]
        exact ih m (by omega) (behindIncluded member element behind) settled

/- With room for every key that is not on the way, more room changes nothing. -/
theorem settleRoom (member : d ∈ r.allDefinitions) (distinct : way.Nodup) (within : way ⊆ r.keys)
    {m : Nat} (room : r.keys.length ≤ n + way.length) (room' : r.keys.length ≤ m + way.length) :
    r.settle kept n way d = r.settle kept m way d := by
  induction n generalizing m d way with
  | zero =>
    have begun := keysExhausted distinct within (by omega) (keyIncluded member)
    cases found : keptFor kept d with
    | some known => rw [settleKnown found, settleKnown found]
    | none => rw [settleCyclic found begun, settleCyclic found begun]
  | succ n ih =>
    cases found : keptFor kept d with
    | some known => rw [settleKnown found, settleKnown found]
    | none =>
      by_cases begun : d.key ∈ way
      · rw [settleCyclic found begun, settleCyclic found begun]
      · cases m with
        | zero => exact absurd (keysExhausted distinct within (by omega) (keyIncluded member)) begun
        | succ m =>
          rw [settleOpen found begun, settleOpen found begun]
          obtain ⟨distinct, within⟩ := stackEnters distinct within member begun
          refine describeFromCongr fun e element needs => ?_
          unfold settleBehind
          cases located : r.located e with
          | error e => rfl
          | ok inner =>
            have longer : (way ++ [d.key]).length = way.length + 1 := by simp
            exact ih (behindIncluded member element (locatedBehind.mp located)) distinct within
              (by omega) (by omega)

end Settling

def DependsUnder (r : Registry) (kept : List (DefinitionKey × Resolved))
    (d inner : ComponentDefinition) : Prop :=
  r.DependsOn d inner ∧ keptFor kept inner = none

theorem underDepends {r : Registry} {kept : List (DefinitionKey × Resolved)}
    {a b : ComponentDefinition} (reached : ReflTransGen (r.DependsUnder kept) a b) :
    ReflTransGen r.DependsOn a b := reached.lift id fun _ _ step => step.1

theorem underIncluded {r : Registry} {kept : List (DefinitionKey × Resolved)}
    {a b : ComponentDefinition} (member : a ∈ r.allDefinitions)
    (reached : ReflTransGen (r.DependsUnder kept) a b) : b ∈ r.allDefinitions :=
  reachedIncluded member (underDepends reached)

structure Way (r : Registry) (kept : List (DefinitionKey × Resolved))
    (base d : ComponentDefinition) (stack : List DefinitionKey) : Prop where
  distinct : stack.Nodup
  reached : ReflTransGen (r.DependsUnder kept) base d
  leads : ∀ key ∈ stack, ∃ x, ReflTransGen (r.DependsUnder kept) base x ∧ x.key = key ∧
    TransGen (r.DependsUnder kept) x d

section Ways

variable {r : Registry} {kept : List (DefinitionKey × Resolved)}
  {base d : ComponentDefinition} {stack : List DefinitionKey}

theorem wayStart (base : ComponentDefinition) : r.Way kept base base [] :=
  ⟨List.nodup_nil, .refl, by simp⟩

theorem wayWithin (rooted : base ∈ r.allDefinitions) (way : r.Way kept base d stack) :
    stack ⊆ r.keys := by
  intro key member
  obtain ⟨x, reached, rfl, _⟩ := way.leads key member
  exact keyIncluded (underIncluded rooted reached)

theorem wayOnward (way : r.Way kept base d stack) (fresh : d.key ∉ stack)
    {inner : ComponentDefinition} (step : r.DependsUnder kept d inner) :
    r.Way kept base inner (stack ++ [d.key]) where
  distinct := by
    refine List.nodup_append.mpr ⟨way.distinct, List.nodup_singleton _, ?_⟩
    rintro k inside last final rfl
    exact fresh (List.mem_singleton.mp final ▸ inside)
  reached := way.reached.tail step
  leads key member := by
    rcases List.mem_append.mp member with before | final
    · obtain ⟨x, reached, same, leads⟩ := way.leads key before
      exact ⟨x, reached, same, leads.tail step⟩
    · exact ⟨d, way.reached, (List.mem_singleton.mp final).symm, .single step⟩

/- Inline definitions cannot be named from another file: whoever gets there comes by the owner. -/
theorem underOwner (filled : r.Filled) {a y : ComponentDefinition} (member : a ∈ r.allDefinitions)
    (reached : ReflTransGen (r.DependsUnder kept) a y) :
    y.sourcePath = a.sourcePath ∨ ∃ t ∈ r.definitions, t.sourcePath = y.sourcePath ∧
      keptFor kept t = none ∧ ReflTransGen (r.DependsUnder kept) a t ∧
        ReflTransGen (r.DependsUnder kept) t y := by
  induction reached with
  | refl => exact .inl rfl
  | @tail y z before step ih =>
    have ⟨⟨e, element, _, found⟩, _⟩ := step
    rcases behindFile filled (underIncluded member before) element found with registered | same
    · exact .inr ⟨z, registered, rfl, step.2, before.tail step, .refl⟩
    · rcases ih with home | ⟨t, registered, file, unknown, left, right⟩
      · exact .inl (same.trans home)
      · exact .inr ⟨t, registered, file.trans same.symm, unknown, left, right.tail step⟩

theorem ownerUnder (filled : r.Filled) {a y : ComponentDefinition} (registered : a ∈ r.definitions)
    (unknown : keptFor kept a = none) (reached : ReflTransGen (r.DependsUnder kept) a y) :
    ∃ t ∈ r.definitions, t.sourcePath = y.sourcePath ∧ keptFor kept t = none ∧
      ReflTransGen (r.DependsUnder kept) a t ∧ ReflTransGen (r.DependsUnder kept) t y := by
  rcases underOwner filled (definitionIncluded registered) reached with home | owner
  · exact ⟨a, registered, home.symm, unknown, .refl, reached⟩
  · exact owner

def Based (r : Registry) (kept : List (DefinitionKey × Resolved)) (base : ComponentDefinition) :
    Prop :=
  ∀ t ∈ r.definitions, t.sourcePath = base.sourcePath → keptFor kept t = none → t = base

theorem basedRegistered (apart : r.FilesApart) (registered : base ∈ r.definitions) :
    r.Based kept base := fun _ own same _ => fileOwner apart own registered same

/- Nothing below a registered component without a cycle has the key of one that is in progress: the
owner of the file that both belong to would depend on itself. -/
theorem wayClear (filled : r.Filled) (apart : r.FilesApart) (rooted : base ∈ r.allDefinitions)
    (based : r.Based kept base) (way : r.Way kept base d stack) (registered : d ∈ r.definitions)
    (unknown : keptFor kept d = none) {res : Resolved} (derivation : r.Derivation d res)
    {y : ComponentDefinition} (below : ReflTransGen (r.DependsUnder kept) d y) :
    y.key ∉ stack := by
  intro begun
  obtain ⟨x, before, same, leads⟩ := way.leads _ begun
  have file : x.sourcePath = y.sourcePath := (Prod.mk.inj same).2
  obtain ⟨t, owner, own, fresh, left, right⟩ := ownerUnder filled registered unknown below
  have comes : ReflTransGen (r.DependsUnder kept) t x := by
    rcases underOwner filled rooted before with home | ⟨u, owner', own', _, _, down⟩
    · cases based t owner (own.trans (file.symm.trans home)) fresh
      exact before
    · cases fileOwner apart owner owner' (own.trans (file.symm.trans own'.symm))
      exact down
  have around : TransGen r.DependsOn t t :=
    TransGen.trans_left (TransGen.trans_right (underDepends comes)
      (leads.lift id fun _ _ step => step.1)) (underDepends left)
  obtain ⟨a, derived⟩ := derivationReached derivation (underDepends left)
  exact derivationAcyclic derived around

end Ways

def Settles (r : Registry) (d : ComponentDefinition) : Prop :=
  ∃ n res, r.settle [] n [] d = .ok res

abbrev Settled (r : Registry) : ResolverState → Prop := r.Sound r.Settles

section Transfer

variable {r : Registry} {kept : List (DefinitionKey × Resolved)}

theorem settledKeeping {s : ResolverState} (sound : r.Settled s) : r.Sound (fun _ => True) s :=
  fun d registered res found => ⟨(sound d registered res found).1, trivial⟩

/- What settles on one way settles on another that has no more of the keys that are met. -/
theorem settleElsewhere (filled : r.Filled) (sound : r.Sound (fun _ => True) { cache := kept })
    {n m : Nat} {d : ComponentDefinition} {res : Resolved} {way other : List DefinitionKey}
    (member : d ∈ r.allDefinitions) (ok : r.settle [] n way d = .ok res)
    (clear : keptFor kept d = none → ∀ y, ReflTransGen (r.DependsUnder kept) d y →
      y.key ∈ other → y.key ∈ way) (more : n ≤ m) : r.settle kept m other d = .ok res := by
  induction n using Nat.strongRecOn generalizing m d res way other with
  | ind n ih =>
    cases found : keptFor kept d with
    | some known =>
      have own := settleDerived filled (soundFresh _) member ok
      rw [settleKnown found, derivationUnique (knownSound filled member sound found).1 own]
    | none =>
      obtain ⟨fresh, k, rfl, described⟩ := settleGives keptNone ok
      obtain ⟨m, rfl⟩ : ∃ j, m = j + 1 := ⟨m - 1, by omega⟩
      have elsewhere : d.key ∉ other := fun begun => fresh (clear found d .refl begun)
      rw [settleOpen found elsewhere]
      refine describeFollows described fun e element needs a answered => ?_
      obtain ⟨inner, behind, settled⟩ := settleBehindGives answered
      refine settleBehindOk behind (ih k (by omega) (behindIncluded member element behind) settled
        ?_ (by omega))
      intro unknown y reached begun
      rcases List.mem_append.mp begun with before | final
      · have step : r.DependsUnder kept d inner := ⟨⟨e, element, needs, behind⟩, unknown⟩
        exact List.mem_append_left _ (clear found y (.head step reached) before)
      · exact List.mem_append_right _ final

theorem keptUnaided (filled : r.Filled) (apart : r.FilesApart)
    (sound : r.Settled { cache := kept }) {base : ComponentDefinition}
    (registered : base ∈ r.definitions) {m : Nat} {d : ComponentDefinition} {res : Resolved}
    {way : List DefinitionKey} (found : keptFor kept d = some res)
    (path : r.Way [] base d way) (room : r.keys.length ≤ m + way.length) :
    r.settle [] m way d = .ok res := by
  have rooted := definitionIncluded registered
  have member := underIncluded rooted path.reached
  obtain ⟨derivation, k, known, settled⟩ := knownSound filled member sound found
  have own := settleDerived filled (soundFresh _) member settled
  cases derivationUnique own derivation
  have elsewhere : r.settle [] (k + m) way d = .ok res :=
    settleElsewhere filled (soundFresh _) member settled (fun _ y below begun =>
      absurd begun (wayClear filled apart rooted (basedRegistered apart registered) path
        (keptRegistered filled member found) keptNone derivation below)) (by omega)
  rw [← elsewhere]
  exact settleRoom member path.distinct (wayWithin rooted path) room (by omega)

/- A registered component that settles with the help of what is kept settles without it. -/
theorem settleUnaided (filled : r.Filled) (apart : r.FilesApart)
    (sound : r.Settled { cache := kept }) {base : ComponentDefinition}
    (registered : base ∈ r.definitions) {n m : Nat} {d : ComponentDefinition} {res : Resolved}
    {way other : List DefinitionKey} (ok : r.settle kept n way d = .ok res)
    (path : r.Way [] base d other) (fewer : other ⊆ way)
    (room : r.keys.length ≤ m + other.length) : r.settle [] m other d = .ok res := by
  have rooted := definitionIncluded registered
  induction n using Nat.strongRecOn generalizing m d res way other with
  | ind n ih =>
    have member := underIncluded rooted path.reached
    cases found : keptFor kept d with
    | some known =>
      rw [settleKnown found] at ok
      cases ok
      exact keptUnaided filled apart sound registered found path room
    | none =>
      obtain ⟨fresh, k, rfl, described⟩ := settleGives found ok
      have elsewhere : d.key ∉ other := fun begun => fresh (fewer begun)
      cases m with
      | zero =>
        have begun := keysExhausted path.distinct (wayWithin rooted path) (by omega)
          (keyIncluded member)
        exact absurd begun elsewhere
      | succ m =>
        rw [settleOpen keptNone elsewhere]
        refine describeFollows described fun e element needs a answered => ?_
        obtain ⟨inner, behind, settled⟩ := settleBehindGives answered
        have step : r.DependsUnder [] d inner := ⟨⟨e, element, needs, behind⟩, keptNone⟩
        refine settleBehindOk behind (ih k (by omega) settled (wayOnward path elsewhere step) ?_ ?_)
        · exact List.append_subset.mpr ⟨fun _ inside => List.mem_append_left _ (fewer inside),
            fun _ inside => List.mem_append_right _ inside⟩
        · simp only [List.length_append, List.length_singleton]
          omega

end Transfer

/-- A resolver whose cache holds what is kept, and nothing that would not settle on its own. -/
structure Steady (r : Registry) (kept : List (DefinitionKey × Resolved)) (s : ResolverState) :
    Prop where
  settled : r.Settled s
  holds : ∀ d ∈ r.definitions, ∀ res, keptFor kept d = some res → s.known? d = some res

section Simulation

variable {r : Registry} {kept : List (DefinitionKey × Resolved)} {base : ComponentDefinition}

theorem steadySame {s t : ResolverState} (steady : r.Steady kept s) (same : t.cache = s.cache) :
    r.Steady kept t where
  settled d registered res found := steady.settled d registered res (same ▸ found)
  holds d registered res found := by
    rw [known?, same]
    exact steady.holds d registered res found

theorem steadyRemember (filled : r.Filled) (sound : r.Settled { cache := kept })
    {s : ResolverState} (steady : r.Steady kept s) {d : ComponentDefinition} {res : Resolved}
    (member : d ∈ r.allDefinitions) (derivation : r.Derivation d res)
    (settles : d ∈ r.definitions → r.Settles d) : r.Steady kept (s.remember d res) := by
  cases anonymous : d.isAnonymous with
  | true =>
    rw [remember, if_pos anonymous]
    exact steady
  | false =>
    have own := namedRegistered filled member anonymous
    refine ⟨soundRemember filled steady.settled member derivation (settles own), ?_⟩
    intro x registered a found
    have before := steady.holds x registered a found
    by_cases same : x.key = d.key
    · cases definitionUnique filled registered own same
      have known := (sound d own a (by simpa [keptFor, known?, anonymous] using found)).1
      simp [remember, known?, anonymous, derivationUnique known derivation]
    · have other : (x.key == d.key) = false := by simpa using same
      simpa [remember, known?, anonymous, List.lookup_cons, other] using before

/- What the cache knows settles on the way on which it is met. -/
theorem knownSettles (filled : r.Filled) (apart : r.FilesApart)
    (sound : r.Settled { cache := kept }) (rooted : base ∈ r.allDefinitions)
    (based : r.Based kept base) {n : Nat} {d : ComponentDefinition} {s : ResolverState}
    (steady : r.Steady kept s) (unknown : keptFor kept d = none)
    (way : r.Way kept base d s.inProgress) (room : r.keys.length ≤ n + s.inProgress.length)
    {res : Resolved} (found : s.known? d = some res) :
    r.settle kept n s.inProgress d = .ok res := by
  have member := underIncluded rooted way.reached
  have held : keptFor s.cache d = some res := found
  have registered := keptRegistered filled member held
  obtain ⟨derivation, k, known, settled⟩ := knownSound filled member steady.settled found
  cases derivationUnique (settleDerived filled (soundFresh _) member settled) derivation
  have elsewhere : r.settle kept (k + n) s.inProgress d = .ok res :=
    settleElsewhere filled (settledKeeping sound) member settled (fun _ y below begun =>
      absurd begun (wayClear filled apart rooted based way registered unknown derivation below))
      (by omega)
  rw [← elsewhere]
  exact settleRoom member way.distinct (wayWithin rooted way) room (by omega)

theorem settledSettles (filled : r.Filled) (apart : r.FilesApart)
    (sound : r.Settled { cache := kept }) (rooted : base ∈ r.allDefinitions)
    (based : r.Based kept base) {n : Nat} {d : ComponentDefinition} (member : d ∈ r.allDefinitions)
    {s : ResolverState} (steady : r.Steady kept s)
    (way : keptFor kept d = none → r.Way kept base d s.inProgress)
    (room : r.keys.length ≤ n + s.inProgress.length)
    {work : ComponentDefinition → Resolve Resolved}
    (worked : keptFor kept d = none → d.key ∉ s.inProgress →
      ((work d).outcome s).1 = r.settle kept n s.inProgress d ∧
        r.Steady kept ((work d).outcome s).2) :
    ((unlessSettled work d).outcome s).1 = r.settle kept n s.inProgress d ∧
      r.Steady kept ((unlessSettled work d).outcome s).2 := by
  cases unknown : keptFor kept d with
  | some res =>
    have registered := keptRegistered filled member unknown
    rw [settledKnown (steady.holds d registered res unknown), settleKnown unknown]
    exact ⟨rfl, steady⟩
  | none =>
    cases found : s.known? d with
    | some res =>
      rw [settledKnown found, knownSettles filled apart sound rooted based steady unknown
        (way unknown) room found]
      exact ⟨rfl, steady⟩
    | none =>
      by_cases begun : d.key ∈ s.inProgress
      · rw [settledCyclic found begun, settleCyclic unknown begun]
        exact ⟨rfl, steady⟩
      · rw [settledOpen found begun]
        exact worked unknown begun

theorem childSettles {n : Nat} {way : List DefinitionKey} {e : Element}
    (inner : ∀ x, r.behind? e = some x → ∀ t, r.Steady kept t → t.inProgress = way →
      ((r.resolveWithin tooDeep n x).outcome t).1 = r.settle kept n way x ∧
        r.Steady kept ((r.resolveWithin tooDeep n x).outcome t).2) :
    Task.Tracks True (fun t (_ : ResolverState) => r.Steady kept t ∧ t.inProgress = way)
      (r.childWithin tooDeep n e) (liftM (r.settleBehind kept n way e)) := by
  rintro t u ⟨steady, begun⟩
  refine ⟨u, ?_⟩
  obtain ⟨warnings, run⟩ := r.definitionForLocated e t
  have warned : r.Steady kept { t with warnings } := steadySame steady rfl
  unfold childWithin settleBehind
  cases located : r.located e with
  | error error =>
    rw [located] at run
    rw [Task.bindError run]
    exact ⟨⟨warned, begun⟩, fun _ => rfl⟩
  | ok x =>
    rw [located] at run
    rw [Task.bindOk run]
    obtain ⟨same, after⟩ := inner x (locatedBehind.mp located) _ warned begun
    refine ⟨⟨after, ?_⟩, fun _ => ?_⟩
    · rw [resolveWithinKeeps fun _ _ => rfl]
      exact begun
    · rw [same, Task.outcomeLift]
      rfl

/- The run leads, and the answers without a cache follow it. -/
theorem describeSettles {n : Nat} {d : ComponentDefinition} {s : ResolverState}
    (steady : r.Steady kept s) (unknown : keptFor kept d = none) (fresh : d.key ∉ s.inProgress)
    (children : ∀ e ∈ d.elements, e.Needs →
      Task.Tracks True
        (fun t (_ : ResolverState) => r.Steady kept t ∧ t.inProgress = s.inProgress ++ [d.key])
        (r.childWithin tooDeep n e) (liftM (r.settleBehind kept n (s.inProgress ++ [d.key]) e))) :
    ((r.describe (r.childWithin tooDeep n) d).outcome (s.enter d.key)).1 =
        r.settle kept (n + 1) s.inProgress d ∧
      r.Steady kept ((r.describe (r.childWithin tooDeep n) d).outcome (s.enter d.key)).2 := by
  have tracks := describeTracks (r := r) children
  obtain ⟨u, ⟨after, _⟩, same⟩ := tracks (s.enter d.key) {} ⟨steadySame steady rfl, rfl⟩
  have described := (Prod.mk.inj ((describeLifted r _ d {}).symm.trans (same (.inl trivial)))).1
  rw [← settleOpen unknown fresh] at described
  exact ⟨described.symm, after⟩

theorem workOutSettles (filled : r.Filled) (apart : r.FilesApart)
    (sound : r.Settled { cache := kept }) {n : Nat} {d : ComponentDefinition}
    (member : d ∈ r.allDefinitions) {s : ResolverState} {child : ChildResolver}
    (described : ((r.describe child d).outcome (s.enter d.key)).1 = r.settle kept n s.inProgress d)
    (after : r.Steady kept ((r.describe child d).outcome (s.enter d.key)).2) :
    ((r.workOut child d).outcome s).1 = r.settle kept n s.inProgress d ∧
      r.Steady kept ((r.workOut child d).outcome s).2 := by
  cases run : (r.describe child d).outcome (s.enter d.key) with
  | mk result t =>
    rw [run] at after described
    have left : r.Steady kept t.leave := steadySame after rfl
    cases result with
    | error error =>
      rw [workOutError run]
      exact ⟨described, left⟩
    | ok res =>
      rw [workOutOk run]
      have derivation := settleDerived filled (settledKeeping sound) member described.symm
      refine ⟨described, steadyRemember filled sound left member derivation fun registered => ?_⟩
      exact ⟨_, res, settleUnaided filled apart sound registered described.symm (wayStart d)
        (List.nil_subset _) (m := r.keys.length) (by simp)⟩

theorem resolveWithinSettles (filled : r.Filled) (apart : r.FilesApart)
    (sound : r.Settled { cache := kept }) (rooted : base ∈ r.allDefinitions)
    (based : r.Based kept base) {n : Nat} {d : ComponentDefinition} (member : d ∈ r.allDefinitions)
    {s : ResolverState} (steady : r.Steady kept s)
    (way : keptFor kept d = none → r.Way kept base d s.inProgress)
    (room : r.keys.length ≤ n + s.inProgress.length) :
    ((r.resolveWithin tooDeep n d).outcome s).1 = r.settle kept n s.inProgress d ∧
      r.Steady kept ((r.resolveWithin tooDeep n d).outcome s).2 := by
  induction n generalizing d s with
  | zero =>
    refine settledSettles filled apart sound rooted based member steady way room ?_
    intro unknown fresh
    have path := way unknown
    have begun := keysExhausted path.distinct (wayWithin rooted path) (by omega)
      (keyIncluded member)
    exact absurd begun fresh
  | succ n ih =>
    rw [resolveWithinStep]
    refine settledSettles filled apart sound rooted based member steady way room ?_
    intro unknown fresh
    have inner : ∀ e ∈ d.elements, e.Needs → ∀ x, r.behind? e = some x → ∀ t, r.Steady kept t →
        t.inProgress = s.inProgress ++ [d.key] →
        ((r.resolveWithin tooDeep n x).outcome t).1 =
            r.settle kept n (s.inProgress ++ [d.key]) x ∧
          r.Steady kept ((r.resolveWithin tooDeep n x).outcome t).2 := by
      intro e element needs x behind t steady begun
      rw [← begun]
      refine ih (behindIncluded member element behind) steady (fun unheld => ?_) ?_
      · rw [begun]
        exact wayOnward (way unknown) fresh ⟨⟨e, element, needs, behind⟩, unheld⟩
      · simp only [begun, List.length_append, List.length_singleton]
        omega
    obtain ⟨described, after⟩ := describeSettles steady unknown fresh fun e element needs =>
      childSettles (inner e element needs)
    exact workOutSettles filled apart sound member described after

theorem resolveSettles (filled : r.Filled) (apart : r.FilesApart)
    (sound : r.Settled { cache := kept }) (rooted : base ∈ r.allDefinitions)
    (based : r.Based kept base) {s : ResolverState} (steady : r.Steady kept s)
    (idle : s.inProgress = []) :
    ((r.resolve base).outcome s).1 = r.settle kept (r.resolveLimit base) [] base ∧
      r.Steady kept ((r.resolve base).outcome s).2 := by
  have within := resolveWithinSettles filled apart sound rooted based rooted steady
    (fun _ => by rw [idle]; exact wayStart base) (n := r.resolveLimit base)
    (by rw [idle]; exact keysWithinLimit base)
  rw [idle] at within
  exact within

end Simulation

def resolveEach (r : Registry) : List ComponentDefinition → ResolverState → List (Result Resolved)
  | [], _ => []
  | d :: rest, s =>
    ((r.resolve d).outcome s).1 :: r.resolveEach rest ((r.resolve d).outcome s).2

theorem steadyFresh (r : Registry) : r.Steady [] {} where
  settled := soundFresh _
  holds d _ res found := by simp at found

theorem resolveEachSettles {r : Registry} (filled : r.Filled) (apart : r.FilesApart)
    {calls : List ComponentDefinition} (registered : ∀ d ∈ calls, d ∈ r.definitions)
    {s : ResolverState} (steady : r.Steady [] s) (idle : s.inProgress = []) :
    r.resolveEach calls s = calls.map fun d => r.settle [] (r.resolveLimit d) [] d := by
  induction calls generalizing s with
  | nil => rfl
  | cons d rest ih =>
    obtain ⟨own, others⟩ := List.forall_mem_cons.mp registered
    obtain ⟨same, kept⟩ := resolveSettles filled apart (soundFresh _) (definitionIncluded own)
      (basedRegistered apart own) steady idle
    rw [resolveEach, List.map_cons, same, ih others kept ((resolveKeeps d s).trans idle)]

theorem cacheInvisible {r : Registry} (filled : r.Filled) (apart : r.FilesApart)
    {calls : List ComponentDefinition} (registered : ∀ d ∈ calls, d ∈ r.definitions) :
    r.resolveEach calls {} = calls.map fun d => ((r.resolve d).outcome {}).1 := by
  rw [resolveEachSettles filled apart registered (steadyFresh r) rfl]
  refine List.map_congr_left fun d inside => ?_
  have own := registered d inside
  exact (resolveSettles filled apart (soundFresh _) (definitionIncluded own)
    (basedRegistered apart own) (steadyFresh r) rfl).1.symm

/- A list of cells, and a component that contains itself. -/
def listFiles : List (String × String) := [
  ("Cell.ui.xml", "<Cell><state><item name=\"count\" type=\"Int\"/></state>" ++
    "<Label numberOfLines=\"$count\"/></Cell>"),
  ("Loop.ui.xml", "<Loop><state><item name=\"count\" type=\"Int\"/></state>" ++
    "<Loop id=\"inner\" count=\"1\"/></Loop>"),
  ("List.ui.xml", "<List><Cell id=\"first\" count=\"1\"/><Loop id=\"loop\" count=\"2\"/></List>")]

def listed : Registry := ofTexts {} listFiles

theorem listedComputed : (listFiles.all fun file => (reading file).isOk) = true ∧
    listed.definitions.map (·.sourcePath) = ["Cell.ui.xml", "Loop.ui.xml", "List.ui.xml"] := by
  have read := readingsLetters listFiles
    (.cons (Text.lettersAppend rfl rfl) (.cons (Text.lettersAppend rfl rfl) (.cons rfl .nil)))
  simp only [listFiles, List.forall₂_cons] at read
  simp only [listed, listFiles, ofTexts, ofText, List.all_cons, List.foldl_cons, List.foldl_nil, read]
  decide +kernel

theorem listedCallsAgree : listed.resolveEach (listed.definitions ++ listed.definitions) {} =
    (listed.definitions ++ listed.definitions).map fun d => ((listed.resolve d).outcome {}).1 := by
  have apart : listed.FilesApart := by
    rw [FilesApart, listedComputed.2]
    decide
  have filled : listed.Filled := ofTextsFilled {} listedComputed.1
  exact cacheInvisible filled apart (by simp)

/- Where two definitions share a file, the first component has been resolved together with the one
that it needs, which is then known on a way where it could not be begun. -/
theorem sharedSequence : ((shared.component? "C").1.any fun c =>
    ((shared.resolve c).outcome ((shared.resolve (sharedDefinition "D")).outcome {}).2).1.isOk &&
      !((shared.resolve c).outcome {}).1.isOk) = true := by
  have b : sharedReading "B" = _ := sharedLetters (Text.lettersAppend rfl rfl)
  have c : sharedReading "C" = _ := sharedLetters (Text.lettersAppend rfl rfl)
  have d : sharedReading "D" = _ := sharedLetters rfl
  simp only [shared, sharedDefinition, List.foldl_cons, List.foldl_nil, b, c, d]
  decide +kernel

theorem sharedCacheShows : ∃ (r : Registry) (calls : List ComponentDefinition), r.Filled ∧
    (∀ d ∈ calls, d ∈ r.definitions) ∧
      r.resolveEach calls {} ≠ calls.map fun d => ((r.resolve d).outcome {}).1 := by
  obtain ⟨c, found, facts⟩ := (Option.any_eq_true _ _).mp sharedSequence
  obtain ⟨known, fresh⟩ := (Bool.and_eq_true _ _).mp facts
  refine ⟨shared, [sharedDefinition "D", c], sharedFilled, ?_, fun same => ?_⟩
  · simpa using ⟨addedRegistered _ _, visibleRegistered found⟩
  · simp only [resolveEach, List.map_cons, List.map_nil, List.cons.injEq] at same
    rw [← same.2.1, known] at fresh
    cases fresh

end Registry
end ViewForge
