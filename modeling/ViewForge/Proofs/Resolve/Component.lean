import Mathlib.Data.List.Dedup
import Mathlib.Data.List.Perm.Subperm
import ViewForge.Proofs.Registry
import ViewForge.Proofs.Resolve.Derivation

/-! Components resolved one through the other: the run ends before it has begun more components than
there are keys, leaves the way as it found it, and gives what the derivation of a component gives.
Inline definitions of one file may share a key, which is where a run can fail without a cycle. -/
open Relation (ReflTransGen TransGen)
namespace ViewForge

namespace ResolverState

def enter (key : DefinitionKey) (s : ResolverState) : ResolverState :=
  { s with inProgress := s.inProgress ++ [key] }

def leave (s : ResolverState) : ResolverState := { s with inProgress := s.inProgress.dropLast }

def known? (d : ComponentDefinition) (s : ResolverState) : Option Resolved :=
  if d.isAnonymous then none else s.cache.lookup d.key

def remember (d : ComponentDefinition) (res : Resolved) (s : ResolverState) : ResolverState :=
  if d.isAnonymous then s else { s with cache := (d.key, res) :: s.cache }

@[simp] theorem rememberInProgress (d : ComponentDefinition) (res : Resolved) (s : ResolverState) :
    (s.remember d res).inProgress = s.inProgress := by
  unfold remember
  split <;> rfl

theorem leaveEntered {key : DefinitionKey} {s t : ResolverState}
    (same : t.inProgress = (s.enter key).inProgress) : t.leave.inProgress = s.inProgress := by
  simp [leave, same, enter]

end ResolverState

namespace Registry
open ResolverState

section Run

variable {r : Registry} {work other : ComponentDefinition → Resolve Resolved}
  {child : ChildResolver} {d : ComponentDefinition} {res : Resolved} {s t : ResolverState}

theorem settledKnown (found : s.known? d = some res) :
    (unlessSettled work d).outcome s = (.ok res, s) := by
  unfold known? at found
  unfold unlessSettled
  rw [Task.getBind, found]
  rfl

theorem settledCyclic (unknown : s.known? d = none) (begun : d.key ∈ s.inProgress) :
    (unlessSettled work d).outcome s = (.error (cycle s.inProgress d), s) := by
  unfold known? at unknown
  unfold unlessSettled
  rw [Task.getBind, unknown]
  simp only [List.contains_iff_mem.mpr begun, if_true]
  rfl

theorem settledOpen (unknown : s.known? d = none) (fresh : d.key ∉ s.inProgress) :
    (unlessSettled work d).outcome s = (work d).outcome s := by
  have apart : ¬ s.inProgress.contains d.key = true := by simpa using fresh
  unfold known? at unknown
  unfold unlessSettled
  rw [Task.getBind, unknown]
  simp only [if_neg apart]

/- What is settled is settled whatever the work would be. -/
theorem settledAgrees (same : d.key ∉ s.inProgress → (work d).outcome s = (other d).outcome s) :
    (unlessSettled work d).outcome s = (unlessSettled other d).outcome s := by
  cases found : s.known? d with
  | some res => rw [settledKnown found, settledKnown found]
  | none =>
    by_cases begun : d.key ∈ s.inProgress
    · rw [settledCyclic found begun, settledCyclic found begun]
    · rw [settledOpen found begun, settledOpen found begun, same begun]

theorem markingRun {α : Type} (key : DefinitionKey) (work : Resolve α) (s : ResolverState) :
    (Resolve.marking key work).outcome s =
      ((work.outcome (s.enter key)).1, (work.outcome (s.enter key)).2.leave) := by
  unfold Resolve.marking
  rw [Task.modifyBind, Task.bindOk (Task.outcomeObserved work _), Task.modifyBind]
  rfl

theorem workOutOk (run : (r.describe child d).outcome (s.enter d.key) = (.ok res, t)) :
    (r.workOut child d).outcome s = (.ok res, t.leave.remember d res) := by
  have marked := markingRun d.key (r.describe child d) s
  rw [run] at marked
  unfold workOut
  rw [Task.bindOk marked]
  cases anonymous : d.isAnonymous with
  | true => simp [remember, anonymous]
  | false =>
    simp only [remember, anonymous]
    rfl

theorem workOutError {e : Error}
    (run : (r.describe child d).outcome (s.enter d.key) = (.error e, t)) :
    (r.workOut child d).outcome s = (.error e, t.leave) := by
  have marked := markingRun d.key (r.describe child d) s
  rw [run] at marked
  unfold workOut
  exact Task.bindError marked

end Run

def childWithin (r : Registry) (beyond : ComponentDefinition → Resolve Resolved) (n : Nat) :
    ChildResolver :=
  fun e => do r.resolveWithin beyond n (← r.definitionFor e)

theorem definitionForFound {r : Registry} {e : Element} {d : ComponentDefinition}
    (found : r.behind? e = some d) (s : ResolverState) :
    ∃ warnings, (r.definitionFor e).outcome s = (.ok d, { s with warnings }) := by
  unfold definitionFor
  cases kind : e.kind with
  | widget w => simp [behind?, kind, ElementKind.reference?] at found
  | component reference =>
    simp only [behind?, kind, ElementKind.reference?, Option.bind_some] at found
    cases inline : reference.definition with
    | some own =>
      simp only [inline, Option.some_or, Option.some.injEq] at found
      subst found
      exact ⟨s.warnings, by simp [inline]⟩
    | none =>
      simp only [inline, Option.none_or] at found
      refine ⟨s.warnings ++ (r.component? reference.typeName).2, ?_⟩
      simp [inline, component, Resolve.warn, found, orUnknown]

theorem definitionForMissing {r : Registry} {e : Element} (missing : r.behind? e = none)
    (s : ResolverState) :
    ∃ name warnings, (r.definitionFor e).outcome s =
      (.error (.unknownComponent name), { s with warnings }) := by
  unfold definitionFor
  cases kind : e.kind with
  | widget w => exact ⟨w.tag, s.warnings, by simp⟩
  | component reference =>
    simp only [behind?, kind, ElementKind.reference?, Option.bind_some] at missing
    cases inline : reference.definition with
    | some own => simp [inline] at missing
    | none =>
      simp only [inline, Option.none_or] at missing
      refine ⟨reference.typeName, s.warnings ++ (r.component? reference.typeName).2, ?_⟩
      simp [inline, component, Resolve.warn, missing, orUnknown]

theorem definitionForGives {r : Registry} {e : Element} {d : ComponentDefinition}
    {s t : ResolverState} (ok : (r.definitionFor e).outcome s = (.ok d, t)) :
    r.behind? e = some d := by
  cases found : r.behind? e with
  | none =>
    obtain ⟨_, _, missing⟩ := definitionForMissing found s
    rw [missing] at ok
    cases ok
  | some inner =>
    obtain ⟨_, same⟩ := definitionForFound found s
    rw [same] at ok
    cases ok
    rfl

theorem behindIncluded {r : Registry} {d inner : ComponentDefinition} {e : Element}
    (member : d ∈ r.allDefinitions) (element : e ∈ d.elements)
    (found : r.behind? e = some inner) : inner ∈ r.allDefinitions := by
  cases kind : e.kind with
  | widget w => simp [behind?, kind, ElementKind.reference?] at found
  | component reference =>
    simp only [behind?, kind, ElementKind.reference?, Option.bind_some] at found
    cases inline : reference.definition with
    | some own =>
      simp only [inline, Option.some_or, Option.some.injEq] at found
      subst found
      refine inlineIncluded member element ?_
      simp [Element.definition?, kind, ElementKind.reference?, inline]
    | none =>
      simp only [inline, Option.none_or] at found
      exact definitionIncluded (visibleRegistered found)

theorem dependencyIncluded {r : Registry} {d inner : ComponentDefinition}
    (member : d ∈ r.allDefinitions) (step : r.DependsOn d inner) : inner ∈ r.allDefinitions := by
  obtain ⟨e, element, _, found⟩ := step
  exact behindIncluded member element found

theorem reachedIncluded {r : Registry} {d inner : ComponentDefinition}
    (member : d ∈ r.allDefinitions) (reached : ReflTransGen r.DependsOn d inner) :
    inner ∈ r.allDefinitions := by
  induction reached with
  | refl => exact member
  | tail _ step ih => exact dependencyIncluded ih step

def keys (r : Registry) : List DefinitionKey := (r.allDefinitions.map (·.key)).dedup

theorem keyIncluded {r : Registry} {d : ComponentDefinition} (member : d ∈ r.allDefinitions) :
    d.key ∈ r.keys :=
  List.mem_dedup.mpr (List.mem_map.mpr ⟨d, member, rfl⟩)

/- A way through distinct keys that is as long as there are keys has met them all. -/
theorem keysExhausted {r : Registry} {stack : List DefinitionKey} (distinct : stack.Nodup)
    (within : stack ⊆ r.keys) (long : r.keys.length ≤ stack.length) {key : DefinitionKey}
    (member : key ∈ r.keys) : key ∈ stack :=
  ((List.subperm_of_subset distinct within).perm_of_length_le long).mem_iff.mpr member

theorem stackEnters {r : Registry} {stack : List DefinitionKey} (distinct : stack.Nodup)
    (within : stack ⊆ r.keys) {d : ComponentDefinition} (member : d ∈ r.allDefinitions)
    (fresh : d.key ∉ stack) : (stack ++ [d.key]).Nodup ∧ stack ++ [d.key] ⊆ r.keys := by
  constructor
  · refine List.nodup_append.mpr ⟨distinct, List.nodup_singleton _, ?_⟩
    rintro k inside last final rfl
    exact fresh (List.mem_singleton.mp final ▸ inside)
  · intro k inside
    rcases List.mem_append.mp inside with before | final
    · exact within before
    · exact List.mem_singleton.mp final ▸ keyIncluded member

theorem resolveWithinStep (r : Registry) (beyond : ComponentDefinition → Resolve Resolved)
    (n : Nat) :
    r.resolveWithin beyond (n + 1) = unlessSettled (r.workOut (r.childWithin beyond n)) := rfl

section Nesting

variable {r : Registry} {beyond other : ComponentDefinition → Resolve Resolved}

/- Two runs of a component agree and leave the way as it was when the runs of its parts do. -/
theorem workOutAgrees (child another : ChildResolver) {d : ComponentDefinition}
    {s : ResolverState}
    (each : ∀ e ∈ d.elements, e.Needs → ∀ t, t.inProgress = (s.enter d.key).inProgress →
      (child e).outcome t = (another e).outcome t ∧
        ((child e).outcome t).2.inProgress = (s.enter d.key).inProgress) :
    (r.workOut child d).outcome s = (r.workOut another d).outcome s ∧
      ((r.workOut child d).outcome s).2.inProgress = s.inProgress := by
  obtain ⟨same, kept⟩ := describeAgrees (r := r) each (s := s.enter d.key) rfl
  cases run : (r.describe child d).outcome (s.enter d.key) with
  | mk result t =>
    rw [run] at same kept
    cases result with
    | ok res =>
      rw [workOutOk run, workOutOk same.symm]
      exact ⟨rfl, by rw [rememberInProgress]; exact leaveEntered kept⟩
    | error e =>
      rw [workOutError run, workOutError same.symm]
      exact ⟨rfl, leaveEntered kept⟩

theorem settledKeeps {work : ComponentDefinition → Resolve Resolved} {d : ComponentDefinition}
    {s : ResolverState} (kept : d.key ∉ s.inProgress →
      ((work d).outcome s).2.inProgress = s.inProgress) :
    ((unlessSettled work d).outcome s).2.inProgress = s.inProgress := by
  cases found : s.known? d with
  | some res => rw [settledKnown found]
  | none =>
    by_cases begun : d.key ∈ s.inProgress
    · rw [settledCyclic found begun]
    · rw [settledOpen found begun, kept begun]

theorem resolveWithinKeeps
    (quiet : ∀ d s, ((beyond d).outcome s).2.inProgress = s.inProgress) (n : Nat)
    (d : ComponentDefinition) (s : ResolverState) :
    ((r.resolveWithin beyond n d).outcome s).2.inProgress = s.inProgress := by
  induction n generalizing d s with
  | zero => exact settledKeeps fun _ => quiet d s
  | succ n ih =>
    rw [resolveWithinStep]
    refine settledKeeps fun _ => (workOutAgrees _ (r.childWithin beyond n) ?_).2
    intro e _ _ t same
    refine ⟨rfl, ?_⟩
    unfold childWithin
    cases found : r.behind? e with
    | none =>
      obtain ⟨name, warnings, run⟩ := definitionForMissing found t
      rw [Task.bindError run]
      exact same
    | some inner =>
      obtain ⟨warnings, run⟩ := definitionForFound found t
      rw [Task.bindOk run, ih]
      exact same

/- With room for every key that is not on the way, what would come beyond does not matter. -/
theorem resolveWithinAgrees {n m : Nat} {d : ComponentDefinition} (member : d ∈ r.allDefinitions)
    {s : ResolverState} (distinct : s.inProgress.Nodup) (within : s.inProgress ⊆ r.keys)
    (room : r.keys.length ≤ n + s.inProgress.length)
    (room' : r.keys.length ≤ m + s.inProgress.length) :
    (r.resolveWithin beyond n d).outcome s = (r.resolveWithin other m d).outcome s ∧
      ((r.resolveWithin beyond n d).outcome s).2.inProgress = s.inProgress := by
  induction n generalizing m d s with
  | zero =>
    have begun := keysExhausted distinct within (by omega) (keyIncluded member)
    refine ⟨?_, settledKeeps fun fresh => absurd begun fresh⟩
    cases m <;> exact settledAgrees fun fresh => absurd begun fresh
  | succ n ih =>
    cases m with
    | zero =>
      have begun := keysExhausted distinct within (by omega) (keyIncluded member)
      exact ⟨settledAgrees fun fresh => absurd begun fresh,
        settledKeeps fun fresh => absurd begun fresh⟩
    | succ m =>
      rw [resolveWithinStep, resolveWithinStep]
      have worked : d.key ∉ s.inProgress →
          (r.workOut (r.childWithin beyond n) d).outcome s =
            (r.workOut (r.childWithin other m) d).outcome s ∧
          ((r.workOut (r.childWithin beyond n) d).outcome s).2.inProgress = s.inProgress := by
        intro fresh
        obtain ⟨distinct, within⟩ := stackEnters distinct within member fresh
        refine workOutAgrees _ _ fun e element _ t same => ?_
        unfold childWithin
        cases found : r.behind? e with
        | none =>
          obtain ⟨name, warnings, run⟩ := definitionForMissing found t
          rw [Task.bindError run, Task.bindError run]
          exact ⟨rfl, same⟩
        | some inner =>
          obtain ⟨warnings, run⟩ := definitionForFound found t
          rw [Task.bindOk run, Task.bindOk run]
          have longer : t.inProgress.length = s.inProgress.length + 1 := by
            rw [same, enter, List.length_append, List.length_singleton]
          obtain ⟨equal, kept⟩ := ih (m := m) (behindIncluded member element found)
            (s := { t with warnings }) (by rw [same]; exact distinct)
            (by rw [same]; exact within) (by simp only [longer]; omega)
            (by simp only [longer]; omega)
          exact ⟨equal, kept.trans same⟩
      exact ⟨settledAgrees fun fresh => (worked fresh).1,
        settledKeeps fun fresh => (worked fresh).2⟩

end Nesting

def Answers (r : Registry) (Q : ComponentDefinition → Prop) (e : Element) (a : Resolved) : Prop :=
  ∃ inner, r.behind? e = some inner ∧ r.Derivation inner a ∧ Q inner

open Classical in
noncomputable def answer (r : Registry) (Q : ComponentDefinition → Prop) (e : Element) :
    Result Resolved :=
  if h : ∃ a, r.Answers Q e a then .ok h.choose else .error (.unknownComponent e.kind.tag)

theorem answerGives {r : Registry} {Q : ComponentDefinition → Prop} {e : Element} {a : Resolved}
    (ok : r.answer Q e = .ok a) : r.Answers Q e a := by
  unfold answer at ok
  split at ok
  · rename_i h
    cases ok
    exact h.choose_spec
  · cases ok

theorem answerOk {r : Registry} {Q : ComponentDefinition → Prop} {e : Element} {a : Resolved}
    (answers : r.Answers Q e a) : r.answer Q e = .ok a := by
  have some : ∃ a, r.Answers Q e a := ⟨a, answers⟩
  unfold answer
  rw [dif_pos some]
  obtain ⟨inner, found, derivation, _⟩ := answers
  obtain ⟨inner', found', derivation', _⟩ := some.choose_spec
  cases Option.some.inj (found.symm.trans found')
  rw [derivationUnique derivation' derivation]

def Sound (r : Registry) (Q : ComponentDefinition → Prop) (s : ResolverState) : Prop :=
  ∀ d ∈ r.definitions, ∀ res, s.cache.lookup d.key = some res → r.Derivation d res ∧ Q d

theorem soundRemember {r : Registry} (filled : r.Filled) {Q : ComponentDefinition → Prop}
    {s : ResolverState} (sound : r.Sound Q s) {d : ComponentDefinition} {res : Resolved}
    (member : d ∈ r.allDefinitions) (derivation : r.Derivation d res) (holds : Q d) :
    r.Sound Q (s.remember d res) := by
  unfold remember
  split
  · exact sound
  · rename_i named
    intro c registered found looked
    rw [List.lookup_cons] at looked
    split at looked
    · rename_i same
      cases Option.some.inj looked
      have own := namedRegistered filled member (by simpa using named)
      cases definitionUnique filled registered own (eq_of_beq same)
      exact ⟨derivation, holds⟩
    · exact sound c registered found looked

section Soundness

variable {r : Registry} {beyond : ComponentDefinition → Resolve Resolved}
  {Q : ComponentDefinition → Prop} {marked : List DefinitionKey}

/-- The property passes from what a component depends on to the component, unless its key is one of
those that are marked. -/
def Passes (r : Registry) (Q : ComponentDefinition → Prop) (marked : List DefinitionKey) : Prop :=
  ∀ d ∈ r.allDefinitions, d.key ∉ marked → (∀ inner, r.DependsOn d inner → Q inner) → Q d

/- The components behind the references are followed by answers that are always there when the
component has been resolved. -/
theorem childTracks (quiet : ∀ d s, ((beyond d).outcome s).2.inProgress = s.inProgress) {n : Nat}
    {d : ComponentDefinition} (member : d ∈ r.allDefinitions)
    (recursive : ∀ inner ∈ r.allDefinitions, ∀ s, r.Sound Q s → marked ⊆ s.inProgress →
      r.Sound Q ((r.resolveWithin beyond n inner).outcome s).2 ∧
        ∀ res, ((r.resolveWithin beyond n inner).outcome s).1 = .ok res →
          r.Derivation inner res ∧ Q inner)
    {e : Element} (element : e ∈ d.elements) :
    Task.Tracks False (fun s _ => r.Sound Q s ∧ marked ⊆ s.inProgress) (r.childWithin beyond n e)
      (liftM (r.answer Q e) : Resolve Resolved) := by
  rintro s t ⟨sound, begun⟩
  refine ⟨t, ?_⟩
  unfold childWithin
  cases found : r.behind? e with
  | none =>
    obtain ⟨name, warnings, run⟩ := definitionForMissing found s
    rw [Task.bindError run]
    refine ⟨⟨sound, begun⟩, ?_⟩
    rintro (no | ⟨a, ok⟩)
    · exact no.elim
    · cases ok
  | some inner =>
    obtain ⟨warnings, run⟩ := definitionForFound found s
    rw [Task.bindOk run]
    obtain ⟨kept, derived⟩ := recursive inner (behindIncluded member element found)
      { s with warnings } sound begun
    refine ⟨⟨kept, ?_⟩, ?_⟩
    · rw [resolveWithinKeeps quiet]
      exact begun
    · rintro (no | ⟨a, ok⟩)
      · exact no.elim
      · obtain ⟨derivation, holds⟩ := derived a ok
        rw [ok, Task.outcomeLift, answerOk ⟨inner, found, derivation, holds⟩]

theorem describedSound {d : ComponentDefinition} {res : Resolved}
    (described : r.describeFrom (r.answer Q) d = .ok res) :
    r.Derivation d res ∧ ∀ inner, r.DependsOn d inner → Q inner := by
  have answered : ∀ e ∈ d.elements, e.Needs → ∀ a, r.answer Q e = .ok a →
      ∃ inner, r.behind? e = some inner ∧ r.Derivation inner a ∧ Q inner :=
    fun e _ _ a ok => answerGives ok
  constructor
  · refine .mk (r.answer Q) (fun e => (r.behind? e).getD d) ?_ ?_ described
    · intro e member needs
      obtain ⟨a, ok⟩ := describeAnswered described member needs
      obtain ⟨inner, found, _⟩ := answered e member needs a ok
      simp [found]
    · intro e member needs a ok
      obtain ⟨inner, found, derivation, _⟩ := answered e member needs a ok
      simpa [found] using derivation
  · rintro inner ⟨e, member, needs, found⟩
    obtain ⟨a, ok⟩ := describeAnswered described member needs
    obtain ⟨inner', found', _, holds⟩ := answered e member needs a ok
    cases Option.some.inj (found.symm.trans found')
    exact holds

theorem describeSound (quiet : ∀ d s, ((beyond d).outcome s).2.inProgress = s.inProgress)
    {n : Nat} {d : ComponentDefinition} (member : d ∈ r.allDefinitions)
    (recursive : ∀ inner ∈ r.allDefinitions, ∀ s, r.Sound Q s → marked ⊆ s.inProgress →
      r.Sound Q ((r.resolveWithin beyond n inner).outcome s).2 ∧
        ∀ res, ((r.resolveWithin beyond n inner).outcome s).1 = .ok res →
          r.Derivation inner res ∧ Q inner)
    {s : ResolverState} (sound : r.Sound Q s) (begun : marked ⊆ s.inProgress) :
    r.Sound Q ((r.describe (r.childWithin beyond n) d).outcome s).2 ∧
      ∀ res, ((r.describe (r.childWithin beyond n) d).outcome s).1 = .ok res →
        r.Derivation d res ∧ ∀ inner, r.DependsOn d inner → Q inner := by
  have tracks := describeTracks (r := r) (d := d) fun e element _ =>
    childTracks quiet member recursive element
  obtain ⟨u, ⟨kept, _⟩, same⟩ := tracks s {} ⟨sound, begun⟩
  refine ⟨kept, fun res ok => ?_⟩
  have described := same (.inr ⟨res, ok⟩)
  rw [describeLifted, ok] at described
  exact describedSound (Prod.mk.inj described).1

theorem knownSound (filled : r.Filled) {d : ComponentDefinition} (member : d ∈ r.allDefinitions)
    {s : ResolverState} (sound : r.Sound Q s) {res : Resolved} (found : s.known? d = some res) :
    r.Derivation d res ∧ Q d := by
  unfold known? at found
  split at found
  · cases found
  · rename_i named
    exact sound d (namedRegistered filled member (by simpa using named)) res found

theorem settledSound (filled : r.Filled) {work : ComponentDefinition → Resolve Resolved}
    {d : ComponentDefinition} (member : d ∈ r.allDefinitions) {s : ResolverState}
    (sound : r.Sound Q s)
    (worked : d.key ∉ s.inProgress → r.Sound Q ((work d).outcome s).2 ∧
      ∀ res, ((work d).outcome s).1 = .ok res → r.Derivation d res ∧ Q d) :
    r.Sound Q ((unlessSettled work d).outcome s).2 ∧
      ∀ res, ((unlessSettled work d).outcome s).1 = .ok res → r.Derivation d res ∧ Q d := by
  cases found : s.known? d with
  | some known =>
    rw [settledKnown found]
    refine ⟨sound, fun res ok => ?_⟩
    cases ok
    exact knownSound filled member sound found
  | none =>
    by_cases inside : d.key ∈ s.inProgress
    · rw [settledCyclic found inside]
      exact ⟨sound, fun res ok => by cases ok⟩
    · rw [settledOpen found inside]
      exact worked inside

theorem resolveWithinSound (filled : r.Filled)
    (fails : ∀ d s, ∃ error, (beyond d).outcome s = (.error error, s))
    (passes : r.Passes Q marked) {n : Nat} {d : ComponentDefinition}
    (member : d ∈ r.allDefinitions) {s : ResolverState} (sound : r.Sound Q s)
    (begun : marked ⊆ s.inProgress) :
    r.Sound Q ((r.resolveWithin beyond n d).outcome s).2 ∧
      ∀ res, ((r.resolveWithin beyond n d).outcome s).1 = .ok res →
        r.Derivation d res ∧ Q d := by
  have quiet : ∀ d s, ((beyond d).outcome s).2.inProgress = s.inProgress := by
    intro d s
    obtain ⟨error, run⟩ := fails d s
    rw [run]
  induction n generalizing d s with
  | zero =>
    refine settledSound filled member sound fun _ => ?_
    obtain ⟨error, run⟩ := fails d s
    rw [run]
    exact ⟨sound, fun res ok => by cases ok⟩
  | succ n ih =>
    rw [resolveWithinStep]
    refine settledSound filled member sound fun fresh => ?_
    obtain ⟨kept, derived⟩ := describeSound quiet member
      (fun inner within s sound begun => ih within sound begun) (s := s.enter d.key) sound
      (fun k inside => List.mem_append_left _ (begun inside))
    cases run : (r.describe (r.childWithin beyond n) d).outcome (s.enter d.key) with
    | mk result t =>
      rw [run] at kept derived
      cases result with
      | error e =>
        rw [workOutError run]
        exact ⟨kept, fun res ok => by cases ok⟩
      | ok res =>
        obtain ⟨derivation, inner⟩ := derived res rfl
        have holds : Q d := passes d member (fun inside => fresh (begun inside)) inner
        rw [workOutOk run]
        refine ⟨soundRemember filled (s := t.leave) kept member derivation holds, fun _ ok => ?_⟩
        cases ok
        exact ⟨derivation, holds⟩

end Soundness

section Completeness

variable {r : Registry} {beyond : ComponentDefinition → Resolve Resolved}
  {root : ComponentDefinition}

def KeysApart (r : Registry) (root : ComponentDefinition) : Prop :=
  ∀ x y, ReflTransGen r.DependsOn root x → TransGen r.DependsOn x y → x.key ≠ y.key

structure Approach (r : Registry) (root d : ComponentDefinition) (stack : List DefinitionKey) :
    Prop where
  distinct : stack.Nodup
  leads : ∀ key ∈ stack, ∃ x, ReflTransGen r.DependsOn root x ∧ x.key = key ∧
    TransGen r.DependsOn x d

theorem approachWithin (rooted : root ∈ r.allDefinitions) {d : ComponentDefinition}
    {stack : List DefinitionKey} (approach : r.Approach root d stack) : stack ⊆ r.keys := by
  intro key member
  obtain ⟨x, reached, rfl, _⟩ := approach.leads key member
  exact keyIncluded (reachedIncluded rooted reached)

theorem approachFresh (apart : r.KeysApart root) {d : ComponentDefinition}
    {stack : List DefinitionKey} (approach : r.Approach root d stack) : d.key ∉ stack := by
  intro member
  obtain ⟨x, reached, same, leads⟩ := approach.leads _ member
  exact apart x d reached leads same

theorem approachStep (apart : r.KeysApart root) {d inner : ComponentDefinition}
    {stack : List DefinitionKey} (approach : r.Approach root d stack)
    (reached : ReflTransGen r.DependsOn root d) (step : r.DependsOn d inner) :
    r.Approach root inner (stack ++ [d.key]) where
  distinct := by
    refine List.nodup_append.mpr ⟨approach.distinct, List.nodup_singleton _, ?_⟩
    rintro k inside last final rfl
    exact approachFresh apart approach (List.mem_singleton.mp final ▸ inside)
  leads key member := by
    rcases List.mem_append.mp member with before | final
    · obtain ⟨x, reached, same, leads⟩ := approach.leads key before
      exact ⟨x, reached, same, leads.tail step⟩
    · exact ⟨d, reached, (List.mem_singleton.mp final).symm, .single step⟩

theorem passesTrue : r.Passes (fun _ => True) [] := fun _ _ _ _ => trivial

theorem resolveWithinComplete (filled : r.Filled)
    (fails : ∀ d s, ∃ error, (beyond d).outcome s = (.error error, s))
    (rooted : root ∈ r.allDefinitions) (apart : r.KeysApart root) {n : Nat}
    {d : ComponentDefinition} {res : Resolved} (reached : ReflTransGen r.DependsOn root d)
    (derivation : r.Derivation d res) {s : ResolverState} (sound : r.Sound (fun _ => True) s)
    (approach : r.Approach root d s.inProgress)
    (room : r.keys.length ≤ n + s.inProgress.length) :
    ((r.resolveWithin beyond n d).outcome s).1 = .ok res := by
  have quiet : ∀ d s, ((beyond d).outcome s).2.inProgress = s.inProgress := by
    intro d s
    obtain ⟨error, run⟩ := fails d s
    rw [run]
  induction n generalizing d res s with
  | zero =>
    have member := keyIncluded (reachedIncluded rooted reached)
    have begun := keysExhausted approach.distinct (approachWithin rooted approach) (by omega) member
    exact absurd begun (approachFresh apart approach)
  | succ n ih =>
    have member := reachedIncluded rooted reached
    have fresh := approachFresh apart approach
    rw [resolveWithinStep]
    cases found : s.known? d with
    | some known =>
      rw [settledKnown found,
        derivationUnique (knownSound filled member sound found).1 derivation]
    | none =>
      rw [settledOpen found fresh]
      obtain ⟨oracle, next, behind, children, described⟩ := derivation
      -- The answers of the derivation lead, and the run follows them.
      have tracks : Task.Tracks False
          (fun _ t => r.Sound (fun _ => True) t ∧ t.inProgress = s.inProgress ++ [d.key])
          (r.describe (fun e => liftM (oracle e)) d) (r.describe (r.childWithin beyond n) d) := by
        refine describeTracks fun e element needs => ?_
        have located := behind e element needs
        have step : r.DependsOn d (next e) := ⟨e, element, needs, located⟩
        rintro _ t ⟨sound, begun⟩
        obtain ⟨warnings, run⟩ := definitionForFound located t
        unfold childWithin
        rw [Task.bindOk run]
        refine ⟨((r.resolveWithin beyond n (next e)).outcome { t with warnings }).2, ⟨?_, ?_⟩, ?_⟩
        · exact (resolveWithinSound filled fails passesTrue (dependencyIncluded member step)
            (s := { t with warnings }) sound (List.nil_subset _)).1
        · rw [resolveWithinKeeps quiet]
          exact begun
        · rintro (no | ⟨a, ok⟩)
          · exact no.elim
          · refine Prod.ext ?_ rfl
            rw [Task.outcomeLift] at ok ⊢
            rw [ok]
            refine ih (reached.tail step) (children e element needs a ok) (s := { t with warnings })
              sound ?_ ?_
            · rw [begun]
              exact approachStep apart approach reached step
            · simp only [begun, List.length_append, List.length_singleton]
              omega
      obtain ⟨u, _, same⟩ := tracks {} (s.enter d.key) ⟨sound, rfl⟩
      rw [describeLifted, described] at same
      rw [workOutOk (same (.inr ⟨res, rfl⟩))]

end Completeness

section Resolve

variable {r : Registry}

theorem soundFresh (Q : ComponentDefinition → Prop) : r.Sound Q {} := by
  intro d _ res found
  simp at found

def tooDeep (d : ComponentDefinition) : Resolve Resolved := throw (.cyclicReference d.typeName)

theorem tooDeepFails (d : ComponentDefinition) (s : ResolverState) :
    ∃ error, (tooDeep d).outcome s = (.error error, s) :=
  ⟨_, rfl⟩

theorem keysWithinLimit (d : ComponentDefinition) : r.keys.length ≤ r.resolveLimit d := by
  have fewer := (List.dedup_sublist (r.allDefinitions.map (·.key))).length_le
  rw [List.length_map] at fewer
  unfold keys resolveLimit
  omega

theorem resolveKeeps (d : ComponentDefinition) (s : ResolverState) :
    ((r.resolve d).outcome s).2.inProgress = s.inProgress :=
  resolveWithinKeeps (fun _ _ => rfl) _ d s

/- A registered component that has been resolved is known from then on. -/
theorem resolveKnown {d : ComponentDefinition} {res : Resolved}
    {s t : ResolverState} (named : d.isAnonymous = false)
    (ok : (r.resolve d).outcome s = (.ok res, t)) : t.known? d = some res := by
  unfold resolve resolveLimit at ok
  rw [resolveWithinStep] at ok
  cases found : s.known? d with
  | some known =>
    rw [settledKnown found] at ok
    cases ok
    exact found
  | none =>
    by_cases begun : d.key ∈ s.inProgress
    · rw [settledCyclic found begun] at ok
      cases ok
    · rw [settledOpen found begun] at ok
      cases run : (r.describe (r.childWithin _ _) d).outcome (s.enter d.key) with
      | mk result u =>
        cases result with
        | error e =>
          rw [workOutError run] at ok
          cases ok
        | ok described =>
          rw [workOutOk run] at ok
          cases ok
          simp [known?, remember, named]

theorem resolveBounded {d : ComponentDefinition} (member : d ∈ r.allDefinitions)
    (beyond : ComponentDefinition → Resolve Resolved) {n : Nat} (room : r.keys.length ≤ n) :
    (r.resolveWithin beyond n d).outcome {} = (r.resolve d).outcome {} :=
  (resolveWithinAgrees member List.nodup_nil (List.nil_subset _) room (keysWithinLimit d)).1

theorem resolveSound (filled : r.Filled) {d : ComponentDefinition} (member : d ∈ r.allDefinitions)
    {s : ResolverState} (sound : r.Sound (fun _ => True) s) {res : Resolved}
    (ok : ((r.resolve d).outcome s).1 = .ok res) : r.Derivation d res :=
  ((resolveWithinSound filled tooDeepFails passesTrue member sound (List.nil_subset _)).2 res ok).1

/- While the component is in progress, nothing of the same key can be resolved. -/
theorem resolveApart (filled : r.Filled) {d : ComponentDefinition} (member : d ∈ r.allDefinitions)
    {res : Resolved} (ok : ((r.resolve d).outcome {}).1 = .ok res) {inner : ComponentDefinition}
    (depends : TransGen r.DependsOn d inner) : d.key ≠ inner.key := by
  have passes : r.Passes (fun c => ∀ y, ReflTransGen r.DependsOn c y → d.key ≠ y.key) [d.key] := by
    intro c _ other inside y reached
    rcases ReflTransGen.cases_head reached with rfl | ⟨next, step, rest⟩
    · intro same
      exact other (List.mem_singleton.mpr same.symm)
    · exact inside next step y rest
  obtain ⟨next, step, rest⟩ := TransGen.head'_iff.mp depends
  have limit : r.resolve d = unlessSettled
      (r.workOut (r.childWithin tooDeep (r.allDefinitions.length + d.nested.length))) d := rfl
  rw [limit, settledOpen (by simp [known?]) (by simp)] at ok
  generalize r.allDefinitions.length + d.nested.length = n at ok
  have derived := (describeSound (n := n) (fun _ _ => rfl) member
    (fun _ within _ sound begun => resolveWithinSound filled tooDeepFails passes within sound begun)
    (s := enter d.key {}) (soundFresh _) (by simp [enter] : [d.key] ⊆ _)).2
  cases run : (r.describe (r.childWithin tooDeep n) d).outcome (enter d.key {}) with
  | mk result t =>
    cases result with
    | error e =>
      rw [workOutError run] at ok
      cases ok
    | ok described =>
      rw [run] at derived
      exact (derived described rfl).2 next step inner rest

theorem resolveExactly (filled : r.Filled) {d : ComponentDefinition}
    (registered : d ∈ r.definitions) :
    (∀ beyond n, r.keys.length ≤ n →
      (r.resolveWithin beyond n d).outcome {} = (r.resolve d).outcome {}) ∧
    (∀ s, ((r.resolve d).outcome s).2.inProgress = s.inProgress) ∧
    ∀ res, ((r.resolve d).outcome {}).1 = .ok res →
      (∀ x, ReflTransGen r.DependsOn d x →
        ¬ TransGen r.DependsOn x x ∧ ∃ a, r.Derivation x a) ∧
      ((∀ x, ReflTransGen r.DependsOn d x → ∃ a, ((r.resolve x).outcome {}).1 = .ok a) ↔
        r.KeysApart d) := by
  have member := definitionIncluded registered
  refine ⟨fun beyond n room => resolveBounded member beyond room, resolveKeeps d, ?_⟩
  intro res ok
  have derivation := resolveSound filled member (soundFresh _) ok
  have derived : ∀ x, ReflTransGen r.DependsOn d x → ∃ a, r.Derivation x a :=
    fun x reached => derivationReached derivation reached
  refine ⟨fun x reached => ?_, ⟨fun each x y reached depends => ?_, fun apart x reached => ?_⟩⟩
  · obtain ⟨a, own⟩ := derived x reached
    exact ⟨derivationAcyclic own, a, own⟩
  · obtain ⟨a, fresh⟩ := each x reached
    exact resolveApart filled (reachedIncluded member reached) fresh depends
  · obtain ⟨a, own⟩ := derived x reached
    refine ⟨a, resolveWithinComplete filled tooDeepFails member apart reached own (soundFresh _)
      ⟨List.nodup_nil, by simp⟩ (keysWithinLimit x)⟩

/- Both components of the first file hold a row in place, and the two rows share a key: while the
row of the second is in progress, that of the first cannot be begun. -/
def sharedSource : String → String × String
  | "B" => ("F", "<B><state><item name=\"z\" type=\"Int\"/></state>" ++
      "<Row id=\"r\" a=\"1\"><Label numberOfLines=\"$a\"/></Row></B>")
  | "C" => ("F", "<C><state><item name=\"k\" type=\"Int\"/></state>" ++
      "<Row id=\"r\" x=\"2\"><Label numberOfLines=\"$x\"/><B id=\"b\" z=\"1\"/></Row></C>")
  | _ => ("D", "<D><B id=\"b\" z=\"3\"/><C id=\"c\" k=\"4\"/></D>")

def sharedReading (name : String) : Result ComponentDefinition :=
  (Compilation.readComponent .iOS (sharedSource name).1 (sharedSource name).2).1

theorem sharedLetters {name : String} {cs : List Char}
    (letters : (sharedSource name).2 = String.ofList cs) :
    sharedReading name = readLetters (sharedSource name).1 cs := by
  rw [sharedReading, readComponentLetters letters]

def sharedDefinition (name : String) : ComponentDefinition :=
  (sharedReading name).toOption.getD
    (Element.define name "" false (Element.bare (.widget .container) Element.rootId) [] {})

def shared : Registry :=
  ["B", "C", "D"].foldl (fun r name => r.addComponent (sharedDefinition name))
    { platform := .iOS, application := {} }

def sharedLink : Option Element := (sharedDefinition "D").elements.find? (·.id.name == "c")

/- All that has to be computed, at once: the texts can be read, the last component resolves, and the
one that it needs does not. -/
theorem sharedComputed : (["B", "C", "D"].all fun name => (sharedReading name).isOk) = true ∧
    ((shared.resolve (sharedDefinition "D")).outcome {}).1.isOk = true ∧
    (sharedLink.any fun e => (e.kind.reference?.any fun c => !c.arguments.isEmpty) &&
      (shared.behind? e).any fun c => !((shared.resolve c).outcome {}).1.isOk) = true := by
  have b : sharedReading "B" = _ := sharedLetters (Text.lettersAppend rfl rfl)
  have c : sharedReading "C" = _ := sharedLetters (Text.lettersAppend rfl rfl)
  have d : sharedReading "D" = _ := sharedLetters rfl
  simp only [sharedLink, shared, sharedDefinition, List.all_cons, List.foldl_cons, List.foldl_nil, b,
    c, d]
  decide +kernel

theorem sharedFilled : shared.Filled := by
  have readable := List.all_eq_true.mp sharedComputed.1
  have read : ∀ name ∈ ["B", "C", "D"], ∀ r : Registry, r.platform = .iOS → r.Filled →
      (r.addComponent (sharedDefinition name)).Filled := by
    intro name listed r platform filled
    have read : Compilation.readComponent r.platform (sharedSource name).1 (sharedSource name).2 =
        (.ok (sharedDefinition name), (Compilation.readComponent r.platform (sharedSource name).1
          (sharedSource name).2).2) := by
      refine Prod.ext ?_ rfl
      rw [platform]
      exact Result.okGetD (readable name listed) _
    exact .component filled read
  exact read "D" (by simp) _ rfl (read "C" (by simp) _ rfl (read "B" (by simp) _ rfl
    (.empty .iOS {})))

theorem sharedResolves :
    ∃ res, ((shared.resolve (sharedDefinition "D")).outcome {}).1 = .ok res :=
  ⟨_, Result.okGetD sharedComputed.2.1 ⟨sharedDefinition "D", [], [], []⟩⟩

theorem sharedBlocked : ∃ x, ReflTransGen shared.DependsOn (sharedDefinition "D") x ∧
    ∀ a, ((shared.resolve x).outcome {}).1 ≠ .ok a := by
  obtain ⟨e, link, facts⟩ := (Option.any_eq_true _ _).mp sharedComputed.2.2
  obtain ⟨given, found⟩ := (Bool.and_eq_true _ _).mp facts
  obtain ⟨reference, refers, arguments⟩ := (Option.any_eq_true _ _).mp given
  obtain ⟨x, behind, failed⟩ := (Option.any_eq_true _ _).mp found
  have needs : e.Needs :=
    ⟨reference, ElementKind.referenceComponent refers, .inl (by simpa using arguments)⟩
  refine ⟨x, .single ⟨e, List.mem_of_find?_eq_some link, needs, behind⟩, fun a ok => ?_⟩
  rw [ok] at failed
  cases failed

theorem sharedKeyBlocks : ∃ (r : Registry) (d x : ComponentDefinition), r.Filled ∧
    d ∈ r.definitions ∧ (∃ res, ((r.resolve d).outcome {}).1 = .ok res) ∧
      ReflTransGen r.DependsOn d x ∧ ∀ a, ((r.resolve x).outcome {}).1 ≠ .ok a := by
  obtain ⟨x, reached, blocked⟩ := sharedBlocked
  exact ⟨shared, sharedDefinition "D", x, sharedFilled, addedRegistered _ _, sharedResolves,
    reached, blocked⟩

theorem sharedKeysMeet : ¬ shared.KeysApart (sharedDefinition "D") := by
  intro apart
  obtain ⟨res, ok⟩ := sharedResolves
  obtain ⟨x, reached, blocked⟩ := sharedBlocked
  have exactly := resolveExactly sharedFilled (addedRegistered _ (sharedDefinition "D"))
  obtain ⟨a, fresh⟩ := (exactly.2.2 res ok).2.mpr apart x reached
  exact blocked a fresh

end Resolve

end Registry
end ViewForge
