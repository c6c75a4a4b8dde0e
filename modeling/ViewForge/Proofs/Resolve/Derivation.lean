import Mathlib.Logic.Relation
import ViewForge.Proofs.Resolve.Tracking

/-! What a component comes to, said without a run: the components behind the references are resolved
first, each to one thing, and the component is described from them. -/
open Relation (ReflTransGen TransGen)
namespace ViewForge.Registry

def behind? (r : Registry) (e : Element) : Option ComponentDefinition :=
  e.kind.reference?.bind fun reference =>
    reference.definition.or (r.component? reference.typeName).1

def DependsOn (r : Registry) (d inner : ComponentDefinition) : Prop :=
  ∃ e ∈ d.elements, e.Needs ∧ r.behind? e = some inner

def describeFrom (r : Registry) (oracle : Element → Result Resolved) (d : ComponentDefinition) :
    Result Resolved :=
  ((r.describe (fun e => liftM (oracle e)) d).outcome {}).1

theorem describeLifted (r : Registry) (oracle : Element → Result Resolved)
    (d : ComponentDefinition) (s : ResolverState) :
    (r.describe (fun e => liftM (oracle e)) d).outcome s = (r.describeFrom oracle d, s) := by
  have both : Task.Tracks True (fun left right => left = {} ∧ right = s)
      (r.describe (fun e => liftM (oracle e)) d) (r.describe (fun e => liftM (oracle e)) d) :=
    describeTracks fun e _ _ => Task.tracksLift _
  obtain ⟨u, ⟨_, rfl⟩, same⟩ := both {} s ⟨rfl, rfl⟩
  exact same (.inl trivial)

theorem describeFromCongr {r : Registry} {d : ComponentDefinition}
    {oracle other : Element → Result Resolved}
    (same : ∀ e ∈ d.elements, e.Needs → oracle e = other e) :
    r.describeFrom oracle d = r.describeFrom other d := by
  have both : Task.Tracks True Eq
      (r.describe (fun e => liftM (oracle e)) d) (r.describe (fun e => liftM (other e)) d) := by
    refine describeTracks fun e member needs => ?_
    rw [same e member needs]
    exact Task.tracksLift _
  obtain ⟨u, _, run⟩ := both {} {} rfl
  rw [describeFrom, describeFrom, run (.inl trivial)]

theorem usesAnswered {oracle : Element → Result Resolved} {e : Element}
    {reference : ComponentReference} (kind : e.kind = .component reference)
    (given : reference.arguments ≠ []) {before after : StateItem.Uses} {s t : ResolverState}
    (ok : (StateItem.elementUses (fun e => liftM (oracle e)) before e).outcome s =
      (.ok after, t)) : ∃ a, oracle e = .ok a := by
  unfold StateItem.elementUses at ok
  simp only [kind, ElementKind.reference?] at ok
  rw [if_neg (by simpa using given)] at ok
  obtain ⟨a, found, _⟩ := Task.liftBindGives ok
  exact ⟨a, found⟩

theorem sourceAnswered {oracle : Element → Result Resolved} {d : ComponentDefinition}
    {state : List StateItem} {e : Element} {reference : ComponentReference}
    (kind : e.kind = .component reference) {action : BoundAction}
    {before after : ResolvedAction.Sources} {s t : ResolverState}
    (ok : (ResolvedAction.addSource (fun e => liftM (oracle e)) d state e before action).outcome s =
      (.ok after, t)) : ∃ a, oracle e = .ok a := by
  unfold ResolvedAction.addSource at ok
  obtain ⟨event, u, described, _⟩ := Task.bindGives.mp ok
  unfold ResolvedAction.describeEvent at described
  simp only [kind] at described
  obtain ⟨a, found, _⟩ := Task.liftBindGives described
  exact ⟨a, found⟩

/- A description that succeeds has asked for every component that is needed. -/
theorem describeAnswered {r : Registry} {d : ComponentDefinition}
    {oracle : Element → Result Resolved} {res : Resolved}
    (ok : r.describeFrom oracle d = .ok res) {e : Element} (member : e ∈ d.elements)
    (needs : e.Needs) : ∃ a, oracle e = .ok a := by
  have run := describeLifted r oracle d {}
  rw [ok] at run
  unfold describe at run
  obtain ⟨properties, _, run⟩ := Task.liftBindGives run
  obtain ⟨state, s₁, states, run⟩ := Task.bindGives.mp run
  obtain ⟨actions, s₂, acted, _⟩ := Task.bindGives.mp run
  obtain ⟨reference, kind, given | acts⟩ := needs
  · unfold StateItem.resolveAll at states
    obtain ⟨uses, s₃, folded, _⟩ := Task.bindGives.mp states
    obtain ⟨_, _, _, _, step⟩ := Task.foldlGivesEach folded member
    exact usesAnswered kind given step
  · unfold ResolvedAction.resolveAll at acted
    obtain ⟨sources, s₃, folded, _⟩ := Task.bindGives.mp acted
    obtain ⟨_, _, _, _, step⟩ := Task.foldlGivesEach folded member
    obtain ⟨action, inside⟩ := List.exists_mem_of_ne_nil _ acts
    obtain ⟨_, _, _, _, once⟩ := Task.foldlGivesEach step inside
    exact sourceAnswered kind once

inductive Derivation (r : Registry) : ComponentDefinition → Resolved → Prop where
  | mk {d : ComponentDefinition} {res : Resolved} (oracle : Element → Result Resolved)
      (next : Element → ComponentDefinition)
      (behind : ∀ e ∈ d.elements, e.Needs → r.behind? e = some (next e))
      (children : ∀ e ∈ d.elements, e.Needs → ∀ a, oracle e = .ok a → Derivation r (next e) a)
      (described : r.describeFrom oracle d = .ok res) : Derivation r d res

theorem derivationUnique {r : Registry} {d : ComponentDefinition} {a b : Resolved}
    (left : r.Derivation d a) (right : r.Derivation d b) : a = b := by
  induction left generalizing b with
  | @mk d a oracle next behind children described ih =>
    obtain ⟨other, next', behind', children', described'⟩ := right
    have same : ∀ e ∈ d.elements, e.Needs → oracle e = other e := by
      intro e member needs
      obtain ⟨x, hx⟩ := describeAnswered described member needs
      obtain ⟨y, hy⟩ := describeAnswered described' member needs
      have target := Option.some.inj ((behind e member needs).symm.trans (behind' e member needs))
      have inner := children' e member needs y hy
      rw [← target] at inner
      rw [hx, hy, ih e member needs x hx inner]
    rw [describeFromCongr same, described'] at described
    exact (Except.ok.inj described).symm

theorem derivationStep {r : Registry} {d inner : ComponentDefinition} {res : Resolved}
    (derivation : r.Derivation d res) (step : r.DependsOn d inner) :
    ∃ a, r.Derivation inner a := by
  obtain ⟨oracle, next, behind, children, described⟩ := derivation
  obtain ⟨e, member, needs, found⟩ := step
  obtain ⟨a, ha⟩ := describeAnswered described member needs
  have target := Option.some.inj ((behind e member needs).symm.trans found)
  exact ⟨a, target ▸ children e member needs a ha⟩

theorem derivationReached {r : Registry} {d inner : ComponentDefinition} {res : Resolved}
    (derivation : r.Derivation d res) (reached : ReflTransGen r.DependsOn d inner) :
    ∃ a, r.Derivation inner a := by
  induction reached with
  | refl => exact ⟨res, derivation⟩
  | tail _ step ih =>
    obtain ⟨_, before⟩ := ih
    exact derivationStep before step

theorem derivationAcyclic {r : Registry} {d : ComponentDefinition} {res : Resolved}
    (derivation : r.Derivation d res) : ¬ TransGen r.DependsOn d d := by
  induction derivation with
  | mk oracle next behind children described ih =>
    intro cycle
    obtain ⟨inner, step, back⟩ := TransGen.head'_iff.mp cycle
    have ⟨e, member, needs, found⟩ := step
    obtain ⟨a, ha⟩ := describeAnswered described member needs
    cases Option.some.inj ((behind e member needs).symm.trans found)
    exact ih e member needs a ha (TransGen.tail' back step)

end ViewForge.Registry
