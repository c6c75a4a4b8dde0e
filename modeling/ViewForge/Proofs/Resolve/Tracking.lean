import ViewForge.Proofs.Element.Tree
import ViewForge.Proofs.Task
import ViewForge.Resolve.Component

/-! Two runs side by side. What a component comes to depends on the components behind its references
only through the way in which they are resolved, so that two such ways that go together give runs
that go together. Soundness, completeness and the agreement of two runs are all instances. -/
namespace ViewForge

namespace Task

variable {σ τ α β : Type}

/-- From states that belong together the second run ends in a state that belongs to the end of the
first; if the first succeeds, or always if `exact`, the second gives the same. -/
def Tracks (exact : Prop) (R : σ → τ → Prop) (x : Task σ α) (y : Task τ α) : Prop :=
  ∀ s t, R s t → ∃ u, R (x.outcome s).2 u ∧
    ((exact ∨ ∃ a, (x.outcome s).1 = .ok a) → y.outcome t = ((x.outcome s).1, u))

variable {exact : Prop} {R : σ → τ → Prop}

theorem tracksPure (a : α) : Tracks exact R (pure a) (pure a) := fun _ t related =>
  ⟨t, related, fun _ => rfl⟩

theorem tracksThrow (e : Error) : Tracks exact R (throw e : Task σ α) (throw e) :=
  fun _ t related => ⟨t, related, fun _ => rfl⟩

theorem tracksLift (x : Result α) : Tracks exact R (liftM x : Task σ α) (liftM x) :=
  fun _ t related => ⟨t, related, fun _ => rfl⟩

theorem tracksBindGiven {x : Task σ α} {y : Task τ α} {f : α → Task σ β} {g : α → Task τ β}
    {P : α → Prop} (first : Tracks exact R x y)
    (given : ∀ s t a, R s t → (x.outcome s).1 = .ok a → P a)
    (rest : ∀ a, P a → Tracks exact R (f a) (g a)) : Tracks exact R (x >>= f) (y >>= g) := by
  intro s t related
  obtain ⟨u, kept, same⟩ := first s t related
  have given := given s t
  rw [outcomeBind]
  cases run : x.outcome s with
  | mk result next =>
    rw [run] at kept same given
    cases result with
    | error e =>
      refine ⟨u, kept, ?_⟩
      rintro (always | ⟨b, ok⟩)
      · exact bindError (same (.inl always))
      · cases ok
    | ok a =>
      obtain ⟨v, after, again⟩ := rest a (given a related rfl) next u kept
      refine ⟨v, after, fun wanted => ?_⟩
      rw [bindOk (same (.inr ⟨a, rfl⟩))]
      exact again wanted

theorem tracksBind {x : Task σ α} {y : Task τ α} {f : α → Task σ β} {g : α → Task τ β}
    (first : Tracks exact R x y) (rest : ∀ a, Tracks exact R (f a) (g a)) :
    Tracks exact R (x >>= f) (y >>= g) :=
  tracksBindGiven (P := fun _ => True) first (fun _ _ _ _ _ => trivial) fun a _ => rest a

theorem tracksFold {f : β → α → Task σ β} {g : β → α → Task τ β} {as : List α}
    (each : ∀ a ∈ as, ∀ b, Tracks exact R (f b a) (g b a)) (b : β) :
    Tracks exact R (as.foldlM f b) (as.foldlM g b) := by
  induction as generalizing b with
  | nil => exact tracksPure b
  | cons a as ih =>
    rw [List.foldlM_cons, List.foldlM_cons]
    refine tracksBind (each a List.mem_cons_self b) fun m => ?_
    exact ih (fun x member => each x (List.mem_cons_of_mem _ member)) m

/- Runs that are equal as long as `I` holds. -/
theorem tracksEqual {x y : Task σ α} {I : σ → Prop}
    (same : ∀ s, I s → x.outcome s = y.outcome s ∧ I (x.outcome s).2) :
    Tracks True (fun s t => s = t ∧ I s) x y := by
  rintro s t ⟨rfl, holds⟩
  obtain ⟨equal, kept⟩ := same s holds
  exact ⟨(x.outcome s).2, ⟨rfl, kept⟩, fun _ => equal.symm⟩

theorem equalTracks {x y : Task σ α} {I : σ → Prop}
    (tracks : Tracks True (fun s t => s = t ∧ I s) x y) {s : σ} (holds : I s) :
    x.outcome s = y.outcome s ∧ I (x.outcome s).2 := by
  obtain ⟨u, ⟨same, kept⟩, run⟩ := tracks s s ⟨rfl, holds⟩
  exact ⟨by rw [run (.inl trivial), ← same], kept⟩

end Task

namespace Element

def Needs (e : Element) : Prop :=
  ∃ reference, e.kind = .component reference ∧ (reference.arguments ≠ [] ∨ e.actions ≠ [])

end Element

open ViewForge.Task

variable {exact : Prop} {R : ResolverState → ResolverState → Prop} {child other : ChildResolver}

theorem StateItem.elementUsesTracks {e : Element}
    (needed : e.Needs → Tracks exact R (child e) (other e)) (uses : Uses) :
    Tracks exact R (elementUses child uses e) (elementUses other uses e) := by
  unfold elementUses
  simp only
  split
  · exact tracksPure _
  · rename_i reference found
    split
    · exact tracksPure _
    · rename_i given
      have kind := ElementKind.referenceComponent found
      refine tracksBind (needed ⟨reference, kind, .inl ?_⟩) fun resolved => tracksLift _
      simpa using given

theorem StateItem.resolveAllTracks {d : ComponentDefinition}
    (needed : ∀ e ∈ d.elements, e.Needs → Tracks exact R (child e) (other e)) :
    Tracks exact R (resolveAll child d) (resolveAll other d) := by
  unfold resolveAll
  refine tracksBind (tracksFold (fun e member uses =>
    elementUsesTracks (needed e member) uses) []) fun uses => ?_
  exact tracksBind (tracksLift _) fun implicit => tracksPure _

theorem ResolvedAction.addSourceTracks {d : ComponentDefinition} {state : List StateItem}
    {e : Element} {action : BoundAction} (member : action ∈ e.actions)
    (needed : e.Needs → Tracks exact R (child e) (other e)) (sources : Sources) :
    Tracks exact R (addSource child d state e sources action)
      (addSource other d state e sources action) := by
  have described : Tracks exact R (describeEvent child e action.event)
      (describeEvent other e action.event) := by
    unfold describeEvent
    cases kind : e.kind with
    | widget w =>
      refine tracksBind (tracksPure _) fun found => ?_
      cases found
      · exact tracksThrow _
      · exact tracksPure _
    | component reference =>
      have needs : e.Needs := ⟨reference, kind, .inr (List.ne_nil_of_mem member)⟩
      refine tracksBind (needed needs) fun resolved => tracksBind (tracksPure _) fun found => ?_
      cases found
      · exact tracksThrow _
      · exact tracksPure _
  unfold addSource
  refine tracksBind described fun event => ?_
  exact tracksBind (tracksLift _) fun found => tracksPure _

theorem ResolvedAction.resolveAllTracks {d : ComponentDefinition} (state : List StateItem)
    (needed : ∀ e ∈ d.elements, e.Needs → Tracks exact R (child e) (other e)) :
    Tracks exact R (resolveAll child d state) (resolveAll other d state) := by
  unfold resolveAll
  refine tracksBind (tracksFold (fun e member sources => ?_) []) fun sources => ?_
  · exact tracksFold (fun action inside sources =>
      addSourceTracks inside (needed e member) sources) sources
  · refine tracksBind (tracksLift _) fun sources => ?_
    exact tracksBind (tracksLift _) fun actions => tracksPure _

theorem Registry.describeTracks {r : Registry} {d : ComponentDefinition}
    (needed : ∀ e ∈ d.elements, e.Needs → Tracks exact R (child e) (other e)) :
    Tracks exact R (r.describe child d) (r.describe other d) := by
  unfold describe
  refine tracksBind (tracksLift _) fun properties => ?_
  refine tracksBind (StateItem.resolveAllTracks needed) fun state => ?_
  exact tracksBind (ResolvedAction.resolveAllTracks state needed) fun actions => tracksPure _

theorem Registry.describeAgrees {r : Registry} {d : ComponentDefinition}
    {I : ResolverState → Prop}
    (each : ∀ e ∈ d.elements, e.Needs → ∀ s, I s →
      (child e).outcome s = (other e).outcome s ∧ I ((child e).outcome s).2)
    {s : ResolverState} (holds : I s) :
    (r.describe child d).outcome s = (r.describe other d).outcome s ∧
      I ((r.describe child d).outcome s).2 :=
  equalTracks (describeTracks fun e member needs => tracksEqual (each e member needs)) holds

end ViewForge
