import ViewForge.Proofs.Resolve.Cache
import ViewForge.Proofs.Resolver

/-! The class that is generated for a component does not depend on what the resolver has been used
for. A registered component settles on its own; from then on it is kept, and the components that
stand in its file are resolved in its presence, whichever run it is. -/
namespace ViewForge.Registry
open ResolverState
open ViewForge.Task

structure Ready (r : Registry) (kept : List (DefinitionKey × Resolved)) (s : ResolverState) :
    Prop where
  steady : r.Steady kept s
  idle : s.inProgress = []

def Independent {α : Type} (r : Registry) (kept : List (DefinitionKey × Resolved))
    (x : Resolve α) : Prop :=
  Tracks True (fun s t => r.Ready kept s ∧ r.Ready kept t) x x

def Sealed (r : Registry) (kept : List (DefinitionKey × Resolved)) (file : String) : Prop :=
  ∀ t ∈ r.definitions, t.sourcePath = file → keptFor kept t ≠ none

variable {r : Registry} {c : Configuration} {kept : List (DefinitionKey × Resolved)}

theorem basedSealed {d : ComponentDefinition} (closed : r.Sealed kept d.sourcePath) :
    r.Based kept d := fun t registered same unknown => absurd unknown (closed t registered same)

theorem readySame {s t : ResolverState} (ready : r.Ready kept s) (cache : t.cache = s.cache)
    (idle : t.inProgress = s.inProgress) : r.Ready kept t :=
  ⟨steadySame ready.steady cache, idle.trans ready.idle⟩

theorem warnIndependent (messages : List String) : r.Independent kept (Resolve.warn messages) :=
  fun _ t ready => ⟨{ t with warnings := t.warnings ++ messages },
    ⟨readySame ready.1 rfl rfl, readySame ready.2 rfl rfl⟩, fun _ => rfl⟩

theorem resolveIndependent (filled : r.Filled) (apart : r.FilesApart)
    (sound : r.Settled { cache := kept }) {d : ComponentDefinition} (member : d ∈ r.allDefinitions)
    (based : r.Based kept d) : r.Independent kept (r.resolve d) := by
  rintro s t ⟨left, right⟩
  obtain ⟨same, after⟩ := resolveSettles filled apart sound member based left.steady left.idle
  obtain ⟨same', after'⟩ := resolveSettles filled apart sound member based right.steady right.idle
  refine ⟨((r.resolve d).outcome t).2, ⟨⟨after, ?_⟩, ⟨after', ?_⟩⟩, fun _ => ?_⟩
  · exact (resolveKeeps d s).trans left.idle
  · exact (resolveKeeps d t).trans right.idle
  · exact Prod.ext (same'.trans same.symm) rfl

section File

variable (filled : r.Filled) (apart : r.FilesApart) (sound : r.Settled { cache := kept })
include filled apart sound

theorem resolveReferenceIndependent {d : ComponentDefinition} (member : d ∈ r.allDefinitions)
    (closed : r.Sealed kept d.sourcePath) {e : Element} (element : e ∈ d.elements) :
    r.Independent kept (r.resolveReference e) := by
  unfold resolveReference
  refine tracksBindGiven (P := fun inner => r.behind? e = some inner) ?_ ?_ fun inner found => ?_
  · rintro s t ⟨left, right⟩
    obtain ⟨warnings, run⟩ := r.definitionForLocated e s
    obtain ⟨warnings', run'⟩ := r.definitionForLocated e t
    rw [run, run']
    exact ⟨{ t with warnings := warnings' }, ⟨readySame left rfl rfl, readySame right rfl rfl⟩,
      fun _ => rfl⟩
  · intro s t inner _ ok
    obtain ⟨warnings, run⟩ := r.definitionForLocated e s
    rw [run] at ok
    exact locatedBehind.mp ok
  · refine resolveIndependent filled apart sound (behindIncluded member element found) ?_
    rcases behindFile filled member element found with registered | same
    · exact basedRegistered apart registered
    · exact basedSealed (same ▸ closed)

theorem loadViewIndependent {res : Resolved} (member : res.definition ∈ r.allDefinitions)
    (closed : r.Sealed kept res.definition.sourcePath) : r.Independent kept (r.loadView res) := by
  unfold loadView
  refine tracksBind (tracksFold ?_ _) fun _ => tracksPure _
  rintro ⟨e, parent⟩ inside code
  unfold LoadCode.addElement
  refine tracksBind ?_ fun _ => tracksPure _
  unfold LoadCode.componentCode
  split
  · exact tracksPure _
  · split
    · exact tracksPure _
    · exact tracksBind (resolveReferenceIndependent filled apart sound member closed
        (Element.memWithParents inside)) fun child => tracksLift _

theorem membersIndependent {res : Resolved} (member : res.definition ∈ r.allDefinitions)
    (closed : r.Sealed kept res.definition.sourcePath) : r.Independent kept (r.members c res) := by
  have planned : r.Independent kept (LayoutPlan.ofDefinition res.definition) := by
    unfold LayoutPlan.ofDefinition
    refine tracksBind (warnIndependent _) fun _ => ?_
    exact tracksBind (tracksLift _) fun _ => tracksBind (tracksLift _) fun _ => tracksPure _
  unfold members
  refine tracksBind planned fun plan => ?_
  refine tracksBind (loadViewIndependent filled apart sound member closed) fun load => ?_
  exact tracksBind (tracksLift _) fun styles => tracksBind (tracksLift _) fun _ => tracksPure _

/- What follows once the component has been resolved. -/
theorem assembleIndependent {d : ComponentDefinition} (member : d ∈ r.allDefinitions)
    (closed : r.Sealed kept d.sourcePath) {nested : Resolve (List ComponentSource)}
    (inner : r.Independent kept nested) : r.Independent kept (r.assemble c d nested) := by
  unfold assemble
  refine tracksBindGiven (P := fun res => res.definition = d)
    (resolveIndependent filled apart sound member (basedSealed closed)) ?_ fun res same => ?_
  · intro s t res ready ok
    exact (resolveKeepsAll filled member s (settledKeeping ready.1.steady.settled)).2 res ok
  · refine tracksBind (membersIndependent filled apart sound (same.symm ▸ member)
      (same.symm ▸ closed)) fun own => ?_
    exact tracksBind inner fun sources => tracksPure _

end File

/- One theorem for each function of the generator, as far as the file of the component goes. -/
mutual

theorem inlineSourceIndependent (filled : r.Filled) (apart : r.FilesApart)
    (sound : r.Settled { cache := kept }) (d : ComponentDefinition) {file : String}
    (closed : r.Sealed kept file)
    (within : ∀ x ∈ Element.definitionsOf d, x ∈ r.allDefinitions ∧ x.sourcePath = file) :
    r.Independent kept (r.componentSource c d) := by
  obtain ⟨_, _, root, _, _, _, _, _, _⟩ := d
  rw [Element.definitionsOf] at within
  obtain ⟨⟨member, same⟩, inside⟩ := List.forall_mem_cons.mp within
  rw [componentSource]
  exact assembleIndependent filled apart sound member (same ▸ closed)
    (inlineSourcesIndependent filled apart sound root closed inside)

theorem inlineSourcesIndependent (filled : r.Filled) (apart : r.FilesApart)
    (sound : r.Settled { cache := kept }) (e : Element) {file : String} (closed : r.Sealed kept file)
    (within : ∀ x ∈ e.definitions, x ∈ r.allDefinitions ∧ x.sourcePath = file) :
    r.Independent kept (r.inlineSources c e) := by
  obtain ⟨kind, _, _, _, _, _, _, _, _, children⟩ := e
  cases kind with
  | widget w =>
    rw [Element.definitions] at within
    rw [inlineSources]
    exact inlineSourcesOfAllIndependent filled apart sound children closed within
  | component reference =>
    obtain ⟨_, _, definition⟩ := reference
    cases definition with
    | none =>
      rw [Element.definitions] at within
      rw [inlineSources]
      exact inlineSourcesOfAllIndependent filled apart sound children closed within
    | some d =>
      rw [Element.definitions] at within
      obtain ⟨here, below⟩ := List.forall_mem_append.mp within
      rw [inlineSources]
      refine tracksBind (inlineSourceIndependent filled apart sound d closed here) fun first => ?_
      exact tracksBind (inlineSourcesOfAllIndependent filled apart sound children closed below)
        fun _ => tracksPure _

theorem inlineSourcesOfAllIndependent (filled : r.Filled) (apart : r.FilesApart)
    (sound : r.Settled { cache := kept }) (es : List Element) {file : String}
    (closed : r.Sealed kept file)
    (within : ∀ x ∈ Element.definitionsOfAll es, x ∈ r.allDefinitions ∧ x.sourcePath = file) :
    r.Independent kept (r.inlineSourcesOfAll c es) := by
  cases es with
  | nil =>
    rw [inlineSourcesOfAll]
    exact tracksPure _
  | cons e rest =>
    rw [Element.definitionsOfAll] at within
    obtain ⟨here, later⟩ := List.forall_mem_append.mp within
    rw [inlineSourcesOfAll]
    refine tracksBind (inlineSourcesIndependent filled apart sound e closed here) fun first => ?_
    exact tracksBind (inlineSourcesOfAllIndependent filled apart sound rest closed later)
      fun _ => tracksPure _

end

/- A component that has been resolved can be kept alone. -/
theorem readyKept {d : ComponentDefinition} (filled : r.Filled) (registered : d ∈ r.definitions)
    {s : ResolverState} (ready : r.Ready [] s) {res : Resolved} (known : s.known? d = some res) :
    r.Ready [(d.key, res)] s := by
  refine ⟨⟨ready.steady.settled, fun x own a found => ?_⟩, ready.idle⟩
  simp only [keptFor, known?, List.lookup_cons, List.lookup_nil] at found
  split at found
  · cases found
  · split at found
    · rename_i same
      cases found
      rw [definitionUnique filled own registered (eq_of_beq same)]
      exact known
    · cases found

theorem settledKept {d : ComponentDefinition} (filled : r.Filled) (registered : d ∈ r.definitions)
    {s : ResolverState} (ready : r.Ready [] s) {res : Resolved} (known : s.known? d = some res) :
    r.Settled { cache := [(d.key, res)] } := by
  intro x own a found
  simp only [List.lookup_cons, List.lookup_nil] at found
  split at found
  · rename_i same
    cases found
    cases definitionUnique filled own registered (eq_of_beq same)
    exact knownSound filled (definitionIncluded own) ready.steady.settled known
  · cases found

theorem sealedKept {d : ComponentDefinition} (filled : r.Filled) (apart : r.FilesApart)
    (registered : d ∈ r.definitions) (res : Resolved) :
    r.Sealed [(d.key, res)] d.sourcePath := by
  intro t own same
  cases fileOwner apart own registered same
  simp [keptFor, known?, (definitionRead filled registered).1]

theorem readyFresh {s : ResolverState} (ready : r.Ready kept s) : r.Ready [] s :=
  ⟨⟨ready.steady.settled, fun _ _ _ found => by simp at found⟩, ready.idle⟩

/- The class is the same from where the component has been resolved. -/
theorem assembleAgain {d : ComponentDefinition} (named : d.isAnonymous = false)
    {s t : ResolverState} {res : Resolved} (ok : (r.resolve d).outcome s = (.ok res, t))
    (nested : Resolve (List ComponentSource)) :
    (r.assemble c d nested).outcome s = (r.assemble c d nested).outcome t := by
  have again : (r.resolve d).outcome t = (.ok res, t) := settledKnown (resolveKnown named ok)
  unfold assemble
  rw [bindOk ok, bindOk again]

/- The class of a registered component. -/
theorem sourceIndependent (filled : r.Filled) (apart : r.FilesApart) {d : ComponentDefinition}
    (registered : d ∈ r.definitions) : r.Independent [] (r.componentSource c d) := by
  have member := definitionIncluded registered
  have named := (definitionRead filled registered).1
  have split : r.componentSource c d = r.assemble c d (r.inlineSources c d.root) := by
    cases d
    rw [componentSource]
  rw [split]
  rintro s t ⟨left, right⟩
  obtain ⟨v, ⟨readyLeft, readyRight⟩, same⟩ := resolveIndependent filled apart (soundFresh _) member
    (basedRegistered apart registered) s t ⟨left, right⟩
  have same := same (.inl trivial)
  cases run : (r.resolve d).outcome s with
  | mk result u =>
    rw [run] at same readyLeft
    cases result with
    | error e =>
      refine ⟨v, ⟨?_, readyRight⟩, fun _ => ?_⟩
      · rw [assemble, bindError run]
        exact readyLeft
      · rw [assemble, bindError run, bindError same]
    | ok res =>
      have known := resolveKnown named run
      have sound := settledKept filled registered readyLeft known
      have closed := sealedKept filled apart registered res
      have inside : ∀ x ∈ d.root.definitions,
          x ∈ r.allDefinitions ∧ x.sourcePath = d.sourcePath := by
        intro x below
        have within : x ∈ d.nested := by
          rw [ComponentDefinition.nested, Element.definitionsOfSplit]
          exact List.mem_cons_of_mem _ below
        exact ⟨List.mem_flatMap.mpr ⟨d, registered, within⟩,
          (nestedFrom filled registered within).path⟩
      have inner := inlineSourcesIndependent (c := c) filled apart sound d.root closed inside
      obtain ⟨w, ⟨after, after'⟩, again⟩ := assembleIndependent filled apart sound (c := c) member
        closed inner u v ⟨readyKept filled registered readyLeft known,
          readyKept filled registered readyRight (resolveKnown named same)⟩
      rw [assembleAgain named run, assembleAgain named same]
      exact ⟨w, ⟨readyFresh after, readyFresh after'⟩, again⟩

end ViewForge.Registry
