import ViewForge.Proofs.Live.Session
import ViewForge.Proofs.Resolve.Applications
import ViewForge.Proofs.Resolve.Component
import ViewForge.Source.Component

/-! The resolvers that come about: one is used for any number of components, to generate their
classes or to build them, and whatever it has kept stays true. -/
namespace ViewForge
open ViewForge.Task

namespace Registry

abbrev Keeping (r : Registry) : ResolverState → Prop := r.Sound fun _ => True

variable {r : Registry} {c : Configuration}

theorem warnKeeps (messages : List String) :
    Keeps r.Keeping (fun _ => True) (Resolve.warn messages) :=
  keepsModify trivial fun _ holds => holds

theorem definitionForKeeps {d : ComponentDefinition} (member : d ∈ r.allDefinitions) {e : Element}
    (element : e ∈ d.elements) :
    Keeps r.Keeping (fun inner => inner ∈ r.allDefinitions) (r.definitionFor e) := by
  intro s holds
  cases found : r.behind? e with
  | none =>
    obtain ⟨error, warnings, run⟩ := definitionForMissing found s
    rw [run]
    exact ⟨holds, fun inner same => by cases same⟩
  | some inner =>
    obtain ⟨warnings, run⟩ := definitionForFound found s
    rw [run]
    refine ⟨holds, fun other same => ?_⟩
    cases same
    exact behindIncluded member element found

theorem resolveKeepsAll (filled : r.Filled) {d : ComponentDefinition}
    (member : d ∈ r.allDefinitions) :
    Keeps r.Keeping (fun res => res.definition = d) (r.resolve d) := by
  intro s holds
  obtain ⟨kept, derived⟩ := resolveWithinSound filled tooDeepFails passesTrue member holds
    (List.nil_subset _)
  exact ⟨kept, fun res ok => (derivationDescribes filled member (derived res ok).1).definition⟩

theorem resolveReferenceKeeps (filled : r.Filled) {d : ComponentDefinition}
    (member : d ∈ r.allDefinitions) {e : Element} (element : e ∈ d.elements) :
    Keeps r.Keeping (fun _ => True) (r.resolveReference e) := by
  unfold resolveReference
  refine keepsBind (definitionForKeeps member element) fun inner inside s holds => ?_
  exact ⟨(resolveKeepsAll filled inside s holds).1, fun _ _ => trivial⟩

theorem addElementKeeps (filled : r.Filled) {d : ComponentDefinition}
    (member : d ∈ r.allDefinitions) {e : Element} (element : e ∈ d.elements) (res : Resolved)
    (code : LoadCode) (parent : Option Element) :
    Keeps r.Keeping (fun _ => True) (LoadCode.addElement r res code (e, parent)) := by
  unfold LoadCode.addElement
  refine keepsBind (P := fun _ => True) ?_ fun _ _ => keepsPure trivial
  unfold LoadCode.componentCode
  split
  · exact keepsPure trivial
  · split
    · exact keepsPure trivial
    · exact keepsBind (resolveReferenceKeeps filled member element) fun child _ =>
        keepsLift fun _ _ => trivial

theorem loadViewKeeps (filled : r.Filled) {res : Resolved}
    (member : res.definition ∈ r.allDefinitions) :
    Keeps r.Keeping (fun _ => True) (r.loadView res) := by
  unfold loadView
  refine keepsBind (keepsFold (Q := fun _ => True) ?_ trivial) fun _ _ => keepsPure trivial
  rintro ⟨e, parent⟩ inside code _
  exact addElementKeeps filled member (Element.memWithParents inside) res code parent

theorem planKeeps (d : ComponentDefinition) :
    Keeps r.Keeping (fun _ => True) (LayoutPlan.ofDefinition d) := by
  unfold LayoutPlan.ofDefinition
  refine keepsBind (warnKeeps _) fun _ _ => ?_
  exact keepsLiftBind fun _ => keepsLiftBind fun _ => keepsPure trivial

theorem membersKeeps (filled : r.Filled) {res : Resolved}
    (member : res.definition ∈ r.allDefinitions) :
    Keeps r.Keeping (fun _ => True) (r.members c res) := by
  unfold members
  refine keepsBind (planKeeps _) fun plan _ => ?_
  refine keepsBind (loadViewKeeps filled member) fun load _ => ?_
  exact keepsLiftBind fun styles => keepsLiftBind fun templates => keepsPure trivial

theorem assembleKeeps (filled : r.Filled) {d : ComponentDefinition} (member : d ∈ r.allDefinitions)
    {nested : Resolve (List ComponentSource)} (inner : Keeps r.Keeping (fun _ => True) nested) :
    Keeps r.Keeping (fun _ => True) (r.assemble c d nested) := by
  unfold assemble
  refine keepsBind (resolveKeepsAll filled member) fun res same => ?_
  refine keepsBind (membersKeeps filled (same.symm ▸ member)) fun own _ => ?_
  exact keepsBind inner fun sources _ => keepsPure trivial

/- One theorem for each function of the generator, by the structure of the component. -/
mutual

theorem componentSourceKeeps (filled : r.Filled) (d : ComponentDefinition)
    (within : ∀ x ∈ Element.definitionsOf d, x ∈ r.allDefinitions) :
    Keeps r.Keeping (fun _ => True) (r.componentSource c d) := by
  obtain ⟨_, _, root, _, _, _, _, _, _⟩ := d
  rw [Element.definitionsOf] at within
  obtain ⟨member, inside⟩ := List.forall_mem_cons.mp within
  rw [componentSource]
  exact assembleKeeps filled member (inlineSourcesKeeps filled root inside)

theorem inlineSourcesKeeps (filled : r.Filled) (e : Element)
    (within : ∀ x ∈ e.definitions, x ∈ r.allDefinitions) :
    Keeps r.Keeping (fun _ => True) (r.inlineSources c e) := by
  obtain ⟨kind, _, _, _, _, _, _, _, _, children⟩ := e
  cases kind with
  | widget w =>
    rw [Element.definitions] at within
    rw [inlineSources]
    exact inlineSourcesOfAllKeeps filled children within
  | component reference =>
    obtain ⟨_, _, definition⟩ := reference
    cases definition with
    | none =>
      rw [Element.definitions] at within
      rw [inlineSources]
      exact inlineSourcesOfAllKeeps filled children within
    | some d =>
      rw [Element.definitions] at within
      obtain ⟨here, below⟩ := List.forall_mem_append.mp within
      rw [inlineSources]
      refine keepsBind (componentSourceKeeps filled d here) fun first _ => ?_
      exact keepsBind (inlineSourcesOfAllKeeps filled children below) fun _ _ => keepsPure trivial

theorem inlineSourcesOfAllKeeps (filled : r.Filled) (es : List Element)
    (within : ∀ x ∈ Element.definitionsOfAll es, x ∈ r.allDefinitions) :
    Keeps r.Keeping (fun _ => True) (r.inlineSourcesOfAll c es) := by
  cases es with
  | nil =>
    rw [inlineSourcesOfAll]
    exact keepsPure trivial
  | cons e rest =>
    rw [Element.definitionsOfAll] at within
    obtain ⟨here, later⟩ := List.forall_mem_append.mp within
    rw [inlineSourcesOfAll]
    refine keepsBind (inlineSourcesKeeps filled e here) fun first _ => ?_
    exact keepsBind (inlineSourcesOfAllKeeps filled rest later) fun _ _ => keepsPure trivial

end

end Registry

namespace LiveSession
open Live

variable {s : LiveSession}

def Keeping (s : LiveSession) (state : LiveState) : Prop := s.registry.Keeping state.resolver

theorem resolvingKeeps {α : Type} {P : α → Prop} {work : Resolve α}
    (kept : Keeps s.registry.Keeping P work) : Keeps s.Keeping P (resolving work) := by
  intro state holds
  rw [resolvingOutcome]
  exact kept state.resolver holds

theorem recordKeeps (event : LiveEvent) : Keeps s.Keeping (fun _ => True) (record event) :=
  keepsModify trivial fun _ holds => holds

theorem insertKeeps (parentType : String) (parent child : ViewNumber) (inserters : List Inserter) :
    Keeps s.Keeping (fun _ => True) (s.insert parentType parent child inserters) := by
  induction inserters with
  | nil => exact keepsThrow _
  | cons inserter rest ih =>
    rw [insert]
    refine keepsBind (recordKeeps _) fun _ _ => ?_
    split
    · exact ih
    · exact keepsPure trivial

theorem makeViewKeeps (d : ComponentDefinition) (placed : Placed) (e parent : Element) :
    Keeps s.Keeping (fun _ => True) (s.makeView d placed e parent) := by
  have instantiated : Keeps s.Keeping (fun _ => True) (s.instantiate (.ofKind e.kind)) := by
    unfold instantiate
    refine keepsBind keepsGet fun state _ => ?_
    simp only
    split
    · exact keepsBind (P := fun _ => False) (keepsThrow _) fun _ never => never.elim
    · exact keepsBind (P := fun _ => True) (keepsModify trivial fun _ holds => holds) fun _ _ =>
        keepsBind (recordKeeps _) fun _ _ => keepsPure trivial
  unfold makeView
  refine keepsBind instantiated fun view _ => ?_
  refine keepsLiftBind fun parentView => ?_
  exact keepsBind (insertKeeps _ _ _ _) fun _ _ => keepsPure trivial

theorem applyPropertyKeeps (values : StateValues) (view : ViewNumber) (p : Property) :
    Keeps s.Keeping (fun _ => True) (s.applyProperty values view p) := by
  have valued : ∀ v, Keeps s.Keeping (fun _ => True) (s.applyValue view p v) := fun v =>
    keepsLiftBind fun live => recordKeeps _
  unfold applyProperty
  cases p.binding with
  | value v => exact valued v
  | code e => exact keepsPure trivial
  | state name =>
    simp only
    split
    · exact valued _
    · exact resolvingKeeps (Registry.warnKeeps _)

variable {build : Builder} {d : ComponentDefinition}

theorem componentStateKeeps (filled : s.registry.Filled) (member : d ∈ s.registry.allDefinitions)
    {e : Element} (element : e ∈ d.elements) (reference : ComponentReference)
    (values : StateValues) :
    Keeps s.Keeping (fun _ => True) (s.componentState e reference values) := by
  unfold componentState
  split
  · exact keepsPure trivial
  · exact keepsBind (resolvingKeeps (Registry.resolveReferenceKeeps filled member element))
      fun _ _ => keepsLift fun _ _ => trivial

theorem placeNestedKeeps (filled : s.registry.Filled) (member : d ∈ s.registry.allDefinitions)
    (inner : ∀ x ∈ s.registry.allDefinitions, ∀ view arguments,
      Keeps s.Keeping (fun _ => True) (build x view arguments))
    {e : Element} (element : e ∈ d.elements) (values : StateValues) (view : ViewNumber)
    (placed : Placed) :
    Keeps s.Keeping (fun _ => True) (s.placeNested build values view placed e) := by
  unfold placeNested
  split
  · exact keepsPure trivial
  · have found := Registry.definitionForKeeps member element
    refine keepsBind (resolvingKeeps found) fun x within => ?_
    refine keepsBind (componentStateKeeps filled member element _ values) fun arguments _ => ?_
    exact keepsBind (inner x within view arguments) fun _ _ => keepsPure trivial

theorem placeKeeps (filled : s.registry.Filled) (member : d ∈ s.registry.allDefinitions)
    (inner : ∀ x ∈ s.registry.allDefinitions, ∀ view arguments,
      Keeps s.Keeping (fun _ => True) (build x view arguments))
    {e : Element} (element : e ∈ d.elements) (res : Resolved) (values : StateValues)
    (root : ViewNumber) (placed : Placed) (parent : Option Element) :
    Keeps s.Keeping (fun _ => True) (s.place build res values root placed (e, parent)) := by
  have applied : ∀ view, Keeps s.Keeping (fun _ => True)
      ((res.propertiesOf e).forM (s.applyProperty values view)) := fun view =>
    keepsEach fun p _ => applyPropertyKeeps values view p
  unfold place
  cases parent with
  | none =>
    refine keepsBind (P := fun _ => True) (keepsPure trivial) fun view _ => ?_
    exact keepsBind (applied view) fun _ _ => keepsPure trivial
  | some parent =>
    refine keepsBind (makeViewKeeps _ _ _ _) fun view _ => ?_
    exact keepsBind (applied view) fun _ _ =>
      placeNestedKeeps filled member inner element values view _

theorem activateAllKeeps (d : ComponentDefinition) (views : List (String × ViewNumber))
    (elements : List Element.Parented) :
    Keeps s.Keeping (fun _ => True) (s.activateAll d views elements) := by
  induction elements with
  | nil => exact keepsPure trivial
  | cons parented rest ih =>
    obtain ⟨e, parent⟩ := parented
    cases parent with
    | none => exact ih
    | some parent =>
      rw [activateAll]
      refine keepsBind (keepsEach fun c _ => ?_) fun _ _ =>
        keepsBind ih fun _ _ => keepsPure trivial
      unfold activate
      exact keepsLiftBind fun target => keepsLiftBind fun view => recordKeeps _

theorem buildKeeps (filled : s.registry.Filled) {depth : Nat} {d : ComponentDefinition}
    (member : d ∈ s.registry.allDefinitions) (root : ViewNumber) (arguments : StateValues) :
    Keeps s.Keeping (fun _ => True) (s.build depth d root arguments) := by
  induction depth generalizing d root arguments with
  | zero => exact keepsThrow _
  | succ depth ih =>
    rw [build]
    refine keepsBind (resolvingKeeps (Registry.resolveKeepsAll filled member)) fun res _ => ?_
    refine keepsBind (keepsFold (Q := fun _ => True) ?_ trivial) fun placed _ => ?_
    · rintro ⟨e, parent⟩ inside placed _
      exact placeKeeps filled member (fun x within view given => ih within view given)
        (Element.memWithParents inside) res _ root placed parent
    · exact keepsBind (activateAllKeeps d _ _) fun _ _ => keepsPure trivial

end LiveSession

/-- The resolvers of a registry in use: new ones, and those that components have been resolved,
generated or built with. -/
inductive Registry.Used (r : Registry) : ResolverState → Prop where
  | fresh : Used r {}
  | resolved {s : ResolverState} {d : ComponentDefinition} (used : Used r s)
      (member : d ∈ r.allDefinitions) : Used r ((r.resolve d).outcome s).2
  | generated {s : ResolverState} {d : ComponentDefinition} (used : Used r s) (c : Configuration)
      (member : d ∈ r.allDefinitions) : Used r ((r.componentSource c d).outcome s).2
  | applied {session : LiveSession} {state : LiveState} {d : ComponentDefinition}
      (used : Used r state.resolver) (same : session.registry = r)
      (member : d ∈ r.allDefinitions) : Used r ((session.apply d).outcome state).2.resolver

theorem Registry.usedKeeping {r : Registry} (filled : r.Filled) {s : ResolverState}
    (used : r.Used s) : r.Keeping s := by
  induction used with
  | fresh => exact soundFresh _
  | resolved _ member ih => exact (resolveKeepsAll filled member _ ih).1
  | @generated s d _ c member ih =>
    refine (componentSourceKeeps filled d (fun x inside => ?_) _ ih).1
    obtain ⟨outer, registered, nested⟩ := List.mem_flatMap.mp member
    exact List.mem_flatMap.mpr ⟨outer, registered, ComponentDefinition.nestedTrans nested inside⟩
  | applied _ same member ih =>
    subst same
    exact (LiveSession.buildKeeps filled member 0 [] _ ih).1

end ViewForge
