import Mathlib.Algebra.GroupWithZero.Nat
import ViewForge.Proofs.Resolve.Derivation
import ViewForge.Proofs.Resolve.State

/-! The arguments of components. What an element gives to the component behind it is for a state
item of that component; a literal can be read as a value of the item, and a variable is passed on by
the state item of the variable, once. -/
namespace ViewForge

def StateApplication.passes (id name : String) (a : StateApplication) : Bool :=
  match a.target with
  | .componentState item => a.element == id && item == name
  | .property _ => false

def Element.passes (v id name : String) (e : Element) : Nat :=
  if e.id.name = id then
    e.arguments.countP fun a => stateReference? a.2 = some v && a.1 = name
  else 0

def ComponentDefinition.passes (d : ComponentDefinition) (v id name : String) : Nat :=
  (d.elements.map (Element.passes v id name)).sum

namespace StateItem

def passesIn (uses : Uses) (v id name : String) : Nat :=
  ((uses.lookup v).getD []).countP (·.passes id name)

variable {uses found : Uses} {v id name : String}

theorem passesPush (uses : Uses) (key v id name : String) (a : StateApplication) :
    passesIn (Ordered.push key a uses) v id name =
      passesIn uses v id name + if v = key && a.passes id name then 1 else 0 := by
  unfold passesIn
  by_cases same : v = key
  · subst same
    rw [Ordered.lookupPushSelf, Option.getD_some, List.countP_append, List.countP_singleton]
    simp
  · rw [Ordered.lookupPushOther same]
    simp [same]

theorem propertyUsesPass (element : String) (uses : Uses) (ps : List Property) :
    passesIn (propertyUses element uses ps) v id name = passesIn uses v id name := by
  induction ps generalizing uses with
  | nil => rfl
  | cons p rest ih =>
    rw [propertyUses]
    split
    · rw [ih, passesPush]
      simp [StateApplication.passes]
    · exact ih uses

theorem argumentUsesPass {element typeName : String} {child : Resolved}
    {arguments : List (String × String)}
    (ok : argumentUses element typeName child uses arguments = .ok found) :
    passesIn found v id name = passesIn uses v id name + if element = id then
      arguments.countP fun a => stateReference? a.2 = some v && a.1 = name else 0 := by
  induction arguments generalizing uses with
  | nil =>
    cases ok
    simp
  | cons argument rest ih =>
    obtain ⟨own, raw⟩ := argument
    rw [argumentUses] at ok
    split at ok
    · cases ok
    · split at ok
      · rename_i source bound
        rw [ih ok, passesPush, List.countP_cons, bound]
        by_cases same : element = id
        · by_cases passed : source = v
          · by_cases named : own = name
            · simp only [same, passed, named, StateApplication.passes, beq_self_eq_true,
                Bool.and_self, decide_true, if_true]
              omega
            · simp [same, passed, named, StateApplication.passes]
          · simp [same, passed, Ne.symm passed]
        · simp [same, StateApplication.passes]
      · rename_i literal
        obtain ⟨_, _, ok⟩ := Result.bindOk.mp ok
        rw [ih ok, List.countP_cons, literal]
        simp

def Accepts (child : Resolved) (argument : String × String) : Prop :=
  ∃ item, child.stateItem? argument.1 = some item ∧
    (stateReference? argument.2 = none → ∃ value, item.type.parse argument.2 = .ok value)

theorem argumentUsesAccept {element typeName : String} {child : Resolved}
    {arguments : List (String × String)}
    (ok : argumentUses element typeName child uses arguments = .ok found) :
    ∀ a ∈ arguments, Accepts child a := by
  induction arguments generalizing uses with
  | nil => simp
  | cons argument rest ih =>
    obtain ⟨own, raw⟩ := argument
    rw [argumentUses] at ok
    split at ok
    · cases ok
    · rename_i item listed
      split at ok
      · rename_i source bound
        refine List.forall_mem_cons.mpr ⟨⟨item, listed, fun none => ?_⟩, ih ok⟩
        cases bound.symm.trans none
      · obtain ⟨value, parsed, ok⟩ := Result.bindOk.mp ok
        exact List.forall_mem_cons.mpr ⟨⟨item, listed, fun _ => ⟨value, parsed⟩⟩, ih ok⟩

theorem elementUsesPass {oracle : Element → Result Resolved} {e : Element} {s t : ResolverState}
    (ok : (elementUses (fun e => liftM (oracle e)) uses e).outcome s = (.ok found, t)) :
    (∀ v id name, passesIn found v id name = passesIn uses v id name + e.passes v id name) ∧
      (e.arguments ≠ [] → ∃ child, oracle e = .ok child ∧ ∀ a ∈ e.arguments, Accepts child a) := by
  have own : ∀ v id name, passesIn (propertyUses e.id.name uses e.properties) v id name =
      passesIn uses v id name := fun v id name => propertyUsesPass e.id.name uses e.properties
  unfold elementUses at ok
  unfold Element.passes Element.arguments
  simp only at ok
  cases refers : e.kind.reference? with
  | none =>
    simp only [refers] at ok
    cases ok
    simp [own]
  | some reference =>
    simp only [refers] at ok
    split at ok
    · rename_i none
      cases ok
      simp [own, List.isEmpty_iff.mp none]
    · obtain ⟨child, answered, last⟩ := Task.liftBindGives ok
      have used := (Task.liftGives last).1
      exact ⟨fun v id name => by rw [argumentUsesPass used, own]; rfl,
        fun _ => ⟨child, answered, argumentUsesAccept used⟩⟩

theorem usesPass {oracle : Element → Result Resolved} {es : List Element} {s t : ResolverState}
    (ok : (es.foldlM (elementUses (fun e => liftM (oracle e))) uses).outcome s = (.ok found, t)) :
    passesIn found v id name =
      passesIn uses v id name + (es.map (Element.passes v id name)).sum := by
  induction es generalizing uses s with
  | nil =>
    cases ok
    simp
  | cons e rest ih =>
    obtain ⟨between, u, first, others⟩ := Task.foldlGives.mp ok
    rw [ih others, (elementUsesPass first).1 v id name, List.map_cons, List.sum_cons, Nat.add_assoc]

end StateItem

theorem Element.argumentsNeed {e : Element} (given : e.arguments ≠ []) : e.Needs := by
  unfold arguments at given
  cases refers : e.kind.reference? with
  | none => simp [refers] at given
  | some reference =>
    refine ⟨reference, ElementKind.referenceComponent refers, .inl ?_⟩
    simpa [refers] using given

structure Resolved.Passes (r : Registry) (d : ComponentDefinition) (res : Resolved) : Prop where
  counted : ∀ item ∈ res.state, ∀ id name,
    item.applications.countP (·.passes id name) = d.passes item.name id name
  listed : ∀ v id name, d.passes v id name ≠ 0 → ∃ item ∈ res.state, item.name = v
  accepted : ∀ e ∈ d.elements, e.arguments ≠ [] → ∃ inner child, r.behind? e = some inner ∧
    r.Derivation inner child ∧ ∀ a ∈ e.arguments, StateItem.Accepts child a

theorem Registry.derivationPasses {r : Registry} {d : ComponentDefinition} {res : Resolved}
    (derivation : r.Derivation d res) : res.Passes r d := by
  obtain ⟨oracle, next, behind, children, described⟩ := derivation
  have run := describeLifted r oracle d {}
  rw [described] at run
  unfold describe at run
  obtain ⟨properties, _, run⟩ := Task.liftBindGives run
  obtain ⟨state, s₁, states, run⟩ := Task.bindGives.mp run
  obtain ⟨actions, s₂, _, last⟩ := Task.bindGives.mp run
  cases last
  unfold StateItem.resolveAll at states
  obtain ⟨uses, s₃, folded, states⟩ := Task.bindGives.mp states
  obtain ⟨found, implicit, last⟩ := Task.liftBindGives states
  cases last
  have distinct := (StateItem.usesBound folded).2 List.nodup_nil
  have each := Result.mapMOk implicit
  have counted : ∀ v id name, StateItem.passesIn uses v id name = d.passes v id name := by
    intro v id name
    rw [StateItem.usesPass folded]
    exact Nat.zero_add _
  refine ⟨fun item member id name => ?_, fun v id name some => ?_, fun e member given => ?_⟩
  · rw [← counted, StateItem.passesIn, StateItem.itemApplications distinct each member]
  · refine StateItem.itemListed each fun none => some ?_
    rw [← counted, StateItem.passesIn, none]
    rfl
  · obtain ⟨_, _, _, _, step⟩ := Task.foldlGivesEach folded member
    obtain ⟨child, answered, accepts⟩ :=
      (StateItem.elementUsesPass step).2 given
    have needs := Element.argumentsNeed given
    exact ⟨next e, child, behind e member needs, children e member needs child answered, accepts⟩

end ViewForge
