import ViewForge.Proofs.Resolve.Cache
import ViewForge.Proofs.Resolve.Inference
import ViewForge.Proofs.Resolve.Unification

/-! State items against the order of the elements in the document. The places that read a variable
are the same in every order, so that its type, where there is one, is the same as well. Whether the
types agree at all can depend on the order only for a variable that is read at a type, at its
optional and at the optional of that. -/
open Relation (ReflTransGen)
namespace ViewForge

namespace Element

def alone (e : Element) : Element := { e with children := [] }

/-- Elements that have been put in another order, and so have their children at any depth. -/
inductive Reorders : List Element → List Element → Prop where
  | nil : Reorders [] []
  | cons {e f : Element} {es fs : List Element} (own : e.alone = f.alone)
      (inner : Reorders e.children f.children) (rest : Reorders es fs) :
      Reorders (e :: es) (f :: fs)
  | swap (e f : Element) (es : List Element) : Reorders (e :: f :: es) (f :: e :: es)
  | trans {es fs gs : List Element} (first : Reorders es fs) (second : Reorders fs gs) :
      Reorders es gs

mutual

theorem reordersBelow (e : Element) : Reorders e.children e.children := by
  obtain ⟨_, _, _, _, _, _, _, _, _, children⟩ := e
  exact reordersSelf children

theorem reordersSelf (es : List Element) : Reorders es es := by
  cases es with
  | nil => exact .nil
  | cons e rest => exact .cons rfl (reordersBelow e) (reordersSelf rest)

end

/- The order is all that changes. -/
theorem walkReorders {es fs : List Element} (reorders : Reorders es fs) :
    ((walk es).map alone).Perm ((walk fs).map alone) := by
  induction reorders with
  | nil => exact .refl _
  | @cons e f es fs own _ _ below later =>
    rw [walkCons, walkCons, List.map_append, List.map_append, List.map_cons, List.map_cons, own]
    exact (below.cons f.alone).append later
  | swap e f es =>
    rw [walkCons, walkCons, walkCons, walkCons, ← List.append_assoc, ← List.append_assoc]
    exact (List.perm_append_comm.append_right _).map _
  | trans _ _ first second => exact first.trans second

end Element

def ComponentDefinition.Reorders (d other : ComponentDefinition) : Prop :=
  ∃ children, Element.Reorders d.root.children children ∧
    other = { d with root := { d.root with children } }

structure ComponentDefinition.Alike (d other : ComponentDefinition) : Prop where
  state : other.state = d.state
  elements : (d.elements.map Element.alone).Perm (other.elements.map Element.alone)

namespace ComponentDefinition

variable {d other : ComponentDefinition}

theorem reordersAlike (reorders : d.Reorders other) : d.Alike other := by
  obtain ⟨children, inner, rfl⟩ := reorders
  exact ⟨rfl, Element.walkReorders (.cons rfl inner .nil)⟩

theorem alikeSymm (alike : d.Alike other) : other.Alike d :=
  ⟨alike.state.symm, alike.elements.symm⟩

theorem alikeElement (alike : d.Alike other) {e : Element} (member : e ∈ other.elements) :
    ∃ x ∈ d.elements, x.alone = e.alone :=
  List.mem_map.mp (alike.elements.mem_iff.mpr (List.mem_map_of_mem member))

end ComponentDefinition

namespace StateItem

def signature (item : StateItem) : String × ValueType × Value × Bool :=
  (item.name, item.type, item.default, item.isExplicit)

def inferFrom (oracle : Element → Result Resolved) (d : ComponentDefinition) :
    Result (List StateItem) :=
  ((resolveAll (fun e => liftM (oracle e)) d).outcome {}).1

def Accepted (oracle : Element → Result Resolved) (e : Element) : Prop :=
  e.arguments ≠ [] → ∃ child, oracle e = .ok child ∧ ∀ a ∈ e.arguments, Accepts child a

def typesOf (readings : List Reading) (name : String) : List ValueType :=
  (readings.filter (·.1 = name)).map (·.2.type)

theorem argumentUsesFollow (id typeName : String) {child : Resolved}
    {arguments : List (String × String)} (accepts : ∀ a ∈ arguments, Accepts child a)
    (uses : Uses) : ∃ found, argumentUses id typeName child uses arguments = .ok found := by
  induction arguments generalizing uses with
  | nil => exact ⟨uses, rfl⟩
  | cons argument rest ih =>
    obtain ⟨name, raw⟩ := argument
    obtain ⟨⟨item, listed, literal⟩, others⟩ := List.forall_mem_cons.mp accepts
    rw [argumentUses, listed]
    cases bound : stateReference? raw with
    | some v => exact ih others _
    | none =>
      obtain ⟨value, parsed⟩ := literal bound
      obtain ⟨found, ok⟩ := ih others uses
      refine ⟨found, ?_⟩
      simp only
      rw [parsed]
      exact ok

section Table

variable {oracle : Element → Result Resolved} {d other : ComponentDefinition}

theorem elementUsesFollow {e : Element} (accepted : Accepted oracle e) (uses : Uses)
    (s : ResolverState) : ∃ found t,
      (elementUses (fun e => liftM (oracle e)) uses e).outcome s = (.ok found, t) := by
  unfold Accepted Element.arguments at accepted
  unfold elementUses
  simp only
  cases refers : e.kind.reference? with
  | none => exact ⟨_, s, rfl⟩
  | some reference =>
    rw [refers] at accepted
    simp only
    split
    · exact ⟨_, s, rfl⟩
    · rename_i given
      obtain ⟨child, answered, accepts⟩ := accepted (by simpa using given)
      obtain ⟨found, ok⟩ := argumentUsesFollow e.id.name reference.typeName accepts
        (propertyUses e.id.name uses e.properties)
      refine ⟨found, s, ?_⟩
      rw [answered, Task.bindOk (Task.outcomeLift _ s)]
      exact Prod.ext ok rfl

def IsUndeclared (d : ComponentDefinition) (name : String) : Prop :=
  ∀ declaration ∈ d.state.items, declaration.name ≠ name

structure Inferred (oracle : Element → Result Resolved) (d : ComponentDefinition)
    (implicit : List StateItem) : Prop where
  accepted : ∀ e ∈ d.elements, Accepted oracle e
  distinct : (implicit.map (·.name)).Nodup
  agreed : ∀ item ∈ implicit, IsUndeclared d item.name ∧ ∃ type,
    ValueType.agreed? (typesOf (d.readings fun e => (oracle e).toOption) item.name) = some type ∧
      item = ofAgreed item.name type item.applications
  covers : ∀ name, IsUndeclared d name →
    typesOf (d.readings fun e => (oracle e).toOption) name ≠ [] →
      ∃ item ∈ implicit, item.name = name

theorem usesTyped {uses : Uses} {s t : ResolverState}
    (ok : (d.elements.foldlM (elementUses (fun e => liftM (oracle e))) []).outcome s =
      (.ok uses, t)) : (uses.map Prod.fst).Nodup ∧
        ∀ name, ((uses.lookup name).getD []).map (·.type) =
          typesOf (d.readings fun e => (oracle e).toOption) name := by
  have start : (([] : Uses).map Prod.fst).Nodup := List.nodup_nil
  rw [usesPushed ok]
  refine ⟨nodupPushAll start _, fun name => ?_⟩
  rw [lookupPushAll]
  exact List.map_map

theorem inferFromGives {items : List StateItem} (ok : inferFrom oracle d = .ok items) :
    ∃ implicit, Inferred oracle d implicit ∧ items.map signature =
      d.state.items.map (fun x => signature (declared [] x)) ++ implicit.map signature := by
  have run := Result.outcomeOk ok
  unfold resolveAll at run
  obtain ⟨uses, s, folded, run⟩ := Task.bindGives.mp run
  obtain ⟨found, implicit, last⟩ := Task.liftBindGives run
  cases last
  have each := Result.mapMOk implicit
  obtain ⟨distinct, types⟩ := usesTyped folded
  refine ⟨found.reduceOption, ⟨fun e member => ?_, ?_, fun item inside => ?_, ?_⟩, ?_⟩
  · obtain ⟨_, _, _, _, step⟩ := Task.foldlGivesEach folded member
    exact (elementUsesPass step).2
  · exact (distinct.sublist (List.filter_sublist.map _)).sublist (inferredNames each)
  · obtain ⟨⟨name, applications⟩, filtered, ok⟩ :=
      forallRight each (List.reduceOption_mem_iff.mp inside)
    obtain ⟨member, undeclared⟩ := List.mem_filter.mp filtered
    obtain ⟨named, applied⟩ := inferredGives ok
    obtain ⟨type, agreed, same⟩ := inferredAgreed.mp ok
    have here : typesOf (d.readings fun e => (oracle e).toOption) name =
        applications.map (·.type) := by
      rw [← types, Ordered.lookupOfMem distinct member]
      rfl
    rw [named, applied, here]
    exact ⟨by simpa [IsUndeclared] using undeclared, type, agreed, same⟩
  · intro name undeclared some
    have used : (uses.lookup name).getD [] ≠ [] := by
      intro none
      rw [← types, none] at some
      exact some rfl
    obtain ⟨item, member, named⟩ := itemListed each used
    refine ⟨item, (List.mem_append.mp member).resolve_left fun explicit => ?_, named⟩
    obtain ⟨declaration, listed, same⟩ := List.mem_map.mp explicit
    exact undeclared declaration listed ((congrArg (·.name) same).trans named)
  · rw [List.map_append, List.map_map]
    rfl

theorem inferFromFollows (accepted : ∀ e ∈ d.elements, Accepted oracle e)
    (agreed : ∀ name, IsUndeclared d name →
      typesOf (d.readings fun e => (oracle e).toOption) name ≠ [] → ∃ type,
        ValueType.agreed? (typesOf (d.readings fun e => (oracle e).toOption) name) = some type) :
    ∃ items, inferFrom oracle d = .ok items := by
  obtain ⟨uses, t, folded⟩ := Task.foldlSucceeds
    (fun e member uses s => elementUsesFollow (accepted e member) uses s) [] {}
  obtain ⟨distinct, types⟩ := usesTyped folded
  have each : ∀ use ∈ uses.filter fun u => !d.state.items.any (·.name == u.1),
      ∃ item, inferred use = .ok item := by
    rintro ⟨name, applications⟩ filtered
    obtain ⟨member, undeclared⟩ := List.mem_filter.mp filtered
    cases applications with
    | nil => exact ⟨none, rfl⟩
    | cons first rest =>
      have here : typesOf (d.readings fun e => (oracle e).toOption) name =
          (first :: rest).map (·.type) := by
        rw [← types, Ordered.lookupOfMem distinct member]
        rfl
      obtain ⟨type, same⟩ := agreed name (by simpa [IsUndeclared] using undeclared)
        (by simp [here])
      rw [here] at same
      exact ⟨_, inferredAgreed.mpr ⟨type, same, rfl⟩⟩
  obtain ⟨found, implicit⟩ := Result.mapMSucceeds each
  refine ⟨d.state.items.map (declared uses) ++ found.reduceOption, ?_⟩
  unfold inferFrom resolveAll
  rw [Task.bindOk folded]
  simp only [implicit]
  rfl

theorem undeclaredAlike (alike : d.Alike other) {name : String} (undeclared : IsUndeclared d name) :
    IsUndeclared other name := by
  rw [IsUndeclared, alike.state]
  exact undeclared

section Alike

variable (plain : ∀ e, oracle e.alone = oracle e) (alike : d.Alike other)
include plain alike

theorem typesAlike (name : String) :
    (typesOf (d.readings fun e => (oracle e).toOption) name).Perm
      (typesOf (other.readings fun e => (oracle e).toOption) name) := by
  have each : ∀ es : List Element, es.flatMap (Element.readings fun e => (oracle e).toOption) =
      (es.map Element.alone).flatMap (Element.readings fun e => (oracle e).toOption) := by
    intro es
    rw [List.flatMap_map]
    refine List.flatMap_congr fun e _ => ?_
    rw [Element.readings, Element.readings, plain]
    rfl
  refine List.Perm.map _ (List.Perm.filter _ ?_)
  rw [ComponentDefinition.readings, ComponentDefinition.readings, each d.elements,
    each other.elements]
  exact alike.elements.flatMap_right _

theorem acceptedAlike (accepted : ∀ e ∈ d.elements, Accepted oracle e) :
    ∀ e ∈ other.elements, Accepted oracle e := by
  intro e member given
  obtain ⟨x, inside, same⟩ := ComponentDefinition.alikeElement alike member
  have arguments : x.arguments = e.arguments :=
    show x.alone.arguments = e.alone.arguments by rw [same]
  obtain ⟨child, answered, accepts⟩ := accepted x inside (arguments ▸ given)
  refine ⟨child, ?_, arguments ▸ accepts⟩
  rw [← plain, ← same, plain, answered]

theorem implicitAlike {left right : List StateItem} (one : Inferred oracle d left)
    (two : Inferred oracle other right) :
    left.map signature ⊆ right.map signature := by
  intro known member
  obtain ⟨item, inside, rfl⟩ := List.mem_map.mp member
  obtain ⟨undeclared, type, agreed, same⟩ := one.agreed item inside
  have perm := typesAlike plain alike item.name
  have read : typesOf (other.readings fun e => (oracle e).toOption) item.name ≠ [] := by
    intro none
    rw [none] at perm
    rw [List.perm_nil.mp perm] at agreed
    cases agreed
  obtain ⟨another, listed, named⟩ :=
    two.covers item.name (undeclaredAlike alike undeclared) read
  obtain ⟨_, type', again, equal⟩ := two.agreed another listed
  rw [named] at again equal
  cases ValueType.agreedUnique perm agreed again
  refine List.mem_map.mpr ⟨another, listed, ?_⟩
  rw [same, equal]
  rfl

end Alike

/- Whatever the order, the same items are inferred. -/
theorem signaturesAlike (plain : ∀ e, oracle e.alone = oracle e) (alike : d.Alike other)
    {items others : List StateItem} (left : inferFrom oracle d = .ok items)
    (right : inferFrom oracle other = .ok others) :
    (items.map signature).Perm (others.map signature) := by
  obtain ⟨implicit, one, here⟩ := inferFromGives left
  obtain ⟨implicit', two, there⟩ := inferFromGives right
  have distinct : ∀ {es : List StateItem}, (es.map (·.name)).Nodup →
      (es.map signature).Nodup := fun names =>
    List.Nodup.of_map Prod.fst (by rw [List.map_map]; exact names)
  rw [here, there, alike.state]
  refine List.Perm.append_left _ ?_
  rw [List.perm_ext_iff_of_nodup (distinct one.distinct) (distinct two.distinct)]
  exact fun known => ⟨fun member => implicitAlike plain alike one two member,
    fun member => implicitAlike plain (ComponentDefinition.alikeSymm alike) two one member⟩

theorem inferredAlike (plain : ∀ e, oracle e.alone = oracle e) (alike : d.Alike other)
    (narrow : ∀ name, IsUndeclared d name →
      ValueType.Narrow (typesOf (d.readings fun e => (oracle e).toOption) name))
    {items : List StateItem} (ok : inferFrom oracle d = .ok items) :
    ∃ others, inferFrom oracle other = .ok others := by
  obtain ⟨implicit, inferred, _⟩ := inferFromGives ok
  refine inferFromFollows (acceptedAlike plain alike inferred.accepted)
    fun name undeclared read => ?_
  have open' := undeclaredAlike (ComponentDefinition.alikeSymm alike) undeclared
  have perm := typesAlike plain alike name
  have some : typesOf (d.readings fun e => (oracle e).toOption) name ≠ [] := fun none => by
    rw [none] at perm
    exact read (List.nil_perm.mp perm)
  obtain ⟨item, member, rfl⟩ := inferred.covers name open' some
  obtain ⟨_, type, agreed, _⟩ := inferred.agreed item member
  exact ⟨type, ValueType.agreedPerm perm (narrow _ open') agreed⟩

end Table

end StateItem

namespace Registry
open StateItem (signature inferFrom typesOf IsUndeclared)

variable {r : Registry} {d other : ComponentDefinition} {begun : List DefinitionKey}
  {s t : ResolverState}

inductive Called (r : Registry) : ResolverState → Prop where
  | fresh : Called r {}
  | later {s : ResolverState} {d : ComponentDefinition} (before : Called r s)
      (registered : d ∈ r.definitions) : Called r ((r.resolve d).outcome s).2

theorem calledUsed (called : r.Called s) : r.Used s := by
  induction called with
  | fresh => exact .fresh
  | later _ registered used => exact .resolved used (definitionIncluded registered)

theorem calledSteady (filled : r.Filled) (apart : r.FilesApart) (called : r.Called s) :
    r.Steady [] s ∧ s.inProgress = [] := by
  induction called with
  | fresh => exact ⟨steadyFresh r, rfl⟩
  | @later s d _ registered ih =>
    obtain ⟨steady, idle⟩ := ih
    exact ⟨(resolveSettles filled apart (soundFresh _) (definitionIncluded registered)
      (basedRegistered apart registered) steady idle).2, (resolveKeeps d s).trans idle⟩

def stateFrom (r : Registry) (begun : List DefinitionKey) (s : ResolverState)
    (d : ComponentDefinition) : Result (List StateItem) :=
  ((StateItem.resolveAll r.resolveReference d).outcome { s with inProgress := begun }).1

inductive ReadAt (r : Registry) (d : ComponentDefinition) (name : String) : ValueType → Prop where
  | property {e : Element} {p : Property} (element : e ∈ d.elements) (own : p ∈ e.properties)
      (bound : p.state? = some name) : ReadAt r d name p.description.type
  | argument {e : Element} {a : String × String} {inner : ComponentDefinition} {child : Resolved}
      {item : StateItem} (element : e ∈ d.elements) (given : a ∈ e.arguments)
      (bound : stateReference? a.2 = some name) (behind : r.behind? e = some inner)
      (derivation : r.Derivation inner child) (found : child.stateItem? a.1 = some item) :
      ReadAt r d name item.type

/-- No variable that has to be inferred is read at a type, at its optional and at the optional of
that. -/
def ReadsNarrowly (r : Registry) (d : ComponentDefinition) : Prop :=
  ∀ name, IsUndeclared d name → ∀ type, r.ReadAt d name type →
    r.ReadAt d name (.optional type) → ¬ r.ReadAt d name (.optional (.optional type))

theorem typesRead {oracle : Element → Result Resolved}
    (derived : ∀ e ∈ d.elements, ∀ child, oracle e = .ok child →
      ∃ inner, r.behind? e = some inner ∧ r.Derivation inner child) {name : String}
    {type : ValueType} (member : type ∈ typesOf (d.readings fun e => (oracle e).toOption) name) :
    r.ReadAt d name type := by
  obtain ⟨⟨v, a⟩, filtered, rfl⟩ := List.mem_map.mp member
  obtain ⟨listed, same⟩ := List.mem_filter.mp filtered
  cases of_decide_eq_true same
  obtain ⟨e, element, read⟩ := List.mem_flatMap.mp listed
  rcases List.mem_append.mp read with own | given
  · obtain ⟨p, inside, found⟩ := List.mem_filterMap.mp own
    obtain ⟨_, bound, same⟩ := Option.map_eq_some_iff.mp found
    cases same
    exact .property element inside bound
  · cases answered : oracle e with
    | error e => simp [answered, Except.toOption] at given
    | ok child =>
      simp only [answered, Except.toOption, Option.elim_some] at given
      obtain ⟨argument, inside, found⟩ := List.mem_filterMap.mp given
      obtain ⟨_, bound, found⟩ := Option.bind_eq_some_iff.mp found
      obtain ⟨item, holds, same⟩ := Option.map_eq_some_iff.mp found
      cases same
      obtain ⟨inner, behind, derivation⟩ := derived e element child answered
      exact .argument element inside bound behind derivation holds

/- A resolver that keeps what is true gives for each element what the component behind it comes
to, if it gives anything. -/
theorem stateAnswered (filled : r.Filled) (member : d ∈ r.allDefinitions) (alike : d.Alike other)
    (keeping : r.Keeping s) {items : List StateItem} (ok : r.stateFrom begun s other = .ok items) :
    inferFrom (r.answer fun _ => True) other = .ok items := by
  have tracks : Task.Tracks False (fun u _ => r.Keeping u)
      (StateItem.resolveAll r.resolveReference other)
      (StateItem.resolveAll (fun e => liftM (r.answer (fun _ => True) e)) other) := by
    refine StateItem.resolveAllTracks fun e element _ u v keeping => ?_
    obtain ⟨x, inside, same⟩ := ComponentDefinition.alikeElement alike element
    have reference : r.resolveReference e = r.resolveReference x :=
      show r.resolveReference e.alone = r.resolveReference x.alone by rw [same]
    have answer : r.answer (fun _ => True) e = r.answer (fun _ => True) x :=
      show r.answer _ e.alone = r.answer _ x.alone by rw [same]
    rw [reference, answer]
    refine ⟨v, (resolveReferenceKeeps filled member inside u keeping).1, ?_⟩
    intro wanted
    obtain ⟨a, ok⟩ := wanted.resolve_left id
    have run := Result.outcomeOk ok
    unfold resolveReference at run
    obtain ⟨inner, w, found, resolved⟩ := Task.bindGives.mp run
    obtain ⟨warnings, located⟩ := r.definitionForLocated x u
    rw [located] at found
    obtain ⟨here, rfl⟩ := Prod.mk.inj found
    have behind := locatedBehind.mp here
    have derivation := resolveSound filled (behindIncluded member inside behind)
      (s := { u with warnings }) keeping (congrArg Prod.fst resolved)
    rw [answerOk ⟨inner, behind, derivation, trivial⟩, ok]
    rfl
  obtain ⟨u, _, run⟩ := tracks { s with inProgress := begun } {} keeping
  exact (congrArg Prod.fst (run (.inr ⟨items, ok⟩))).trans ok

section Settled

variable (filled : r.Filled) (apart : r.FilesApart) {base : ComponentDefinition}
  (rooted : base ∈ r.definitions) (reached : ReflTransGen r.DependsOn base d)
  (own : begun = [] ∨ begun = [d.key])
include filled apart rooted reached own

theorem referenceSettles (steady : r.Steady [] s) (open' : s.inProgress = begun) {e : Element}
    (element : e ∈ d.elements) (needs : e.Needs) :
    ((r.resolveReference e).outcome s).1 = r.settleBehind [] r.keys.length begun e ∧
      r.Steady [] ((r.resolveReference e).outcome s).2 ∧
        ((r.resolveReference e).outcome s).2.inProgress = begun := by
  have included := definitionIncluded rooted
  have member := reachedIncluded included reached
  have path : ReflTransGen (r.DependsUnder []) base d :=
    reached.lift id fun _ _ step => ⟨step, keptNone⟩
  have start : r.Way [] base d [] := ⟨List.nodup_nil, path, by simp⟩
  obtain ⟨warnings, run⟩ := r.definitionForLocated e s
  unfold resolveReference settleBehind
  cases located : r.located e with
  | error error =>
    rw [located] at run
    rw [Task.bindError run]
    exact ⟨rfl, steadySame steady rfl, open'⟩
  | ok inner =>
    rw [located] at run
    rw [Task.bindOk run]
    have behind := locatedBehind.mp located
    have step : r.DependsUnder [] d inner := ⟨⟨e, element, needs, behind⟩, keptNone⟩
    have way : r.Way [] base inner begun := by
      rcases own with rfl | rfl
      · exact ⟨List.nodup_nil, path.tail step, by simp⟩
      · exact wayOnward start (by simp) step
    have inside := behindIncluded member element behind
    have limit := keysWithinLimit (r := r) inner
    obtain ⟨same, kept⟩ := resolveWithinSettles filled apart (soundFresh _) included
      (basedRegistered apart rooted) inside (s := { s with warnings }) (steadySame steady rfl)
      (fun _ => open' ▸ way) (n := r.resolveLimit inner) (by omega)
    refine ⟨same.trans ?_, kept, (resolveKeeps inner _).trans open'⟩
    simp only [open']
    exact settleRoom inside way.distinct (wayWithin included way) (by omega) (by omega)

theorem stateSettled (alike : d.Alike other) (steady : r.Steady [] s) :
    r.stateFrom begun s other =
      inferFrom (r.settleBehind [] r.keys.length begun) other := by
  have tracks : Task.Tracks True (fun u _ => r.Steady [] u ∧ u.inProgress = begun)
      (StateItem.resolveAll r.resolveReference other)
      (StateItem.resolveAll (fun e => liftM (r.settleBehind [] r.keys.length begun e)) other) := by
    refine StateItem.resolveAllTracks fun e element needs u v ⟨steady, open'⟩ => ?_
    obtain ⟨x, inside, same⟩ := ComponentDefinition.alikeElement alike element
    have reference : r.resolveReference e = r.resolveReference x :=
      show r.resolveReference e.alone = r.resolveReference x.alone by rw [same]
    have settled : r.settleBehind [] r.keys.length begun e =
        r.settleBehind [] r.keys.length begun x :=
      show r.settleBehind _ _ _ e.alone = r.settleBehind _ _ _ x.alone by rw [same]
    have asked : x.Needs := show x.alone.Needs by rw [same]; exact needs
    rw [reference, settled]
    obtain ⟨gives, kept, still⟩ :=
      referenceSettles filled apart rooted reached own steady open' inside asked
    exact ⟨v, ⟨kept, still⟩, fun _ => by rw [gives]; rfl⟩
  obtain ⟨u, _, run⟩ := tracks { s with inProgress := begun } {} ⟨steadySame steady rfl, rfl⟩
  exact (congrArg Prod.fst (run (.inl trivial))).symm

end Settled

theorem settledAlike (filled : r.Filled) (member : d ∈ r.allDefinitions) (alike : d.Alike other)
    (narrow : r.ReadsNarrowly d) :
    (∃ items, inferFrom (r.settleBehind [] r.keys.length begun) d = .ok items) ↔
      ∃ items, inferFrom (r.settleBehind [] r.keys.length begun) other = .ok items := by
  have plain : ∀ e : Element, r.settleBehind [] r.keys.length begun e.alone =
      r.settleBehind [] r.keys.length begun e := fun _ => rfl
  have derived : ∀ e ∈ d.elements, ∀ child,
      r.settleBehind [] r.keys.length begun e = .ok child →
        ∃ inner, r.behind? e = some inner ∧ r.Derivation inner child := by
    intro e element child answered
    obtain ⟨inner, behind, settled⟩ := settleBehindGives answered
    exact ⟨inner, behind,
      settleDerived filled (soundFresh _) (behindIncluded member element behind) settled⟩
  have here : ∀ name, IsUndeclared d name → ValueType.Narrow (typesOf (d.readings fun e =>
      (r.settleBehind [] r.keys.length begun e).toOption) name) :=
    fun name undeclared type listed outer outermost => narrow name undeclared type
      (typesRead derived listed) (typesRead derived outer) (typesRead derived outermost)
  constructor
  · rintro ⟨items, ok⟩
    exact StateItem.inferredAlike plain alike here ok
  · rintro ⟨items, ok⟩
    have back := ComponentDefinition.alikeSymm alike
    refine StateItem.inferredAlike plain back (fun name undeclared type listed => ?_) ok
    have perm := StateItem.typesAlike plain back name
    intro outer outermost
    exact here name (StateItem.undeclaredAlike back undeclared) type (perm.mem_iff.mp listed)
      (perm.mem_iff.mp outer) (perm.mem_iff.mp outermost)

theorem stateUnordered (filled : r.Filled) (member : d ∈ r.allDefinitions)
    (reorders : d.Reorders other) (own : begun = [] ∨ begun = [d.key]) (first : r.Called s)
    (second : r.Called t) :
    (∀ items others, r.stateFrom begun s d = .ok items → r.stateFrom begun t other = .ok others →
      (items.map signature).Perm (others.map signature)) ∧
    (r.FilesApart → (∃ base ∈ r.definitions, ReflTransGen r.DependsOn base d) →
      r.ReadsNarrowly d → ((∃ items, r.stateFrom begun s d = .ok items) ↔
        ∃ others, r.stateFrom begun t other = .ok others)) := by
  have alike := ComponentDefinition.reordersAlike reorders
  have itself : d.Alike d := ⟨rfl, .refl _⟩
  constructor
  · intro items others left right
    have keeping := fun {u} (called : r.Called u) => usedKeeping filled (calledUsed called)
    exact StateItem.signaturesAlike (fun _ => rfl) alike
      (stateAnswered filled member itself (keeping first) left)
      (stateAnswered filled member alike (keeping second) right)
  · rintro apart ⟨base, rooted, reached⟩ narrow
    rw [stateSettled filled apart rooted reached own itself (calledSteady filled apart first).1,
      stateSettled filled apart rooted reached own alike (calledSteady filled apart second).1]
    exact settledAlike filled member alike narrow

section Gauges

def turn : List Element → List Element
  | e :: f :: g :: rest => e :: g :: f :: rest
  | es => es

def turned (d : ComponentDefinition) : ComponentDefinition :=
  { d with root := { d.root with children := turn d.root.children } }

theorem turnedReorders (d : ComponentDefinition) : d.Reorders (turned d) := by
  have turns : ∀ es : List Element, Element.Reorders es (turn es) := by
    intro es
    unfold turn
    split
    · rename_i e f g rest
      exact .cons rfl (Element.reordersBelow e) (.swap f g rest)
    · exact Element.reordersSelf _
  exact ⟨turn d.root.children, turns _, rfl⟩

def isShallow (r : Registry) (d : ComponentDefinition) : Bool :=
  d.elements.all fun e => e.properties.all (·.description.type.depth ≤ 1) &&
    (e.arguments.isEmpty || (r.behind? e).any fun inner =>
      ((r.resolve inner).outcome {}).1.toOption.any (·.state.all (·.type.depth ≤ 1)))

theorem shallowNarrow (filled : r.Filled) (member : d ∈ r.allDefinitions)
    (shallow : r.isShallow d = true) : r.ReadsNarrowly d := by
  have each : ∀ name type, r.ReadAt d name type → type.depth ≤ 1 := by
    intro name type read
    cases read with
    | @property e p element own _ =>
      have here := (Bool.and_eq_true_iff.mp (List.all_eq_true.mp shallow e element)).1
      exact of_decide_eq_true (List.all_eq_true.mp here p own)
    | @argument e a inner child item element given _ behind derivation found =>
      have here := (Bool.and_eq_true_iff.mp (List.all_eq_true.mp shallow e element)).2
      have some : e.arguments.isEmpty = false := by
        cases none : e.arguments with
        | nil => simp [none] at given
        | cons => rfl
      rw [some, Bool.false_or, behind, Option.any_some] at here
      obtain ⟨res, ok, states⟩ := Result.anyOk here
      have again := resolveSound filled (behindIncluded member element behind) (soundFresh _) ok
      cases derivationUnique again derivation
      exact of_decide_eq_true (List.all_eq_true.mp states item (List.mem_of_find?_eq_some found))
  intro name _ type _ _ outermost
  have depth := each name _ outermost
  simp [ValueType.depth] at depth

def gaugeFiles : List (String × String) := [
  ("Gauge.ui.xml", "<Gauge><state><item name=\"value\" type=\"Int\"/></state></Gauge>"),
  ("Meter.ui.xml", "<Meter><state><item name=\"value\" type=\"Int?\"/></state></Meter>"),
  ("Dial.ui.xml", "<Dial><state><item name=\"value\" type=\"Int??\"/></state></Dial>")]

def cockpitFile : String × String :=
  ("Cockpit.ui.xml", "<Cockpit><Label id=\"a\" text=\"$caption\" numberOfLines=\"$level\"/>" ++
    "<Gauge id=\"b\" value=\"$level\"/><Meter id=\"c\" value=\"$level\"/></Cockpit>")

def boardFile : String × String :=
  ("Board.ui.xml", "<Board><Gauge id=\"a\" value=\"$level\"/>" ++
    "<Meter id=\"b\" value=\"$level\"/><Dial id=\"c\" value=\"$level\"/></Board>")

def gauges (file : String × String) : Registry := ofTexts {} (gaugeFiles ++ [file])

theorem gaugesApart (file : String × String)
    (paths : (gauges file).definitions.map (·.sourcePath) =
      ["Gauge.ui.xml", "Meter.ui.xml", "Dial.ui.xml", file.1])
    (other : file.1 ∉ gaugeFiles.map Prod.fst) : (gauges file).FilesApart := by
  rw [FilesApart, paths]
  simpa [gaugeFiles, eq_comm] using other

theorem cockpitComputed :
    ((gaugeFiles ++ [cockpitFile]).all fun file => (reading file).isOk) = true ∧
    (gauges cockpitFile).definitions.map (·.sourcePath) =
      ["Gauge.ui.xml", "Meter.ui.xml", "Dial.ui.xml", "Cockpit.ui.xml"] ∧
    (gauges cockpitFile).isShallow (ofText cockpitFile) = true ∧
    ((gauges cockpitFile).stateFrom [] {} (ofText cockpitFile)).map (·.map (·.type)) =
      .ok [.optional .string, .optional .int] ∧
    (turned (ofText cockpitFile)).elements.map (·.id.name) = ["self", "a", "c", "b"] := by
  have read := readingsLetters gaugeFiles (.cons rfl (.cons rfl (.cons rfl .nil)))
  have own : reading cockpitFile = _ := readingLetters (Text.lettersAppend rfl rfl)
  simp only [gaugeFiles, List.forall₂_cons] at read
  simp only [gauges, gaugeFiles, ofTexts, ofText, List.cons_append, List.nil_append, List.all_cons,
    List.foldl_cons, List.foldl_nil, read, own]
  decide +kernel

theorem cockpitUnordered :
    ∃ (r : Registry) (d : ComponentDefinition) (items others : List StateItem),
    r.Filled ∧ r.FilesApart ∧ d ∈ r.definitions ∧ r.ReadsNarrowly d ∧ d.Reorders (turned d) ∧
    (turned d).elements.map (·.id.name) = ["self", "a", "c", "b"] ∧
    r.stateFrom [] {} d = .ok items ∧ r.stateFrom [] {} (turned d) = .ok others ∧
    items.map (·.type) = [.optional .string, .optional .int] ∧
    (items.map signature).Perm (others.map signature) := by
  obtain ⟨readable, paths, shallow, listed, turns⟩ := cockpitComputed
  have filled : (gauges cockpitFile).Filled := ofTextsFilled {} readable
  have registered := lastRegistered {} gaugeFiles cockpitFile
  have included := definitionIncluded registered
  have apart := gaugesApart cockpitFile paths (by decide)
  have narrow := shallowNarrow filled included shallow
  have reorders := turnedReorders (ofText cockpitFile)
  obtain ⟨items, ok, types⟩ := Result.mapOk.mp listed
  obtain ⟨same, follows⟩ := stateUnordered filled included reorders (.inl rfl) .fresh .fresh
  obtain ⟨others, again⟩ := (follows apart ⟨_, registered, .refl⟩ narrow).mp ⟨items, ok⟩
  exact ⟨_, _, items, others, filled, apart, registered, narrow, reorders, turns, ok, again,
    types, same items others ok again⟩

theorem boardComputed :
    ((gaugeFiles ++ [boardFile]).all fun file => (reading file).isOk) = true ∧
    (gauges boardFile).definitions.map (·.sourcePath) =
      ["Gauge.ui.xml", "Meter.ui.xml", "Dial.ui.xml", "Board.ui.xml"] ∧
    ((gauges boardFile).stateFrom [] {} (ofText boardFile)).isOk = true ∧
    ((gauges boardFile).stateFrom [] {} (turned (ofText boardFile))).isOk = false := by
  have read := readingsLetters gaugeFiles (.cons rfl (.cons rfl (.cons rfl .nil)))
  have own : reading boardFile = _ := readingLetters (Text.lettersAppend rfl rfl)
  simp only [gaugeFiles, List.forall₂_cons] at read
  simp only [gauges, gaugeFiles, ofTexts, ofText, List.cons_append, List.nil_append, List.all_cons,
    List.foldl_cons, List.foldl_nil, read, own]
  decide +kernel

/- The level is read as `Int`, `Int?` and `Int??`, which agree in this order, and no longer when the
last two change places. -/
theorem dialLost : ∃ (r : Registry) (d other : ComponentDefinition), r.Filled ∧ r.FilesApart ∧
    d ∈ r.definitions ∧ d.Reorders other ∧ (r.stateFrom [] {} d).isOk = true ∧
      (r.stateFrom [] {} other).isOk = false := by
  obtain ⟨readable, paths, here, there⟩ := boardComputed
  exact ⟨gauges boardFile, ofText boardFile, turned (ofText boardFile),
    ofTextsFilled {} readable, gaugesApart boardFile paths (by decide),
    lastRegistered {} gaugeFiles boardFile, turnedReorders _, here, there⟩

end Gauges

end Registry

end ViewForge
