import Mathlib.Data.List.Chain
import ViewForge.Proofs.Resolve.Component
import ViewForge.Proofs.Style.Calls

/-! Where a cyclic reference comes from. What a component comes to fails in this way by the styles of
its elements or by a component behind one of them; a component behind an element fails in this way
when it is met on the way to itself, or when one of the same key is. -/
open Relation (ReflTransGen TransGen)
namespace ViewForge

def Result.NoCycle {α : Type} (x : Result α) : Prop := ∀ chain, x ≠ .error (.cyclicReference chain)

namespace Result

variable {α β : Type}

theorem noCycleOk (a : α) : NoCycle (.ok a : Result α) := fun _ same => by cases same

theorem noCycleBind {x : Result α} {f : α → Result β} (first : x.NoCycle)
    (rest : ∀ a, (f a).NoCycle) : (x >>= f).NoCycle := by
  intro chain failed
  rcases Result.bindError.mp failed with here | ⟨a, _, later⟩
  · exact first chain here
  · exact rest a chain later

theorem noCycleMap {f : α → Result β} {xs : List α} (each : ∀ a ∈ xs, (f a).NoCycle) :
    (xs.mapM f).NoCycle := by
  induction xs with
  | nil => exact noCycleOk []
  | cons x rest ih =>
    obtain ⟨here, later⟩ := List.forall_mem_cons.mp each
    rw [List.mapM_cons]
    exact noCycleBind here fun b => noCycleBind (ih later) fun bs => noCycleOk _

theorem noCycleFold {f : β → α → Result β} {xs : List α} (each : ∀ b a, (f b a).NoCycle) (b : β) :
    (xs.foldlM f b).NoCycle := by
  induction xs generalizing b with
  | nil => exact noCycleOk b
  | cons x rest ih =>
    rw [List.foldlM_cons]
    exact noCycleBind (each b x) ih

end Result

section Own

open Result

theorem ValueType.parseNoCycle (type : ValueType) (raw : String) : (type.parse raw).NoCycle := by
  induction type with
  | optional wrapped ih =>
    intro chain failed
    unfold parse at failed
    split at failed
    · cases failed
    · cases read : wrapped.parse raw with
      | ok value =>
        rw [read] at failed
        cases failed
      | error e =>
        rw [read] at failed
        cases failed
        exact ih chain read
  | array element _ =>
    intro chain failed
    unfold parse at failed
    simp only at failed
    split at failed
    · cases failed
    · split at failed <;> cases failed
  | _ =>
    intro chain failed
    unfold parse at failed
    split at failed <;> cases failed

namespace StateItem

theorem argumentUsesNoCycle (id typeName : String) (child : Resolved) (uses : Uses)
    (arguments : List (String × String)) :
    (argumentUses id typeName child uses arguments).NoCycle := by
  induction arguments generalizing uses with
  | nil => exact noCycleOk uses
  | cons argument rest ih =>
    unfold argumentUses
    split
    · exact fun _ same => by cases same
    · rename_i item _
      split
      · exact ih _
      · exact noCycleBind (item.type.parseNoCycle _) fun _ => ih _

theorem unifyUsesNoCycle (name : String) (type : ValueType) (uses : List StateApplication) :
    (unifyUses name type uses).NoCycle := by
  induction uses generalizing type with
  | nil => exact noCycleOk type
  | cons use rest ih =>
    unfold unifyUses
    split
    · exact ih _
    · exact fun _ same => by cases same

theorem inferredNoCycle (use : String × List StateApplication) : (inferred use).NoCycle := by
  obtain ⟨name, applications⟩ := use
  cases applications with
  | nil => exact noCycleOk none
  | cons first rest => exact noCycleBind (unifyUsesNoCycle _ _ _) fun _ => noCycleOk _

end StateItem

namespace ResolvedAction

theorem referenceParameterNoCycle (d : ComponentDefinition) (current : String)
    (target : ReferenceTarget) (property : Option String) :
    (referenceParameter d current target property).NoCycle := by
  unfold referenceParameter
  simp only
  split
  · exact fun _ same => by cases same
  · split
    · exact noCycleOk _
    · split
      · exact noCycleOk _
      · exact fun _ same => by cases same

theorem argumentParameterNoCycle (d : ComponentDefinition) (state : List StateItem)
    (current action : String) (argument : CallArgument) :
    (argumentParameter d state current action argument).NoCycle := by
  unfold argumentParameter
  simp only
  split
  · exact noCycleOk _
  · split
    · exact noCycleOk _
    · exact fun _ same => by cases same
  · exact noCycleBind (referenceParameterNoCycle _ _ _ _) fun _ => noCycleOk _

theorem sourceNoCycle (d : ComponentDefinition) (state : List StateItem) (id : String)
    (action : BoundAction) (event : EventDescription) :
    (source d state id action event).NoCycle := by
  unfold source
  simp only
  split
  · exact noCycleOk _
  · exact noCycleBind (noCycleMap fun argument _ => argumentParameterNoCycle _ _ _ _ argument)
      fun _ => noCycleOk _

theorem addNavigationSourceNoCycle (d : ComponentDefinition) (state : List StateItem)
    (sources : Sources) (item : NavigationItem) :
    (addNavigationSource d state sources item).NoCycle := by
  unfold addNavigationSource
  split
  · exact noCycleOk _
  · exact noCycleBind (sourceNoCycle _ _ _ _ _) fun _ => noCycleOk _

theorem ofSourcesNoCycle (entry : String × List ActionSource) : (ofSources entry).NoCycle := by
  obtain ⟨name, sources⟩ := entry
  cases sources with
  | nil => exact noCycleOk none
  | cons first rest =>
    unfold ofSources
    simp only
    split
    · exact fun _ same => by cases same
    · exact noCycleOk _

end ResolvedAction

theorem Registry.checkReferencesNoCycle (r : Registry) (properties : List Property) :
    (r.checkReferences properties).NoCycle := by
  induction properties with
  | nil => exact noCycleOk ()
  | cons p rest ih =>
    unfold checkReferences
    split
    · refine noCycleBind ?_ fun _ => ih
      unfold Application.checkReferences
      split
      · exact fun _ same => by cases same
      · exact noCycleOk ()
    · exact noCycleBind (noCycleOk ()) fun _ => ih

end Own

namespace Task

variable {σ α β : Type} {I : σ → Prop} {E : String → Prop}

/-- From states where `I` holds the task ends in such a state, and `E` holds of the cycles that it
fails with. -/
def Cycles (I : σ → Prop) (E : String → Prop) (x : Task σ α) : Prop :=
  ∀ s, I s → I (x.outcome s).2 ∧ ∀ chain, (x.outcome s).1 = .error (.cyclicReference chain) → E chain

theorem cyclesPure (a : α) : Cycles I E (pure a) :=
  fun _ holds => ⟨holds, fun _ same => by cases same⟩

theorem cyclesLift {x : Result α} (given : ∀ chain, x = .error (.cyclicReference chain) → E chain) :
    Cycles I E (liftM x : Task σ α) := fun _ holds => ⟨holds, given⟩

theorem cyclesNone {x : Result α} (none : x.NoCycle) : Cycles I E (liftM x : Task σ α) :=
  cyclesLift fun chain same => absurd same (none chain)

theorem cyclesThrow {e : Error} (other : ∀ chain, e ≠ .cyclicReference chain) :
    Cycles I E (throw e : Task σ α) :=
  fun _ holds => ⟨holds, fun chain same => absurd (Except.error.inj same) (other chain)⟩

theorem cyclesBind {x : Task σ α} {f : α → Task σ β} (first : Cycles I E x)
    (rest : ∀ a, Cycles I E (f a)) : Cycles I E (x >>= f) := by
  intro s holds
  obtain ⟨kept, explained⟩ := first s holds
  rw [outcomeBind]
  cases run : x.outcome s with
  | mk result t =>
    rw [run] at kept explained
    cases result with
    | error e =>
      refine ⟨kept, fun chain same => ?_⟩
      cases same
      exact explained chain rfl
    | ok a => exact rest a t kept

theorem cyclesFold {f : β → α → Task σ β} {as : List α}
    (each : ∀ a ∈ as, ∀ b, Cycles I E (f b a)) (b : β) : Cycles I E (as.foldlM f b) := by
  induction as generalizing b with
  | nil => exact cyclesPure b
  | cons a as ih =>
    obtain ⟨here, later⟩ := List.forall_mem_cons.mp each
    rw [List.foldlM_cons]
    exact cyclesBind (here b) (ih later)

end Task

section Describe

open ViewForge.Task Result

variable {I : ResolverState → Prop} {E : String → Prop} {child : ChildResolver}
  {d : ComponentDefinition}

theorem StateItem.resolveAllCycles (needed : ∀ e ∈ d.elements, e.Needs → Cycles I E (child e)) :
    Cycles I E (resolveAll child d) := by
  unfold resolveAll
  refine cyclesBind (cyclesFold (fun e member uses => ?_) []) fun uses => ?_
  · unfold elementUses
    simp only
    split
    · exact cyclesPure _
    · rename_i reference found
      split
      · exact cyclesPure _
      · rename_i given
        have needs : e.Needs :=
          ⟨reference, ElementKind.referenceComponent found, .inl (by simpa using given)⟩
        exact cyclesBind (needed e member needs) fun resolved =>
          cyclesNone (argumentUsesNoCycle _ _ _ _ _)
  · exact cyclesBind (cyclesNone (noCycleMap fun use _ => inferredNoCycle use)) fun _ => cyclesPure _

theorem ResolvedAction.addSourceCycles {state : List StateItem} {e : Element}
    {action : BoundAction} (member : action ∈ e.actions)
    (needed : e.Needs → Cycles I E (child e)) (sources : Sources) :
    Cycles I E (addSource child d state e sources action) := by
  have described : Cycles I E (describeEvent child e action.event) := by
    unfold describeEvent
    cases kind : e.kind with
    | widget w =>
      refine cyclesBind (cyclesPure _) fun found => ?_
      cases found with
      | some description => exact cyclesPure description
      | none => exact cyclesThrow fun _ same => by cases same
    | component reference =>
      have needs : e.Needs := ⟨reference, kind, .inr (List.ne_nil_of_mem member)⟩
      refine cyclesBind (needed needs) fun resolved => cyclesBind (cyclesPure _) fun found => ?_
      cases found with
      | some description => exact cyclesPure description
      | none => exact cyclesThrow fun _ same => by cases same
  unfold addSource
  exact cyclesBind described fun event => cyclesBind (cyclesNone (sourceNoCycle _ _ _ _ _))
    fun found => cyclesPure _

theorem ResolvedAction.resolveAllCycles (state : List StateItem)
    (needed : ∀ e ∈ d.elements, e.Needs → Cycles I E (child e)) :
    Cycles I E (resolveAll child d state) := by
  unfold resolveAll
  refine cyclesBind (cyclesFold (fun e member sources => ?_) []) fun sources => ?_
  · exact cyclesFold (fun action inside sources =>
      addSourceCycles inside (needed e member) sources) sources
  · refine cyclesBind (cyclesNone (noCycleFold (addNavigationSourceNoCycle d state) _)) fun _ => ?_
    exact cyclesBind (cyclesNone (noCycleMap fun entry _ => ofSourcesNoCycle entry)) fun _ =>
      cyclesPure _

theorem Registry.describeCycles {r : Registry}
    (own : ∀ chain, r.resolveProperties d = .error (.cyclicReference chain) → E chain)
    (needed : ∀ e ∈ d.elements, e.Needs → Cycles I E (child e)) :
    Cycles I E (r.describe child d) := by
  unfold describe
  refine cyclesBind (cyclesLift own) fun properties => ?_
  refine cyclesBind (StateItem.resolveAllCycles needed) fun state => ?_
  exact cyclesBind (ResolvedAction.resolveAllCycles state needed) fun actions => cyclesPure _

end Describe
end ViewForge

namespace ViewForge.Registry
open ResolverState StyleScope

variable {r : Registry} {root d : ComponentDefinition} {path : List ComponentDefinition}

theorem chainLeads {α : Type} {R : α → α → Prop} {x y : α} {between : List α}
    (linked : (x :: between ++ [y]).IsChain R) : TransGen R x y := by
  have related := (linked.imp fun _ _ => TransGen.single).pairwise
  rw [List.cons_append] at related
  exact List.rel_of_pairwise_cons related (by simp)

/-- The components in progress, each of which depends on the next, and the last on this one. -/
structure Descent (r : Registry) (root : ComponentDefinition) (path : List ComponentDefinition)
    (d : ComponentDefinition) : Prop where
  linked : (path ++ [d]).IsChain r.DependsOn
  reached : ∀ x ∈ path ++ [d], ReflTransGen r.DependsOn root x
  distinct : (path.map (·.key)).Nodup

/-- A component that is reached has styles that cannot be flattened, or leads back to one of its
own key by the components that are named. -/
def Explains (r : Registry) (root : ComponentDefinition) (chain : String) : Prop :=
  (∃ x, ReflTransGen r.DependsOn root x ∧
    r.resolveProperties x = .error (.cyclicReference chain)) ∨
  ∃ x between y, ReflTransGen r.DependsOn root x ∧ ReflTransGen r.DependsOn root y ∧
    (x :: between ++ [y]).IsChain r.DependsOn ∧ x.key = y.key ∧
    chain = Text.join " -> " ((x :: between ++ [y]).map (·.typeName))

/- What is kept of the way begins with the first component of the key. -/
theorem keptOfWay {key : DefinitionKey} (met : key ∈ path.map (·.key)) :
    ∃ before x between, path = before ++ x :: between ∧ x.key = key ∧
      (path.map (·.key)).dropWhile (· != key) = (x :: between).map (·.key) := by
  induction path with
  | nil => simp at met
  | cons y rest ih =>
    by_cases here : y.key = key
    · exact ⟨[], y, rest, rfl, here, by simp [here]⟩
    · have later : key ∈ rest.map (·.key) :=
        (List.mem_cons.mp met).resolve_left fun same => here same.symm
      obtain ⟨before, x, between, rfl, same, kept⟩ := ih later
      exact ⟨y :: before, x, between, rfl, same, by simpa [here] using kept⟩

theorem descentCycle (descent : r.Descent root path d) (begun : d.key ∈ path.map (·.key))
    {chain : String} (same : cycle (path.map (·.key)) d = .cyclicReference chain) : r.Explains root chain := by
  obtain ⟨before, x, between, rfl, met, kept⟩ := keptOfWay begun
  have suffix : x :: between ++ [d] <:+ before ++ x :: between ++ [d] :=
    ⟨before, by rw [List.append_assoc]⟩
  refine .inr ⟨x, between, d, descent.reached x (suffix.subset (by simp)),
    descent.reached d (by simp), descent.linked.suffix suffix, met, ?_⟩
  unfold cycle at same
  rw [kept] at same
  cases same
  simp [ComponentDefinition.key, Function.comp_def]

/- A component that is known does not fail, and one that is in progress closes a cycle. -/
theorem settledCycles {work : ComponentDefinition → Resolve Resolved}
    (descent : r.Descent root path d)
    (worked : d.key ∉ path.map (·.key) → Task.Cycles (fun s => s.inProgress = path.map (·.key))
      (r.Explains root) (work d)) :
    Task.Cycles (fun s => s.inProgress = path.map (·.key)) (r.Explains root)
      (unlessSettled work d) := by
  intro s same
  cases found : s.known? d with
  | some known =>
    rw [settledKnown found]
    exact ⟨same, fun chain failed => by cases failed⟩
  | none =>
    by_cases begun : d.key ∈ s.inProgress
    · rw [settledCyclic found begun]
      rw [same] at begun
      refine ⟨same, fun chain failed => descentCycle descent begun ?_⟩
      rw [← same]
      exact Except.error.inj failed
    · rw [settledOpen found begun]
      exact worked (same ▸ begun) s same

theorem workOutCycles {child : ChildResolver} {E : String → Prop}
    (own : ∀ chain, r.resolveProperties d = .error (.cyclicReference chain) → E chain)
    (needed : ∀ e ∈ d.elements, e.Needs →
      Task.Cycles (fun s => s.inProgress = (path ++ [d]).map (·.key)) E (child e)) :
    Task.Cycles (fun s => s.inProgress = path.map (·.key)) E (r.workOut child d) := by
  intro s same
  have entered : (s.enter d.key).inProgress = (path ++ [d]).map (·.key) := by simp [enter, same]
  obtain ⟨kept, explained⟩ := describeCycles own needed (s.enter d.key) entered
  cases run : (r.describe child d).outcome (s.enter d.key) with
  | mk result t =>
    rw [run] at kept explained
    have after : t.leave.inProgress = path.map (·.key) :=
      (leaveEntered (kept.trans entered.symm)).trans same
    cases result with
    | ok res =>
      rw [workOutOk run]
      exact ⟨(rememberInProgress d res _).trans after, fun chain failed => by cases failed⟩
    | error e =>
      rw [workOutError run]
      exact ⟨after, explained⟩

theorem descentStep (descent : r.Descent root path d) (fresh : d.key ∉ path.map (·.key))
    {inner : ComponentDefinition} (step : r.DependsOn d inner) :
    r.Descent root (path ++ [d]) inner where
  linked := by
    refine List.isChain_append.mpr ⟨descent.linked, List.isChain_singleton _, ?_⟩
    simpa using step
  reached x member := by
    rcases List.mem_append.mp member with before | last
    · exact descent.reached x before
    · rw [List.mem_singleton.mp last]
      exact (descent.reached d (by simp)).tail step
  distinct := by
    rw [List.map_append, List.map_singleton, ← List.concat_eq_append]
    exact descent.distinct.concat fresh

theorem descentWithin (rooted : root ∈ r.allDefinitions) (descent : r.Descent root path d) :
    path.map (·.key) ⊆ r.keys := by
  intro key member
  obtain ⟨x, inside, rfl⟩ := List.mem_map.mp member
  exact keyIncluded (reachedIncluded rooted (descent.reached x (List.mem_append_left _ inside)))

/- There is room on the way for every key, so that nothing is too deep. -/
theorem resolveWithinCycles (rooted : root ∈ r.allDefinitions) {n : Nat}
    (descent : r.Descent root path d) (room : r.keys.length ≤ n + path.length) :
    Task.Cycles (fun s => s.inProgress = path.map (·.key)) (r.Explains root)
      (r.resolveWithin tooDeep n d) := by
  induction n generalizing path d with
  | zero =>
    have begun : d.key ∈ path.map (·.key) := by
      refine keysExhausted descent.distinct (descentWithin rooted descent) ?_
        (keyIncluded (reachedIncluded rooted (descent.reached d (by simp))))
      rw [List.length_map]
      omega
    exact settledCycles descent fun fresh => absurd begun fresh
  | succ n ih =>
    rw [resolveWithinStep]
    refine settledCycles descent fun fresh => ?_
    have reached := descent.reached d (by simp)
    refine workOutCycles ?_ ?_
    · exact fun chain failed => .inl ⟨d, reached, failed⟩
    · intro e element needs t same
      unfold childWithin
      cases found : r.behind? e with
      | none =>
        obtain ⟨name, warnings, run⟩ := definitionForMissing found t
        rw [Task.bindError run]
        exact ⟨same, fun chain failed => by cases failed⟩
      | some inner =>
        obtain ⟨warnings, run⟩ := definitionForFound found t
        rw [Task.bindOk run]
        have deeper := descentStep descent fresh ⟨e, element, needs, found⟩
        exact ih deeper (by rw [List.length_append, List.length_singleton]; omega)
          { t with warnings } same

theorem stylesCyclic {chain : String}
    (failed : r.resolveProperties d = .error (.cyclicReference chain)) :
    ∃ e ∈ d.elements, ∃ cache,
      (((r.scopeOf d).resolve e).outcome cache).1 = .error (.cyclicReference chain) := by
  have inner : ((d.elements.mapM (r.elementProperties (r.scopeOf d))).outcome []).1 =
      .error (.cyclicReference chain) := by
    rcases Result.bindError.mp failed with inner | ⟨_, _, pure⟩
    · exact inner
    · cases pure
  obtain ⟨e, element, cache, failed⟩ := Task.mapFails inner
  refine ⟨e, element, cache, ?_⟩
  unfold elementProperties at failed
  rcases Task.bindFails failed with resolving | ⟨merged, next, _, failed⟩
  · exact resolving
  · rcases Task.bindFails failed with checking | ⟨_, _, _, pure⟩
    · exact absurd checking (r.checkReferencesNoCycle merged chain)
    · cases pure

/- A cycle of styles is real where names tell styles apart, one of components where keys tell
components apart; inline components of one file may share a key. -/
theorem cyclicReferenceReal (filled : r.Filled) (registered : d ∈ r.definitions) {chain : String}
    (failed : ((r.resolve d).outcome {}).1 = .error (.cyclicReference chain)) :
    (∃ x, ReflTransGen r.DependsOn d x ∧
      r.resolveProperties x = .error (.cyclicReference chain) ∧
      ((r.scopeOf x).Told → ∃ n, (r.scopeOf x).Registered n ∧
        TransGen (r.scopeOf x).Extends n n)) ∨
    ∃ x between y, ReflTransGen r.DependsOn d x ∧
      (x :: between ++ [y]).IsChain r.DependsOn ∧
      chain = Text.join " -> " ((x :: between ++ [y]).map (·.typeName)) ∧ x.key = y.key ∧
      (x = y ∧ TransGen r.DependsOn x x ∨
        x ≠ y ∧ (x.isAnonymous = true ∨ y.isAnonymous = true)) := by
  have rooted := definitionIncluded registered
  have descent : r.Descent d [] d := by
    refine ⟨List.isChain_singleton d, fun x member => ?_, List.nodup_nil⟩
    rw [List.mem_singleton.mp member]
  rcases (resolveWithinCycles rooted descent (by simpa using keysWithinLimit d) {} rfl).2 chain
    failed with ⟨x, reached, styles⟩ | ⟨x, between, y, reached, reached', linked, key, named⟩
  · refine .inl ⟨x, reached, styles, fun told => ?_⟩
    obtain ⟨e, _, cache, cyclic⟩ := stylesCyclic styles
    exact resolveCyclic told cyclic
  · refine .inr ⟨x, between, y, reached, linked, named, key, ?_⟩
    by_cases same : x = y
    · subst same
      exact .inl ⟨rfl, chainLeads linked⟩
    · refine .inr ⟨same, ?_⟩
      by_contra neither
      obtain ⟨left, right⟩ := not_or.mp neither
      exact same (definitionUnique filled
        (namedRegistered filled (reachedIncluded rooted reached) (by simpa using left))
        (namedRegistered filled (reachedIncluded rooted reached') (by simpa using right)) key)

/- Each of the two needs the other for its state. -/
def pingFiles : List (String × String) := [
  ("Ping.ui.xml", "<Ping><Pong id=\"pong\" value=\"$value\"/></Ping>"),
  ("Pong.ui.xml", "<Pong><Ping id=\"ping\" value=\"$value\"/></Pong>")]

def cycleOf (result : Result Resolved) : Option String :=
  match result with
  | .error (.cyclicReference chain) => some chain
  | _ => none

theorem cycleOfSome {result : Result Resolved} {chain : String} (some : cycleOf result = some chain) :
    result = .error (.cyclicReference chain) := by
  unfold cycleOf at some
  split at some
  · cases some
    rfl
  · cases some

theorem pingCycle : ∃ x ∈ (ofTexts {} pingFiles).allDefinitions,
    TransGen (ofTexts {} pingFiles).DependsOn x x := by
  obtain ⟨readable, fails, plain⟩ : (pingFiles.all fun file => (reading file).isOk) = true ∧
      ((ofTexts {} pingFiles).definitions.any fun d =>
        cycleOf (((ofTexts {} pingFiles).resolve d).outcome {}).1 ==
          some "Ping -> Pong -> Ping") = true ∧
      ((ofTexts {} pingFiles).allDefinitions.all fun x =>
        !x.isAnonymous && ((ofTexts {} pingFiles).resolveProperties x).isOk) = true := by
    have read := readingsLetters pingFiles (.cons rfl (.cons rfl .nil))
    simp only [pingFiles, List.forall₂_cons] at read
    simp only [pingFiles, ofTexts, ofText, List.all_cons, List.foldl_cons, List.foldl_nil, read]
    decide +kernel
  have filled := ofTextsFilled {} readable
  obtain ⟨d, registered, failed⟩ := List.any_eq_true.mp fails
  have included : ∀ {x}, ReflTransGen (ofTexts {} pingFiles).DependsOn d x →
      x ∈ (ofTexts {} pingFiles).allDefinitions := reachedIncluded (definitionIncluded registered)
  rcases cyclicReferenceReal filled registered (cycleOfSome (eq_of_beq failed)) with
    ⟨x, reached, styles, _⟩ | ⟨x, between, y, reached, linked, _, _, ⟨rfl, real⟩ | ⟨_, inline⟩⟩
  · have holds := List.all_eq_true.mp plain x (included reached)
    simp [styles, Except.isOk, Except.toBool] at holds
  · exact ⟨x, included reached, real⟩
  · have named : ∀ z, ReflTransGen (ofTexts {} pingFiles).DependsOn d z → z.isAnonymous = false := by
      intro z reached
      have holds := List.all_eq_true.mp plain z (included reached)
      simp only [Bool.and_eq_true, Bool.not_eq_true'] at holds
      exact holds.1
    rw [named x reached, named y (reached.trans (chainLeads linked).to_reflTransGen)] at inline
    simp at inline

theorem rankedAcyclic (rank : ComponentDefinition → Nat)
    (falls : ∀ x ∈ r.allDefinitions, ∀ e ∈ x.elements, ∀ y, r.behind? e = some y → rank y < rank x)
    {x : ComponentDefinition} (member : x ∈ r.allDefinitions) : ¬ TransGen r.DependsOn x x := by
  have lower : ∀ {y}, TransGen r.DependsOn x y → rank y < rank x := by
    intro y depends
    induction depends with
    | single step =>
      obtain ⟨e, element, _, found⟩ := step
      exact falls x member e element _ found
    | @tail y z before step ih =>
      obtain ⟨e, element, _, found⟩ := step
      exact (falls y (reachedIncluded member before.to_reflTransGen) e element z found).trans ih
  exact fun cycle => Nat.lt_irrefl _ (lower cycle)

/- A row stands in a row of the same file. -/
def rowInRow : List (String × String) := [("Card.ui.xml", "<Card><Row id=\"outer\" a=\"1\">" ++
  "<Label numberOfLines=\"$a\"/><Row id=\"inner\" b=\"2\"><Label numberOfLines=\"$b\"/></Row>" ++
  "</Row></Card>")]

theorem rowsConfused : ∃ (r : Registry) (d : ComponentDefinition), r.Filled ∧ d ∈ r.definitions ∧
    ((r.resolve d).outcome {}).1 = .error (.cyclicReference "Row -> Row") ∧
    ∀ x ∈ r.allDefinitions, ¬ TransGen r.DependsOn x x := by
  obtain ⟨readable, fails, falls⟩ : (rowInRow.all fun file => (reading file).isOk) = true ∧
      ((ofTexts {} rowInRow).definitions.any fun d =>
        cycleOf (((ofTexts {} rowInRow).resolve d).outcome {}).1 == some "Row -> Row") = true ∧
      ((ofTexts {} rowInRow).allDefinitions.all fun x => x.elements.all fun e =>
        ((ofTexts {} rowInRow).behind? e).all fun y => y.nested.length < x.nested.length) =
          true := by
    have read := readingsLetters rowInRow
      (.cons (Text.lettersAppend (Text.lettersAppend rfl rfl) rfl) .nil)
    simp only [rowInRow, List.forall₂_cons] at read
    simp only [rowInRow, ofTexts, ofText, List.all_cons, List.foldl_cons, List.foldl_nil, read]
    decide +kernel
  obtain ⟨d, registered, failed⟩ := List.any_eq_true.mp fails
  refine ⟨_, d, ofTextsFilled {} readable, registered, cycleOfSome (eq_of_beq failed),
    fun x member => rankedAcyclic (·.nested.length) (fun x member e element y found => ?_) member⟩
  have holds := List.all_eq_true.mp (List.all_eq_true.mp falls x member) e element
  simpa [found] using holds

end ViewForge.Registry
