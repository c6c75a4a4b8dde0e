import ViewForge.Proofs.Resolve.Argument
import ViewForge.Proofs.Resolver

/-! Where a document reads state, and the state items that are made of it. Every reading belongs to
the item of its variable, in the order of the document, and the items have no others. -/
namespace ViewForge

abbrev Reading := String × StateApplication

namespace Element

def propertyReadings (id : String) (ps : List Property) : List Reading :=
  ps.filterMap fun p => p.state?.map fun v => (v, ⟨id, .property p, p.description.type⟩)

def argumentReadings (id : String) (child : Resolved) (arguments : List (String × String)) :
    List Reading :=
  arguments.filterMap fun a => (stateReference? a.2).bind fun v =>
    (child.stateItem? a.1).map fun item => (v, ⟨id, .componentState a.1, item.type⟩)

def readings (child? : Element → Option Resolved) (e : Element) : List Reading :=
  propertyReadings e.id.name e.properties ++
    (child? e).elim [] fun child => argumentReadings e.id.name child e.arguments

end Element

def ComponentDefinition.readings (d : ComponentDefinition)
    (child? : Element → Option Resolved) : List Reading :=
  d.elements.flatMap (Element.readings child?)

namespace StateItem

def pushAll (uses : Uses) (more : List Reading) : Uses :=
  more.foldl (fun all reading => Ordered.push reading.1 reading.2 all) uses

theorem pushAllAppend (uses : Uses) (left right : List Reading) :
    pushAll uses (left ++ right) = pushAll (pushAll uses left) right := List.foldl_append

theorem lookupPushAll (uses : Uses) (more : List Reading) (name : String) :
    ((pushAll uses more).lookup name).getD [] =
      (uses.lookup name).getD [] ++ (more.filter (·.1 = name)).map Prod.snd := by
  induction more generalizing uses with
  | nil => simp [pushAll]
  | cons reading rest ih =>
    obtain ⟨v, a⟩ := reading
    rw [pushAll, List.foldl_cons, ← pushAll, ih]
    by_cases same : name = v
    · subst same
      rw [Ordered.lookupPushSelf, List.filter_cons_of_pos (by simp)]
      simp
    · rw [Ordered.lookupPushOther same, List.filter_cons_of_neg (by simpa using Ne.symm same)]

theorem nodupPushAll {uses : Uses} (distinct : (uses.map Prod.fst).Nodup)
    (more : List Reading) : ((pushAll uses more).map Prod.fst).Nodup := by
  induction more generalizing uses with
  | nil => exact distinct
  | cons reading rest ih => exact ih (Ordered.nodupPush distinct)

theorem propertyUsesPushed (id : String) (uses : Uses) (ps : List Property) :
    propertyUses id uses ps = pushAll uses (Element.propertyReadings id ps) := by
  induction ps generalizing uses with
  | nil => rfl
  | cons p rest ih =>
    rw [propertyUses]
    cases bound : p.state? with
    | none => simp [ih, bound, Element.propertyReadings]
    | some v => simp [ih, bound, Element.propertyReadings, pushAll]

theorem argumentUsesPushed {id typeName : String} {child : Resolved} {uses found : Uses}
    {arguments : List (String × String)}
    (ok : argumentUses id typeName child uses arguments = .ok found) :
    found = pushAll uses (Element.argumentReadings id child arguments) := by
  induction arguments generalizing uses with
  | nil =>
    cases ok
    rfl
  | cons argument rest ih =>
    obtain ⟨name, raw⟩ := argument
    rw [argumentUses] at ok
    split at ok
    · cases ok
    · rename_i item listed
      split at ok
      · rename_i v refers
        rw [ih ok]
        simp [Element.argumentReadings, refers, listed, pushAll]
      · rename_i literal
        obtain ⟨_, _, ok⟩ := Result.bindOk.mp ok
        rw [ih ok]
        simp [Element.argumentReadings, literal]

section Elements

variable {oracle : Element → Result Resolved} {uses found : Uses} {s t : ResolverState}

theorem elementUsesPushed {e : Element}
    (ok : (elementUses (fun e => liftM (oracle e)) uses e).outcome s = (.ok found, t)) :
    found = pushAll uses (e.readings fun e => (oracle e).toOption) := by
  unfold elementUses at ok
  rw [Element.readings, pushAllAppend, ← propertyUsesPushed]
  have none : e.arguments = [] → found = propertyUses e.id.name uses e.properties →
      found = pushAll (propertyUses e.id.name uses e.properties)
        ((oracle e).toOption.elim [] fun child =>
          Element.argumentReadings e.id.name child e.arguments) := by
    intro nothing same
    rw [nothing, same]
    cases (oracle e).toOption <;> rfl
  cases refers : e.kind.reference? with
  | none =>
    simp only [refers] at ok
    cases ok
    exact none (by simp [Element.arguments, refers]) rfl
  | some reference =>
    have own : e.arguments = reference.arguments := by simp [Element.arguments, refers]
    simp only [refers] at ok
    split at ok
    · rename_i nothing
      cases ok
      exact none (own.trans (List.isEmpty_iff.mp nothing)) rfl
    · obtain ⟨child, answered, last⟩ := Task.liftBindGives ok
      rw [argumentUsesPushed (Task.liftGives last).1, answered, own]
      rfl

theorem usesPushed {es : List Element}
    (ok : (es.foldlM (elementUses (fun e => liftM (oracle e))) uses).outcome s = (.ok found, t)) :
    found = pushAll uses (es.flatMap (Element.readings fun e => (oracle e).toOption)) := by
  induction es generalizing uses s with
  | nil =>
    cases ok
    rfl
  | cons e rest ih =>
    obtain ⟨between, u, first, others⟩ := Task.foldlGives.mp ok
    rw [ih others, elementUsesPushed first, List.flatMap_cons, pushAllAppend]

end Elements

theorem typedDefaultTyped {type : ValueType} {declared : Option Value}
    (typed : ∀ value, declared = some value → value.type = type) :
    (typedDefault type declared).2.type = (typedDefault type declared).1 := by
  unfold typedDefault
  cases declared with
  | some value => exact typed value rfl
  | none =>
    cases given : type.default? with
    | some value => exact ValueType.defaultTyped given
    | none => rfl

theorem inferredTyped {use : String × List StateApplication} {item : StateItem}
    (ok : inferred use = .ok (some item)) : item.default.type = item.type := by
  obtain ⟨name, applications⟩ := use
  cases applications with
  | nil => cases ok
  | cons first rest =>
    rw [inferred] at ok
    obtain ⟨unified, _, last⟩ := Result.bindOk.mp ok
    cases last
    exact @typedDefaultTyped unified none (by simp)

theorem itemsTyped {d : ComponentDefinition} (tidy : d.Tidy) {uses others : Uses}
    {found : List (Option StateItem)}
    (each : List.Forall₂ (fun use item => inferred use = .ok item) others found) :
    ∀ item ∈ d.state.items.map (declared uses) ++ found.reduceOption,
      item.default.type = item.type := by
  intro item member
  rcases List.mem_append.mp member with explicit | implicit
  · obtain ⟨declaration, inside, rfl⟩ := List.mem_map.mp explicit
    exact typedDefaultTyped (tidy.defaults declaration inside)
  · obtain ⟨use, _, ok⟩ := forallRight each (List.reduceOption_mem_iff.mp implicit)
    exact inferredTyped ok

end StateItem

def StateApplication.place (a : StateApplication) : String × (String ⊕ String) :=
  (a.element, match a.target with
    | .property p => .inl p.key
    | .componentState name => .inr name)

theorem filterMapSublist {α β γ : Type} {f : α → Option β} {label : β → γ} {original : α → γ}
    (same : ∀ a b, f a = some b → label b = original a) (as : List α) :
    List.Sublist ((as.filterMap f).map label) (as.map original) := by
  induction as with
  | nil => exact .slnil
  | cons a rest ih =>
    cases found : f a with
    | none =>
      rw [List.filterMap_cons_none found]
      exact ih.cons _
    | some b =>
      rw [List.filterMap_cons_some found, List.map_cons, List.map_cons, same a b found]
      exact ih.cons_cons _

namespace Element

variable {e : Element}

theorem propertyPlaces (id : String) (ps : List Property) :
    List.Sublist ((propertyReadings id ps).map (·.2.place))
      ((ps.map Property.key).map fun key => (id, .inl key)) := by
  rw [List.map_map]
  refine filterMapSublist (fun p reading found => ?_) ps
  obtain ⟨v, _, rfl⟩ := Option.map_eq_some_iff.mp found
  rfl

theorem argumentPlaces (id : String) (child : Resolved) (arguments : List (String × String)) :
    List.Sublist ((argumentReadings id child arguments).map (·.2.place))
      ((arguments.map Prod.fst).map fun name => (id, .inr name)) := by
  rw [List.map_map]
  refine filterMapSublist (fun a reading found => ?_) arguments
  obtain ⟨v, _, found⟩ := Option.bind_eq_some_iff.mp found
  obtain ⟨item, _, rfl⟩ := Option.map_eq_some_iff.mp found
  rfl

theorem readingPlaces (child? : Element → Option Resolved) :
    List.Sublist ((e.readings child?).map (·.2.place))
      ((e.properties.map Property.key).map (fun key => (e.id.name, .inl key)) ++
        (e.arguments.map Prod.fst).map fun name => (e.id.name, .inr name)) := by
  rw [readings, List.map_append]
  refine (propertyPlaces _ _).append ?_
  cases child? e with
  | none => exact List.nil_sublist _
  | some child => exact argumentPlaces _ child _

theorem readingElement {child? : Element → Option Resolved} {place : String × (String ⊕ String)}
    (member : place ∈ (e.readings child?).map (·.2.place)) : place.1 = e.id.name := by
  rcases List.mem_append.mp ((readingPlaces child?).subset member) with own | given
  · obtain ⟨_, _, rfl⟩ := List.mem_map.mp own
    rfl
  · obtain ⟨_, _, rfl⟩ := List.mem_map.mp given
    rfl

theorem readingsDistinct (tidy : e.Tidy) (child? : Element → Option Resolved) :
    ((e.readings child?).map (·.2.place)).Nodup := by
  refine List.Nodup.sublist (readingPlaces child?) (List.nodup_append.mpr ⟨?_, ?_, ?_⟩)
  · exact tidy.keys.map fun _ _ same => Sum.inl.inj (Prod.mk.inj same).2
  · exact tidy.arguments.map fun _ _ same => Sum.inr.inj (Prod.mk.inj same).2
  · intro left own right given same
    obtain ⟨_, _, rfl⟩ := List.mem_map.mp own
    obtain ⟨_, _, rfl⟩ := List.mem_map.mp given
    cases (Prod.mk.inj same).2

end Element

/- Ids do not repeat in the component, nor keys and arguments at an element. -/
theorem ComponentDefinition.readingsDistinct {d : ComponentDefinition} (tidy : d.Tidy)
    (child? : Element → Option Resolved) : ((d.readings child?).map (·.2.place)).Nodup := by
  rw [readings, List.map_flatMap]
  refine List.nodup_flatMap.mpr ⟨fun e member => ?_, ?_⟩
  · exact Element.readingsDistinct (tidy.elements e member) child?
  · refine (List.pairwise_map.mp tidy.ids).imp fun apart => ?_
    intro place left right
    exact apart ((Element.readingElement left).symm.trans (Element.readingElement right))

/-- The state items of a component against the readings in its document, where `child?` is what the
components behind its elements come to. -/
structure Resolved.Infers (r : Registry) (d : ComponentDefinition) (res : Resolved)
    (child? : Element → Option Resolved) : Prop where
  names : (res.state.map (·.name)).Nodup
  children : ∀ e ∈ d.elements, e.arguments ≠ [] → ∃ inner child, r.behind? e = some inner ∧
    r.Derivation inner child ∧ child? e = some child ∧
    (∀ t other, r.Used t → ((r.resolve inner).outcome t).1 = .ok other → other = child) ∧
    ∀ a ∈ e.arguments, (child.stateItem? a.1).isSome = true
  applications : ∀ item ∈ res.state,
    item.applications = ((d.readings child?).filter (·.1 = item.name)).map Prod.snd
  gathered : (res.state.flatMap fun item => item.applications.map fun a => (item.name, a)).Perm
    (d.readings child?)
  once : ((res.state.flatMap (·.applications)).map StateApplication.place).Nodup
  defaults : ∀ item ∈ res.state, item.default.type = item.type

namespace StateItem

/- Names do not repeat, so that the items share the readings out. -/
theorem readingsShared {items : List StateItem} {readings : List Reading}
    (names : (items.map (·.name)).Nodup)
    (applications : ∀ item ∈ items,
      item.applications = (readings.filter (·.1 = item.name)).map Prod.snd)
    (covers : ∀ reading ∈ readings, ∃ item ∈ items, item.name = reading.1) :
    (items.flatMap fun item => item.applications.map fun a => (item.name, a)).Perm readings := by
  have each : ∀ item ∈ items, (item.applications.map fun a => (item.name, a)) =
      readings.filter (·.1 = item.name) := by
    intro item member
    rw [applications item member, List.map_map]
    conv_rhs => rw [← List.map_id (readings.filter (·.1 = item.name))]
    refine List.map_congr_left fun reading inside => ?_
    have same := of_decide_eq_true (List.mem_filter.mp inside).2
    simp [← same]
  have all : readings.filter (·.1 ∈ items.map (·.name)) = readings := by
    refine List.filter_eq_self.mpr fun reading member => ?_
    obtain ⟨item, inside, same⟩ := covers reading member
    simpa using ⟨item, inside, same⟩
  have perm := groupsPerm Prod.fst readings names
  rw [all, List.flatMap_map] at perm
  rwa [List.flatMap_congr each]

end StateItem

namespace Registry

variable {r : Registry} {d : ComponentDefinition} {res : Resolved} {s t : ResolverState}

theorem derivationInfers (filled : r.Filled) (member : d ∈ r.allDefinitions)
    (derivation : r.Derivation d res) : ∃ child?, res.Infers r d child? := by
  have tidy := allDefinitionsTidy filled member
  have passes := derivationPasses derivation
  have complete := (derivationDescribes filled member derivation).items
  obtain ⟨oracle, next, behind, children, described⟩ := derivation
  have run := describeLifted r oracle d {}
  rw [described] at run
  unfold describe at run
  obtain ⟨properties, _, run⟩ := Task.liftBindGives run
  obtain ⟨state, s₁, states, run⟩ := Task.bindGives.mp run
  obtain ⟨actions, s₂, _, last⟩ := Task.bindGives.mp run
  cases last
  unfold StateItem.resolveAll at states
  obtain ⟨uses, s₃, folded, states⟩ := Task.bindGives.mp states
  obtain ⟨found, implicit, last⟩ := Task.liftBindGives states
  cases last
  have each := Result.mapMOk implicit
  have read := StateItem.usesPushed folded
  have start : (([] : StateItem.Uses).map Prod.fst).Nodup := List.nodup_nil
  have distinct : (uses.map Prod.fst).Nodup := by
    rw [read]
    exact StateItem.nodupPushAll start _
  have looked : ∀ name, (uses.lookup name).getD [] =
      ((d.readings fun e => (oracle e).toOption).filter (·.1 = name)).map Prod.snd := by
    intro name
    rw [read, StateItem.lookupPushAll]
    rfl
  have applications : ∀ item ∈ d.state.items.map (StateItem.declared uses) ++ found.reduceOption,
      item.applications =
        ((d.readings fun e => (oracle e).toOption).filter (·.1 = item.name)).map Prod.snd := by
    intro item inside
    rw [StateItem.itemApplications distinct each inside, looked]
  have gathered := StateItem.readingsShared complete.distinct applications fun reading inside => by
    refine StateItem.itemListed each ?_
    rw [looked]
    exact List.ne_nil_of_mem (List.mem_map_of_mem (List.mem_filter.mpr ⟨inside, by simp⟩))
  refine ⟨fun e => (oracle e).toOption, complete.distinct, ?_, applications, gathered, ?_,
    StateItem.itemsTyped tidy each⟩
  · intro e inside given
    obtain ⟨_, _, _, _, step⟩ := Task.foldlGivesEach folded inside
    obtain ⟨child, answered, accepts⟩ := (StateItem.elementUsesPass step).2 given
    have needs := Element.argumentsNeed given
    have derived := children e inside needs child answered
    refine ⟨next e, child, behind e inside needs, derived, by simp [answered, Except.toOption],
      fun t other used ok => ?_, fun a listed => ?_⟩
    · have again := resolveSound filled (behindIncluded member inside (behind e inside needs))
        (usedKeeping filled used) ok
      exact derivationUnique again derived
    · obtain ⟨item, found, _⟩ := accepts a listed
      simp [found]
  · have places := (gathered.map (·.2.place)).nodup_iff.mpr
      (ComponentDefinition.readingsDistinct tidy _)
    simpa [List.map_flatMap, Function.comp_def] using places

theorem stateInferred (filled : r.Filled) (member : d ∈ r.allDefinitions) (used : r.Used s)
    (ok : (r.resolve d).outcome s = (.ok res, t)) : ∃ child?, res.Infers r d child? :=
  derivationInfers filled member
    (resolveSound filled member (usedKeeping filled used) (congrArg Prod.fst ok))

/- The title is declared and read three times, once as an argument; the other two are inferred, and
a font has no default, so that one of them is optional. -/
def captionFile : String × String :=
  ("Badge", "<Badge><state><item name=\"caption\" type=\"String\"/></state></Badge>")

def profileFile : String × String :=
  ("Profile", "<Profile><state><item name=\"title\" type=\"String\" default=\"Me\"/></state>" ++
    "<Label id=\"a\" text=\"$title\" font=\"$face\"/>" ++
    "<Badge id=\"b\" caption=\"$title\" alpha=\"$fade\"/>" ++
    "<Label id=\"c\" text=\"$title\"/></Profile>")

def profile : Registry := ofTexts {} [captionFile, profileFile]

def profileResolved : Result Resolved × ResolverState :=
  (profile.resolve (ofText profileFile)).outcome {}

theorem profileComputed : ([captionFile, profileFile].all fun file => (reading file).isOk) = true ∧
    profileResolved.1.isOk = true ∧
    (profileResolved.1.toOption.any fun res =>
      decide (res.state.map (fun item => (item.name, item.type, item.applications.map (·.element))) =
        [("title", .string, ["a", "b", "c"]), ("face", .optional .font, ["a"]),
          ("fade", .float, ["b"])])) = true := by
  have caption : reading captionFile = _ := readingLetters rfl
  have own : reading profileFile = _ := readingLetters
    (Text.lettersAppend (Text.lettersAppend (Text.lettersAppend rfl rfl) rfl) rfl)
  simp only [profileResolved, profile, ofTexts, ofText, List.all_cons, List.foldl_cons,
    List.foldl_nil, caption, own]
  decide +kernel

theorem profileInferred : ∃ res t, profileResolved = (.ok res, t) ∧
    (∃ child?, res.Infers profile (ofText profileFile) child?) ∧
    res.state.map (fun item => (item.name, item.type, item.applications.map (·.element))) =
      [("title", .string, ["a", "b", "c"]), ("face", .optional .font, ["a"]),
        ("fade", .float, ["b"])] := by
  obtain ⟨readable, resolved, listed⟩ := profileComputed
  obtain ⟨res, t, ok⟩ := Result.okGives resolved
  rw [ok] at listed
  refine ⟨res, t, ok, ?_, of_decide_eq_true listed⟩
  exact stateInferred (ofTextsFilled {} readable)
    (definitionIncluded (lastRegistered {} [captionFile] profileFile)) .fresh ok

end Registry

end ViewForge
