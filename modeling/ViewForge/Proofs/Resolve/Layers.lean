import ViewForge.Proofs.Element.Described
import ViewForge.Proofs.Resolve.Properties
import ViewForge.Proofs.Style.Calls

/-! What an element is set to, layer by layer. Every style in the list of an element is a layer over
the ones before it, and the element's own properties lie over all of them. Whatever is seen from
above is described by the kind of the element, as kinds differ only in what they add to views. -/
namespace ViewForge

namespace PropertyTable

theorem describeAllAppend (scope : List String) (xs ys : List TableEntry) :
    describeAll scope (xs ++ ys) = describeAll scope xs ++ describeAll scope ys := by
  induction xs with
  | nil => rfl
  | cons x rest ih => rw [List.cons_append, describeAll, describeAll, ih, List.append_assoc]

/- A description of another path replaces nothing that is found and stands behind it. -/
theorem insertKept {table : PropertyTable} {d e : PropertyDescription}
    {named : PropertyDescription → Bool} (found : List.find? named table = some d)
    (other : e.path ≠ d.path) : List.find? named (table.insert e) = some d := by
  obtain ⟨matching, before, after, rfl, none⟩ := List.find?_eq_some_iff_append.mp found
  have kept : (d.path != e.path) = true := bne_iff_ne.mpr other.symm
  refine List.find?_eq_some_iff_append.mpr
    ⟨matching, before.filter (·.path != e.path), after.filter (·.path != e.path) ++ [e], ?_,
      fun x member => none x (List.mem_filter.mp member).1⟩
  simp [insert, kept]

theorem foldKept {table : PropertyTable} {d : PropertyDescription}
    {named : PropertyDescription → Bool} {more : List PropertyDescription}
    (found : List.find? named table = some d) (others : ∀ e ∈ more, e.path ≠ d.path) :
    List.find? named (more.foldl insert table) = some d := by
  induction more generalizing table with
  | nil => exact found
  | cons e rest ih =>
    obtain ⟨first, later⟩ := List.forall_mem_cons.mp others
    exact ih (insertKept found first) later

end PropertyTable

namespace Widget

def added (w : Widget) : List TableEntry := w.entries.drop viewEntries.length

theorem tableAdded (w : Widget) :
    w.table = (PropertyTable.describeAll [] w.added).foldl PropertyTable.insert view.table := by
  have entries : w.entries = viewEntries ++ w.added := by cases w <;> rfl
  rw [table, entries, PropertyTable.build, PropertyTable.describeAllAppend, List.foldl_append]
  rfl

theorem addedApart {w : Widget} {d e : PropertyDescription} (member : d ∈ view.table)
    (more : e ∈ PropertyTable.describeAll [] w.added) : e.path ≠ d.path := by
  have apart : (all.all fun w => (PropertyTable.describeAll [] w.added).all fun e =>
      (PropertyTable.describeAll [] viewEntries).all (e.path != ·.path)) = true := by
    decide +kernel
  have listed : w ∈ all := by cases w <;> decide
  have each := List.all_eq_true.mp (List.all_eq_true.mp apart w listed) e more
  exact bne_iff_ne.mp (List.all_eq_true.mp each d (PropertyTable.memBuild member))

/- No kind declares again what it has from plain views, and plain views have nothing per state. -/
theorem viewDescribed (w : Widget) {p : Property} (described : view.table.Describes p) :
    w.table.Describes p := by
  have stateless : ((PropertyTable.describeAll [] viewEntries).all
      (·.setter.method?.isNone)) = true := by decide +kernel
  unfold PropertyTable.Describes PropertyTable.find? at described
  split at described
  · rename_i d known
    have others : ∀ e ∈ PropertyTable.describeAll [] w.added, e.path ≠ d.path := fun e more =>
      addedApart (List.mem_of_find?_eq_some known) more
    have again := PropertyTable.foldKept known others
    rw [← tableAdded w] at again
    unfold PropertyTable.Describes PropertyTable.find?
    rw [again]
    exact described
  · obtain ⟨_, _, described⟩ := Option.bind_eq_some_iff.mp described
    obtain ⟨_, _, described⟩ := Option.bind_eq_some_iff.mp described
    obtain ⟨d, known, _⟩ := Option.bind_eq_some_iff.mp described
    have matching := List.find?_some known
    have method := (Bool.and_eq_true_iff.mp matching).1
    have listed := PropertyTable.memBuild (List.mem_of_find?_eq_some known)
    rw [Option.isNone_iff_eq_none.mp (List.all_eq_true.mp stateless d listed)] at method
    cases method

end Widget

theorem StyleKind.acceptsDescribed {a b : StyleKind} (accepted : a.accepts b = true)
    {p : Property} (described : a.table.Describes p) : b.table.Describes p := by
  unfold accepts at accepted
  split at accepted
  · rename_i w
    exact w.viewDescribed described
  · rw [← eq_of_beq accepted]
    exact described

theorem Style.readDescribed {node : Markup.Node} {s : Style} (ok : read node = .ok s) :
    ∀ p ∈ s.properties, s.kind.table.Describes p := by
  intro p member
  obtain ⟨⟨attributes, properties⟩, _⟩ := readParts ok
  obtain ⟨_, key, raw, found⟩ := readPropertiesFound properties p member
  exact PropertyTable.propertyDescribed found

namespace StyleScope

variable {scope : StyleScope}

/- Components are seen as plain views, other elements as what they are. -/
theorem suitsDescribed {kind : StyleKind} {element : ElementKind}
    (suited : suits kind element = true) {p : Property} (described : kind.table.Describes p) :
    element.table.Describes p := by
  cases element with
  | component r =>
    rw [eq_of_beq suited] at described
    exact described
  | widget w => exact StyleKind.acceptsDescribed suited described

theorem lookupRead (read : scope.IsRead) {name : StyleName} {current : Option StyleGroup}
    (known : ∀ g, current = some g → g.IsRead) {n : Entry}
    (found : scope.lookup name current = .ok n) :
    n.1.IsRead ∧ ∃ node, Style.read node = .ok n.2 := by
  have whole : n.1.IsRead := by
    obtain ⟨_, ⟨_, here | own⟩ | ⟨group, _, held⟩⟩ := lookupFound found
    · exact known n.1 here
    · exact read.own n.1 own
    · exact read.groups group n.1 (Ordered.memOfLookup held)
  exact ⟨whole, whole n.2 (StyleGroup.foundName (lookupFound found).1).2⟩

/- The kind of a style describes what its bases set, since it is one that they serve. -/
theorem expansionDescribed (read : scope.IsRead) {n : Entry} (group : n.1.IsRead)
    (style : ∃ node, Style.read node = .ok n.2) (grounded : scope.Grounded n)
    {full : List Property} (expansion : scope.Expansion n full) :
    ∀ p ∈ full, n.2.kind.table.Describes p := by
  induction expansion with
  | @mk n full found bases ih =>
    obtain ⟨fits, below⟩ := grounded
    intro p member
    rcases List.mem_append.mp member with inherited | own
    · obtain ⟨base, listed, inside⟩ := List.mem_flatMap.mp inherited
      obtain ⟨m, step, accepted⟩ := fits base listed
      obtain ⟨groupRead, styleRead⟩ := lookupRead read (by rintro g ⟨⟩; exact group) step
      exact StyleKind.acceptsDescribed accepted (ih base listed m step groupRead styleRead
        (below m ⟨base, listed, step⟩) p inside)
    · obtain ⟨node, read⟩ := style
      exact Style.readDescribed read p own

theorem flattenedDescribed (read : scope.IsRead) {name : StyleName} {n : Entry}
    (found : scope.lookup name none = .ok n) {ps : List Property}
    (flat : scope.Flattened n ps) : ∀ p ∈ ps, n.2.kind.table.Describes p := by
  obtain ⟨group, style⟩ := lookupRead read (by simp) found
  obtain ⟨full, expansion, rfl⟩ := flat.expanded
  intro p member
  obtain ⟨before, after, split, _⟩ := lastOccurrencesSplit member
  exact expansionDescribed read group style flat.grounded expansion p (by rw [split]; simp)

section Resolver

/- A search that fails has kept only what was flattened before. -/
theorem flattenFromKeepsSound (keyed : scope.Keyed) {fuel : Nat} {visiting : List String}
    {name : StyleName} {current : Option StyleGroup} (known : scope.HoldsCurrent current) :
    Task.Keeps scope.Sound (fun _ => True) (scope.flattenFrom fuel visiting name current) := by
  induction fuel generalizing visiting name current with
  | zero => exact Task.keepsThrow _
  | succ fuel ih =>
    cases found : scope.lookup name current with
    | error e =>
      rw [flattenFrom, found]
      exact Task.keepsThrow e
    | ok n =>
      intro cache sound
      refine ⟨?_, fun _ _ => trivial⟩
      cases run : (scope.flattenFrom (fuel + 1) visiting name current).outcome cache with
      | mk result next =>
        cases result with
        | ok ps =>
          obtain ⟨_, _, _, kept⟩ := keyedSound keyed known sound run
          exact kept
        | error e =>
          have registered := lookupRegistered keyed.named known found
          have bases : Task.Keeps scope.Sound (fun _ => True)
              (n.2.extend.foldlM (scope.mergeBase fuel visiting n) []) := by
            refine Task.keepsFold (fun base _ merged _ => ?_) trivial
            unfold mergeBase
            refine Task.keepsLiftBind fun m => ?_
            dsimp only
            split
            · exact Task.keepsThrow _
            · exact Task.keepsBind (ih (registeredSelf registered)) fun _ _ =>
                Task.keepsPure trivial
          by_cases visited : qualifiedName n ∈ visiting
          · rw [flattenFromStep scope fuel visiting found, if_pos (by simpa using visited)] at run
            cases run
            exact sound
          · cases kept : cache.lookup (n.1.name, n.2.name) with
            | some ps =>
              rw [flattenFromKnown found visited kept] at run
              cases run
            | none =>
              rw [flattenFromUnknown found visited kept] at run
              have kept := (bases cache sound).1
              rw [Task.outcomeBind] at run
              cases all :
                (n.2.extend.foldlM (scope.mergeBase fuel visiting n) []).outcome cache with
              | mk merged between =>
                rw [all] at run kept
                cases merged with
                | error _ =>
                  cases run
                  exact kept
                | ok inherited => cases run

theorem callKeepsSound (keyed : scope.Keyed) {c : StyleCall} (holds : scope.CallHolds c) :
    Task.Keeps scope.Sound (fun _ => True) (scope.call c) := by
  cases c with
  | flatten name current => exact flattenFromKeepsSound keyed (holds name current rfl)
  | resolve e =>
    refine Task.keepsBind (P := fun _ => True) ?_ fun _ _ => Task.keepsPure trivial
    refine Task.keepsFold (fun name _ merged _ => ?_) trivial
    refine Task.keepsLiftBind fun n => ?_
    dsimp only
    split
    · exact Task.keepsThrow _
    · exact Task.keepsBind (flattenFromKeepsSound keyed holdsNone) fun _ _ =>
        Task.keepsPure trivial

/-- What a resolver may have kept: nothing yet, or what its earlier calls have left, whether they
succeeded or not. -/
inductive Reached (scope : StyleScope) : StyleCache → Prop where
  | fresh : Reached scope []
  | later {cache : StyleCache} (c : StyleCall) (holds : scope.CallHolds c)
      (before : Reached scope cache) : Reached scope ((scope.call c).outcome cache).2

theorem reachedSound (keyed : scope.Keyed) {cache : StyleCache} (reached : scope.Reached cache) :
    scope.Sound cache := by
  induction reached with
  | fresh => exact soundEmpty scope
  | later c holds _ sound => exact (callKeepsSound keyed holds _ sound).1

end Resolver

def Layer (scope : StyleScope) (element : ElementKind) (name : StyleName) (ps : List Property) :
    Prop :=
  ∃ n, scope.lookup name none = .ok n ∧ suits n.2.kind element = true ∧ scope.Flattened n ps

def mergeStyle (scope : StyleScope) (element : ElementKind) (merged : List Property)
    (name : StyleName) : Task StyleCache (List Property) := do
  let (_, style) ← scope.lookup name none
  if !suits style.kind element then
    throw (.styleTypeMismatch name.display style.kind.tag element.tag)
  return mergeAll merged (← scope.flatten name none)

theorem layersStacked (coherent : scope.Coherent) {element : ElementKind} {names : List StyleName}
    (before : List Property) {styled : List Property} {cache next : StyleCache}
    (sound : scope.Sound cache)
    (ok : (names.foldlM (scope.mergeStyle element) (lastOccurrences before)).outcome cache =
      (.ok styled, next)) :
    ∃ layers, List.Forall₂ (scope.Layer element) names layers ∧
      styled = lastOccurrences (before ++ layers.flatten) := by
  induction names generalizing before cache with
  | nil =>
    cases ok
    exact ⟨[], .nil, by simp⟩
  | cons name rest ih =>
    obtain ⟨merged, between, first, others⟩ := Task.foldlGives.mp ok
    unfold mergeStyle at first
    obtain ⟨n, found, first⟩ := Task.liftBindGives first
    simp only at first
    split at first
    · cases first
    · rename_i suited
      obtain ⟨ps, between, flat, last⟩ := Task.bindGives.mp first
      cases last
      obtain ⟨m, again, flattened, sound⟩ := flattenFromSound coherent holdsNone sound flat
      cases Except.ok.inj (found.symm.trans again)
      rw [mergeAllLast] at others
      obtain ⟨layers, each, rfl⟩ := ih _ sound others
      refine ⟨ps :: layers, .cons ⟨n, found, by simpa using suited, flattened⟩ each, ?_⟩
      rw [List.flatten_cons, List.append_assoc]

def uncovered (ps others : List Property) : List Property :=
  ps.filter fun p => !others.any (·.key == p.key)

theorem lastOccurrencesCovered (xs : List Property) {ys : List Property}
    (distinct : (ys.map Property.key).Nodup) :
    lastOccurrences (xs ++ ys) = uncovered (lastOccurrences xs) ys ++ ys := by
  induction xs with
  | nil => simp [lastOccurrences, uncovered, lastOccurrencesOfNodup distinct]
  | cons x xs ih =>
    rw [List.cons_append, lastOccurrences, lastOccurrences, List.any_append, ih]
    by_cases later : xs.any (·.key == x.key) = true
    · rw [if_pos later, if_pos (by rw [later]; rfl)]
    · by_cases covered : ys.any (·.key == x.key) = true <;> simp [later, covered, uncovered]

structure Stacked (scope : StyleScope) (e : Element) (attributes : List (String × String))
    (layers : List (List Property)) (ps : List Property) : Prop where
  each : List.Forall₂ (scope.Layer e.kind) e.styles layers
  stacked : ps = uncovered (lastOccurrences layers.flatten) e.properties ++ e.properties
  order : (e.properties.map Property.key).Sublist (attributes.map Prod.fst)
  once : (ps.map Property.key).Nodup
  all : ∀ key, key ∈ ps.map Property.key ↔
    (∃ layer ∈ layers, key ∈ layer.map Property.key) ∨ key ∈ e.properties.map Property.key
  last : ∀ p ∈ uncovered (lastOccurrences layers.flatten) e.properties,
    p.key ∉ e.properties.map Property.key ∧ ∃ below layer above,
      layers = below ++ layer :: above ∧ p ∈ layer ∧ ∀ other ∈ above, ∀ q ∈ other, q.key ≠ p.key
  described : ∀ p ∈ ps, e.kind.table.Describes p

theorem lastLayer {layers : List (List Property)} {p : Property}
    (kept : p ∈ lastOccurrences layers.flatten) : ∃ below layer above,
      layers = below ++ layer :: above ∧ p ∈ layer ∧
        ∀ other ∈ above, ∀ q ∈ other, q.key ≠ p.key := by
  induction layers with
  | nil => simp [lastOccurrences] at kept
  | cons first rest ih =>
    by_cases later : p.key ∈ rest.flatten.map Property.key
    · have inside : p ∈ lastOccurrences rest.flatten := by
        obtain ⟨before, split⟩ := lastOccurrencesSuffix first rest.flatten
        have keys := lastOccurrencesNodup (first ++ rest.flatten)
        rw [List.flatten_cons, ← split] at kept
        rw [← split, List.map_append] at keys
        refine (List.mem_append.mp kept).resolve_left fun early => ?_
        exact (List.nodup_append.mp keys).2.2 p.key (List.mem_map_of_mem early) p.key
          ((lastOccurrencesKeys _ _).mpr later) rfl
      obtain ⟨below, layer, above, rfl, member, none⟩ := ih inside
      exact ⟨first :: below, layer, above, rfl, member, none⟩
    · refine ⟨[], first, rest, rfl, ?_, fun other listed q member same => ?_⟩
      · obtain ⟨before, after, split, _⟩ := lastOccurrencesSplit kept
        have member : p ∈ first ++ rest.flatten := by
          rw [← List.flatten_cons, split]
          simp
        refine (List.mem_append.mp member).resolve_right fun inside => ?_
        exact later (List.mem_map_of_mem inside)
      · exact later (List.mem_map.mpr ⟨q, List.mem_flatten.mpr ⟨other, listed, member⟩, same⟩)

theorem layersDescribed (read : scope.IsRead) {element : ElementKind} {names : List StyleName}
    {layers : List (List Property)}
    (each : List.Forall₂ (scope.Layer element) names layers) :
    ∀ p ∈ layers.flatten, element.table.Describes p := by
  intro p member
  obtain ⟨layer, listed, inside⟩ := List.mem_flatten.mp member
  obtain ⟨name, _, n, found, suited, flat⟩ := forallRight each listed
  exact suitsDescribed suited (flattenedDescribed read found flat p inside)

theorem resolveStacked (read : scope.IsRead) (coherent : scope.Coherent)
    {attributes : List (String × String)} {e : Element}
    (given : Element.Deserialized attributes e) {cache next : StyleCache}
    (reached : scope.Reached cache) {ps : List Property}
    (ok : (scope.resolve e).outcome cache = (.ok ps, next)) :
    ∃ layers, scope.Stacked e attributes layers ps := by
  have written := Element.deserializedWritten given
  unfold resolve at ok
  obtain ⟨styled, between, styles, last⟩ := Task.bindGives.mp ok
  cases last
  obtain ⟨layers, each, rfl⟩ := layersStacked coherent []
    (reachedSound (coherentKeyed coherent) reached) styles
  rw [List.nil_append, mergeAllLast]
  have split := lastOccurrencesCovered layers.flatten written.tidy.keys
  refine ⟨layers, each, split, written.order, lastOccurrencesNodup _, fun key => ?_, ?_, ?_⟩
  · rw [lastOccurrencesKeys, List.map_append, List.mem_append, List.map_flatten, List.mem_flatten]
    simp
  · intro p member
    obtain ⟨kept, free⟩ := List.mem_filter.mp member
    refine ⟨fun own => ?_, lastLayer kept⟩
    obtain ⟨q, inside, same⟩ := List.mem_map.mp own
    have covers : (e.properties.any fun q => q.key == p.key) = true :=
      List.any_eq_true.mpr ⟨q, inside, beq_iff_eq.mpr same⟩
    rw [covers] at free
    cases free
  · intro p member
    obtain ⟨before, after, whole, _⟩ := lastOccurrencesSplit member
    have inside : p ∈ layers.flatten ++ e.properties := by
      rw [whole]
      simp
    exact (List.mem_append.mp inside).elim (layersDescribed read each p) (written.described p)

section Title

def faintSheet : Markup.Node :=
  { name := "styleGroup", attributes := [("name", "General")], children := [
      { name := "ViewStyle", attributes := [("name", "faint"), ("alpha", "0.5"), ("tag", "1")] }] }

def bodySheet : Markup.Node :=
  { name := "styleGroup", attributes := [("name", "Page")], children := [
      { name := "LabelStyle",
        attributes := [("name", "body"), ("extend", ":General:faint"), ("numberOfLines", "0")] },
      { name := "ViewStyle", attributes := [("name", "clear"), ("alpha", "1")] }] }

def sheetGroup (node : Markup.Node) : StyleGroup :=
  (StyleGroup.read node none).toOption.getD { name := "" }

def pageScope : StyleScope :=
  { groups := [("General", sheetGroup faintSheet)], own := some (sheetGroup bodySheet) }

def titleNode : Markup.Node :=
  { name := "Label",
    attributes := [("numberOfLines", "2"), ("style", "body clear"), ("text", "Hi")] }

def titleRead : Result Element × ReadState :=
  (Element.read titleNode).outcome { platform := .iOS, path := "Page.ui.xml" }

def title : Element := titleRead.1.toOption.getD (Element.bare (.widget .view) Element.rootId)

def titleCache : StyleCache := ((pageScope.call (.resolve title)).outcome []).2

theorem pageRead : pageScope.IsRead where
  groups name g member := by
    obtain ⟨rfl, rfl⟩ := Prod.mk.inj (List.mem_singleton.mp member)
    exact StyleGroup.readRead (Result.okGetD (by decide +kernel) _)
  own g same := by
    cases same
    exact StyleGroup.readRead (Result.okGetD (by decide +kernel) _)

theorem pageCoherent : pageScope.Coherent where
  named name g found := by
    obtain ⟨rfl, rfl⟩ := Prod.mk.inj (List.mem_singleton.mp (Ordered.memOfLookup found))
    decide +kernel
  apart g same := by
    cases same
    exact Option.isNone_iff_eq_none.mp (by decide +kernel)

theorem titleComputed :
    (((pageScope.resolve title).outcome titleCache).1.map (·.map Property.key)) =
      .ok ["tag", "alpha", "numberOfLines", "text"] ∧ titleRead.1.isOk = true ∧
    (titleNode.attributes.map Prod.fst).Nodup := by decide +kernel

theorem titleStacked : Element.Deserialized titleNode.attributes title ∧ pageScope.IsRead ∧
    pageScope.Coherent ∧ pageScope.Reached titleCache ∧
    ∃ layers ps, pageScope.Stacked title titleNode.attributes layers ps ∧
      ps.map Property.key = ["tag", "alpha", "numberOfLines", "text"] := by
  obtain ⟨keys, read, distinct⟩ := titleComputed
  have tidy : titleNode.Tidy := .mk distinct (by simp [titleNode])
  have given : Element.Deserialized titleNode.attributes title :=
    .element tidy (Prod.ext (Result.okGetD read _) rfl)
  have reached : pageScope.Reached titleCache := .later _ (by rintro _ _ ⟨⟩) .fresh
  obtain ⟨ps, ok, listed⟩ := Result.mapOk.mp keys
  obtain ⟨layers, stacked⟩ := resolveStacked pageRead pageCoherent given reached (Prod.ext ok rfl)
  exact ⟨given, pageRead, pageCoherent, reached, layers, ps, stacked, listed⟩

end Title

end StyleScope

/- Whatever is registered has been read of documents, element by element. -/
theorem Registry.elementsDeserialized {r : Registry} (filled : r.Filled)
    {d : ComponentDefinition} (member : d ∈ r.allDefinitions) :
    Element.AllDeserialized d.elements := by
  obtain ⟨outer, registered, inside⟩ := List.mem_flatMap.mp member
  obtain ⟨⟨name, ds⟩, entry, listed⟩ := List.mem_flatMap.mp registered
  obtain ⟨path, text, warnings, _, read⟩ := (componentsOfType filled entry).read outer listed
  unfold Compilation.readComponent at read
  split at read
  · cases read
  · rename_i node parsed
    exact ComponentDefinition.readDeserialized (Markup.parseTidy parsed)
      (Prod.ext (Prod.mk.inj read).1 rfl) d inside

end ViewForge
