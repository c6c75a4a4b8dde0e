import ViewForge.Proofs.Registry
import ViewForge.Proofs.Style.Expansion

/-! Flattening against the expansion of styles. The cache holds what the expansion gives, so that an
answer from it and an answer that is worked out are the same; a way without repetition is never
longer than there are styles, so that the search ends by itself. -/
open Relation (ReflTransGen TransGen)
namespace ViewForge

theorem StyleGroup.foundName {g : StyleGroup} {name : String} {s : Style}
    (found : g.find? name = some s) : s.name = name ∧ s ∈ g.styles :=
  ⟨by simpa using List.find?_some found, List.mem_of_find?_eq_some found⟩

namespace StyleScope

structure Coherent (scope : StyleScope) : Prop where
  named : ∀ name g, scope.groups.lookup name = some g → g.name = name
  apart : ∀ g, scope.own = some g → scope.groups.lookup g.name = none

def Holds (scope : StyleScope) (g : StyleGroup) : Prop :=
  scope.groups.lookup g.name = some g ∨ scope.own = some g

structure Registered (scope : StyleScope) (n : Entry) : Prop where
  group : scope.Holds n.1
  style : n.1.find? n.2.name = some n.2

def HoldsCurrent (scope : StyleScope) (current : Option StyleGroup) : Prop :=
  ∀ g, current = some g → scope.Holds g

theorem registeredSelf {scope : StyleScope} {n : Entry} (known : scope.Registered n) :
    scope.HoldsCurrent (some n.1) := by
  intro g same
  cases same
  exact known.group

/- A bare name leads into the group at hand or into the own one, another into the group it says. -/
theorem lookupFound {scope : StyleScope} {name : StyleName} {current : Option StyleGroup} {n : Entry}
    (found : scope.lookup name current = .ok n) : n.1.find? n.2.name = some n.2 ∧
    ((name = .inGroup n.2.name ∧ (current = some n.1 ∨ scope.own = some n.1)) ∨
      ∃ group, name = .qualified group n.2.name ∧ scope.groups.lookup group = some n.1) := by
  unfold lookup at found
  simp only at found
  split at found <;> try contradiction
  rename_i result eq
  cases Except.ok.inj found
  cases name with
  | qualified group name =>
    obtain ⟨g, held, eq⟩ := Option.bind_eq_some_iff.mp eq
    obtain ⟨s, style, rfl⟩ := Option.map_eq_some_iff.mp eq
    obtain ⟨rfl, _⟩ := StyleGroup.foundName style
    exact ⟨style, .inr ⟨group, rfl, held⟩⟩
  | inGroup name =>
    obtain ⟨g, member, eq⟩ := List.exists_of_findSome?_eq_some eq
    obtain ⟨s, style, rfl⟩ := Option.map_eq_some_iff.mp eq
    obtain ⟨rfl, _⟩ := StyleGroup.foundName style
    exact ⟨style, .inl ⟨rfl, by simpa [eq_comm] using member⟩⟩

theorem lookupRegistered {scope : StyleScope}
    (named : ∀ name g, scope.groups.lookup name = some g → g.name = name) {name : StyleName}
    {current : Option StyleGroup} (known : scope.HoldsCurrent current) {n : Entry}
    (found : scope.lookup name current = .ok n) : scope.Registered n := by
  obtain ⟨style, ⟨_, here | own⟩ | ⟨group, _, held⟩⟩ := lookupFound found
  · exact ⟨known n.1 here, style⟩
  · exact ⟨.inr own, style⟩
  · exact ⟨.inl (by rw [named group n.1 held]; exact held), style⟩

theorem holdsUnique {scope : StyleScope} (coherent : scope.Coherent) {g h : StyleGroup}
    (left : scope.Holds g) (right : scope.Holds h) (same : g.name = h.name) : g = h := by
  rcases left with left | left
  · rcases right with right | right
    · exact Option.some.inj (left.symm.trans (same ▸ right))
    · rw [same, coherent.apart h right] at left
      cases left
  · rcases right with right | right
    · rw [← same, coherent.apart g left] at right
      cases right
    · exact Option.some.inj (left.symm.trans right)

theorem registeredUnique {scope : StyleScope} (coherent : scope.Coherent) {n m : Entry}
    (left : scope.Registered n) (right : scope.Registered m) (group : n.1.name = m.1.name)
    (style : n.2.name = m.2.name) : n = m := by
  have groups := holdsUnique coherent left.group right.group group
  have styles : n.2 = m.2 := Option.some.inj (left.style.symm.trans (by
    rw [groups, style]; exact right.style))
  exact Prod.ext groups styles

structure Keyed (scope : StyleScope) : Prop where
  named : ∀ name g, scope.groups.lookup name = some g → g.name = name
  unique : ∀ n m, scope.Registered n → scope.Registered m → n.1.name = m.1.name →
    n.2.name = m.2.name → n = m

theorem coherentKeyed {scope : StyleScope} (coherent : scope.Coherent) : scope.Keyed :=
  ⟨coherent.named, fun _ _ => registeredUnique coherent⟩

structure Flattened (scope : StyleScope) (n : Entry) (ps : List Property) : Prop where
  grounded : scope.Grounded n
  expanded : ∃ full, scope.Expansion n full ∧ ps = lastOccurrences full

theorem flattenedUnique {scope : StyleScope} {n : Entry} {ps qs : List Property}
    (left : scope.Flattened n ps) (right : scope.Flattened n qs) : ps = qs := by
  obtain ⟨full, expansion, rfl⟩ := left.expanded
  obtain ⟨other, again, rfl⟩ := right.expanded
  rw [expansionUnique expansion again]

def Sound (scope : StyleScope) (cache : StyleCache) : Prop :=
  ∀ n ps, scope.Registered n → cache.lookup (n.1.name, n.2.name) = some ps → scope.Flattened n ps

theorem soundEmpty (scope : StyleScope) : scope.Sound [] := by
  intro n ps _ found
  simp at found

theorem soundInsert {scope : StyleScope} (keyed : scope.Keyed) {cache : StyleCache}
    {n : Entry} {ps : List Property}
    (sound : scope.Sound cache) (known : scope.Registered n) (flat : scope.Flattened n ps) :
    scope.Sound (((n.1.name, n.2.name), ps) :: cache) := by
  intro m qs other found
  rw [List.lookup_cons] at found
  split at found
  · rename_i same
    obtain ⟨group, style⟩ := Prod.mk.inj (eq_of_beq same)
    cases keyed.unique m n other known group style
    cases Option.some.inj found
    exact flat
  · exact sound m qs other found

def qualifiedName (n : Entry) : String := (StyleName.qualified n.1.name n.2.name).display

def mergeBase (scope : StyleScope) (fuel : Nat) (visiting : List String) (n : Entry)
    (merged : List Property) (base : StyleName) : Task StyleCache (List Property) := do
  let (_, baseStyle) ← scope.lookup base (some n.1)
  if !baseStyle.kind.accepts n.2.kind then
    throw (.styleTypeMismatch base.display baseStyle.kind.tag n.2.kind.tag)
  let properties ← scope.flattenFrom fuel (visiting ++ [qualifiedName n]) base (some n.1)
  return mergeAll merged properties

theorem flattenFromStep (scope : StyleScope) (fuel : Nat) (visiting : List String)
    {name : StyleName} {current : Option StyleGroup} {n : Entry}
    (found : scope.lookup name current = .ok n) :
    scope.flattenFrom (fuel + 1) visiting name current = (do
      if visiting.contains (qualifiedName n) then throw (cycle visiting (qualifiedName n))
      match (← get).lookup (n.1.name, n.2.name) with
      | some known => return known
      | none =>
        let inherited ← n.2.extend.foldlM (scope.mergeBase fuel visiting n) []
        modify fun cache => ((n.1.name, n.2.name), mergeAll inherited n.2.properties) :: cache
        return mergeAll inherited n.2.properties) := by
  rw [flattenFrom, found]
  rfl

theorem mergeBaseGives {scope : StyleScope} {fuel : Nat} {visiting : List String} {n : Entry}
    {merged ps : List Property} {base : StyleName} {cache next : StyleCache}
    (ok : (scope.mergeBase fuel visiting n merged base).outcome cache = (.ok ps, next)) :
    ∃ m qs, scope.lookup base (some n.1) = .ok m ∧ m.2.kind.accepts n.2.kind = true ∧
      (scope.flattenFrom fuel (visiting ++ [qualifiedName n]) base (some n.1)).outcome cache =
        (.ok qs, next) ∧ ps = mergeAll merged qs := by
  unfold mergeBase at ok
  obtain ⟨m, found, ok⟩ := Task.liftBindGives ok
  simp only at ok
  split at ok
  · simp at ok
  · rename_i accepted
    obtain ⟨qs, u, flat, last⟩ := Task.bindGives.mp ok
    simp only [Task.outcomePure, Prod.mk.injEq, Except.ok.injEq] at last
    obtain ⟨rfl, rfl⟩ := last
    exact ⟨m, qs, found, by simpa using accepted, flat, rfl⟩

theorem flattenFromGives {scope : StyleScope} {fuel : Nat} {visiting : List String}
    {name : StyleName} {current : Option StyleGroup} {ps : List Property}
    {cache next : StyleCache}
    (ok : (scope.flattenFrom (fuel + 1) visiting name current).outcome cache = (.ok ps, next)) :
    ∃ n, scope.lookup name current = .ok n ∧
      ((cache.lookup (n.1.name, n.2.name) = some ps ∧ next = cache) ∨
        ∃ inherited between,
          (n.2.extend.foldlM (scope.mergeBase fuel visiting n) []).outcome cache =
            (.ok inherited, between) ∧
          ps = mergeAll inherited n.2.properties ∧
          next = ((n.1.name, n.2.name), ps) :: between) := by
  cases found : scope.lookup name current with
  | error e =>
    rw [flattenFrom, found] at ok
    cases ok
  | ok n =>
    rw [flattenFromStep scope fuel visiting found] at ok
    refine ⟨n, rfl, ?_⟩
    split at ok
    · simp at ok
    · simp only [Task.getBind] at ok
      split at ok
      · rename_i known kept
        simp only [Task.outcomePure, Prod.mk.injEq, Except.ok.injEq] at ok
        obtain ⟨rfl, rfl⟩ := ok
        exact .inl ⟨kept, rfl⟩
      · obtain ⟨inherited, between, bases, last⟩ := Task.bindGives.mp ok
        simp only [Task.modifyBind, Task.outcomePure, Prod.mk.injEq, Except.ok.injEq] at last
        obtain ⟨rfl, rfl⟩ := last
        exact .inr ⟨inherited, between, bases, rfl, rfl⟩

/- The bases merged so far stand for `before`; `full` is what each of the names stands for. -/
theorem basesSound {scope : StyleScope} {fuel : Nat} {visiting : List String} {n : Entry}
    (recursive : ∀ base ps cache next, scope.Sound cache →
      (scope.flattenFrom fuel (visiting ++ [qualifiedName n]) base (some n.1)).outcome cache =
        (.ok ps, next) →
      ∃ m, scope.lookup base (some n.1) = .ok m ∧ scope.Flattened m ps ∧ scope.Sound next)
    {full : StyleName → List Property} (chosen : ∀ base m ps,
      scope.lookup base (some n.1) = .ok m → scope.Expansion m ps → ps = full base)
    {bases : List StyleName} (before : List Property) {inherited : List Property}
    {cache next : StyleCache} (sound : scope.Sound cache)
    (ok : (bases.foldlM (scope.mergeBase fuel visiting n) (lastOccurrences before)).outcome cache =
      (.ok inherited, next)) :
    inherited = lastOccurrences (before ++ bases.flatMap full) ∧ scope.Sound next ∧
      ∀ base ∈ bases, ∃ m, scope.lookup base (some n.1) = .ok m ∧
        m.2.kind.accepts n.2.kind = true ∧ scope.Grounded m ∧ scope.Expansion m (full base) := by
  induction bases generalizing before cache with
  | nil =>
    simp only [List.foldlM_nil, Task.outcomePure, Prod.mk.injEq, Except.ok.injEq] at ok
    obtain ⟨rfl, rfl⟩ := ok
    exact ⟨by simp, sound, by simp⟩
  | cons base rest ih =>
    obtain ⟨merged, between, first, others⟩ := Task.foldlGives.mp ok
    obtain ⟨m, qs, found, accepted, flat, rfl⟩ := mergeBaseGives first
    obtain ⟨m', found', flattened, sound⟩ := recursive base qs _ _ sound flat
    cases Except.ok.inj (found.symm.trans found')
    obtain ⟨ps, expansion, rfl⟩ := flattened.expanded
    cases chosen base m ps found expansion
    rw [mergeAllExpanded] at others
    obtain ⟨same, sound, remaining⟩ := ih _ sound others
    refine ⟨by rw [same, List.append_assoc, List.flatMap_cons], sound, ?_⟩
    intro b member
    rcases List.mem_cons.mp member with rfl | inside
    · exact ⟨m, found, accepted, flattened.grounded, expansion⟩
    · exact remaining b inside

theorem keyedSound {scope : StyleScope} (keyed : scope.Keyed) {fuel : Nat}
    {visiting : List String} {name : StyleName} {current : Option StyleGroup}
    (known : scope.HoldsCurrent current) {ps : List Property} {cache next : StyleCache}
    (sound : scope.Sound cache)
    (ok : (scope.flattenFrom fuel visiting name current).outcome cache = (.ok ps, next)) :
    ∃ n, scope.lookup name current = .ok n ∧ scope.Flattened n ps ∧ scope.Sound next := by
  induction fuel generalizing visiting name current ps cache next with
  | zero => simp [flattenFrom] at ok
  | succ fuel ih =>
    obtain ⟨n, found, ⟨kept, rfl⟩ | ⟨inherited, between, bases, rfl, rfl⟩⟩ := flattenFromGives ok
    · exact ⟨n, found, sound n ps (lookupRegistered keyed.named known found) kept, sound⟩
    · have registered := lookupRegistered keyed.named known found
      obtain ⟨full, chosen⟩ := scope.expansionsChosen n.1
      obtain ⟨rfl, kept, each⟩ := basesSound
        (fun base ps cache next sound ok => ih (registeredSelf registered) sound ok)
        chosen [] sound bases
      have flat : scope.Flattened n
          (mergeAll (lastOccurrences ([] ++ n.2.extend.flatMap full)) n.2.properties) := by
        constructor
        · refine .mk (fun base member => ?_) ?_
          · obtain ⟨m, hm, accepted, _⟩ := each base member
            exact ⟨m, hm, accepted⟩
          · rintro m ⟨base, member, hm⟩
            obtain ⟨m', hm', _, grounded, _⟩ := each base member
            cases Except.ok.inj (hm.symm.trans hm')
            exact grounded
        · refine ⟨_, .mk full (fun base member => ?_) (fun base member m hm => ?_),
            mergeAllLast _ _⟩
          · obtain ⟨m, hm, _⟩ := each base member
            exact ⟨m, hm⟩
          · obtain ⟨m', hm', _, _, expansion⟩ := each base member
            cases Except.ok.inj (hm.symm.trans hm')
            exact expansion
      exact ⟨n, found, flat, soundInsert keyed kept registered flat⟩

theorem flattenFromSound {scope : StyleScope} (coherent : scope.Coherent) {fuel : Nat}
    {visiting : List String} {name : StyleName} {current : Option StyleGroup}
    (known : scope.HoldsCurrent current) {ps : List Property} {cache next : StyleCache}
    (sound : scope.Sound cache)
    (ok : (scope.flattenFrom fuel visiting name current).outcome cache = (.ok ps, next)) :
    ∃ n, scope.lookup name current = .ok n ∧ scope.Flattened n ps ∧ scope.Sound next :=
  keyedSound (coherentKeyed coherent) known sound ok

def entries (scope : StyleScope) : List Entry :=
  (scope.groups.map Prod.snd ++ scope.own.toList).flatMap fun g => g.styles.map fun s => (g, s)

theorem entriesLength (scope : StyleScope) : scope.entries.length = scope.size := by
  simp only [entries, size, List.length_flatMap, List.length_map, List.map_append,
    List.sum_append, List.map_map, Function.comp_def, List.sum_eq_foldl_nat]
  cases scope.own <;> simp

theorem registeredEntry {scope : StyleScope} {n : Entry} (known : scope.Registered n) :
    n ∈ scope.entries := by
  refine List.mem_flatMap.mpr ⟨n.1, List.mem_append.mpr ?_, ?_⟩
  · refine known.group.imp (fun found => ?_) Option.mem_toList.mpr
    exact List.mem_map.mpr ⟨_, Ordered.memOfLookup found, rfl⟩
  · exact List.mem_map.mpr ⟨n.2, (StyleGroup.foundName known.style).2, rfl⟩

def Plain (scope : StyleScope) : Prop := ∀ g, scope.Holds g → ':' ∉ g.name.toList

theorem separated {α : Type} {sep : α} {xs ys us vs : List α} (left : sep ∉ xs) (right : sep ∉ us)
    (same : xs ++ sep :: ys = us ++ sep :: vs) : xs = us ∧ ys = vs := by
  induction xs generalizing us with
  | nil =>
    cases us with
    | nil => exact ⟨rfl, (List.cons.inj same).2⟩
    | cons u us => exact absurd ((List.cons.inj same).1 ▸ List.mem_cons_self) right
  | cons x xs ih =>
    cases us with
    | nil => exact absurd ((List.cons.inj same).1 ▸ List.mem_cons_self) left
    | cons u us =>
      obtain ⟨head, tail⟩ := List.cons.inj same
      obtain ⟨rest, after⟩ := ih (fun h => left (List.mem_cons_of_mem _ h))
        (fun h => right (List.mem_cons_of_mem _ h)) tail
      exact ⟨by rw [head, rest], after⟩

theorem qualifiedLetters {n m : Entry} (same : qualifiedName n = qualifiedName m) :
    n.1.name.toList ++ ':' :: n.2.name.toList = m.1.name.toList ++ ':' :: m.2.name.toList := by
  have letters := congrArg String.toList same
  simpa [qualifiedName, StyleName.display] using letters

theorem qualifiedUnique {scope : StyleScope} (coherent : scope.Coherent) (plain : scope.Plain)
    {n m : Entry}
    (left : scope.Registered n) (right : scope.Registered m)
    (same : qualifiedName n = qualifiedName m) : n = m := by
  obtain ⟨group, style⟩ := separated (plain _ left.group) (plain _ right.group)
    (qualifiedLetters same)
  exact registeredUnique coherent left right (String.toList_injective group)
    (String.toList_injective style)

/- The styles on the way to `n` are registered, are not met twice and lead to `n`. -/
structure Way (scope : StyleScope) (visiting : List String) (n : Entry) : Prop where
  distinct : visiting.Nodup
  leads : ∀ v ∈ visiting, ∃ m, v = qualifiedName m ∧ scope.Registered m ∧
    TransGen scope.Extends m n

theorem wayShort {scope : StyleScope} {visiting : List String} {n : Entry}
    (way : scope.Way visiting n) : visiting.length ≤ scope.size := by
  rw [← entriesLength, ← List.length_map (f := qualifiedName)]
  refine way.distinct.length_le_of_subset fun v member => ?_
  obtain ⟨m, rfl, known, _⟩ := way.leads v member
  exact List.mem_map.mpr ⟨m, registeredEntry known, rfl⟩

/-- Names tell a style from all that it extends, however indirectly. -/
def Apart (scope : StyleScope) : Prop := ∀ n m, scope.Registered n → scope.Registered m →
  TransGen scope.Extends m n → qualifiedName n = qualifiedName m → n = m

theorem wayFresh {scope : StyleScope} (apart : scope.Apart) {visiting : List String} {n : Entry}
    (known : scope.Registered n) (flattenable : scope.Flattenable n)
    (way : scope.Way visiting n) : qualifiedName n ∉ visiting := by
  intro member
  obtain ⟨m, same, registered, cycle⟩ := way.leads _ member
  cases apart n m known registered cycle same
  exact flattenable.acyclic n .refl cycle

theorem wayStep {scope : StyleScope} {visiting : List String} {n m : Entry}
    (known : scope.Registered n) (fresh : qualifiedName n ∉ visiting)
    (way : scope.Way visiting n) (step : scope.Extends n m) :
    scope.Way (visiting ++ [qualifiedName n]) m where
  distinct := by
    rw [← List.concat_eq_append]
    exact way.distinct.concat fresh
  leads v member := by
    rcases List.mem_append.mp member with earlier | last
    · obtain ⟨k, same, registered, reaches⟩ := way.leads v earlier
      exact ⟨k, same, registered, reaches.tail step⟩
    · exact ⟨n, List.mem_singleton.mp last, known, .single step⟩

theorem flattenableStep {scope : StyleScope} {n m : Entry} (flattenable : scope.Flattenable n)
    (step : scope.Extends n m) : scope.Flattenable m where
  found k reached := flattenable.found k (.head step reached)
  kinds k b reached := flattenable.kinds k b (.head step reached)
  acyclic k reached := flattenable.acyclic k (.head step reached)

/- Whatever the cache holds, the search does not fail: what is on the way cannot come again, and
there is fuel for all the styles that are not on it. -/
theorem keyedEnds {scope : StyleScope} (keyed : scope.Keyed) (apart : scope.Apart)
    {fuel : Nat} {visiting : List String} {name : StyleName} {current : Option StyleGroup}
    {n : Entry} (found : scope.lookup name current = .ok n) (known : scope.Registered n)
    (flattenable : scope.Flattenable n) (way : scope.Way visiting n)
    (enough : scope.size < fuel + visiting.length) (cache : StyleCache) :
    ∃ ps next, (scope.flattenFrom fuel visiting name current).outcome cache = (.ok ps, next) := by
  induction fuel generalizing visiting name current n cache with
  | zero =>
    have short := wayShort way
    omega
  | succ fuel ih =>
    rw [flattenFromStep scope fuel visiting found]
    have fresh := wayFresh apart known flattenable way
    rw [if_neg (by simpa using fresh)]
    simp only [Task.getBind]
    split
    · exact ⟨_, _, rfl⟩
    · have each : ∀ base ∈ n.2.extend, ∀ merged cache, ∃ ps next,
          (scope.mergeBase fuel visiting n merged base).outcome cache = (.ok ps, next) := by
        intro base member merged cache
        obtain ⟨m, hm⟩ := flattenable.found n .refl base member
        have step : scope.Extends n m := ⟨base, member, hm⟩
        have accepted := flattenable.kinds n m .refl step
        obtain ⟨ps, next, flat⟩ := ih hm (lookupRegistered keyed.named (registeredSelf known) hm)
          (flattenableStep flattenable step) (wayStep known fresh way step)
          (by rw [List.length_append, List.length_singleton]; omega) cache
        refine ⟨mergeAll merged ps, next, ?_⟩
        unfold mergeBase
        rw [hm]
        refine Task.bindGives.mpr ⟨m, cache, rfl, ?_⟩
        simp only [accepted, Bool.not_true, Bool.false_eq_true, if_false]
        exact Task.bindGives.mpr ⟨ps, next, flat, rfl⟩
      obtain ⟨inherited, between, bases⟩ := Task.foldlSucceeds each [] cache
      exact ⟨_, _, Task.bindGives.mpr ⟨inherited, between, bases, rfl⟩⟩

theorem flattenFromEnds {scope : StyleScope} (coherent : scope.Coherent) (apart : scope.Apart)
    {fuel : Nat} {visiting : List String} {name : StyleName} {current : Option StyleGroup}
    {n : Entry} (found : scope.lookup name current = .ok n) (known : scope.Registered n)
    (flattenable : scope.Flattenable n) (way : scope.Way visiting n)
    (enough : scope.size < fuel + visiting.length) (cache : StyleCache) :
    ∃ ps next, (scope.flattenFrom fuel visiting name current).outcome cache = (.ok ps, next) :=
  keyedEnds (coherentKeyed coherent) apart found known flattenable way enough cache

theorem flattenFromSucceeds {scope : StyleScope} (coherent : scope.Coherent) (plain : scope.Plain)
    {fuel : Nat} {visiting : List String} {name : StyleName} {current : Option StyleGroup}
    {n : Entry} (found : scope.lookup name current = .ok n) (known : scope.Registered n)
    (flattenable : scope.Flattenable n) (way : scope.Way visiting n)
    (enough : scope.size < fuel + visiting.length) (cache : StyleCache) :
    ∃ ps next, (scope.flattenFrom fuel visiting name current).outcome cache = (.ok ps, next) := by
  refine flattenFromEnds coherent (fun n m left right _ same => ?_) found known flattenable way
    enough cache
  exact qualifiedUnique coherent plain left right same

end StyleScope
end ViewForge

namespace ViewForge.Registry
open StyleScope

def styleScope (r : Registry) : StyleScope := { groups := r.styleGroups }

def scopeOf (r : Registry) (d : ComponentDefinition) : StyleScope :=
  { groups := r.styleGroups, own := some d.styles }

theorem styleScopeCoherent {r : Registry} (filled : r.Filled) : r.styleScope.Coherent where
  named _ _ found := (groupsRead filled (Ordered.memOfLookup found)).1
  apart := by rintro _ ⟨⟩

theorem groupFound {r : Registry} (filled : r.Filled) {name : String} {g : StyleGroup}
    (group : (name, g) ∈ r.styleGroups) : r.styleGroups.lookup g.name = some g := by
  refine Ordered.lookupOfMem (groupNamesDistinct filled) ?_
  rw [(groupsRead filled group).1]
  exact group

theorem styleFound {r : Registry} (filled : r.Filled) {name : String} {g : StyleGroup}
    (group : (name, g) ∈ r.styleGroups) {s : Style} (style : s ∈ g.styles) :
    g.find? s.name = some s := by
  obtain ⟨_, _, _, read⟩ := groupsRead filled group
  exact StyleGroup.findSelf (StyleGroup.readDistinct read) style

theorem styleScopePlain {r : Registry}
    (plain : ∀ entry ∈ r.styleGroups, entry.1.toList.all Text.isNamePart = true) :
    r.styleScope.Plain := by
  rintro g (found | own) colon
  · have part := List.all_eq_true.mp (plain _ (Ordered.memOfLookup found)) ':' colon
    exact absurd part (by decide)
  · cases own

theorem flattenedExactly {r : Registry} (filled : r.Filled)
    (plain : ∀ entry ∈ r.styleGroups, entry.1.toList.all Text.isNamePart = true)
    {name : String} {g : StyleGroup} (group : (name, g) ∈ r.styleGroups) {s : Style}
    (style : s ∈ g.styles) :
    ((∃ ps, ((r.styleScope.flatten (.qualified g.name s.name) none).outcome []).1 = .ok ps) ↔
      r.styleScope.Flattenable (g, s)) ∧
    ∀ ps, ((r.styleScope.flatten (.qualified g.name s.name) none).outcome []).1 = .ok ps →
      ∃ full, r.styleScope.Expansion (g, s) full ∧ ps = lastOccurrences full ∧
        (ps.map Property.key).Nodup ∧ lastOccurrences s.properties <:+ ps ∧
        ∀ p ∈ ps, ∃ before after, full = before ++ p :: after ∧ ∀ q ∈ after, q.key ≠ p.key := by
  have coherent := styleScopeCoherent filled
  have held := groupFound filled group
  have known : r.styleScope.Registered (g, s) := ⟨.inl held, styleFound filled group style⟩
  have found : r.styleScope.lookup (.qualified g.name s.name) none = .ok (g, s) := by
    simp only [lookup, styleScope, held, Option.bind_some, styleFound filled group style,
      Option.map_some]
  have flattened : ∀ ps,
      ((r.styleScope.flatten (.qualified g.name s.name) none).outcome []).1 = .ok ps →
      r.styleScope.Flattened (g, s) ps := by
    intro ps ok
    obtain ⟨n, same, flat, _⟩ := flattenFromSound coherent
      (fun _ same => nomatch same : r.styleScope.HoldsCurrent none) (soundEmpty _)
      (Prod.ext ok rfl)
    cases Except.ok.inj (found.symm.trans same)
    exact flat
  refine ⟨⟨?_, ?_⟩, ?_⟩
  · rintro ⟨ps, ok⟩
    exact groundedFlattenable (flattened ps ok).grounded
  · intro flattenable
    have way : r.styleScope.Way [] (g, s) := ⟨List.nodup_nil, by simp⟩
    obtain ⟨ps, _, ok⟩ := flattenFromSucceeds coherent (styleScopePlain plain) found known
      flattenable way (by simp : r.styleScope.size < r.styleScope.size + 1 + [].length) []
    exact ⟨ps, congrArg Prod.fst ok⟩
  · intro ps ok
    obtain ⟨full, expansion, rfl⟩ := (flattened ps ok).expanded
    refine ⟨full, expansion, rfl, lastOccurrencesNodup full, ?_, fun p => lastOccurrencesSplit⟩
    cases expansion
    exact lastOccurrencesSuffix _ _

def diamondStyle (name extend alpha : String) : Markup.Node :=
  { name := "ViewStyle", attributes := [("name", name), ("extend", extend), ("alpha", alpha)] }

def diamondSheet : Markup.Node :=
  { name := "styleGroup", attributes := [("name", "G")], children := [
      diamondStyle "base" "" "0", diamondStyle "left" "base" "1", diamondStyle "right" "base" "2",
      diamondStyle "both" ":G:left right" "3"] }

def diamondGroup : StyleGroup := (StyleGroup.read diamondSheet none).toOption.getD { name := "" }

def diamond : Registry :=
  (({ platform := .iOS, application := {} } : Registry).addGroup diamondGroup).1

theorem flattenedDiamond : ∃ s ∈ diamondGroup.styles, s.name = "both" ∧
    diamond.styleScope.Flattenable (diamondGroup, s) := by
  have filled : diamond.Filled := .group (.empty .iOS {}) (Result.okGetD (by decide +kernel) _)
  obtain ⟨s, last⟩ : ∃ s, diamondGroup.styles[3]? = some s :=
    Option.isSome_iff_exists.mp (by decide +kernel)
  have names : (diamondGroup.name, diamondGroup.styles[3]?.map Style.name) =
      ("G", some "both") := by decide +kernel
  obtain ⟨group, named⟩ := Prod.mk.inj names
  rw [last, Option.map_some, Option.some.injEq] at named
  have member := List.mem_of_getElem? last
  have registered : ("G", diamondGroup) ∈ diamond.styleGroups := by
    rw [← group]
    exact List.mem_singleton_self _
  refine ⟨s, member, named, (flattenedExactly filled ?_ registered member).1.mp ?_⟩
  · decide +kernel
  · rw [group, named]
    exact ⟨_, Result.okGetD (by decide +kernel) []⟩

end ViewForge.Registry
