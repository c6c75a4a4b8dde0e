import ViewForge.Proofs.Resolve.Tracking
import ViewForge.Proofs.Style.Flatten

/-! One resolver of styles asked again and again. Styles are kept by the names of group and style, so
that earlier calls stay without effect on later ones as long as these names tell styles apart; a
group of a component that shares names with a global group is what they do not tell apart. -/
open Relation (TransGen)
namespace ViewForge

inductive StyleCall where
  | flatten (name : StyleName) (current : Option StyleGroup)
  | resolve (e : Element)

namespace StyleScope

structure Told (scope : StyleScope) : Prop where
  named : ∀ name g, scope.groups.lookup name = some g → g.name = name
  apart : ∀ n m, scope.Registered n → scope.Registered m → qualifiedName n = qualifiedName m → n = m

def call (scope : StyleScope) : StyleCall → Task StyleCache (List Property)
  | .flatten name current => scope.flatten name current
  | .resolve e => scope.resolve e

def answers (scope : StyleScope) : List StyleCall → StyleCache → List (Result (List Property))
  | [], _ => []
  | c :: rest, cache =>
    ((scope.call c).outcome cache).1 :: scope.answers rest ((scope.call c).outcome cache).2

variable {scope : StyleScope}

theorem holdsNone : scope.HoldsCurrent none := by
  intro g same
  cases same

theorem toldKeyed (told : scope.Told) : scope.Keyed where
  named := told.named
  unique n m left right group style := told.apart n m left right (by
    rw [qualifiedName, qualifiedName, group, style])

theorem toldApart (told : scope.Told) : scope.Apart :=
  fun n m left right _ same => told.apart n m left right same

def BothSound (scope : StyleScope) (a b : StyleCache) : Prop := scope.Sound a ∧ scope.Sound b

section Search

variable {fuel : Nat} {visiting : List String} {name : StyleName} {current : Option StyleGroup}
  {n : Entry}

/- What one cache holds is worked out from any other. -/
theorem keptComputed (told : scope.Told) (known : scope.HoldsCurrent current)
    (found : scope.lookup name current = .ok n) (way : scope.Way visiting n)
    (enough : scope.size < fuel + visiting.length) {ps : List Property}
    (flat : scope.Flattened n ps) {cache : StyleCache} (sound : scope.Sound cache) :
    ∃ next, (scope.flattenFrom fuel visiting name current).outcome cache = (.ok ps, next) ∧
      scope.Sound next := by
  obtain ⟨qs, next, run⟩ := keyedEnds (toldKeyed told) (toldApart told) found
    (lookupRegistered told.named known found) (groundedFlattenable flat.grounded) way enough cache
  obtain ⟨m, again, flat', kept⟩ := keyedSound (toldKeyed told) known sound run
  cases Except.ok.inj (found.symm.trans again)
  cases flattenedUnique flat flat'
  exact ⟨next, run, kept⟩

theorem flattenFromKnown {cache : StyleCache} {ps : List Property}
    (found : scope.lookup name current = .ok n) (fresh : qualifiedName n ∉ visiting)
    (kept : cache.lookup (n.1.name, n.2.name) = some ps) :
    (scope.flattenFrom (fuel + 1) visiting name current).outcome cache = (.ok ps, cache) := by
  rw [flattenFromStep scope fuel visiting found, if_neg (by simpa using fresh)]
  simp only [Task.getBind, kept]
  rfl

theorem flattenFromUnknown {cache : StyleCache} (found : scope.lookup name current = .ok n)
    (fresh : qualifiedName n ∉ visiting) (unknown : cache.lookup (n.1.name, n.2.name) = none) :
    (scope.flattenFrom (fuel + 1) visiting name current).outcome cache =
      (n.2.extend.foldlM (scope.mergeBase fuel visiting n) [] >>= fun inherited => do
        modify fun cache => ((n.1.name, n.2.name), mergeAll inherited n.2.properties) :: cache
        return mergeAll inherited n.2.properties).outcome cache := by
  rw [flattenFromStep scope fuel visiting found, if_neg (by simpa using fresh)]
  simp only [Task.getBind, unknown]

theorem unknownTracks (keyed : scope.Keyed) (known : scope.HoldsCurrent current)
    (found : scope.lookup name current = .ok n) (fresh : qualifiedName n ∉ visiting)
    (bases : Task.Tracks True scope.BothSound
      (n.2.extend.foldlM (scope.mergeBase fuel visiting n) [])
      (n.2.extend.foldlM (scope.mergeBase fuel visiting n) []))
    {a b : StyleCache} (both : scope.BothSound a b)
    (left : a.lookup (n.1.name, n.2.name) = none) (right : b.lookup (n.1.name, n.2.name) = none) :
    ∃ u, scope.BothSound
        ((scope.flattenFrom (fuel + 1) visiting name current).outcome a).2 u ∧
      (scope.flattenFrom (fuel + 1) visiting name current).outcome b =
        (((scope.flattenFrom (fuel + 1) visiting name current).outcome a).1, u) := by
  obtain ⟨v, ends, same⟩ := bases a b both
  have again := same (.inl trivial)
  cases run : (n.2.extend.foldlM (scope.mergeBase fuel visiting n) []).outcome a with
  | mk result u =>
    rw [run] at ends again
    cases result with
    | error e =>
      have first := (flattenFromUnknown found fresh left).trans (Task.bindError run)
      have second := (flattenFromUnknown found fresh right).trans (Task.bindError again)
      rw [first, second]
      exact ⟨v, ends, rfl⟩
    | ok inherited =>
      have first := (flattenFromUnknown found fresh left).trans (Task.bindOk run)
      have second := (flattenFromUnknown found fresh right).trans (Task.bindOk again)
      obtain ⟨_, _, _, kept⟩ := keyedSound keyed known both.1 first
      obtain ⟨_, _, _, kept'⟩ := keyedSound keyed known both.2 second
      rw [first, second]
      exact ⟨_, ⟨kept, kept'⟩, rfl⟩

/- Whatever two sound caches hold, the searches from them end alike. -/
theorem flattenFromTracks (told : scope.Told) (known : scope.HoldsCurrent current)
    (way : ∀ n, scope.lookup name current = .ok n → scope.Way visiting n)
    (enough : scope.size < fuel + visiting.length) :
    Task.Tracks True scope.BothSound (scope.flattenFrom fuel visiting name current)
      (scope.flattenFrom fuel visiting name current) := by
  induction fuel generalizing visiting name current with
  | zero => exact Task.tracksThrow _
  | succ fuel ih =>
    cases found : scope.lookup name current with
    | error e =>
      rw [flattenFrom, found]
      exact Task.tracksThrow e
    | ok n =>
      have registered := lookupRegistered told.named known found
      by_cases visited : qualifiedName n ∈ visiting
      · rw [flattenFromStep scope fuel visiting found, if_pos (by simpa using visited)]
        exact Task.tracksThrow _
      · have bases : Task.Tracks True scope.BothSound
            (n.2.extend.foldlM (scope.mergeBase fuel visiting n) [])
            (n.2.extend.foldlM (scope.mergeBase fuel visiting n) []) := by
          refine Task.tracksFold (fun base member merged => ?_) []
          unfold mergeBase
          refine Task.tracksBind (Task.tracksLift _) fun m => ?_
          dsimp only
          split
          · exact Task.tracksThrow _
          · refine Task.tracksBind (ih (registeredSelf registered) ?_ ?_) fun ps =>
              Task.tracksPure _
            · intro m step
              exact wayStep registered visited (way n found) ⟨base, member, step⟩
            · rw [List.length_append, List.length_singleton]
              omega
        intro a b both
        cases left : a.lookup (n.1.name, n.2.name) with
        | some ps =>
          obtain ⟨next, run, kept⟩ := keptComputed told known found (way n found) enough
            (both.1 n ps registered left) both.2
          rw [flattenFromKnown found visited left, run]
          exact ⟨next, ⟨both.1, kept⟩, fun _ => rfl⟩
        | none =>
          cases right : b.lookup (n.1.name, n.2.name) with
          | some ps =>
            obtain ⟨next, run, kept⟩ := keptComputed told known found (way n found) enough
              (both.2 n ps registered right) both.1
            rw [run, flattenFromKnown found visited right]
            exact ⟨b, ⟨kept, both.2⟩, fun _ => rfl⟩
          | none =>
            obtain ⟨u, ends, same⟩ :=
              unknownTracks (toldKeyed told) known found visited bases both left right
            exact ⟨u, ends, fun _ => same⟩

theorem lookupCyclic {chain : String} :
    scope.lookup name current ≠ .error (.cyclicReference chain) := by
  intro failed
  unfold lookup at failed
  simp only at failed
  split at failed <;> cases failed

theorem mergeBaseCyclic {merged : List Property} {base : StyleName} {cache : StyleCache}
    {chain : String}
    (failed : ((scope.mergeBase fuel visiting n merged base).outcome cache).1 =
      .error (.cyclicReference chain)) :
    ∃ m, scope.lookup base (some n.1) = .ok m ∧
      ((scope.flattenFrom fuel (visiting ++ [qualifiedName n]) base (some n.1)).outcome cache).1 =
        .error (.cyclicReference chain) := by
  unfold mergeBase at failed
  rcases Task.bindFails failed with missing | ⟨m, next, looked, rest⟩
  · exact absurd missing lookupCyclic
  · obtain ⟨found, rfl⟩ := Task.liftGives looked
    simp only at rest
    split at rest
    · cases rest
    · rcases Task.bindFails rest with inner | ⟨_, _, _, pure⟩
      · exact ⟨m, found, inner⟩
      · cases pure

/- A name that comes again is that of a style on the way, which leads to itself. -/
theorem flattenFromCyclic (told : scope.Told) (known : scope.Registered n)
    (found : scope.lookup name current = .ok n) (way : scope.Way visiting n)
    (enough : scope.size < fuel + visiting.length) {cache : StyleCache} {chain : String}
    (failed : ((scope.flattenFrom fuel visiting name current).outcome cache).1 =
      .error (.cyclicReference chain)) : ∃ m, scope.Registered m ∧ TransGen scope.Extends m m := by
  induction fuel generalizing visiting name current n cache with
  | zero =>
    have short := wayShort way
    omega
  | succ fuel ih =>
    by_cases visited : qualifiedName n ∈ visiting
    · obtain ⟨m, same, registered, leads⟩ := way.leads _ visited
      cases told.apart n m known registered same
      exact ⟨n, known, leads⟩
    · cases kept : cache.lookup (n.1.name, n.2.name) with
      | some ps =>
        rw [flattenFromKnown found visited kept] at failed
        cases failed
      | none =>
        rw [flattenFromUnknown found visited kept] at failed
        rcases Task.bindFails failed with inner | ⟨_, _, _, pure⟩
        · obtain ⟨base, member, _, between, failed⟩ := Task.foldlFails inner
          obtain ⟨m, step, failed⟩ := mergeBaseCyclic failed
          exact ih (lookupRegistered told.named (registeredSelf known) step) step
            (wayStep known visited way ⟨base, member, step⟩)
            (by rw [List.length_append, List.length_singleton]; omega) failed
        · cases pure

end Search

theorem flattenCyclic (told : scope.Told) {name : StyleName} {current : Option StyleGroup}
    (known : scope.HoldsCurrent current) {cache : StyleCache} {chain : String}
    (failed : ((scope.flatten name current).outcome cache).1 = .error (.cyclicReference chain)) :
    ∃ n, scope.Registered n ∧ TransGen scope.Extends n n := by
  cases found : scope.lookup name current with
  | error e =>
    rw [flatten, flattenFrom, found] at failed
    cases Except.error.inj failed
    exact absurd found lookupCyclic
  | ok n =>
    exact flattenFromCyclic told (lookupRegistered told.named known found) found
      ⟨List.nodup_nil, by simp⟩ (by simp) failed

theorem resolveCyclic (told : scope.Told) {e : Element} {cache : StyleCache} {chain : String}
    (failed : ((scope.resolve e).outcome cache).1 = .error (.cyclicReference chain)) :
    ∃ n, scope.Registered n ∧ TransGen scope.Extends n n := by
  unfold resolve at failed
  rcases Task.bindFails failed with inner | ⟨_, _, _, pure⟩
  · obtain ⟨name, _, merged, between, failed⟩ := Task.foldlFails inner
    rcases Task.bindFails failed with missing | ⟨m, next, looked, failed⟩
    · exact absurd missing lookupCyclic
    · simp only at failed
      split at failed
      · cases failed
      · rcases Task.bindFails failed with inner | ⟨_, _, _, pure⟩
        · exact flattenCyclic told holdsNone inner
        · cases pure
  · cases pure

theorem flattenTracks (told : scope.Told) (name : StyleName) {current : Option StyleGroup}
    (known : scope.HoldsCurrent current) :
    Task.Tracks True scope.BothSound (scope.flatten name current) (scope.flatten name current) :=
  flattenFromTracks told known (fun _ _ => ⟨List.nodup_nil, by simp⟩) (by simp)

theorem resolveTracks (told : scope.Told) (e : Element) :
    Task.Tracks True scope.BothSound (scope.resolve e) (scope.resolve e) := by
  unfold resolve
  refine Task.tracksBind (Task.tracksFold (fun name _ merged => ?_) []) fun styled =>
    Task.tracksPure _
  refine Task.tracksBind (Task.tracksLift _) fun m => ?_
  dsimp only
  split
  · exact Task.tracksThrow _
  · exact Task.tracksBind (flattenTracks told name holdsNone) fun ps => Task.tracksPure _

def CallHolds (scope : StyleScope) (c : StyleCall) : Prop :=
  ∀ name current, c = .flatten name current → scope.HoldsCurrent current

theorem callTracks (told : scope.Told) {c : StyleCall} (holds : scope.CallHolds c) :
    Task.Tracks True scope.BothSound (scope.call c) (scope.call c) := by
  cases c with
  | flatten name current => exact flattenTracks told name (holds name current rfl)
  | resolve e => exact resolveTracks told e

theorem callCyclic (told : scope.Told) {c : StyleCall} (holds : scope.CallHolds c)
    {cache : StyleCache} {chain : String}
    (failed : ((scope.call c).outcome cache).1 = .error (.cyclicReference chain)) :
    ∃ n, scope.Registered n ∧ TransGen scope.Extends n n := by
  cases c with
  | flatten name current => exact flattenCyclic told (holds name current rfl) failed
  | resolve e => exact resolveCyclic told failed

/- One call leaves the cache sound, so that the next is answered as if it were the first. -/
theorem answersFresh (told : scope.Told) {calls : List StyleCall}
    (holds : ∀ c ∈ calls, scope.CallHolds c) {cache : StyleCache} (sound : scope.Sound cache) :
    scope.answers calls cache = calls.map fun c => ((scope.call c).outcome []).1 := by
  induction calls generalizing cache with
  | nil => rfl
  | cons c rest ih =>
    obtain ⟨here, later⟩ := List.forall_mem_cons.mp holds
    obtain ⟨u, kept, same⟩ := callTracks told here cache [] ⟨sound, soundEmpty scope⟩
    rw [answers, ih later kept.1, List.map_cons, same (.inl trivial)]

theorem callsApart (told : scope.Told) {calls : List StyleCall}
    (holds : ∀ c ∈ calls, scope.CallHolds c) :
    (scope.answers calls [] = calls.map fun c => ((scope.call c).outcome []).1) ∧
      ∀ chain, .error (.cyclicReference chain) ∈ scope.answers calls [] →
        ∃ n, scope.Registered n ∧ TransGen scope.Extends n n := by
  have fresh := answersFresh told holds (soundEmpty scope)
  refine ⟨fresh, fun chain member => ?_⟩
  rw [fresh] at member
  obtain ⟨c, inside, failed⟩ := List.mem_map.mp member
  exact callCyclic told (holds c inside) failed

theorem toldDistinct (named : ∀ entry ∈ scope.groups, entry.2.name = entry.1)
    (distinct : (scope.entries.map qualifiedName).Nodup) : scope.Told where
  named _ _ found := named _ (Ordered.memOfLookup found)
  apart _ _ left right same :=
    List.inj_on_of_nodup_map distinct (registeredEntry left) (registeredEntry right) same

section Card

def cardStyle (name extend key value : String) : Markup.Node :=
  { name := "ViewStyle", attributes := [("name", name), ("extend", extend), (key, value)] }

def cardGroup (styles : List Markup.Node) : StyleGroup :=
  (StyleGroup.read { name := "styleGroup", attributes := [("name", "Card")], children := styles }
    none).toOption.getD { name := "" }

/- Both groups are called `Card`. -/
def cardScope (styles own : List Markup.Node) : StyleScope :=
  { groups := [("Card", cardGroup styles)], own := some (cardGroup own) }

def cardKeys (result : Result (List Property)) : Result (List String) :=
  result.map (·.map Property.key)

def cardOwn : List Markup.Node := [cardStyle "b" ":Card:a" "clipsToBounds" "true"]

/- A style that extends itself does not keep the others from being asked for. -/
def toldCard : StyleScope :=
  cardScope [cardStyle "a" "" "alpha" "1", cardStyle "loop" ":Card:loop" "alpha" "0"] cardOwn

def toldCalls : List StyleCall :=
  [.flatten (.inGroup "b") none, .flatten (.qualified "Card" "loop") none,
    .flatten (.inGroup "b") (some (cardGroup cardOwn)),
    .resolve { Element.bare (.widget .label) ⟨"title", true⟩ with styles := [.inGroup "b"] }]

theorem toldComputed : (∀ entry ∈ toldCard.groups, entry.2.name = entry.1) ∧
    (toldCard.entries.map qualifiedName).Nodup ∧
    (toldCard.answers toldCalls []).map cardKeys =
      [.ok ["alpha", "clipsToBounds"], .error (.cyclicReference ":Card:loop -> :Card:loop"),
        .ok ["alpha", "clipsToBounds"], .ok ["alpha", "clipsToBounds"]] := by
  decide +kernel

theorem toldCallsApart : toldCard.Told ∧ (∀ c ∈ toldCalls, toldCard.CallHolds c) ∧
    (toldCard.answers toldCalls [] = toldCalls.map fun c => ((toldCard.call c).outcome []).1) ∧
    ∃ n, toldCard.Registered n ∧ TransGen toldCard.Extends n n := by
  obtain ⟨named, distinct, given⟩ := toldComputed
  have told := toldDistinct named distinct
  have holds : ∀ c ∈ toldCalls, toldCard.CallHolds c := by
    rintro c member name current rfl g rfl
    have own : name = .inGroup "b" ∧ g = cardGroup cardOwn := by simpa [toldCalls] using member
    exact .inr (by rw [own.2]; rfl)
  obtain ⟨fresh, cyclic⟩ := callsApart told holds
  have failed : .error (.cyclicReference ":Card:loop -> :Card:loop") ∈
      (toldCard.answers toldCalls []).map cardKeys := by simp [given]
  obtain ⟨answer, member, same⟩ := List.mem_map.mp failed
  cases answer with
  | ok ps => cases same
  | error e =>
    cases same
    exact ⟨told, holds, fresh, cyclic _ member⟩

/- The style of the component extends the global one of the same name. -/
def sharedCard : StyleScope :=
  cardScope [cardStyle "a" "" "alpha" "1"] [cardStyle "a" ":Card:a" "clipsToBounds" "true"]

def sharedCalls : List StyleCall :=
  [.flatten (.qualified "Card" "a") none, .flatten (.inGroup "a") none]

theorem sharedComputed :
    (sharedCard.answers sharedCalls []).map cardKeys = [.ok ["alpha"], .ok ["alpha"]] ∧
    (sharedCalls.map fun c => ((sharedCard.call c).outcome []).1).map cardKeys =
      [.ok ["alpha"], .error (.cyclicReference ":Card:a -> :Card:a")] ∧
    (∀ n ∈ sharedCard.entries, n.2.kind = .view .view ∧
      (n.2.extend = [] ∨ n.2.extend = [.qualified "Card" "a"])) ∧
    (sharedCard.lookup (.qualified "Card" "a") none).map (fun n => (n.2.kind, n.2.extend)) =
      .ok (.view .view, []) := by
  decide +kernel

theorem sharedGrounded {n : Entry} (known : sharedCard.Registered n) : sharedCard.Grounded n := by
  obtain ⟨_, _, entries, base⟩ := sharedComputed
  have last : ∀ {m : Entry}, m.2.extend = [] → sharedCard.Grounded m := by
    intro m none
    refine .mk (by simp [none]) ?_
    rintro _ ⟨_, member, _⟩
    simp [none] at member
  obtain ⟨kind, none | one⟩ := entries n (registeredEntry known)
  · exact last none
  · obtain ⟨m, found, same⟩ := Result.mapOk.mp base
    obtain ⟨kind', none⟩ := Prod.mk.inj same
    -- a qualified name is looked up in the same way from everywhere
    have here : sharedCard.lookup (.qualified "Card" "a") (some n.1) = .ok m := found
    refine .mk (fun b member => ?_) ?_
    · rw [one, List.mem_singleton] at member
      rw [member, kind]
      exact ⟨m, here, by rw [kind']; rfl⟩
    · rintro k ⟨b, member, step⟩
      rw [one, List.mem_singleton] at member
      rw [member, here] at step
      cases step
      exact last none

/- The second call gives what the first has kept; by itself it fails, although nothing extends
itself. -/
theorem sharedNamesConfused : (∀ c ∈ sharedCalls, sharedCard.CallHolds c) ∧
    (sharedCard.answers sharedCalls [] ≠
      sharedCalls.map fun c => ((sharedCard.call c).outcome []).1) ∧
    (∃ chain, .error (.cyclicReference chain) ∈
      sharedCalls.map fun c => ((sharedCard.call c).outcome []).1) ∧
    ¬ ∃ n, sharedCard.Registered n ∧ TransGen sharedCard.Extends n n := by
  obtain ⟨given, fresh, _, _⟩ := sharedComputed
  refine ⟨?_, ?_, ?_, ?_⟩
  · rintro c member name current rfl g rfl
    simp [sharedCalls] at member
  · intro same
    rw [same, fresh] at given
    simp at given
  · have failed : .error (.cyclicReference ":Card:a -> :Card:a") ∈
        (sharedCalls.map fun c => ((sharedCard.call c).outcome []).1).map cardKeys := by simp [fresh]
    obtain ⟨answer, member, same⟩ := List.mem_map.mp failed
    cases answer with
    | ok ps => cases same
    | error e =>
      cases same
      exact ⟨_, member⟩
  · rintro ⟨n, known, cycle⟩
    exact groundedAcyclic (sharedGrounded known) cycle

end Card

end StyleScope
end ViewForge
