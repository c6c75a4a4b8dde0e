import ViewForge.Proofs.Registry
import ViewForge.Proofs.Style.Flatten
import ViewForge.Resolve.Component

/-! What the elements of a component are set to. The properties of an element end with its own, none
of which is lost, and all that its styles put before them are values. -/
namespace ViewForge

def Property.IsLiteral (p : Property) : Prop := ∃ v, p.binding = .value v

def Property.IsStyled (p : Property) : Prop := p.IsLiteral ∧ p.IsOutside

theorem memMerge {ps : List Property} {p q : Property} (member : q ∈ merge ps p) :
    q ∈ ps ∨ q = p := by
  rcases List.mem_append.mp member with before | last
  · exact .inl (List.mem_filter.mp before).1
  · exact .inr (List.mem_singleton.mp last)

theorem memMergeAll {ps more : List Property} {q : Property} (member : q ∈ mergeAll ps more) :
    q ∈ ps ∨ q ∈ more := by
  induction more generalizing ps with
  | nil => exact .inl member
  | cons p rest ih =>
    have merged : q ∈ mergeAll (merge ps p) rest := member
    rcases ih merged with before | later
    · rcases memMerge before with old | rfl
      · exact .inl old
      · exact .inr List.mem_cons_self
    · exact .inr (List.mem_cons_of_mem _ later)

theorem mergeAllStyled {ps more : List Property} (before : ∀ p ∈ ps, p.IsStyled)
    (after : ∀ p ∈ more, p.IsStyled) : ∀ p ∈ mergeAll ps more, p.IsStyled :=
  fun p member => (memMergeAll member).elim (before p) (after p)

namespace StyleScope

structure IsRead (scope : StyleScope) : Prop where
  groups : ∀ name g, (name, g) ∈ scope.groups → g.IsRead
  own : ∀ g, scope.own = some g → g.IsRead

def KeepsStyled (cache : StyleCache) : Prop :=
  ∀ key ps, cache.lookup key = some ps → ∀ p ∈ ps, p.IsStyled

variable {scope : StyleScope}

theorem lookupStyled (read : scope.IsRead) {name : StyleName} {current : Option StyleGroup}
    (known : ∀ g, current = some g → g.IsRead) {n : Entry}
    (found : scope.lookup name current = .ok n) :
    n.1.IsRead ∧ ∀ p ∈ n.2.properties, p.IsStyled := by
  have within : ∃ g : StyleGroup, g.IsRead ∧
      ∃ own, (g.find? own).map (fun s => (g, s)) = some n := by
    unfold lookup at found
    cases name with
    | qualified group own =>
      simp only at found
      split at found
      · rename_i result some
        cases found
        obtain ⟨g, held, inside⟩ := Option.bind_eq_some_iff.mp some
        exact ⟨g, read.groups group g (Ordered.memOfLookup held), own, inside⟩
      · cases found
    | inGroup own =>
      simp only at found
      split at found
      · rename_i result some
        cases found
        obtain ⟨g, member, inside⟩ := List.exists_of_findSome?_eq_some some
        refine ⟨g, ?_, own, inside⟩
        rcases List.mem_append.mp member with here | outer
        · exact known g (Option.mem_toList.mp here)
        · exact read.own g (Option.mem_toList.mp outer)
      · cases found
  obtain ⟨g, groupRead, own, inside⟩ := within
  obtain ⟨s, listed, rfl⟩ := Option.map_eq_some_iff.mp inside
  obtain ⟨node, styleRead⟩ := groupRead s (List.mem_of_find?_eq_some listed)
  refine ⟨groupRead, fun p member => ?_⟩
  obtain ⟨literal, described⟩ := Style.readValues styleRead p member
  exact ⟨literal, StyleKind.tableOutside described⟩

/- The induction is on what is left of the way; what has been merged and what is kept are styled. -/
theorem flattenFromStyled (read : scope.IsRead) {fuel : Nat} {visiting : List String}
    {name : StyleName} {current : Option StyleGroup} (known : ∀ g, current = some g → g.IsRead)
    {ps : List Property} {cache next : StyleCache} (literal : KeepsStyled cache)
    (ok : (scope.flattenFrom fuel visiting name current).outcome cache = (.ok ps, next)) :
    (∀ p ∈ ps, p.IsStyled) ∧ KeepsStyled next := by
  induction fuel generalizing visiting name current ps cache next with
  | zero => simp [flattenFrom] at ok
  | succ fuel ih =>
    obtain ⟨n, found, ⟨kept, rfl⟩ | ⟨inherited, between, bases, rfl, rfl⟩⟩ := flattenFromGives ok
    · exact ⟨literal _ ps kept, literal⟩
    · obtain ⟨groupRead, own⟩ := lookupStyled read known found
      obtain ⟨first, kept⟩ := Task.foldlKeeps
        (I := fun merged cache => (∀ p ∈ merged, p.IsStyled) ∧ KeepsStyled cache)
        (fun base _ before cache merged between holds step => by
          obtain ⟨_, qs, _, _, flat, rfl⟩ := mergeBaseGives step
          obtain ⟨flatLiteral, kept⟩ := ih (by rintro g ⟨⟩; exact groupRead) holds.2 flat
          exact ⟨mergeAllStyled holds.1 flatLiteral, kept⟩)
        ⟨by simp, literal⟩ bases
      have all := mergeAllStyled first own
      refine ⟨all, fun key ps looked => ?_⟩
      rw [List.lookup_cons] at looked
      split at looked
      · cases looked
        exact all
      · exact kept key ps looked

structure Merged (e : Element) (ps : List Property) : Prop where
  keys : (ps.map Property.key).Nodup
  own : ∃ styled, ps = styled ++ e.properties ∧ ∀ p ∈ styled, p.IsLiteral
  outside : ∀ p ∈ ps, p.IsOutside

theorem mergedOwn {e : Element} (tidy : e.Tidy) {styled : List Property}
    (distinct : lastOccurrences styled = styled) (literal : ∀ p ∈ styled, p.IsStyled) :
    Merged e (mergeAll styled e.properties) := by
  have merged : mergeAll styled e.properties = lastOccurrences (styled ++ e.properties) := by
    rw [← mergeAllLast, distinct]
  obtain ⟨before, split⟩ := lastOccurrencesSuffix styled e.properties
  rw [lastOccurrencesOfNodup tidy.keys] at split
  have keys := lastOccurrencesNodup (styled ++ e.properties)
  have outside : ∀ p ∈ mergeAll styled e.properties, p.IsOutside := fun p member =>
    (memMergeAll member).elim (fun early => (literal p early).2) (tidy.outside p)
  rw [merged] at outside ⊢
  refine ⟨keys, ⟨before, split.symm, fun p member => ?_⟩, outside⟩
  have kept : p ∈ mergeAll styled e.properties := by
    rw [merged, ← split]
    exact List.mem_append_left _ member
  rcases memMergeAll kept with early | late
  · exact (literal p early).1
  · -- A property of the element itself stands in the second part, and keys do not repeat.
    rw [← split, List.map_append] at keys
    exact absurd rfl ((List.nodup_append.mp keys).2.2 p.key (List.mem_map_of_mem member) p.key
      (List.mem_map_of_mem late))

theorem resolveMerged (read : scope.IsRead) {e : Element} (tidy : e.Tidy) {ps : List Property}
    {cache next : StyleCache} (literal : KeepsStyled cache)
    (ok : (scope.resolve e).outcome cache = (.ok ps, next)) :
    Merged e ps ∧ KeepsStyled next := by
  unfold resolve at ok
  obtain ⟨styled, between, styles, last⟩ := Task.bindGives.mp ok
  simp only [Task.outcomePure, Prod.mk.injEq, Except.ok.injEq] at last
  obtain ⟨rfl, rfl⟩ := last
  obtain ⟨distinct, first, kept⟩ := Task.foldlKeeps
    (I := fun merged cache => lastOccurrences merged = merged ∧ (∀ p ∈ merged, p.IsStyled) ∧
      KeepsStyled cache)
    (fun name _ before cache merged between holds step => by
      obtain ⟨distinct, first, literal⟩ := holds
      obtain ⟨n, _, step⟩ := Task.liftBindGives step
      simp only at step
      split at step
      · simp at step
      · obtain ⟨qs, v, flat, last⟩ := Task.bindGives.mp step
        simp only [Task.outcomePure, Prod.mk.injEq, Except.ok.injEq] at last
        obtain ⟨rfl, rfl⟩ := last
        obtain ⟨flatLiteral, kept⟩ := flattenFromStyled read (by simp) literal flat
        have again : mergeAll before qs = lastOccurrences (before ++ qs) := by
          rw [← mergeAllLast, distinct]
        refine ⟨?_, mergeAllStyled first flatLiteral, kept⟩
        rw [again]
        exact lastOccurrencesOfNodup (lastOccurrencesNodup _))
    ⟨rfl, by simp, literal⟩ styles
  exact ⟨mergedOwn tidy distinct first, kept⟩

end StyleScope

namespace Registry

theorem scopeRead {r : Registry} (filled : r.Filled) {d : ComponentDefinition} (tidy : d.Tidy) :
    StyleScope.IsRead { groups := r.styleGroups, own := some d.styles } where
  groups name g member := by
    obtain ⟨_, node, fallback, read⟩ := groupsRead filled member
    exact StyleGroup.readRead read
  own g same := by
    cases same
    exact tidy.styles

/- The properties are listed element by element, as no two elements share an id. -/
theorem resolvePropertiesMerged {r : Registry} (filled : r.Filled) {d : ComponentDefinition}
    (tidy : d.Tidy) {properties : List (String × List Property)}
    (ok : r.resolveProperties d = .ok properties) :
    List.Forall₂ (fun e entry => entry.1 = e.id.name ∧ StyleScope.Merged e entry.2)
      d.elements properties := by
  unfold resolveProperties at ok
  obtain ⟨found, outcome, last⟩ := Result.bindOk.mp ok
  have read := scopeRead filled tidy
  generalize StyleScope.mk r.styleGroups (some d.styles) = scope at outcome read
  have each : ∀ (es : List Element) found cache, (∀ e ∈ es, e.Tidy) →
      StyleScope.KeepsStyled cache →
      ((es.mapM (r.elementProperties scope)).outcome cache).1 = .ok found →
      List.Forall₂ (fun e entry => entry.1 = e.id.name ∧ StyleScope.Merged e entry.2) es found := by
    intro es
    induction es with
    | nil =>
      intro found cache _ _ ok
      cases ok
      exact .nil
    | cons e rest ih =>
      intro found cache elements literal ok
      obtain ⟨entry, t, others, first, more, rfl⟩ := Task.mapGives (Prod.ext ok rfl)
      unfold elementProperties at first
      obtain ⟨merged, u, resolved, first⟩ := Task.bindGives.mp first
      obtain ⟨_, _, last⟩ := Task.liftBindGives first
      simp only [Task.outcomePure, Prod.mk.injEq, Except.ok.injEq] at last
      obtain ⟨rfl, rfl⟩ := last
      obtain ⟨whole, kept⟩ := StyleScope.resolveMerged read (elements e List.mem_cons_self) literal
        resolved
      refine .cons ⟨rfl, whole⟩ (ih _ _ ?_ kept (congrArg Prod.fst more))
      exact fun x member => elements x (List.mem_cons_of_mem _ member)
  have listed := each d.elements found [] tidy.elements (by simp [StyleScope.KeepsStyled]) outcome
  have names : found.map Prod.fst = d.elements.map (·.id.name) := by
    rw [← List.forall₂_eq_eq_eq, List.forall₂_map_left_iff, List.forall₂_map_right_iff]
    exact (listed.imp fun e entry facts => facts.1).flip
  cases last
  rw [Ordered.putDistinct (by rw [List.nil_append, names]; exact tidy.ids)]
  exact listed

end Registry
end ViewForge
