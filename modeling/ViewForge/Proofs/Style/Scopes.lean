import ViewForge.Proofs.Style.Calls

/-! Styles in a wider scope. A bare name that its group lacks is looked up in the component's own
group, whichever group it stands in, so that a component may give a global style bases that it has
nowhere else. A style that is complete without that group is the same with it. -/
namespace ViewForge

namespace StyleScope

def Within (narrow wide : StyleScope) : Prop :=
  ∀ name current n, narrow.lookup name current = .ok n → wide.lookup name current = .ok n

theorem withinSelf (scope : StyleScope) : scope.Within scope := fun _ _ _ found => found

/- The own group comes last, where the search is over if it has found something. -/
theorem withinOwn (groups : List (String × StyleGroup)) (own : StyleGroup) :
    ({ groups } : StyleScope).Within { groups, own := some own } := by
  intro name current n found
  cases name with
  | qualified group name => exact found
  | inGroup name =>
    unfold lookup at found ⊢
    simp only [Option.toList_none, List.append_nil] at found
    simp only [List.findSome?_append]
    split at found
    · rename_i entry here
      rw [here]
      exact found
    · cases found

section Transfer

variable {narrow wide : StyleScope}

theorem expansionWithin (within : narrow.Within wide) {n : Entry} {full : List Property}
    (expansion : narrow.Expansion n full) : wide.Expansion n full := by
  induction expansion with
  | @mk n full found _ ih =>
    refine .mk full (fun base inside => ?_) (fun base inside m looked => ?_)
    · obtain ⟨m, here⟩ := found base inside
      exact ⟨m, within _ _ _ here⟩
    · obtain ⟨m', here⟩ := found base inside
      cases Except.ok.inj (looked.symm.trans (within _ _ _ here))
      exact ih base inside m here

theorem groundedWithin (within : narrow.Within wide) {n : Entry} (grounded : narrow.Grounded n) :
    wide.Grounded n := by
  induction grounded with
  | @mk n found _ ih =>
    refine .mk (fun base inside => ?_) ?_
    · obtain ⟨m, here, suits⟩ := found base inside
      exact ⟨m, within _ _ _ here, suits⟩
    · rintro m ⟨base, inside, looked⟩
      obtain ⟨m', here, _⟩ := found base inside
      cases Except.ok.inj (looked.symm.trans (within _ _ _ here))
      exact ih m ⟨base, inside, here⟩

theorem flattenedWithin (within : narrow.Within wide) {n : Entry} {ps : List Property}
    (flat : narrow.Flattened n ps) : wide.Flattened n ps := by
  obtain ⟨full, expansion, same⟩ := flat.expanded
  exact ⟨groundedWithin within flat.grounded, full, expansionWithin within expansion, same⟩

theorem mergeBaseWithin (within : narrow.Within wide) {fuel more : Nat} {visiting : List String}
    {n : Entry}
    (deeper : ∀ {base cache ps next},
      (narrow.flattenFrom fuel (visiting ++ [qualifiedName n]) base (some n.1)).outcome cache =
        (.ok ps, next) →
      (wide.flattenFrom more (visiting ++ [qualifiedName n]) base (some n.1)).outcome cache =
        (.ok ps, next))
    {base : StyleName} {merged ps : List Property} {cache next : StyleCache}
    (ok : (narrow.mergeBase fuel visiting n merged base).outcome cache = (.ok ps, next)) :
    (wide.mergeBase more visiting n merged base).outcome cache = (.ok ps, next) := by
  obtain ⟨m, qs, found, suits, flat, rfl⟩ := mergeBaseGives ok
  unfold mergeBase
  rw [within _ _ _ found]
  refine Task.bindGives.mpr ⟨m, cache, rfl, ?_⟩
  simp only [suits, Bool.not_true, Bool.false_eq_true, if_false]
  exact Task.bindGives.mpr ⟨qs, next, deeper flat, rfl⟩

/- A wider scope has more styles and so more fuel. The induction is on the fuel of the narrow one. -/
theorem flattenFromWithin (within : narrow.Within wide) {fuel more : Nat} (enough : fuel ≤ more)
    {visiting : List String} {name : StyleName} {current : Option StyleGroup}
    {cache next : StyleCache} {ps : List Property}
    (ok : (narrow.flattenFrom fuel visiting name current).outcome cache = (.ok ps, next)) :
    (wide.flattenFrom more visiting name current).outcome cache = (.ok ps, next) := by
  induction fuel generalizing more visiting name current cache next ps with
  | zero => simp [flattenFrom] at ok
  | succ fuel ih =>
    obtain ⟨more, rfl⟩ : ∃ k, more = k + 1 := ⟨more - 1, by omega⟩
    obtain ⟨n, found, _⟩ := flattenFromGives ok
    rw [flattenFromStep _ _ _ found] at ok
    rw [flattenFromStep _ _ _ (within _ _ _ found)]
    split at ok
    · simp at ok
    · rename_i fresh
      rw [if_neg fresh]
      simp only [Task.getBind] at ok ⊢
      split at ok
      · exact ok
      · obtain ⟨inherited, between, bases, last⟩ := Task.bindGives.mp ok
        refine Task.bindGives.mpr ⟨inherited, between, ?_, last⟩
        exact Task.foldlCarries (fun base _ merged qs s t =>
          mergeBaseWithin within (ih (by omega))) bases

end Transfer

theorem sizeOwn (groups : List (String × StyleGroup)) (own : StyleGroup) :
    ({ groups } : StyleScope).size ≤ ({ groups, own := some own } : StyleScope).size := by
  simp [size]

/- Nothing is asked of the groups: the own one may have the name of a global group, and styles the
names of global styles. -/
theorem globalStyleFixed (groups : List (String × StyleGroup)) (own : StyleGroup)
    (group name : String) (here there : Option StyleGroup) {ps : List Property}
    (ok : ((({ groups } : StyleScope).flatten (.qualified group name) here).outcome []).1 =
      .ok ps) :
    ((({ groups, own := some own } : StyleScope).flatten (.qualified group name) there).outcome
      []).1 = .ok ps := by
  have enough : ({ groups } : StyleScope).size + 1 ≤
      ({ groups, own := some own } : StyleScope).size + 1 := by
    have fewer := sizeOwn groups own
    omega
  have wide := flattenFromWithin (withinOwn groups own) enough (Prod.ext ok rfl)
  -- a name with a group does not ask where it stands
  have anywhere : ∀ fuel, ({ groups, own := some own } : StyleScope).flattenFrom (fuel + 1) []
      (.qualified group name) here =
        ({ groups, own := some own } : StyleScope).flattenFrom (fuel + 1) []
          (.qualified group name) there := fun _ => rfl
  unfold flatten
  rw [← anywhere]
  exact congrArg Prod.fst wide

def cardSheet : List Markup.Node :=
  [cardStyle "a" "" "alpha" "1", cardStyle "b" "a" "clipsToBounds" "true"]

def cardOthers : List Markup.Node := [cardStyle "a" "" "isHidden" "true"]

/- The component has an `a` of its own, in a group of the same name. -/
theorem globalCardFixed : ∃ ps, ps.map Property.key = ["alpha", "clipsToBounds"] ∧
    ((({ groups := [("Card", cardGroup cardSheet)] } : StyleScope).flatten (.qualified "Card" "b")
      none).outcome []).1 = .ok ps ∧
    (((cardScope cardSheet cardOthers).flatten (.qualified "Card" "b")
      (some (cardGroup cardOthers))).outcome []).1 = .ok ps := by
  have computed : cardKeys ((({ groups := [("Card", cardGroup cardSheet)] } :
      StyleScope).flatten (.qualified "Card" "b") none).outcome []).1 =
        .ok ["alpha", "clipsToBounds"] := by decide +kernel
  obtain ⟨ps, ok, keys⟩ := Result.mapOk.mp computed
  exact ⟨ps, keys, ok, globalStyleFixed _ (cardGroup cardOthers) _ _ _ _ ok⟩

end StyleScope
end ViewForge
