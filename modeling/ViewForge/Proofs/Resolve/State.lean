import Mathlib.Data.List.ReduceOption
import ViewForge.Proofs.Element.Reader
import ViewForge.Proofs.Ordered
import ViewForge.Resolve.State

/-! State items and the properties that are bound to them. Every variable that a property is bound
to has an item, only one, and its uses name the properties in the order of the elements. -/
namespace ViewForge

namespace Ordered

variable {κ α : Type} [BEq κ] [LawfulBEq κ]

theorem lookupPushSelf (key : κ) (value : α) (entries : List (κ × List α)) :
    (push key value entries).lookup key = some ((entries.lookup key).getD [] ++ [value]) := by
  induction entries with
  | nil => simp [push]
  | cons entry rest ih =>
    obtain ⟨k, vs⟩ := entry
    by_cases same : k = key
    · simp [push, same]
    · simp [push, List.lookup_cons, beq_false_of_ne same, beq_false_of_ne (Ne.symm same), ih]

theorem lookupPushOther {key other : κ} (apart : other ≠ key) (value : α)
    (entries : List (κ × List α)) :
    (push key value entries).lookup other = entries.lookup other := by
  induction entries with
  | nil => simp [push, List.lookup_cons, beq_false_of_ne apart]
  | cons entry rest ih =>
    obtain ⟨k, vs⟩ := entry
    by_cases same : k = key
    · simp [push, same, List.lookup_cons, beq_false_of_ne apart]
    · simp [push, beq_false_of_ne same, List.lookup_cons, ih]

theorem keysPush [DecidableEq κ] (key : κ) (value : α) (entries : List (κ × List α)) :
    (push key value entries).map Prod.fst =
      if key ∈ entries.map Prod.fst then entries.map Prod.fst
      else entries.map Prod.fst ++ [key] := by
  induction entries with
  | nil => simp [push]
  | cons entry rest ih =>
    obtain ⟨k, vs⟩ := entry
    by_cases same : k = key
    · simp [push, same]
    · simp only [push, beq_iff_eq, same, if_false, List.map_cons, ih, List.mem_cons, Ne.symm same,
        false_or]
      split <;> rfl

theorem nodupPush {key : κ} {value : α} {entries : List (κ × List α)}
    (distinct : (entries.map Prod.fst).Nodup) : ((push key value entries).map Prod.fst).Nodup := by
  classical
  rw [keysPush]
  split
  · exact distinct
  · rename_i fresh
    rw [← List.concat_eq_append]
    exact distinct.concat fresh

/- What entries give, where they give something, keeps the order of their keys. -/
omit [BEq κ] [LawfulBEq κ] in
theorem namesReduced {β : Type} {name : β → κ} {entries : List (κ × α)} {found : List (Option β)}
    (each : List.Forall₂ (fun entry o => ∀ b, o = some b → name b = entry.1) entries found) :
    List.Sublist (found.reduceOption.map name) (entries.map Prod.fst) := by
  induction each with
  | nil => exact .slnil
  | @cons entry o entries found named _ ih =>
    cases o with
    | none => exact ih.cons _
    | some b =>
      rw [List.reduceOption_cons_of_some, List.map_cons, List.map_cons, named b rfl]
      exact ih.cons_cons _

end Ordered

def StateApplication.property? (a : StateApplication) : Option (String × Property) :=
  match a.target with
  | .property p => some (a.element, p)
  | .componentState _ => none

def StateItem.bound (item : StateItem) : List (String × Property) :=
  item.applications.filterMap (·.property?)

def Element.boundTo (name : String) (e : Element) : List (String × Property) :=
  (e.properties.filter (·.state? = some name)).map fun p => (e.id.name, p)

def ComponentDefinition.boundTo (d : ComponentDefinition) (name : String) :
    List (String × Property) :=
  d.elements.flatMap (Element.boundTo name)

namespace StateItem

def boundIn (uses : Uses) (name : String) : List (String × Property) :=
  ((uses.lookup name).getD []).filterMap (·.property?)

theorem boundPush (uses : Uses) (key name : String) (a : StateApplication) :
    boundIn (Ordered.push key a uses) name =
      boundIn uses name ++ if name = key then a.property?.toList else [] := by
  unfold boundIn
  split
  · rename_i same
    subst same
    rw [Ordered.lookupPushSelf, Option.getD_some, List.filterMap_append]
    cases found : a.property? <;> simp [found]
  · rename_i apart
    rw [Ordered.lookupPushOther apart, List.append_nil]

theorem propertyUsesBound (id : String) (uses : Uses) (ps : List Property) (name : String) :
    boundIn (propertyUses id uses ps) name =
      boundIn uses name ++ (ps.filter (·.state? = some name)).map fun p => (id, p) := by
  induction ps generalizing uses with
  | nil => simp [propertyUses]
  | cons p rest ih =>
    rw [propertyUses]
    cases bound : p.state? with
    | none => simp [ih, bound]
    | some found =>
      rw [ih, boundPush]
      by_cases same : name = found
      · simp [same, bound, StateApplication.property?]
      · simp [same, bound, Ne.symm same]

theorem propertyUsesDistinct {id : String} {uses : Uses} (distinct : (uses.map Prod.fst).Nodup)
    (ps : List Property) : ((propertyUses id uses ps).map Prod.fst).Nodup := by
  induction ps generalizing uses with
  | nil => exact distinct
  | cons p rest ih =>
    rw [propertyUses]
    split
    · exact ih (Ordered.nodupPush distinct)
    · exact ih distinct

theorem argumentUsesKeep {id typeName : String} {child : Resolved} {uses found : Uses}
    {arguments : List (String × String)}
    (ok : argumentUses id typeName child uses arguments = .ok found) :
    (∀ name, boundIn found name = boundIn uses name) ∧
      ((uses.map Prod.fst).Nodup → (found.map Prod.fst).Nodup) := by
  induction arguments generalizing uses with
  | nil =>
    cases ok
    exact ⟨fun _ => rfl, fun distinct => distinct⟩
  | cons argument rest ih =>
    obtain ⟨name, raw⟩ := argument
    rw [argumentUses] at ok
    split at ok
    · cases ok
    · split at ok
      · obtain ⟨same, distinct⟩ := ih ok
        refine ⟨fun name => ?_, fun before => distinct (Ordered.nodupPush before)⟩
        rw [same, boundPush]
        simp [StateApplication.property?]
      · obtain ⟨_, _, ok⟩ := Result.bindOk.mp ok
        exact ih ok

theorem elementUsesBound {resolveChild : ChildResolver} {uses found : Uses} {e : Element}
    {s t : ResolverState} (ok : (elementUses resolveChild uses e).outcome s = (.ok found, t)) :
    (∀ name, boundIn found name = boundIn uses name ++ e.boundTo name) ∧
      ((uses.map Prod.fst).Nodup → (found.map Prod.fst).Nodup) := by
  have own := fun name => propertyUsesBound e.id.name uses e.properties name
  have distinct : (uses.map Prod.fst).Nodup →
      ((propertyUses e.id.name uses e.properties).map Prod.fst).Nodup :=
    fun before => propertyUsesDistinct before e.properties
  unfold elementUses at ok
  simp only at ok
  split at ok
  · cases ok
    exact ⟨own, distinct⟩
  · split at ok
    · cases ok
      exact ⟨own, distinct⟩
    · obtain ⟨child, u, _, last⟩ := Task.bindGives.mp ok
      obtain ⟨same, kept⟩ := argumentUsesKeep (Task.liftGives last).1
      exact ⟨fun name => (same name).trans (own name), fun before => kept (distinct before)⟩

theorem usesBound {resolveChild : ChildResolver} {es : List Element} {uses found : Uses}
    {s t : ResolverState} (ok : (es.foldlM (elementUses resolveChild) uses).outcome s =
      (.ok found, t)) :
    (∀ name, boundIn found name = boundIn uses name ++ es.flatMap (Element.boundTo name)) ∧
      ((uses.map Prod.fst).Nodup → (found.map Prod.fst).Nodup) := by
  induction es generalizing uses s with
  | nil =>
    cases ok
    exact ⟨by simp, id⟩
  | cons e rest ih =>
    obtain ⟨between, u, first, others⟩ := Task.foldlGives.mp ok
    obtain ⟨here, distinct⟩ := elementUsesBound first
    obtain ⟨later, kept⟩ := ih others
    refine ⟨fun name => ?_, fun before => kept (distinct before)⟩
    rw [later, here, List.flatMap_cons, List.append_assoc]

theorem inferredGives {use : String × List StateApplication} {item : StateItem}
    (ok : inferred use = .ok (some item)) : item.name = use.1 ∧ item.applications = use.2 := by
  obtain ⟨name, applications⟩ := use
  cases applications with
  | nil => cases ok
  | cons first rest =>
    rw [inferred] at ok
    obtain ⟨unified, _, last⟩ := Result.bindOk.mp ok
    cases last
    exact ⟨rfl, rfl⟩

theorem inferredSome {use : String × List StateApplication} {found : Option StateItem}
    (used : use.2 ≠ []) (ok : inferred use = .ok found) : found.isSome = true := by
  obtain ⟨name, applications⟩ := use
  cases applications with
  | nil => exact absurd rfl used
  | cons first rest =>
    rw [inferred] at ok
    obtain ⟨unified, _, last⟩ := Result.bindOk.mp ok
    cases last
    rfl

theorem inferredNames {uses : Uses} {found : List (Option StateItem)}
    (each : List.Forall₂ (fun use item => inferred use = .ok item) uses found) :
    List.Sublist (found.reduceOption.map (·.name)) (uses.map Prod.fst) :=
  Ordered.namesReduced (each.imp fun _ _ ok _ same => (inferredGives (same ▸ ok)).1)

structure Complete (d : ComponentDefinition) (items : List StateItem) : Prop where
  distinct : (items.map (·.name)).Nodup
  bound : ∀ item ∈ items, item.bound = d.boundTo item.name
  covers : ∀ name, d.boundTo name ≠ [] → ∃ item ∈ items, item.name = name

section Items

variable {d : ComponentDefinition} {uses : Uses} {found : List (Option StateItem)}

theorem itemApplications (distinct : (uses.map Prod.fst).Nodup)
    (each : List.Forall₂ (fun use item => inferred use = .ok item)
      (uses.filter fun u => !d.state.items.any (·.name == u.1)) found) {item : StateItem}
    (member : item ∈ d.state.items.map (declared uses) ++ found.reduceOption) :
    item.applications = (uses.lookup item.name).getD [] := by
  rcases List.mem_append.mp member with explicit | implicit
  · obtain ⟨declaration, _, rfl⟩ := List.mem_map.mp explicit
    rfl
  · obtain ⟨use, filtered, ok⟩ := forallRight each (List.reduceOption_mem_iff.mp implicit)
    obtain ⟨named, applied⟩ := inferredGives ok
    have looked := Ordered.lookupOfMem distinct (List.mem_filter.mp filtered).1
    rw [named, looked, ← applied]
    rfl

theorem itemListed (each : List.Forall₂ (fun use item => inferred use = .ok item)
      (uses.filter fun u => !d.state.items.any (·.name == u.1)) found) {name : String}
    (used : (uses.lookup name).getD [] ≠ []) :
    ∃ item ∈ d.state.items.map (declared uses) ++ found.reduceOption, item.name = name := by
  by_cases listed : ∃ declaration ∈ d.state.items, declaration.name = name
  · obtain ⟨declaration, member, rfl⟩ := listed
    exact ⟨declared uses declaration, List.mem_append_left _ (List.mem_map_of_mem member), rfl⟩
  · cases looked : uses.lookup name with
    | none => simp [looked] at used
    | some applications =>
      have inside : (name, applications) ∈
          uses.filter fun u => !d.state.items.any (·.name == u.1) := by
        refine List.mem_filter.mpr ⟨Ordered.memOfLookup looked, ?_⟩
        simpa using listed
      obtain ⟨item, kept, ok⟩ := forallLeft each inside
      have some : item.isSome = true := inferredSome (by simpa [looked] using used) ok
      obtain ⟨item, rfl⟩ := Option.isSome_iff_exists.mp some
      exact ⟨item, List.mem_append_right _ (List.reduceOption_mem_iff.mpr kept),
        (inferredGives ok).1⟩

theorem itemsComplete (declaredOnce : (d.state.items.map (·.name)).Nodup)
    (distinct : (uses.map Prod.fst).Nodup) (same : ∀ name, boundIn uses name = d.boundTo name)
    (each : List.Forall₂ (fun use item => inferred use = .ok item)
      (uses.filter fun u => !d.state.items.any (·.name == u.1)) found) :
    Complete d (d.state.items.map (declared uses) ++ found.reduceOption) where
  distinct := by
    have names : (d.state.items.map (declared uses)).map (·.name) =
        d.state.items.map (·.name) := by
      rw [List.map_map]
      rfl
    rw [List.map_append, names]
    have inferredOnce : ((uses.filter fun u => !d.state.items.any (·.name == u.1)).map
        Prod.fst).Nodup := distinct.sublist (List.filter_sublist.map _)
    refine List.nodup_append.mpr
      ⟨declaredOnce, inferredOnce.sublist (inferredNames each), ?_⟩
    rintro name explicit other implicit rfl
    obtain ⟨declaration, listed, named⟩ := List.mem_map.mp explicit
    obtain ⟨use, filtered, same⟩ := List.mem_map.mp ((inferredNames each).subset implicit)
    have unlisted := (List.mem_filter.mp filtered).2
    simp only [Bool.not_eq_true', List.any_eq_false, beq_iff_eq] at unlisted
    exact unlisted declaration listed (named.trans same.symm)
  bound := by
    intro item member
    rw [← same, boundIn, ← itemApplications distinct each member]
    rfl
  covers := by
    intro name used
    rw [← same] at used
    refine itemListed each fun none => used ?_
    rw [boundIn, none]
    rfl

end Items

theorem resolveAllComplete {resolveChild : ChildResolver} {d : ComponentDefinition}
    (tidy : d.Tidy) {items : List StateItem} {s t : ResolverState}
    (ok : (resolveAll resolveChild d).outcome s = (.ok items, t)) : Complete d items := by
  unfold resolveAll at ok
  obtain ⟨uses, u, folded, ok⟩ := Task.bindGives.mp ok
  obtain ⟨found, implicit, last⟩ := Task.liftBindGives ok
  obtain ⟨same, distinct⟩ := usesBound folded
  cases last
  exact itemsComplete tidy.items (distinct List.nodup_nil) same (Result.mapMOk implicit)

end StateItem
end ViewForge
