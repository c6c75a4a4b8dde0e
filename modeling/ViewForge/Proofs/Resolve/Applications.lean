import ViewForge.Proofs.Resolve.Derivation
import ViewForge.Proofs.Resolve.Properties
import ViewForge.Proofs.Resolve.State

/-! The properties of a component that is resolved, and where they are to be applied: at once, with
every theme, or whenever a state item changes. Every property has one place, and the places of all
properties are among those of the component. -/
namespace ViewForge

inductive Place where
  | loading
  | theming
  | changing (item : String)
  deriving DecidableEq

def Property.place (p : Property) : Place :=
  match p.state? with
  | some name => .changing name
  | none => if p.isThemed then .theming else .loading

namespace Resolved

def applications (res : Resolved) : List (String × Property) :=
  res.properties.flatMap fun entry => entry.2.map fun p => (entry.1, p)

def pairs (res : Resolved) : List (String × String) := res.applications.map fun a => (a.1, a.2.key)

def appliedAt (res : Resolved) (place : Place) : List (String × Property) :=
  res.applications.filter (·.2.place = place)

def places (res : Resolved) : List Place :=
  .loading :: .theming :: res.state.map fun item => .changing item.name

structure Describes (d : ComponentDefinition) (res : Resolved) : Prop where
  definition : res.definition = d
  properties : List.Forall₂ (fun e entry => entry.1 = e.id.name ∧ StyleScope.Merged e entry.2)
    d.elements res.properties
  items : StateItem.Complete d res.state

end Resolved

theorem Registry.derivationDescribes {r : Registry} (filled : r.Filled) {d : ComponentDefinition}
    (member : d ∈ r.allDefinitions) {res : Resolved} (derivation : r.Derivation d res) :
    res.Describes d := by
  have tidy := allDefinitionsTidy filled member
  obtain ⟨oracle, _, _, _, described⟩ := derivation
  have run := describeLifted r oracle d {}
  rw [described] at run
  unfold describe at run
  obtain ⟨properties, merged, run⟩ := Task.liftBindGives run
  obtain ⟨state, _, items, run⟩ := Task.bindGives.mp run
  obtain ⟨actions, _, _, last⟩ := Task.bindGives.mp run
  cases last
  exact ⟨rfl, resolvePropertiesMerged filled tidy merged, StateItem.resolveAllComplete tidy items⟩

/- Groups of distinct keys together are what has one of the keys. -/
theorem groupsPerm {α κ : Type} [DecidableEq κ] (key : α → κ) (items : List α) {keys : List κ}
    (distinct : keys.Nodup) :
    (keys.flatMap fun k => items.filter (key · = k)).Perm (items.filter (key · ∈ keys)) := by
  induction keys with
  | nil => simp
  | cons k rest ih =>
    obtain ⟨fresh, distinct⟩ := List.nodup_cons.mp distinct
    have first : (items.filter (key · ∈ k :: rest)).filter (key · = k) =
        items.filter (key · = k) := by
      rw [List.filter_filter]
      refine List.filter_congr fun a _ => ?_
      by_cases same : key a = k <;> simp [same]
    have others : (items.filter (key · ∈ k :: rest)).filter (fun a => !decide (key a = k)) =
        items.filter (key · ∈ rest) := by
      rw [List.filter_filter]
      refine List.filter_congr fun a _ => ?_
      by_cases same : key a = k
      · simp [same, fresh]
      · simp [same]
    have split := List.filter_append_perm (fun a => decide (key a = k))
      (items.filter (key · ∈ k :: rest))
    rw [first, others] at split
    rw [List.flatMap_cons]
    exact (ih distinct).append_left _ |>.trans split

namespace Resolved

variable {d : ComponentDefinition} {res : Resolved}

theorem propertiesNames (describes : res.Describes d) :
    res.properties.map Prod.fst = d.elements.map (·.id.name) := by
  rw [← List.forall₂_eq_eq_eq, List.forall₂_map_left_iff, List.forall₂_map_right_iff]
  exact (describes.properties.imp fun e entry facts => facts.1).flip

theorem propertiesFound (tidy : d.Tidy) (describes : res.Describes d)
    {entry : String × List Property} (member : entry ∈ res.properties) :
    res.properties.lookup entry.1 = some entry.2 := by
  refine Ordered.lookupOfMem ?_ member
  rw [propertiesNames describes]
  exact tidy.ids

theorem propertiesOfMerged (tidy : d.Tidy) (describes : res.Describes d) {e : Element}
    (member : e ∈ d.elements) : StyleScope.Merged e (res.propertiesOf e) := by
  obtain ⟨entry, inside, named, merged⟩ := forallLeft describes.properties member
  rw [propertiesOf, ← named, propertiesFound tidy describes inside]
  exact merged

theorem propertyBound (tidy : d.Tidy) (describes : res.Describes d) {e : Element}
    (member : e ∈ d.elements) : ∀ p ∈ res.propertiesOf e, p.Bound := by
  intro p inside
  obtain ⟨styled, split, literal⟩ := (propertiesOfMerged tidy describes member).own
  rw [split] at inside
  rcases List.mem_append.mp inside with early | own
  · exact .inl (literal p early)
  · exact (tidy.elements e member).bound p own

end Resolved
end ViewForge
