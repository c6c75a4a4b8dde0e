import ViewForge.Proofs.Resolve.Cache
import ViewForge.Proofs.Resolver

/-! What is set on the views of a component. An element has a view of its own, on which its own
properties are set; a component that is referred to is built into the view of its reference, so that
its root is set there as well. Whatever else is built within has views of its own. -/
namespace ViewForge

theorem Registry.rootContainer {r : Registry} (filled : r.Filled) {d : ComponentDefinition}
    (member : d ∈ r.allDefinitions) : d.root.kind = .widget .container := by
  obtain ⟨outer, registered, inside⟩ := List.mem_flatMap.mp member
  exact (nestedFrom filled registered inside).container

def LiveTree.views : LiveTree → List (String × ViewNumber)
  | node views _ _ => views

namespace LiveSession
open Live ViewForge.Task

variable {s : LiveSession} {d : ComponentDefinition} {res : Resolved} {state next : LiveState}

/-- What is set for the root of the component behind an element, if there is one: all its properties,
with their values for the arguments of the reference. -/
inductive Fills (s : LiveSession) (values : StateValues) (e : Element) :
    List (Property × LiveValue) → Prop where
  | nothing (plain : e.kind.reference? = none) : Fills s values e []
  | root {reference : ComponentReference} {x : ComponentDefinition} {y : Resolved}
      {arguments : StateValues} {settings : List (Property × LiveValue)}
      (kind : e.kind = .component reference) (behind : s.registry.behind? e = some x)
      (derivation : s.registry.Derivation x y)
      (given : argumentValues y values reference.arguments = .ok arguments)
      (valued : s.Valued (itemValues y arguments) settings)
      (complete : settings.map Prod.fst = y.propertiesOf x.root)
      (keys : (settings.map fun a => a.1.key).Nodup) : Fills s values e settings

/-- What is set on the view of an element: its own properties, and those of the root of the component
that is built into the view. -/
structure Shown where
  element : Element
  view : ViewNumber
  own : List (Property × LiveValue)
  inner : List (Property × LiveValue)

namespace Shown

def place (x : Shown) : String × ViewNumber := (x.element.id.name, x.view)

def pairs (x : Shown) (settings : List (Property × LiveValue)) : List (String × String) :=
  settings.map fun a => (x.element.id.name, a.1.key)

end Shown

/-- What a run sets for a component. Every element has one view, on which there is one setting for
every property of the element, each of which has a value, one for every property of the root of the
component behind it, and no other. -/
structure Sets (s : LiveSession) (d : ComponentDefinition) (res : Resolved) (state next : LiveState)
    (tree : LiveTree) (shown : List Shown) (added : List LiveEvent) : Prop where
  elements : shown.map Shown.element = d.elements
  distinct : (shown.map Shown.view).Nodup
  views : ∃ nested active, tree = .node (shown.map Shown.place) nested active
  known : ∀ e ∈ d.elements, ∀ q ∈ res.propertiesOf e, (q.valueIn (itemValues res [])).isSome
  valued : ∀ x ∈ shown, s.Valued (itemValues res []) x.own
  properties : ∀ x ∈ shown, x.own.map Prod.fst = res.propertiesOf x.element
  fills : ∀ x ∈ shown, s.Fills (itemValues res []) x.element x.inner
  events : next.events = state.events ++ added
  settings : ∀ x ∈ shown,
    (added.filter (·.setsView x.view)).Perm (settingEvents x.view (x.own ++ x.inner))

section Setting

variable {tree : LiveTree} {shown : List Shown} {added : List LiveEvent}

end Setting

section Building

variable {I : LiveState → Prop} {build : Builder} {root : ViewNumber} {arguments : StateValues}
  {tree : LiveTree} {ps : List Placement}

end Building

section Sound

variable (filled : s.registry.Filled)
include filled

end Sound

end LiveSession
end ViewForge
