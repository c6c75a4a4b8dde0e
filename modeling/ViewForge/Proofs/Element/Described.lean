import ViewForge.Proofs.Element.Reader

/-! The properties that an element gets from its attributes. They stand in the order of the
attributes, and the table of the element's kind finds each of them under its own key. -/
namespace ViewForge
open Markup (Node)

def PropertyTable.Describes (table : PropertyTable) (p : Property) : Prop :=
  table.find? p.key = some (p.description, p.controlState)

theorem PropertyTable.propertyDescribed {table : PropertyTable} {name raw : String} {p : Property}
    (ok : table.property name raw = .ok (some p)) : table.Describes p := by
  have key := (propertyRead ok).1
  unfold property at ok
  split at ok
  · cases ok
  · rename_i d state found
    obtain ⟨binding, _, same⟩ := Result.mapOk.mp ok
    cases same
    rw [Describes, key]
    exact found

namespace Element

def IsDescribed (e : Element) : Prop := ∀ p ∈ e.properties, e.kind.table.Describes p

theorem applyPropertyDescribed {tag name raw : String} {before e : Element} {s t : ReadState}
    (described : before.IsDescribed)
    (ok : (applyProperty tag before name raw).outcome s = (.ok e, t)) : e.IsDescribed := by
  unfold applyProperty at ok
  split at ok
  · cases ok
    exact described
  · obtain ⟨found, read, ok⟩ := Task.liftBindGives ok
    split at ok
    · rename_i property
      cases ok
      exact List.forall_mem_append.mpr ⟨described,
        List.forall_mem_singleton.mpr (PropertyTable.propertyDescribed read)⟩
    · split at ok
      · rename_i extended given
        cases ok
        unfold addArgument at given
        split at given
        · rename_i r component
          cases given
          -- from outside a component is a view, whatever it is given
          rw [IsDescribed, component] at described
          exact described
        · cases given
      · cases ok
        exact described

theorem applyAttributeDescribed {tag name raw : String} {before e : Element} {s t : ReadState}
    (described : before.IsDescribed)
    (ok : (applyAttribute tag before (name, raw)).outcome s = (.ok e, t)) : e.IsDescribed := by
  unfold applyAttribute at ok
  simp only at ok
  split at ok
  · cases ok
    exact described
  · cases ok
    exact described
  · cases ok
    exact described
  · obtain ⟨styles, _, ok⟩ := Task.liftBindGives ok
    cases ok
    exact described
  · split at ok
    · obtain ⟨constraints, _, ok⟩ := Task.liftBindGives ok
      cases ok
      exact described
    · split at ok
      · obtain ⟨applied, rfl⟩ := Task.liftGives ok
        obtain ⟨call, _, applied⟩ := Result.bindOk.mp applied
        simp only at applied
        split at applied
        · cases applied
        · cases applied
          exact described
      · split at ok
        · cases ok
          exact described
        · exact applyPropertyDescribed described ok

theorem applyAttributesDescribed {tag : String} {attributes : List (String × String)}
    {before e : Element} {s t : ReadState} (described : before.IsDescribed)
    (ok : (applyAttributes tag attributes before).outcome s = (.ok e, t)) : e.IsDescribed := by
  unfold applyAttributes at ok
  obtain ⟨found, between, applied, ok⟩ := Task.bindGives.mp ok
  obtain ⟨_, _, _, last⟩ := Task.bindGives.mp ok
  cases last
  exact Task.foldlKeeps (I := fun e _ => e.IsDescribed)
    (fun _ _ _ _ _ _ described one => applyAttributeDescribed described one)
    described applied

structure Written (attributes : List (String × String)) (e : Element) : Prop where
  tidy : e.Tidy
  order : (e.properties.map Property.key).Sublist (attributes.map Prod.fst)
  described : e.IsDescribed

theorem bareWritten (kind : ElementKind) (id : ElementId) (children : List Element)
    (plain : (bare kind id).arguments = []) : Written [] { bare kind id with children } where
  tidy := ⟨(bareTidy plain).keys, (bareTidy plain).bound, (bareTidy plain).outside,
    (bareTidy plain).arguments⟩
  order := List.nil_sublist _
  described := by simp [IsDescribed, bare]

theorem attributesWritten {tag : String} {attributes : List (String × String)}
    (distinct : (attributes.map Prod.fst).Nodup) {kind : ElementKind} {id : ElementId}
    (plain : (bare kind id).arguments = []) {e : Element} {s t : ReadState}
    (ok : (applyAttributes tag attributes (bare kind id)).outcome s = (.ok e, t)) :
    Written attributes e where
  tidy := dressedTidy distinct plain (applyAttributesDressed ok).1
  order := by
    obtain ⟨added, same, below, _⟩ := (applyAttributesDressed ok).1.more
    have all : e.properties = added := by simpa [bare] using same
    rw [all]
    exact below
  described := applyAttributesDescribed (by simp [IsDescribed, bare]) ok

/- What comes after the attributes, children and the definition of a component, is no property. -/
theorem writtenAfter {attributes : List (String × String)} {before e : Element}
    (written : Written attributes before) (properties : e.properties = before.properties)
    (table : e.kind.table = before.kind.table) (arguments : e.arguments = before.arguments) :
    Written attributes e where
  tidy := by
    refine ⟨?_, ?_, ?_, ?_⟩
    · rw [properties]
      exact written.tidy.keys
    · rw [properties]
      exact written.tidy.bound
    · rw [properties]
      exact written.tidy.outside
    · rw [arguments]
      exact written.tidy.arguments
  order := by
    rw [properties]
    exact written.order
  described := by
    rw [IsDescribed, properties, table]
    exact written.described

theorem readWritten {node : Node} (tidy : node.Tidy) {e : Element} {s t : ReadState}
    (ok : (read node).outcome s = (.ok e, t)) : Written node.attributes e := by
  obtain ⟨tag, attributes, children, text⟩ := node
  rw [read] at ok
  obtain ⟨kind, start, kinded, available⟩ := Task.bindGives.mp ok
  obtain ⟨_, ungiven, rfl⟩ := kindOfPlain kinded
  rw [Task.getBind] at available
  by_cases missing : (!kind.isAvailable start.platform) = true
  · simp only [missing, if_true] at available
    cases available
  · simp only [missing] at available
    obtain ⟨id, claimed, _, dressing⟩ := Task.bindGives.mp available
    obtain ⟨found, dressed, applied, rest⟩ := Task.bindGives.mp dressing
    have written := attributesWritten tidy.attributes (ungiven id) applied
    split at rest
    · cases rest
      exact written
    · split at rest
      · rename_i r component
        obtain ⟨inner, after, _, last⟩ := Task.bindGives.mp rest
        cases last
        refine writtenAfter written rfl ?_ ?_
        · rw [component]
          rfl
        · simp [arguments, component, ElementKind.reference?]
      · split at rest
        · cases rest
        · obtain ⟨es, after, _, last⟩ := Task.bindGives.mp rest
          cases last
          exact writtenAfter written rfl rfl rfl

end Element

theorem ComponentDefinition.readWritten {node : Node} (tidy : node.Tidy) {d : ComponentDefinition}
    {s t : ReadState} (ok : (read node).outcome s = (.ok d, t)) :
    d.root.Written node.attributes := by
  unfold read at ok
  simp only at ok
  split at ok
  · cases ok
  · rw [Task.getBind] at ok
    obtain ⟨u, body, _⟩ := Element.inScopeGives ok
    obtain ⟨dressed, s₁, applied, body⟩ := Task.bindGives.mp body
    obtain ⟨root, s₂, dropped, body⟩ := Task.bindGives.mp body
    obtain ⟨⟨children, blocks⟩, s₃, read, last⟩ := Task.bindGives.mp body
    cases last
    have written := Element.attributesWritten tidy.attributes rfl applied
    unfold Element.dropLayout at dropped
    split at dropped
    · cases dropped
      exact Element.writtenAfter written rfl rfl rfl
    · obtain ⟨_, between, warned, last⟩ := Task.bindGives.mp dropped
      cases last
      exact Element.writtenAfter written rfl rfl rfl

namespace Element

/-- Elements come from nodes, apart from the roots of definitions in place, which have no node of
their own. -/
inductive Deserialized : List (String × String) → Element → Prop where
  | element {node : Node} {e : Element} {s t : ReadState} (tidy : node.Tidy)
      (ok : (read node).outcome s = (.ok e, t)) : Deserialized node.attributes e
  | root {node : Node} {d : ComponentDefinition} {s t : ReadState} (tidy : node.Tidy)
      (ok : (ComponentDefinition.read node).outcome s = (.ok d, t)) :
      Deserialized node.attributes d.root
  | inline (children : List Element) :
      Deserialized [] { bare (.widget .container) rootId with children }

theorem deserializedWritten {attributes : List (String × String)} {e : Element}
    (given : Deserialized attributes e) : Written attributes e := by
  cases given with
  | element tidy ok => exact readWritten tidy ok
  | root tidy ok => exact ComponentDefinition.readWritten tidy ok
  | inline children => exact bareWritten _ _ children rfl

def AllDeserialized (es : List Element) : Prop := ∀ e ∈ es, ∃ attributes, Deserialized attributes e

structure Throughout (es : List Element) : Prop where
  walk : AllDeserialized (walk es)
  inline : ∀ d ∈ definitionsOfAll es, AllDeserialized d.elements

theorem throughoutNil : Throughout [] :=
  ⟨by simp [AllDeserialized, Element.walk], by simp [definitionsOfAll]⟩

theorem throughoutAppend {xs ys : List Element} (left : Throughout xs) (right : Throughout ys) :
    Throughout (xs ++ ys) where
  walk := by
    rw [walkAppend]
    exact List.forall_mem_append.mpr ⟨left.walk, right.walk⟩
  inline d member := by
    rw [definitionsOfAllFlat, List.flatMap_append, List.mem_append, ← definitionsOfAllFlat,
      ← definitionsOfAllFlat] at member
    exact member.elim (left.inline d) (right.inline d)

theorem throughoutElement {attributes : List (String × String)} {e : Element}
    (given : Deserialized attributes e)
    (inline : ∀ d, e.definition? = some d → ∀ x ∈ d.nested, AllDeserialized x.elements)
    (below : Throughout e.children) : Throughout [e] where
  walk x member := by
    rw [walkCons, Element.walk, List.append_nil] at member
    rcases List.mem_cons.mp member with rfl | inside
    · exact ⟨attributes, given⟩
    · exact below.walk x inside
  inline d member := by
    rw [definitionsOfAll, definitionsOfAll, List.append_nil, definitionsSplit] at member
    rcases List.mem_append.mp member with here | inside
    · obtain ⟨x, found, within⟩ := List.mem_flatMap.mp here
      exact inline x (Option.mem_toList.mp found) d within
    · exact below.inline d inside

theorem defineThroughout {typeName path : String} {isAnonymous : Bool} {root : Element}
    {children : List Element} {blocks : Blocks} (plain : root.definition? = none)
    {attributes : List (String × String)}
    (given : Deserialized attributes { root with children }) (below : Throughout children) :
    ∀ d ∈ (define typeName path isAnonymous root children blocks).nested,
      AllDeserialized d.elements := by
  intro d member
  rw [nestedDefine plain] at member
  rcases List.mem_cons.mp member with rfl | within
  · intro e inside
    simp only [ComponentDefinition.elements, descendants, define, walkCons, Element.walk,
      List.append_nil] at inside
    rcases List.mem_cons.mp inside with rfl | below'
    · exact ⟨attributes, given⟩
    · exact below.walk e below'
  · exact below.inline d within

mutual

theorem readThroughout (node : Node) (tidy : node.Tidy) {e : Element} {s t : ReadState}
    (ok : (read node).outcome s = (.ok e, t)) : Throughout [e] := by
  have given := Deserialized.element tidy ok
  obtain ⟨tag, attributes, children, text⟩ := node
  rw [read] at ok
  obtain ⟨kind, start, kinded, available⟩ := Task.bindGives.mp ok
  obtain ⟨plain, _, rfl⟩ := kindOfPlain kinded
  rw [Task.getBind] at available
  by_cases missing : (!kind.isAvailable start.platform) = true
  · simp only [missing, if_true] at available
    cases available
  · simp only [missing] at available
    obtain ⟨id, claimed, _, dressing⟩ := Task.bindGives.mp available
    obtain ⟨found, dressed, applied, rest⟩ := Task.bindGives.mp dressing
    obtain ⟨facts, _⟩ := applyAttributesDressed applied
    have bare : found.definition? = none := by
      rw [facts.definition]
      simp only [definition?, bare, plain]
    split at rest
    · cases rest
      refine throughoutElement given (fun d here => ?_) ?_
      · rw [bare] at here
        cases here
      · rw [facts.children]
        exact throughoutNil
    · split at rest
      · obtain ⟨⟨inner, blocks⟩, after, entered, last⟩ := Task.bindGives.mp rest
        cases last
        obtain ⟨body, read, _⟩ := inScopeGives entered
        refine throughoutElement given (fun d here => ?_) ?_
        · cases here
          exact defineThroughout rfl (.inline inner) (readBodyThroughout tag {} children
            tidy.children read)
        · rw [facts.children]
          exact throughoutNil
      · split at rest
        · cases rest
        · obtain ⟨es, after, more, last⟩ := Task.bindGives.mp rest
          cases last
          refine throughoutElement given (fun d here => ?_)
            (readAllThroughout children tidy.children more)
          exact absurd (bare.symm.trans here) (by simp)

theorem readAllThroughout (nodes : List Node) (tidy : ∀ node ∈ nodes, node.Tidy)
    {es : List Element} {s t : ReadState} (ok : (readAll nodes).outcome s = (.ok es, t)) :
    Throughout es := by
  cases nodes with
  | nil =>
    cases ok
    exact throughoutNil
  | cons node rest =>
    obtain ⟨here, others⟩ := List.forall_mem_cons.mp tidy
    rw [readAll] at ok
    obtain ⟨first, between, one, ok⟩ := Task.bindGives.mp ok
    obtain ⟨found, after, more, last⟩ := Task.bindGives.mp ok
    cases last
    exact throughoutAppend (readThroughout node here one) (readAllThroughout rest others more)

theorem readBodyThroughout (component : String) (blocks : Blocks) (nodes : List Node)
    (tidy : ∀ node ∈ nodes, node.Tidy) {es : List Element} {found : Blocks} {s t : ReadState}
    (ok : (readBody component blocks nodes).outcome s = (.ok (es, found), t)) :
    Throughout es := by
  cases nodes with
  | nil =>
    cases ok
    exact throughoutNil
  | cons node rest =>
    obtain ⟨here, others⟩ := List.forall_mem_cons.mp tidy
    rw [readBody] at ok
    split at ok
    · obtain ⟨next, between, _, more⟩ := Task.bindGives.mp ok
      exact readBodyThroughout component next rest others more
    · obtain ⟨first, between, one, ok⟩ := Task.bindGives.mp ok
      obtain ⟨⟨elements, next⟩, after, more, last⟩ := Task.bindGives.mp ok
      cases last
      exact throughoutAppend (readThroughout node here one)
        (readBodyThroughout component blocks rest others more)

end

end Element

theorem ComponentDefinition.readDeserialized {node : Node} (tidy : node.Tidy)
    {d : ComponentDefinition} {s t : ReadState} (ok : (read node).outcome s = (.ok d, t)) :
    ∀ x ∈ d.nested, Element.AllDeserialized x.elements := by
  have given := Element.Deserialized.root tidy ok
  unfold read at ok
  simp only at ok
  split at ok
  · cases ok
  · rw [Task.getBind] at ok
    obtain ⟨u, body, _⟩ := Element.inScopeGives ok
    obtain ⟨dressed, s₁, applied, body⟩ := Task.bindGives.mp body
    obtain ⟨root, s₂, dropped, body⟩ := Task.bindGives.mp body
    obtain ⟨⟨children, blocks⟩, s₃, read, last⟩ := Task.bindGives.mp body
    cases last
    have plain : root.definition? = none :=
      (Element.dropLayoutDressed dropped).1.definition.trans
        (Element.applyAttributesDressed applied).1.definition
    exact Element.defineThroughout plain given
      (Element.readBodyThroughout node.name {} node.children tidy.children read)

end ViewForge
