import ViewForge.Proofs.Element.Actions
import ViewForge.Proofs.Token

/-! Trees of elements that come back from their markup. Where tags are names, and the names of
events and of tools can stand in a tag, the document that is written for a tree is read as the same
tree, and every value in it as it was. -/
namespace ViewForge
open Markup (Node Plain isSpace)

theorem Markup.spaceBlank {c : Char} (space : isSpace c = true) : Text.isBlank c = true := by
  simp only [isSpace, Bool.or_eq_true, beq_iff_eq] at space
  rcases space with ((rfl | rfl) | rfl) | rfl <;> decide

namespace Element

def Bare (name : String) : Prop :=
  name ≠ "" ∧ ∀ c ∈ name.toList, Text.isBlank c = false ∧ c ∉ ['"', '\'', '=', '<', '>', '/']

instance (name : String) : Decidable (Bare name) :=
  @instDecidableAnd _ _ instDecidableNot (List.decidableBAll _ _)

/-- The tags of the element and of those below it are names, and on each of them events and tools
are called differently, without anything that a tag is divided by. -/
inductive Named : Element → Prop where
  | mk {e : Element} (tag : Text.isName e.kind.tag.toList = true)
      (events : ∀ a ∈ e.actions, Bare a.event) (tools : ∀ t ∈ e.tooling, Bare t.1)
      (eventsApart : (e.actions.map (·.event)).Nodup) (toolsApart : (e.tooling.map (·.1)).Nodup)
      (children : ∀ child ∈ e.children, Named child) : Named e

/-- The node is the element with what its markup says of it, in the order in which it is said, and
so are the nodes below it for the children. -/
inductive Mirrors : Element → Node → Prop where
  | mk {e : Element} {node : Node} (tag : node.name = e.kind.tag)
      (attributes : node.attributes =
        (if e.id.isProvided then [("id", e.id.name)] else [])
          ++ (if e.isExported then [("export", "true")] else [])
          ++ (if e.isInjected then [("injected", "true")] else [])
          ++ (if e.styles.isEmpty then []
            else [("style", Text.join " " (e.styles.map (·.display)))])
          ++ e.actions.map (fun a => ("action:" ++ a.event, a.call.display))
          ++ e.tooling.map (fun t => ("tools:" ++ t.1, t.2)))
      (text : node.text = "") (children : List.Forall₂ Mirrors e.children node.children) :
      Mirrors e node

theorem namePlain {name : String} (named : Text.isName name.toList = true) :
    Plain name ∧ ∀ c ∈ name.toList, c ∉ ['!', '?', '/'] := by
  have parts : name.toList ≠ [] ∧ ∀ c ∈ name.toList, Text.isNamePart c = true := by
    generalize name.toList = cs at named
    cases cs with
    | nil => cases named
    | cons c rest =>
      simp only [Text.isName, Bool.and_eq_true, List.all_eq_true] at named
      obtain ⟨start, others⟩ := named
      refine ⟨List.cons_ne_nil c rest, List.forall_mem_cons.mpr ⟨?_, others⟩⟩
      simp only [Text.isNameStart, Bool.or_eq_true] at start
      simp only [Text.isNamePart, Text.isAlphanumeric, Bool.or_eq_true]
      exact start.imp_left .inl
  have unlike : ∀ c ∈ name.toList, c ∉ ['=', '>', '"', '\'', '!', '?', '/'] := by
    intro c member mark
    have part := parts.2 c member
    simp only [List.mem_cons, List.not_mem_nil, or_false] at mark
    rcases mark with rfl | rfl | rfl | rfl | rfl | rfl | rfl <;> revert part <;> decide
  refine ⟨⟨parts.1, fun c member => ⟨?_, ?_⟩⟩, fun c member => ?_⟩
  · rw [← Bool.not_eq_true]
    intro space
    have part := Text.partBlank (parts.2 c member)
    rw [Markup.spaceBlank space] at part
    cases part
  · exact fun mark => unlike c member (List.mem_append_left ['!', '?', '/'] mark)
  · exact fun mark => unlike c member (List.mem_append_right ['=', '>', '"', '\''] mark)

theorem barePlain {lead name : String} (front : Plain lead) (bare : Bare name) :
    Plain (lead ++ name) := by
  obtain ⟨filled, parts⟩ := front
  refine ⟨by simp [filled], fun c member => ?_⟩
  rw [String.toList_append, List.mem_append] at member
  rcases member with first | last
  · exact parts c first
  · obtain ⟨blank, marks⟩ := bare.2 c last
    refine ⟨?_, fun mark => marks ?_⟩
    · rw [← Bool.not_eq_true]
      intro space
      rw [Markup.spaceBlank space] at blank
      cases blank
    · simp only [List.mem_cons, List.not_mem_nil, or_false] at mark ⊢
      rcases mark with rfl | rfl | rfl | rfl <;> simp

theorem leadInjective (lead : String) : Function.Injective (lead ++ ·) := by
  intro x y same
  have left := Text.afterLead lead x
  rw [show lead ++ x = lead ++ y from same, Text.afterLead] at left
  exact (Option.some.inj left).symm

theorem leadsApart {lead other : String} {c d : Char} {cs ds : List Char}
    (left : lead.toList = c :: cs) (right : other.toList = d :: ds) (apart : c ≠ d)
    (x y : String) : lead ++ x ≠ other ++ y := by
  intro same
  have found : (Text.after? lead (lead ++ x)).isSome = true := by
    rw [Text.afterLead, Option.isSome_some]
  have none := Text.afterOther left right apart found
  rw [same, Text.afterLead] at none
  cases none

def fixedAttributes (e : Element) : List (String × String) :=
  (if e.id.isProvided then [("id", e.id.name)] else [])
    ++ (if e.isExported then [("export", "true")] else [])
    ++ (if e.isInjected then [("injected", "true")] else [])
    ++ (if e.styles.isEmpty then [] else [("style", Text.join " " (e.styles.map (·.display)))])

theorem fixedNames (e : Element) :
    (e.fixedAttributes.map Prod.fst).Sublist ["id", "export", "injected", "style"] := by
  change List.Sublist _ (((["id"] ++ ["export"]) ++ ["injected"]) ++ ["style"])
  simp only [fixedAttributes, List.map_append]
  refine ((List.Sublist.append ?_ ?_).append ?_).append ?_
  all_goals split <;> simp

/- Attributes of one kind differ in their names, those of two kinds in how their names begin. -/
theorem writtenDistinct {e : Element} (events : (e.actions.map (·.event)).Nodup)
    (tools : (e.tooling.map (·.1)).Nodup) : (e.writtenAttributes.map Prod.fst).Nodup := by
  have split : e.writtenAttributes.map Prod.fst = e.fixedAttributes.map Prod.fst
      ++ (e.actions.map (·.event)).map ("action:" ++ ·)
      ++ (e.tooling.map (·.1)).map ("tools:" ++ ·) := by
    simp [fixedAttributes, writtenAttributes, Function.comp_def]
  have other : ∀ name ∈ ["id", "export", "injected", "style"],
      Text.after? "action:" name = none ∧ Text.after? "tools:" name = none := by decide
  rw [split]
  refine List.nodup_append.mpr ⟨List.nodup_append.mpr ⟨e.fixedNames.nodup (by decide),
    events.map (leadInjective "action:"), ?_⟩, tools.map (leadInjective "tools:"), ?_⟩
  · rintro name inside _ action rfl
    obtain ⟨event, _, same⟩ := List.mem_map.mp action
    exact Text.leadOther (other name (e.fixedNames.subset inside)).1 same
  · rintro name inside _ tool rfl
    obtain ⟨key, _, same⟩ := List.mem_map.mp tool
    rcases List.mem_append.mp inside with before | action
    · exact Text.leadOther (other name (e.fixedNames.subset before)).2 same
    · obtain ⟨event, _, again⟩ := List.mem_map.mp action
      have apart : "action:" ++ event ≠ "tools:" ++ key :=
        leadsApart (by rfl) (by rfl) (by decide) event key
      exact apart (again.trans same.symm)

theorem writtenPlain {e : Element} (events : ∀ a ∈ e.actions, Bare a.event)
    (tools : ∀ t ∈ e.tooling, Bare t.1) : ∀ a ∈ e.writtenAttributes, Plain a.1 := by
  intro a member
  have fixed : ∀ name ∈ ["id", "export", "injected", "style"], Plain name := by decide
  rcases List.mem_append.mp member with front | tool
  · rcases List.mem_append.mp front with first | action
    · exact fixed a.1 (e.fixedNames.subset (List.mem_map_of_mem first))
    · obtain ⟨bound, inside, rfl⟩ := List.mem_map.mp action
      exact barePlain (by decide) (events bound inside)
  · obtain ⟨entry, inside, rfl⟩ := List.mem_map.mp tool
    exact barePlain (by decide) (tools entry inside)

theorem namedWritable {e : Element} (named : e.Named) : e.Writable := by
  induction named with
  | mk tag events tools eventsApart toolsApart _ children =>
    obtain ⟨plain, marks⟩ := namePlain tag
    exact .mk plain marks (writtenPlain events tools) (writtenDistinct eventsApart toolsApart)
      children

theorem mirrorsNode {e : Element} (named : e.Named) : Mirrors e e.asNode := by
  induction named with
  | @mk e tag events tools eventsApart toolsApart _ children =>
    rw [asNodeSplit]
    refine .mk rfl rfl rfl ?_
    have each : ∀ es : List Element, (∀ child ∈ es, Mirrors child child.asNode) →
        List.Forall₂ Mirrors es (asNodes es) := by
      intro es
      induction es with
      | nil => exact fun _ => .nil
      | cons child rest ih =>
        intro all
        obtain ⟨first, others⟩ := List.forall_mem_cons.mp all
        exact .cons first (ih others)
    exact each e.children children

/- The markup of a tree is read as the tree, with every attribute as it was. -/
theorem serializedRead {e : Element} (named : e.Named) :
    ∃ node, Markup.parse e.serialize = .ok node ∧ Mirrors e node :=
  ⟨e.asNode, parseSerialized (namedWritable named), mirrorsNode named⟩

def noteBadge : Element :=
  { bare (.component ⟨"Badge", [], none⟩) ⟨"badge1", false⟩ with
    tooling := [("note", "5 > 4 & \"four\" < '5'\n"), ("none", "")] }

def noteBoard : Element :=
  { bare (.widget .container) ⟨"root", true⟩ with
    isExported := true
    actions := [⟨"tap", ⟨"save", some [⟨none, .constant (.string "<&amp;>")⟩]⟩⟩]
    children := [noteBadge] }

theorem noteRead : noteBoard.Named ∧ ∃ node, Markup.parse noteBoard.serialize = .ok node ∧
    Mirrors noteBoard node ∧ node.attributes = [("id", "root"), ("export", "true"),
      ("action:tap", "save('<&amp;>')")] ∧
    ∃ child, node.children = [child] ∧ child.name = "Badge" ∧
      child.attributes = [("tools:note", "5 > 4 & \"four\" < '5'\n"), ("tools:none", "")] := by
  have badge : noteBadge.Named := by
    refine .mk (by decide +kernel) (by simp [noteBadge, bare]) ?_ (by simp [noteBadge, bare])
      (by simp [noteBadge, bare]) (by simp [noteBadge, bare])
    have tools : ∀ name ∈ ["note", "none"], Bare name := by decide +kernel
    simpa [noteBadge, bare] using tools
  have board : noteBoard.Named := by
    refine .mk (by decide +kernel) ?_ (by simp [noteBoard, bare]) (by simp [noteBoard, bare])
      (by simp [noteBoard, bare]) ?_
    · have tap : Bare "tap" := by decide +kernel
      simpa [noteBoard, bare] using tap
    · exact List.forall_mem_singleton.mpr badge
  obtain ⟨node, read, mirrors⟩ := serializedRead board
  refine ⟨board, node, read, mirrors, ?_⟩
  obtain ⟨_, attributes, _, children⟩ := mirrors
  refine ⟨attributes.trans (by decide +kernel), ?_⟩
  generalize node.children = found at children ⊢
  obtain _ | ⟨⟨tag, own, _, _⟩, none⟩ := children
  cases none
  exact ⟨_, rfl, tag, own⟩

end Element
end ViewForge
