import ViewForge.Proofs.Action.Printed
import ViewForge.Proofs.Element.Markup
import ViewForge.Proofs.Element.Reader
import ViewForge.Proofs.Style.Names

/-! The actions of an element, as its attributes give them and as its markup gives them again. -/
namespace ViewForge
open Markup (Node)

def ElementKind.Raises (kind : ElementKind) (event : String) : Prop :=
  kind.reference?.isSome = true ∨ (EventDescription.find? kind.events event).isSome = true

theorem Result.ofParseOk {α : Type} {x : Except ParseError α} {a : α} :
    ofParse x = .ok a ↔ x = .ok a := by
  cases x <;> simp [ofParse]

namespace Text

theorem afterLead (lead s : String) : after? lead (lead ++ s) = some s := by
  have dropped : ∀ xs ys : List Char, dropLead? xs (xs ++ ys) = some ys := by
    intro xs ys
    induction xs with
    | nil => rfl
    | cons c rest ih => rw [List.cons_append, dropLead?, if_pos rfl, ih]
  rw [after?, String.toList_append, dropped, Option.map_some, String.ofList_toList]

theorem leadOther {lead s name : String} (none : after? lead name = none) : lead ++ s ≠ name := by
  rintro rfl
  rw [afterLead] at none
  cases none

/- A text cannot start in two ways. -/
theorem afterOther {c d : Char} {lead other name : String} {cs ds : List Char}
    (left : lead.toList = c :: cs) (right : other.toList = d :: ds) (apart : c ≠ d)
    (found : (after? lead name).isSome = true) : after? other name = none := by
  rw [after?, left, Option.isSome_map] at found
  rw [after?, right, Option.map_eq_none_iff]
  generalize name.toList = text at found ⊢
  cases text with
  | nil => rfl
  | cons x rest =>
    by_cases same : d = x
    · rw [dropLead?, if_neg (same ▸ apart)] at found
      cases found
    · rw [dropLead?, if_neg same]

end Text

namespace Element

def Binds (kind : ElementKind) (binding : String × String) (a : BoundAction) : Prop :=
  a.event = binding.1 ∧ ActionCall.parse binding.2 = .ok a.call ∧ kind.Raises a.event

def bindings (attributes : List (String × String)) : List (String × String) :=
  attributes.filterMap fun a => (Text.after? "action:" a.1).map (·, a.2)

structure Bound (attributes : List (String × String)) (before e : Element) : Prop where
  raises : ∀ event, e.kind.Raises event ↔ before.kind.Raises event
  styles : e.styles = before.styles ∨ ∃ raw, StyleName.parseList raw = .ok e.styles
  actions : ∃ found, e.actions = before.actions ++ found ∧
    List.Forall₂ (Binds before.kind) (bindings attributes) found

theorem boundSame {name raw : String} {before e : Element}
    (other : Text.after? "action:" name = none)
    (raises : ∀ event, e.kind.Raises event ↔ before.kind.Raises event)
    (styles : e.styles = before.styles ∨ ∃ raw, StyleName.parseList raw = .ok e.styles)
    (actions : e.actions = before.actions) : Bound [(name, raw)] before e :=
  ⟨raises, styles, [], by rw [actions, List.append_nil], by simp [bindings, other]⟩

theorem boundTrans {a : String × String} {rest : List (String × String)} {x y z : Element}
    (first : Bound [a] x y) (others : Bound rest y z) : Bound (a :: rest) x z := by
  obtain ⟨found, left, each⟩ := first.actions
  obtain ⟨more, right, later⟩ := others.actions
  have split : bindings (a :: rest) = bindings [a] ++ bindings rest :=
    List.filterMap_append (l := [a])
  refine ⟨fun event => (others.raises event).trans (first.raises event), ?_, found ++ more, ?_, ?_⟩
  · rcases others.styles with same | given
    · rw [same]
      exact first.styles
    · exact .inr given
  · rw [right, left, List.append_assoc]
  · rw [split]
    refine List.rel_append each (later.imp fun b found => ?_)
    exact fun binds => ⟨binds.1, binds.2.1, (first.raises _).mp binds.2.2⟩

theorem applyPropertyBound {tag name raw : String} {before e : Element} {s t : ReadState}
    (other : Text.after? "action:" name = none)
    (ok : (applyProperty tag before name raw).outcome s = (.ok e, t)) :
    Bound [(name, raw)] before e := by
  unfold applyProperty at ok
  split at ok
  · cases ok
    exact boundSame other (fun _ => .rfl) (.inl rfl) rfl
  · obtain ⟨found, read, ok⟩ := Task.liftBindGives ok
    split at ok
    · cases ok
      exact boundSame other (fun _ => .rfl) (.inl rfl) rfl
    · split at ok
      · rename_i extended given
        cases ok
        unfold addArgument at given
        split at given
        · rename_i r component
          cases given
          refine boundSame other (fun event => ?_) (.inl rfl) rfl
          simp [ElementKind.Raises, component, ElementKind.reference?]
        · cases given
      · cases ok
        exact boundSame other (fun _ => .rfl) (.inl rfl) rfl

theorem applyActionOk {before e : Element} {event raw : String} :
    before.applyAction event raw = .ok e ↔
      ∃ call, ActionCall.parse raw = .ok call ∧ before.kind.Raises event ∧
        e = { before with actions := before.actions ++ [⟨event, call⟩] } := by
  unfold applyAction
  simp only [Result.bindOk, Result.ofParseOk]
  refine exists_congr fun call => and_congr_right fun _ => ?_
  simp only [ElementKind.Raises]
  split
  · rename_i unknown
    rw [Bool.and_eq_true, Option.isNone_iff_eq_none, Option.isNone_iff_eq_none] at unknown
    simp [unknown.1, unknown.2, bind, Except.bind]
  · rename_i known
    rw [Bool.and_eq_true, not_and_or, Bool.not_eq_true, Bool.not_eq_true, Option.isNone_eq_false_iff,
      Option.isNone_eq_false_iff] at known
    rw [and_iff_right known]
    exact ⟨fun ok => (Except.ok.inj ok).symm, fun same => congrArg Except.ok same.symm⟩

theorem applyAttributeBound {tag name raw : String} {before e : Element} {s t : ReadState}
    (ok : (applyAttribute tag before (name, raw)).outcome s = (.ok e, t)) :
    Bound [(name, raw)] before e := by
  unfold applyAttribute at ok
  simp only at ok
  split at ok
  · cases ok
    exact boundSame (by decide) (fun _ => .rfl) (.inl rfl) rfl
  · cases ok
    exact boundSame (by decide) (fun _ => .rfl) (.inl rfl) rfl
  · cases ok
    exact boundSame (by decide) (fun _ => .rfl) (.inl rfl) rfl
  · obtain ⟨styles, read, ok⟩ := Task.liftBindGives ok
    cases ok
    exact boundSame (by decide) (fun _ => .rfl) (.inr ⟨raw, Result.ofParseOk.mp read⟩) rfl
  · split at ok
    · rename_i anchor layout
      obtain ⟨constraints, _, ok⟩ := Task.liftBindGives ok
      cases ok
      have other : Text.after? "action:" name = none :=
        Text.afterOther (by rfl) (by rfl) (by decide) (Option.isSome_of_mem layout)
      exact boundSame other (fun _ => .rfl) (.inl rfl) rfl
    · split at ok
      · rename_i event action
        obtain ⟨applied, rfl⟩ := Task.liftGives ok
        obtain ⟨call, parsed, raised, rfl⟩ := applyActionOk.mp applied
        have here : bindings [(name, raw)] = [(event, raw)] := by simp [bindings, action]
        refine ⟨fun _ => .rfl, .inl rfl, [⟨event, call⟩], rfl, ?_⟩
        rw [here]
        exact .cons ⟨rfl, parsed, raised⟩ .nil
      · rename_i other
        split at ok
        · cases ok
          exact boundSame other (fun _ => .rfl) (.inl rfl) rfl
        · exact applyPropertyBound other ok

theorem attributesBound {tag : String} {attributes : List (String × String)} {before e : Element}
    {s t : ReadState}
    (ok : (attributes.foldlM (applyAttribute tag) before).outcome s = (.ok e, t)) :
    Bound attributes before e := by
  induction attributes generalizing before s with
  | nil =>
    cases ok
    exact ⟨fun _ => .rfl, .inl rfl, [], by simp, .nil⟩
  | cons first rest ih =>
    obtain ⟨next, between, applied, others⟩ := Task.foldlGives.mp ok
    exact boundTrans (applyAttributeBound applied) (ih others)

theorem applyAttributesBound {tag : String} {attributes : List (String × String)}
    {before e : Element} {s t : ReadState}
    (ok : (applyAttributes tag attributes before).outcome s = (.ok e, t)) :
    Bound attributes before e := by
  unfold applyAttributes at ok
  obtain ⟨found, between, applied, ok⟩ := Task.bindGives.mp ok
  obtain ⟨_, after, checked, last⟩ := Task.bindGives.mp ok
  cases last
  exact attributesBound applied

structure Sourced (e : Element) : Prop where
  styles : ∀ s ∈ e.styles, ∃ raw, StyleName.parse raw = .ok s
  actions : ∀ a ∈ e.actions, (∃ raw, ActionCall.parse raw = .ok a.call) ∧ e.kind.Raises a.event

theorem boundSourced {attributes : List (String × String)} {kind : ElementKind} {id : ElementId}
    {e : Element} (bound : Bound attributes (bare kind id) e) : e.Sourced where
  styles s member := by
    rcases bound.styles with same | ⟨raw, parsed⟩
    · rw [same] at member
      cases member
    · obtain ⟨name, _, read⟩ := forallRight (Result.mapMOk parsed) member
      exact ⟨name, read⟩
  actions a member := by
    obtain ⟨found, same, each⟩ := bound.actions
    rw [same] at member
    obtain ⟨binding, _, _, parsed, raised⟩ := forallRight each member
    exact ⟨⟨binding.2, parsed⟩, (bound.raises _).mpr raised⟩

/- Every element that is read has its styles and actions from the texts of its attributes. -/
theorem readSourced {node : Node} {e : Element} {s t : ReadState}
    (ok : (read node).outcome s = (.ok e, t)) : e.Sourced := by
  obtain ⟨tag, attributes, children, text⟩ := node
  rw [read] at ok
  obtain ⟨kind, start, kinded, available⟩ := Task.bindGives.mp ok
  rw [Task.getBind] at available
  by_cases missing : (!kind.isAvailable start.platform) = true
  · simp only [missing, if_true] at available
    cases available
  · simp only [missing] at available
    obtain ⟨id, claimed, taken, dressing⟩ := Task.bindGives.mp available
    obtain ⟨found, dressed, applied, rest⟩ := Task.bindGives.mp dressing
    have sourced := boundSourced (applyAttributesBound applied)
    split at rest
    · cases rest
      exact sourced
    · split at rest
      · rename_i r component
        obtain ⟨⟨inner, blocks⟩, after, entered, last⟩ := Task.bindGives.mp rest
        cases last
        refine ⟨sourced.styles, fun a member => ?_⟩
        obtain ⟨parsed, _⟩ := sourced.actions a member
        exact ⟨parsed, .inl rfl⟩
      · split at rest
        · cases rest
        · obtain ⟨es, after, more, last⟩ := Task.bindGives.mp rest
          cases last
          exact ⟨sourced.styles, sourced.actions⟩

theorem bindingsAppend (xs ys : List (String × String)) :
    bindings (xs ++ ys) = bindings xs ++ bindings ys := List.filterMap_append

theorem bindingsNone {attributes : List (String × String)}
    (none : ∀ a ∈ attributes, Text.after? "action:" a.1 = none) : bindings attributes = [] := by
  refine List.filterMap_eq_nil_iff.mpr fun a member => ?_
  rw [none a member, Option.map_none]

theorem toolNoAction (name : String) : Text.after? "action:" ("tools:" ++ name) = none := by
  have starts : (Text.after? "tools:" ("tools:" ++ name)).isSome = true := by
    rw [Text.afterLead, Option.isSome_some]
  exact Text.afterOther (by rfl) (by rfl) (by decide) starts

theorem writtenBindings (e : Element) :
    bindings e.writtenAttributes = e.actions.map fun a => (a.event, a.call.display) := by
  have plain : ∀ name ∈ ["id", "export", "injected", "style"], Text.after? "action:" name = none := by
    decide
  have actions : bindings (e.actions.map fun a => ("action:" ++ a.event, a.call.display)) =
      e.actions.map fun a => (a.event, a.call.display) := by
    rw [bindings, List.filterMap_map, ← List.filterMap_eq_map]
    refine List.filterMap_congr fun a _ => ?_
    simp [Text.afterLead]
  have tooling : bindings (e.tooling.map fun t => ("tools:" ++ t.1, t.2)) = [] := by
    refine bindingsNone fun a member => ?_
    obtain ⟨t, _, rfl⟩ := List.mem_map.mp member
    exact toolNoAction t.1
  have first : bindings (if e.id.isProvided then [("id", e.id.name)] else []) = [] := by
    split
    · exact bindingsNone (by simpa using plain "id" (by simp))
    · rfl
  have second : bindings (if e.isExported then [("export", "true")] else []) = [] := by
    split
    · exact bindingsNone (by simpa using plain "export" (by simp))
    · rfl
  have third : bindings (if e.isInjected then [("injected", "true")] else []) = [] := by
    split
    · exact bindingsNone (by simpa using plain "injected" (by simp))
    · rfl
  have fourth : bindings (if e.styles.isEmpty then []
      else [("style", Text.join " " (e.styles.map (·.display)))]) = [] := by
    split
    · rfl
    · exact bindingsNone (by simpa using plain "style" (by simp))
  rw [writtenAttributes]
  simp only [bindingsAppend, first, second, third, fourth, actions, tooling, List.nil_append,
    List.append_nil]

theorem applyEvent (tag event raw : String) (b : Element) :
    applyAttribute tag b ("action:" ++ event, raw) = liftM (b.applyAction event raw) := by
  have layout : Text.after? "layout:" ("action:" ++ event) = none :=
    Text.afterOther (by rfl) (by rfl) (by decide)
      (Option.isSome_iff_exists.mpr ⟨event, Text.afterLead "action:" event⟩)
  unfold applyAttribute
  simp only
  split
  · rename_i same
    exact absurd same (Text.leadOther (by decide))
  · rename_i same
    exact absurd same (Text.leadOther (by decide))
  · rename_i same
    exact absurd same (Text.leadOther (by decide))
  · rename_i same
    exact absurd same (Text.leadOther (by decide))
  · simp only [layout, Text.afterLead]

theorem applyTool (tag tool raw : String) (b : Element) :
    applyAttribute tag b ("tools:" ++ tool, raw) =
      pure { b with tooling := b.tooling ++ [(tool, raw)] } := by
  have starts : (Text.after? "tools:" ("tools:" ++ tool)).isSome = true := by
    rw [Text.afterLead, Option.isSome_some]
  have layout : Text.after? "layout:" ("tools:" ++ tool) = none :=
    Text.afterOther (by rfl) (by rfl) (by decide) starts
  unfold applyAttribute
  simp only
  split
  · rename_i same
    exact absurd same (Text.leadOther (by decide))
  · rename_i same
    exact absurd same (Text.leadOther (by decide))
  · rename_i same
    exact absurd same (Text.leadOther (by decide))
  · rename_i same
    exact absurd same (Text.leadOther (by decide))
  · simp only [layout, toolNoAction, Text.afterLead]

def Applies (kind : ElementKind) (a : String × String) : Prop :=
  ∀ tag (b : Element) s, b.kind = kind →
    ∃ c t, (applyAttribute tag b a).outcome s = (.ok c, t) ∧ c.kind = kind

theorem appliesPure {kind : ElementKind} {a : String × String} {f : Element → Element}
    (same : ∀ tag b, applyAttribute tag b a = pure (f b)) (kept : ∀ b, (f b).kind = b.kind) :
    Applies kind a := by
  intro tag b s given
  rw [same]
  exact ⟨f b, s, rfl, (kept b).trans given⟩

theorem writtenApplies {e : Element} (sourced : e.Sourced)
    (again : ∀ a ∈ e.actions, ActionCall.parse a.call.display = .ok a.call) :
    ∀ a ∈ e.writtenAttributes, Applies e.kind a := by
  intro x member
  simp only [writtenAttributes, List.mem_append, or_assoc] at member
  rcases member with id | exported | injected | style | action | tool
  · split at id
    · cases List.mem_singleton.mp id
      exact appliesPure (fun _ _ => rfl) fun _ => rfl
    · cases id
  · split at exported
    · cases List.mem_singleton.mp exported
      exact appliesPure (fun _ _ => rfl) fun _ => rfl
    · cases exported
  · split at injected
    · cases List.mem_singleton.mp injected
      exact appliesPure (fun _ _ => rfl) fun _ => rfl
    · cases injected
  · split at style
    · cases style
    · cases List.mem_singleton.mp style
      have read := Result.ofParseOk.mpr (StyleName.parseJoined sourced.styles)
      intro tag b s given
      unfold applyAttribute
      simp only
      rw [read]
      exact ⟨_, s, rfl, given⟩
  · obtain ⟨a, inside, rfl⟩ := List.mem_map.mp action
    obtain ⟨_, raised⟩ := sourced.actions a inside
    intro tag b s given
    rw [← given] at raised
    have applied := applyActionOk.mpr ⟨a.call, again a inside, raised, rfl⟩
    rw [applyEvent, applied]
    exact ⟨_, s, rfl, given⟩
  · obtain ⟨t, _, rfl⟩ := List.mem_map.mp tool
    exact appliesPure (applyTool · t.1 t.2 ·) fun _ => rfl

theorem attributesApply {kind : ElementKind} {attributes : List (String × String)}
    (each : ∀ a ∈ attributes, Applies kind a) (tag : String) (b : Element) (s : ReadState)
    (given : b.kind = kind) :
    ∃ c t, (attributes.foldlM (applyAttribute tag) b).outcome s = (.ok c, t) := by
  induction attributes generalizing b s with
  | nil => exact ⟨b, s, rfl⟩
  | cons a rest ih =>
    obtain ⟨first, others⟩ := List.forall_mem_cons.mp each
    obtain ⟨m, t, applied, kept⟩ := first tag b s given
    obtain ⟨c, u, run⟩ := ih others m t kept
    exact ⟨c, u, Task.foldlGives.mpr ⟨m, t, applied, run⟩⟩

theorem checkToolingEnds (tag : String) (e : Element) (tools : List (String × String))
    (s : ReadState) : ∃ t, (checkTooling tag e tools).outcome s = (.ok (), t) := by
  induction tools generalizing s with
  | nil => exact ⟨s, rfl⟩
  | cons tool rest ih =>
    rw [checkTooling]
    split
    · exact (ih (s.warn _)).imp fun t run => Task.bindGives.mpr ⟨(), _, rfl, run⟩
    · exact ih s

theorem applyAttributesApply {kind : ElementKind} {attributes : List (String × String)}
    (each : ∀ a ∈ attributes, Applies kind a) (tag : String) (id : ElementId) (s : ReadState) :
    ∃ c t, (applyAttributes tag attributes (bare kind id)).outcome s = (.ok c, t) := by
  obtain ⟨c, t, applied⟩ := attributesApply each tag (bare kind id) s rfl
  obtain ⟨u, checked⟩ := checkToolingEnds tag c c.tooling t
  refine ⟨c, u, ?_⟩
  unfold applyAttributes
  exact Task.bindGives.mpr ⟨c, t, applied, Task.bindGives.mpr ⟨(), u, checked, rfl⟩⟩

/- The actions that the markup gives again have their calls from the texts that were written. -/
theorem actionsAgain {e found : Element} {tag : String} {id : ElementId} {s t : ReadState}
    (ok : (applyAttributes tag e.writtenAttributes (bare e.kind id)).outcome s = (.ok found, t)) :
    found.actions = e.actions ↔
      ∀ a ∈ e.actions, ActionCall.parse a.call.display = .ok a.call := by
  obtain ⟨actions, same, each⟩ := (applyAttributesBound ok).actions
  have all : found.actions = actions := same
  rw [writtenBindings, List.forall₂_map_left_iff] at each
  rw [all]
  constructor
  · rintro rfl a member
    exact (List.forall₂_same.mp each a member).2.1
  · intro again
    clear all same ok
    generalize e.actions = written at each again
    induction each with
    | nil => rfl
    | @cons a b xs ys first _ ih =>
      obtain ⟨here, others⟩ := List.forall_mem_cons.mp again
      obtain ⟨event, parsed, _⟩ := first
      have call : b.call = a.call := Except.ok.inj (parsed.symm.trans here)
      have same : b = a := BoundAction.mk.injEq .. ▸ ⟨event, call⟩
      rw [ih others, same]

/- What a call is printed as is read as the call exactly if it is plain. So the actions of an
element, written as markup and read again, are the same exactly if all their calls are plain. -/
theorem callsKept {value : String} {call : ActionCall}
    (parsed : ActionCall.parse value = .ok call) :
    (ActionCall.parse call.display = .ok call ↔ call.Plain) ∧
    ∀ e : Element, e.Sourced → e.Writable → ∃ node, Markup.parse e.serialize = .ok node ∧
      ∀ id s, (∃ found t, (applyAttributes node.name node.attributes (bare e.kind id)).outcome s =
        (.ok found, t) ∧ found.actions = e.actions) ↔ ∀ a ∈ e.actions, a.call.Plain := by
  refine ⟨ActionCall.printedParses parsed, fun e sourced writable => ?_⟩
  have plain : (∀ a ∈ e.actions, ActionCall.parse a.call.display = .ok a.call) ↔
      ∀ a ∈ e.actions, a.call.Plain := by
    refine forall₂_congr fun a member => ?_
    obtain ⟨⟨raw, parsed⟩, _⟩ := sourced.actions a member
    exact ActionCall.printedParses parsed
  refine ⟨e.asNode, parseSerialized writable, fun id s => ?_⟩
  rw [← plain, asNodeSplit]
  constructor
  · rintro ⟨found, t, ok, same⟩
    exact (actionsAgain ok).mp same
  · intro again
    obtain ⟨found, t, ok⟩ :=
      applyAttributesApply (writtenApplies sourced again) e.kind.tag id s
    exact ⟨found, t, ok, (actionsAgain ok).mpr again⟩

section Login

def loginText : String := "login(user: name.text, $count, 'x', 2.5, -3, self)"

def loginCall : ActionCall :=
  { name := "login", arguments := some [⟨some "user", .reference (.element "name") "text"⟩,
      ⟨none, .state "count"⟩, ⟨none, .constant (.string "x")⟩, ⟨none, .constant (.double 2.5)⟩,
      ⟨none, .constant (.int (-3))⟩, ⟨none, .reference .this none⟩] }

def loginNode : Node :=
  { name := "Button",
    attributes := [("id", "save"), ("style", ":General:round wide"), ("action:tap", loginText)] }

def loginRead : Result Element × ReadState :=
  (read loginNode).outcome { platform := .iOS, path := "Page.ui.xml" }

def loginButton : Element := loginRead.1.toOption.getD (bare (.widget .view) rootId)

theorem loginComputed : ActionCall.parse loginText = .ok loginCall ∧ loginCall.Plain ∧
    loginRead.1.isOk = true ∧ loginButton.actions = [⟨"tap", loginCall⟩] := by
  decide +kernel

theorem loginGiven : loginButton.kind.tag = "Button" ∧ loginButton.id.isProvided = true ∧
    loginButton.isExported = false ∧ loginButton.isInjected = false ∧
    loginButton.styles.isEmpty = false ∧ loginButton.tooling = [] ∧
    loginButton.children.isEmpty = true := by decide +kernel

theorem loginWritten : loginButton.Writable := by
  obtain ⟨tag, provided, exported, injected, styled, tooling, leaf⟩ := loginGiven
  have names : loginButton.writtenAttributes.map Prod.fst = ["id", "style", "action:tap"] := by
    simp [writtenAttributes, loginComputed, provided, exported, injected, styled, tooling]
  have plain : ∀ name ∈ ["id", "style", "action:tap"], Markup.Plain name := by decide +kernel
  rw [← names, List.forall_mem_map] at plain
  refine .mk ?_ ?_ plain ?_ ?_
  · rw [tag]
    decide
  · simp [tag]
  · simp [names]
  · simp [List.isEmpty_iff.mp leaf]

theorem loginKept : ActionCall.parse loginText = .ok loginCall ∧
    ActionCall.parse loginCall.display = .ok loginCall ∧
    loginButton.Sourced ∧ loginButton.Writable ∧
    ∃ node, Markup.parse loginButton.serialize = .ok node ∧ ∀ id s, ∃ found t,
      (applyAttributes node.name node.attributes (bare loginButton.kind id)).outcome s =
        (.ok found, t) ∧ found.actions = [⟨"tap", loginCall⟩] := by
  obtain ⟨parsed, plain, ok, actions⟩ := loginComputed
  have sourced : loginButton.Sourced := readSourced (Prod.ext (Result.okGetD ok _) rfl)
  obtain ⟨printed, elements⟩ := callsKept parsed
  obtain ⟨node, read, exactly⟩ := elements loginButton sourced loginWritten
  have given : ∀ a ∈ loginButton.actions, a.call.Plain := by
    rw [actions]
    exact List.forall_mem_singleton.mpr plain
  refine ⟨parsed, printed.mpr plain, sourced, loginWritten, node, read, fun id s => ?_⟩
  rw [← actions]
  exact (exactly id s).mpr given

/- The printed text has an end of the string in its middle. -/
theorem quoteLost : ∃ call, ActionCall.parse "submit('it\\'s')" = .ok call ∧
    call.display = "submit('it's')" ∧ ActionCall.parse call.display ≠ .ok call := by
  refine ⟨⟨"submit", some [⟨none, .constant (.string "it's")⟩]⟩, ?_⟩
  decide +kernel

end Login

end Element
end ViewForge
