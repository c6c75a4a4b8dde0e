import ViewForge.Proofs.Element.Described

/-! Which attributes of a built-in element set its properties. Names that every element understands
are taken first, and of the properties that kinds declare `style` is the only one with such a name:
an activity indicator has it, and only a style sheet can set it. -/
namespace ViewForge
open Markup (Node)

namespace Widget

def understood (name : String) : Bool :=
  ["id", "export", "injected", "style"].contains name ||
    ["layout:", "action:", "tools:", "xmlns"].any (Text.startsWith · name)

def declares (w : Widget) (name : String) : Bool := (w.table.find? name).isSome

structure Declared (w : Widget) (given : String × String) (p : Property) : Prop where
  key : p.key = given.1
  described : w.table.find? given.1 = some (p.description, p.controlState)
  bound : p.description.bind given.2 = .ok p.binding

theorem propertyDeclared {w : Widget} {name raw : String} {p : Property}
    (ok : w.table.property name raw = .ok (some p)) : w.Declared (name, raw) p := by
  have key := (PropertyTable.propertyRead ok).1
  unfold PropertyTable.property at ok
  split at ok
  · cases ok
  · rename_i d state found
    obtain ⟨binding, bound, same⟩ := Result.mapOk.mp ok
    cases same
    exact ⟨key, found, bound⟩

theorem propertyUndeclared {w : Widget} {name raw : String}
    (ok : w.table.property name raw = .ok none) : w.declares name = false := by
  unfold PropertyTable.property at ok
  split at ok
  · rename_i unknown
    rw [declares, unknown]
    rfl
  · obtain ⟨_, _, same⟩ := Result.mapOk.mp ok
    cases same

/- All names of all properties, with and without a control state, are looked through. -/
theorem understoodDeclared {w : Widget} {name : String} (declared : w.declares name = true)
    (taken : understood name = true) : w = .activityIndicator ∧ name = "style" := by
  have each : (all.all fun w => (PropertyTable.describeAll [] w.entries).all fun d =>
      (none :: if d.setter.method?.isSome then ControlState.all.map some else []).all fun state =>
        !understood (Property.mk d state (.state "")).key ||
          (w == .activityIndicator && (Property.mk d state (.state "")).key == "style")) = true := by
    decide +kernel
  obtain ⟨⟨d, state⟩, found⟩ := Option.isSome_iff_exists.mp declared
  have listed : w ∈ all := by cases w <;> decide
  have known := PropertyTable.memBuild (PropertyTable.findMem found)
  have states : state ∈
      none :: if d.setter.method?.isSome then ControlState.all.map some else [] := by
    cases method : d.setter.method? with
    | none =>
      rw [PropertyTable.findAssigned found method]
      exact List.mem_cons_self
    | some _ =>
      rcases state with _ | state
      · exact List.mem_cons_self
      · refine List.mem_cons_of_mem _ (List.mem_map_of_mem ?_)
        cases state <;> decide
  have here := List.all_eq_true.mp (List.all_eq_true.mp (List.all_eq_true.mp each w listed) d known)
    state states
  rw [PropertyTable.findKey found, taken] at here
  simpa using here

end Widget

namespace Element

def settles (w : Widget) (given : String × String) : Bool :=
  w.declares given.1 && given.1 != "style"

def Sets (w : Widget) (attributes : List (String × String)) (before e : Element) : Prop :=
  ∃ added, e.properties = before.properties ++ added ∧
    List.Forall₂ w.Declared (attributes.filter (settles w)) added

variable {w : Widget} {tag : String} {before e : Element} {s t : ReadState}

theorem setsNothing {given : String × String} (none : settles w given = false)
    (same : e.properties = before.properties) : Sets w [given] before e :=
  ⟨[], by rw [same, List.append_nil], by simp [none]⟩

theorem setsTaken {name raw : String} (taken : Widget.understood name = true)
    (same : e.properties = before.properties) : Sets w [(name, raw)] before e := by
  refine setsNothing (Bool.eq_false_iff.mpr fun sets => ?_) same
  obtain ⟨declared, other⟩ := Bool.and_eq_true_iff.mp sets
  exact bne_iff_ne.mp other (Widget.understoodDeclared declared taken).2

theorem applyPropertySets {name raw : String} (kind : before.kind = .widget w)
    (other : name ≠ "style") (ok : (applyProperty tag before name raw).outcome s = (.ok e, t)) :
    Sets w [(name, raw)] before e := by
  unfold applyProperty at ok
  split at ok
  · rename_i namespaced
    cases ok
    exact setsTaken (by simp [Widget.understood, namespaced]) rfl
  · obtain ⟨found, read, ok⟩ := Task.liftBindGives ok
    rw [kind] at read
    cases found with
    | some p =>
      cases ok
      have declared := Widget.propertyDeclared read
      have sets : settles w (name, raw) = true := by
        rw [settles, Widget.declares, declared.described]
        simpa using other
      exact ⟨[p], rfl, by simpa [sets] using declared⟩
    | none =>
      have unknown : settles w (name, raw) = false := by
        rw [settles, Widget.propertyUndeclared read, Bool.false_and]
      simp only [addArgument, kind] at ok
      cases ok
      exact setsNothing unknown rfl

theorem applyAttributeSets {given : String × String} (kind : before.kind = .widget w)
    (ok : (applyAttribute tag before given).outcome s = (.ok e, t)) :
    Sets w [given] before e := by
  obtain ⟨name, raw⟩ := given
  unfold applyAttribute at ok
  simp only at ok
  split at ok
  · cases ok
    exact setsTaken rfl rfl
  · cases ok
    exact setsTaken rfl rfl
  · cases ok
    exact setsTaken rfl rfl
  · obtain ⟨styles, _, ok⟩ := Task.liftBindGives ok
    cases ok
    exact setsTaken rfl rfl
  · rename_i other
    split at ok
    · rename_i layout
      obtain ⟨constraints, _, ok⟩ := Task.liftBindGives ok
      cases ok
      exact setsTaken (by simp [Widget.understood, Text.startsWith, layout]) rfl
    · split at ok
      · rename_i action
        obtain ⟨applied, rfl⟩ := Task.liftGives ok
        obtain ⟨call, _, applied⟩ := Result.bindOk.mp applied
        simp only at applied
        split at applied
        · cases applied
        · cases applied
          exact setsTaken (by simp [Widget.understood, Text.startsWith, action]) rfl
      · split at ok
        · rename_i tool
          cases ok
          exact setsTaken (by simp [Widget.understood, Text.startsWith, tool]) rfl
        · exact applyPropertySets kind other ok

theorem attributesSet {attributes : List (String × String)} (kind : before.kind = .widget w)
    (ok : (attributes.foldlM (applyAttribute tag) before).outcome s = (.ok e, t)) :
    Sets w attributes before e := by
  induction attributes generalizing before s with
  | nil =>
    cases ok
    exact ⟨[], (List.append_nil _).symm, .nil⟩
  | cons given rest ih =>
    obtain ⟨next, between, applied, others⟩ := Task.foldlGives.mp ok
    obtain ⟨first, one, here⟩ := applyAttributeSets kind applied
    obtain ⟨more, all, later⟩ := ih ((applyAttributeDressed applied).1.widget w kind) others
    refine ⟨first ++ more, by rw [all, one, List.append_assoc], ?_⟩
    rw [← List.singleton_append, List.filter_append]
    exact List.rel_append here later

/- The properties of an element are those that its attributes give to a bare one of its kind. -/
theorem readApplies {node : Node} (builtIn : Widget.ofTag? node.name = some w)
    (ok : (read node).outcome s = (.ok e, t)) :
    ∃ id found u v, (applyAttributes node.name node.attributes (bare (.widget w) id)).outcome u =
      (.ok found, v) ∧ e.properties = found.properties := by
  obtain ⟨tag, attributes, children, text⟩ := node
  rw [read] at ok
  obtain ⟨kind, start, kinded, available⟩ := Task.bindGives.mp ok
  unfold kindOf at kinded
  rw [builtIn] at kinded
  cases kinded
  rw [Task.getBind] at available
  by_cases missing : (!(ElementKind.widget w).isAvailable s.platform) = true
  · simp only [missing, if_true] at available
    cases available
  · simp only [missing] at available
    obtain ⟨id, claimed, _, dressing⟩ := Task.bindGives.mp available
    obtain ⟨found, dressed, applied, rest⟩ := Task.bindGives.mp dressing
    refine ⟨id, found, claimed, dressed, applied, ?_⟩
    split at rest
    · cases rest
      rfl
    · rw [(applyAttributesDressed applied).1.widget w rfl] at rest
      simp only at rest
      split at rest
      · cases rest
      · obtain ⟨below, after, _, last⟩ := Task.bindGives.mp rest
        cases last
        rfl

theorem declaredSet {node : Node} (builtIn : Widget.ofTag? node.name = some w)
    (ok : (read node).outcome s = (.ok e, t)) :
    List.Forall₂ w.Declared
      (node.attributes.filter fun given => w.declares given.1 && given.1 != "style")
      e.properties ∧
    (w.declares "style" = true ↔ w = .activityIndicator) := by
  refine ⟨?_, fun declared => (Widget.understoodDeclared declared rfl).1, ?_⟩
  · obtain ⟨id, found, u, v, applied, same⟩ := readApplies builtIn ok
    unfold applyAttributes at applied
    obtain ⟨dressed, between, folded, last⟩ := Task.bindGives.mp applied
    obtain ⟨_, after, _, last⟩ := Task.bindGives.mp last
    cases last
    obtain ⟨added, all, sets⟩ := attributesSet rfl folded
    rw [same, all]
    exact sets
  · rintro rfl
    decide +kernel

section Spinner

def submitNode : Node :=
  { name := "Button",
    attributes := [("id", "submit"), ("title", "Send"), ("style", "main"),
      ("layout:top", "super"), ("title.disabled", "Sent"), ("alpha", "$shade"), ("hint", "?"),
      ("action:tap", "send()")] }

def spinnerNode : Node :=
  { name := "ActivityIndicator", attributes := [("color", "#ff0000"), ("style", "large")] }

def spinnerSheet : Node :=
  { name := "ActivityIndicatorStyle", attributes := [("name", "big"), ("style", "large")] }

def readAlone (node : Node) : Result Element × ReadState :=
  (read node).outcome { platform := .iOS, path := "Page.ui.xml" }

theorem submitComputed : (readAlone submitNode).1.map (·.properties.map Property.key) =
    .ok ["title", "title.disabled", "alpha"] := by decide +kernel

theorem submitSet : Widget.ofTag? submitNode.name = some .button ∧
    ∃ e t, readAlone submitNode = (.ok e, t) ∧
      e.properties.map Property.key = ["title", "title.disabled", "alpha"] ∧
      List.Forall₂ Widget.button.Declared (submitNode.attributes.filter fun given =>
        Widget.button.declares given.1 && given.1 != "style") e.properties := by
  obtain ⟨e, ok, keys⟩ := Result.mapOk.mp submitComputed
  have read := Result.outcomeOk ok
  exact ⟨by decide, e, _, read, keys, (declaredSet (by decide) read).1⟩

/- A style sheet sets the property, the attribute of an element names styles. -/
theorem styleShadowed : Widget.ofTag? spinnerNode.name = some .activityIndicator ∧
    Widget.activityIndicator.declares "style" = true ∧
    (readAlone spinnerNode).1.map (fun e => (e.properties.map Property.key, e.styles)) =
      .ok (["color"], [.inGroup "large"]) ∧
    (Style.read spinnerSheet).map (·.properties.map Property.key) = .ok ["style"] := by
  decide +kernel

end Spinner

end Element

end ViewForge
