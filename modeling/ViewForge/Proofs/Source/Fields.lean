import ViewForge.Proofs.Source.Strategies

/-! The names of the stored properties of a class. They come from five sources into one scope: the
class itself, the elements, the items in the navigation bar, the fields of constraints and the list
of the constraints that are made anew. Only elements among themselves and fields among themselves
are kept apart. -/
namespace ViewForge
open Code (Decl)

namespace ComponentDefinition

def elementNames (d : ComponentDefinition) : List String := (d.elements.drop 1).map (·.id.name)

def itemNames (d : ComponentDefinition) : List String := d.navigation.map (·.id)

end ComponentDefinition

namespace LayoutPlan

def ownNames (plan : LayoutPlan) : List String :=
  ["state", "actionPublisher"] ++ if plan.isReactive then [reactiveField] else []

theorem ownNodup (plan : LayoutPlan) : plan.ownNames.Nodup := by
  unfold ownNames
  split <;> decide

end LayoutPlan

/-- What nothing makes sure of: that the names from different sources are different, and that no two
items in the navigation bar have one id. -/
structure ComponentDefinition.NamesApart (d : ComponentDefinition) (plan : LayoutPlan) : Prop where
  own : plan.ownNames.Disjoint (d.elementNames ++ d.itemNames ++ plan.fields)
  items : d.itemNames.Nodup
  elementItem : d.elementNames.Disjoint d.itemNames
  elementField : d.elementNames.Disjoint plan.fields
  itemField : d.itemNames.Disjoint plan.fields

namespace Registry

variable {r : Registry} {c : Configuration} {res : Resolved} {plan : LayoutPlan} {code : LoadCode}
  {styles templates : List Decl} {nested : List ComponentSource} {decl : Decl}

theorem typeStored {x : Decl} (type : isType x = true) : x.storedName? = none := by
  cases x <;> first | rfl | cases type

theorem ownFields (d : ComponentDefinition) (context : RenderContext) (c : Configuration)
    (plan : LayoutPlan) : (d.fields context c plan).filterMap (·.storedName?) =
      ["state", "actionPublisher"] ++ d.elementNames ++ d.itemNames ++ plan.fields ++
        if plan.isReactive then [LayoutPlan.reactiveField] else [] := by
  have element : (fun e => (ComponentDefinition.elementField c e).storedName?) =
      fun e : Element => some e.id.name := by
    funext e
    unfold ComponentDefinition.elementField
    simp only
    split <;> rfl
  have elements : ((d.elements.drop 1).map (ComponentDefinition.elementField c)).filterMap
      (·.storedName?) = d.elementNames := by
    rw [List.filterMap_map]
    exact (congrArg (List.filterMap · _) element).trans (congrFun List.filterMap_eq_map' _)
  have items : (d.navigation.map (ComponentDefinition.barButtonField context c)).filterMap
      (·.storedName?) = d.itemNames := by
    rw [List.filterMap_map]
    exact congrFun List.filterMap_eq_map' _
  rw [ComponentDefinition.fields, List.filterMap_append, List.filterMap_append,
    List.filterMap_append, elements, items, LayoutPlan.fieldNames, ← List.append_assoc]
  rfl

/- Everything else in the class is a type, a method, computed, or belongs to the class and not to its
objects. -/
theorem partsStored (parts : r.Parts c res plan code styles templates nested decl) :
    decl.stored = ["state", "actionPublisher"] ++ res.definition.elementNames ++
      res.definition.itemNames ++ plan.fields ++
        if plan.isReactive then [LayoutPlan.reactiveField] else [] := by
  have methods : ∀ {α : Type} (xs : List α) (f : α → Code.Function),
      (xs.map fun x => Decl.function (f x)).filterMap (·.storedName?) = [] := by
    intro α xs f
    refine List.filterMap_eq_nil_iff.mpr fun x listed => ?_
    obtain ⟨_, _, rfl⟩ := List.mem_map.mp listed
    rfl
  have navigation : (res.definition.navigationDecls c).filterMap (·.storedName?) = [] := by
    refine List.filterMap_eq_nil_iff.mpr fun x listed => ?_
    obtain ⟨_, _, _, rfl⟩ := navigationComputed listed
    rfl
  have own : styles.filterMap (·.storedName?) = [] :=
    List.filterMap_eq_nil_iff.mpr fun x listed => typeStored (stylesTypes parts.styled x listed)
  have texts : templates.filterMap (·.storedName?) = [] :=
    List.filterMap_eq_nil_iff.mpr fun x listed =>
      typeStored (templatesTypes parts.templated x listed)
  have inner : (nested.map (·.decl)).filterMap (·.storedName?) = [] := by
    refine List.filterMap_eq_nil_iff.mpr fun x listed => ?_
    obtain ⟨source, inside, rfl⟩ := List.mem_map.mp listed
    obtain ⟨d, _, yields⟩ := forallRight parts.inline inside
    exact typeStored (generatedType yields)
  have path : (res.definition.reloadPath c).filterMap (·.storedName?) = [] := by
    unfold ComponentDefinition.reloadPath
    split <;> rfl
  have hook : (res.definition.reloadHook c).filterMap (·.storedName?) = [] := by
    unfold ComponentDefinition.reloadHook
    split <;> rfl
  have layout : plan.methods.filterMap (·.storedName?) = [] := by
    unfold LayoutPlan.methods
    split <;> rfl
  have types : [res.stateClass r.renderContext c, res.actionEnum c].filterMap
      (·.storedName?) = [] := rfl
  have function : ∀ f : Code.Function, (Decl.function f).storedName? = none := fun _ => rfl
  rw [Decl.stored, parts.assembled]
  simp only [classDecl, Decl.members, List.filterMap_append, List.filterMap_cons,
    List.filterMap_nil, types, function, ownFields, methods, navigation, own, texts, inner, path,
    hook, layout, List.append_nil, List.nil_append]

theorem namesDistinct {d : ComponentDefinition} (elements : d.elementNames.Nodup)
    (fields : plan.fields.Nodup) :
    (["state", "actionPublisher"] ++ d.elementNames ++ d.itemNames ++ plan.fields ++
      if plan.isReactive then [LayoutPlan.reactiveField] else []).Nodup ↔ d.NamesApart plan := by
  have order : (["state", "actionPublisher"] ++ d.elementNames ++ d.itemNames ++ plan.fields ++
      if plan.isReactive then [LayoutPlan.reactiveField] else []).Perm
      (plan.ownNames ++ (d.elementNames ++ d.itemNames ++ plan.fields)) := by
    rw [LayoutPlan.ownNames, List.append_assoc, List.append_assoc, List.append_assoc,
      List.append_assoc, ← List.append_assoc d.elementNames, ← List.append_assoc (_ ++ _)]
    exact List.Perm.append_left _ List.perm_append_comm
  rw [order.nodup_iff, List.nodup_append', List.nodup_append', List.nodup_append',
    List.disjoint_append_left]
  constructor
  · rintro ⟨_, ⟨⟨_, items, elementItem⟩, _, elementField, itemField⟩, own⟩
    exact ⟨own, items, elementItem, elementField, itemField⟩
  · intro apart
    exact ⟨plan.ownNodup, ⟨⟨elements, apart.items, apart.elementItem⟩, fields,
      apart.elementField, apart.itemField⟩, apart.own⟩

/- The class stores these properties and no others, and it does so under different names as far as
the names of different sources differ. -/
theorem storedDistinct (filled : r.Filled) {d : ComponentDefinition}
    (member : d ∈ r.allDefinitions) {s t : ResolverState} (used : r.Used s)
    {source : ComponentSource} (ok : (r.componentSource c d).outcome s = (.ok source, t)) :
    ∃ plan : LayoutPlan, (∀ name, name ∈ plan.fields ↔
        ∃ k ∈ LayoutPlan.constraints d, k.field = some name) ∧
      source.decl.stored = ["state", "actionPublisher"] ++ d.elementNames ++ d.itemNames ++
        plan.fields ++ (if plan.isReactive then [LayoutPlan.reactiveField] else []) ∧
      d.elementNames.Nodup ∧ plan.fields.Nodup ∧
      (source.decl.stored.Nodup ↔ d.NamesApart plan) := by
  obtain ⟨res, plan, code, styles, templates, nested, _, rfl, parts⟩ :=
    sourceParts filled member (usedKeeping filled used) ok
  obtain ⟨_, _, planned⟩ := parts.planned
  obtain ⟨fields, _⟩ := LayoutPlan.planFields planned
  have elements : res.definition.elementNames.Nodup := by
    rw [ComponentDefinition.elementNames, List.map_drop]
    exact parts.worked.tidy.ids.sublist (List.drop_sublist 1 _)
  have kept : plan.fields.Nodup := by
    rw [fields]
    exact Template.distinctNodup _
  have stored := partsStored parts
  refine ⟨plan, fun name => ?_, stored, elements, kept, ?_⟩
  · rw [fields, Template.memDistinct]
    exact List.mem_filterMap
  · rw [stored]
    exact namesDistinct elements kept

section Editor

def editorFile : String × String :=
  ("Editor", "<Editor><navigationBar><item id=\"save\" title=\"Save\"/></navigationBar>" ++
    "<Label id=\"title\" layout:top=\"gap = super\"/></Editor>")

def editor : Registry := ofTexts {} [editorFile]

def editorSource : Result ComponentSource × ResolverState :=
  (editor.componentSource { platform := .iOS } (ofText editorFile)).outcome {}

theorem editorComputed : ([editorFile].all fun file => (reading file).isOk) = true ∧
    editorSource.1.toOption.any
      (·.decl.stored == ["state", "actionPublisher", "title", "save", "gap"]) = true := by
  have read : reading editorFile = _ := readingLetters (Text.lettersAppend rfl rfl)
  simp only [editorSource, editor, ofTexts, ofText, List.all_cons, List.foldl_cons, List.foldl_nil,
    read]
  decide +kernel

theorem editorDistinct : ∃ source plan, editorSource.1 = .ok source ∧
    source.decl.stored = ["state", "actionPublisher", "title", "save", "gap"] ∧
    (ofText editorFile).NamesApart plan := by
  obtain ⟨readable, generated⟩ := editorComputed
  obtain ⟨source, ok, stored⟩ := Result.anyOk generated
  have stored := eq_of_beq stored
  obtain ⟨plan, _, _, _, _, exactly⟩ := storedDistinct (ofTextsFilled {} readable)
    (definitionIncluded (lastRegistered {} [] editorFile)) .fresh (Prod.ext ok rfl)
  exact ⟨source, plan, ok, stored, exactly.mp (by rw [stored]; decide)⟩

/- An item in the navigation bar has the id of the label. -/
def twinFile : String × String :=
  ("Page", "<Page><navigationBar><item id=\"save\" title=\"Save\"/></navigationBar>" ++
    "<Label id=\"save\"/></Page>")

def twins : Registry := ofTexts {} [twinFile]

def twinSource : Result ComponentSource × ResolverState :=
  (twins.componentSource { platform := .iOS } (ofText twinFile)).outcome {}

theorem itemSharesId : ∃ source, twins.Filled ∧ ofText twinFile ∈ twins.definitions ∧
    twinSource.1 = .ok source ∧
    source.decl.stored = ["state", "actionPublisher", "save", "save"] ∧
    ¬ source.decl.stored.Nodup := by
  have computed : ([twinFile].all fun file => (reading file).isOk) = true ∧
      twinSource.1.toOption.any
        (·.decl.stored == ["state", "actionPublisher", "save", "save"]) = true := by
    have read : reading twinFile = _ := readingLetters (Text.lettersAppend rfl rfl)
    simp only [twinSource, twins, ofTexts, ofText, List.all_cons, List.foldl_cons, List.foldl_nil,
      read]
    decide +kernel
  obtain ⟨readable, generated⟩ := computed
  obtain ⟨source, ok, stored⟩ := Result.anyOk generated
  have stored := eq_of_beq stored
  exact ⟨source, ofTextsFilled {} readable, lastRegistered {} [] twinFile, ok, stored,
    by rw [stored]; decide⟩

end Editor

end Registry
end ViewForge
