import ViewForge.Proofs.Task
import ViewForge.Source.Component

/-! Registries that differ only in the order of what is in them. Sources are made of what is found
by name, so that such registries have the same sources. -/
namespace ViewForge

structure Registry.Alike (r s : Registry) : Prop where
  platform : r.platform = s.platform
  application : r.application = s.application
  groups : ∀ name, r.styleGroups.lookup name = s.styleGroups.lookup name
  sizes : (r.styleGroups.map (·.2.styles.length)).foldl (· + ·) 0 =
    (s.styleGroups.map (·.2.styles.length)).foldl (· + ·) 0
  components : ∀ name, r.components.lookup name = s.components.lookup name
  definitions : r.allDefinitions.length = s.allDefinitions.length

namespace StyleScope

structure Alike (a b : StyleScope) : Prop where
  lookup : a.lookup = b.lookup
  size : a.size = b.size

theorem ofRegistries {r s : Registry} (alike : r.Alike s) (own : Option StyleGroup) :
    Alike { groups := r.styleGroups, own } { groups := s.styleGroups, own } where
  lookup := by
    funext name current
    simp only [StyleScope.lookup, alike.groups]
  size := by simp only [size, alike.sizes]

variable {a b : StyleScope}

theorem flattenFromAlike (alike : Alike a b) : a.flattenFrom = b.flattenFrom := by
  funext fuel
  induction fuel with
  | zero => rfl
  | succ fuel ih =>
    funext visiting name current
    simp only [flattenFrom, alike.lookup, ih]

theorem flattenAlike (alike : Alike a b) : a.flatten = b.flatten := by
  funext name current
  simp only [flatten, alike.size, flattenFromAlike alike]

theorem isThemedAlike (alike : Alike a b) : a.isThemed = b.isThemed := by
  funext name current
  simp only [isThemed, flattenAlike alike]

theorem resolveAlike (alike : Alike a b) : a.resolve = b.resolve := by
  funext e
  simp only [resolve, alike.lookup, flattenAlike alike]

end StyleScope

namespace Registry

variable {r s : Registry}

theorem renderContextAlike (alike : r.Alike s) : r.renderContext = s.renderContext := by
  simp only [renderContext, alike.platform, alike.application]

theorem checkReferencesAlike (alike : r.Alike s) : r.checkReferences = s.checkReferences := by
  funext properties
  induction properties with
  | nil => rfl
  | cons p rest ih => simp only [checkReferences, alike.application, ih]

theorem resolvePropertiesAlike (alike : r.Alike s) (d : ComponentDefinition) :
    r.resolveProperties d = s.resolveProperties d := by
  have each : r.elementProperties { groups := r.styleGroups, own := some d.styles } =
      s.elementProperties { groups := s.styleGroups, own := some d.styles } := by
    funext e
    simp only [elementProperties, checkReferencesAlike alike,
      StyleScope.resolveAlike (StyleScope.ofRegistries alike _)]
  simp only [resolveProperties, each]

theorem describeAlike (alike : r.Alike s) : r.describe = s.describe := by
  funext child d
  simp only [describe, resolvePropertiesAlike alike]

theorem definitionForAlike (alike : r.Alike s) : r.definitionFor = s.definitionFor := by
  funext e
  simp only [definitionFor, component, component?, alike.components]

theorem workOutAlike (alike : r.Alike s) : r.workOut = s.workOut := by
  funext child d
  simp only [workOut, describeAlike alike]

theorem resolveWithinAlike (alike : r.Alike s) (beyond : ComponentDefinition → Resolve Resolved)
    (n : Nat) : r.resolveWithin beyond n = s.resolveWithin beyond n := by
  induction n with
  | zero => rfl
  | succ n ih =>
    simp only [resolveWithin, workOutAlike alike, definitionForAlike alike, ih]

theorem resolveAlike (alike : r.Alike s) : r.resolve = s.resolve := by
  funext d
  simp only [resolve, resolveLimit, alike.definitions, resolveWithinAlike alike]

theorem loadViewAlike (alike : r.Alike s) : r.loadView = s.loadView := by
  have added : LoadCode.addElement r = LoadCode.addElement s := by
    funext res code ⟨e, parent⟩
    simp only [LoadCode.addElement, LoadCode.componentCode, resolveReference,
      renderContextAlike alike, definitionForAlike alike, resolveAlike alike]
  funext res
  simp only [loadView, added]

end Registry

namespace StyleSource

structure Alike (a b : StyleSource) : Prop where
  registry : a.registry.Alike b.registry
  configuration : a.configuration = b.configuration
  scope : a.scope.Alike b.scope
  group : a.group = b.group
  typeName : a.typeName = b.typeName

variable {a b : StyleSource}

theorem referenceAlike (alike : Alike a b) : a.reference = b.reference := by
  funext theme name
  have owned : a.owner = b.owner := by
    funext name
    cases name <;> simp only [owner, alike.typeName]
  simp only [reference, alike.scope.lookup, StyleScope.isThemedAlike alike.scope, alike.group,
    owned]

theorem declAlike (alike : Alike a b) : a.decl = b.decl := by
  have each : a.style = b.style := by
    funext style
    simp only [StyleSource.style, Registry.checkReferencesAlike alike.registry,
      StyleScope.isThemedAlike alike.scope, alike.group, alike.configuration,
      referenceAlike alike, Registry.renderContextAlike alike.registry]
  simp only [decl, each, alike.group, alike.configuration, alike.typeName]

theorem functionsAlike (alike : Alike a b) (templates : List Template) :
    Template.functions a templates = Template.functions b templates := by
  induction templates with
  | nil => rfl
  | cons t rest ih =>
    simp only [Template.functions, Template.function, Template.attributesCode, alike.scope.lookup,
      alike.group, alike.configuration, referenceAlike alike, ih]

end StyleSource

namespace Registry

variable {r s : Registry}

theorem ofComponentAlike (alike : r.Alike s) (c : Configuration) (group : StyleGroup) :
    (StyleSource.ofComponent r c group).Alike (StyleSource.ofComponent s c group) :=
  ⟨alike, rfl, StyleScope.ofRegistries alike _, rfl, rfl⟩

theorem ofGlobalAlike (alike : r.Alike s) (c : Configuration) (group : StyleGroup) :
    (StyleSource.ofGlobal r c group).Alike (StyleSource.ofGlobal s c group) :=
  ⟨alike, rfl, StyleScope.ofRegistries alike _, rfl, rfl⟩

theorem membersAlike (alike : r.Alike s) (c : Configuration) : r.members c = s.members c := by
  funext res
  have own := ofComponentAlike alike c res.definition.styles
  have styles : stylesDecl (StyleSource.ofComponent r c res.definition.styles) =
      stylesDecl (StyleSource.ofComponent s c res.definition.styles) := by
    simp only [stylesDecl, own.group, StyleSource.declAlike own]
  have templates : templatesDecl (StyleSource.ofComponent r c res.definition.styles) =
      templatesDecl (StyleSource.ofComponent s c res.definition.styles) := by
    funext templates
    simp only [templatesDecl, StyleSource.functionsAlike own, own.configuration]
  simp only [members, renderContextAlike alike, loadViewAlike alike, styles, templates]

theorem assembleAlike (alike : r.Alike s) (c : Configuration) : r.assemble c = s.assemble c := by
  funext d nested
  simp only [assemble, resolveAlike alike, membersAlike alike]

mutual

theorem componentSourceAlike (alike : r.Alike s) (c : Configuration) (d : ComponentDefinition) :
    r.componentSource c d = s.componentSource c d := by
  obtain ⟨_, _, root, _, _, _, _, _, _⟩ := d
  rw [componentSource, componentSource, assembleAlike alike, inlineSourcesAlike alike c root]

theorem inlineSourcesAlike (alike : r.Alike s) (c : Configuration) (e : Element) :
    r.inlineSources c e = s.inlineSources c e := by
  obtain ⟨kind, _, _, _, _, _, _, _, _, children⟩ := e
  cases kind with
  | widget w =>
    rw [inlineSources, inlineSources, inlineSourcesOfAllAlike alike c children]
  | component reference =>
    obtain ⟨_, _, definition⟩ := reference
    cases definition with
    | none =>
      rw [inlineSources, inlineSources, inlineSourcesOfAllAlike alike c children]
    | some d =>
      rw [inlineSources, inlineSources, componentSourceAlike alike c d,
        inlineSourcesOfAllAlike alike c children]

theorem inlineSourcesOfAllAlike (alike : r.Alike s) (c : Configuration) (es : List Element) :
    r.inlineSourcesOfAll c es = s.inlineSourcesOfAll c es := by
  cases es with
  | nil => rw [inlineSourcesOfAll, inlineSourcesOfAll]
  | cons e rest =>
    rw [inlineSourcesOfAll, inlineSourcesOfAll, inlineSourcesAlike alike c e,
      inlineSourcesOfAllAlike alike c rest]

end

end Registry
end ViewForge
