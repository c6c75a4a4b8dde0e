import ViewForge.Proofs.Project.Reads

/-! The classes of a project. A class stands in the code for every component, also for one that is
defined in another, and what it has asked for when it was generated is there: a component behind a
reference is asked for by its arguments and actions, and by nothing else. -/
open Relation (ReflTransGen)
namespace ViewForge
open Code (Decl)

namespace Registry

variable {r : Registry} {configuration : Configuration}

theorem visibleNamed (filled : r.Filled) {name : String} {d : ComponentDefinition}
    (found : (r.component? name).1 = some d) : d.typeName = name := by
  unfold component? at found
  split at found
  · rename_i first second more known
    cases found
    exact (componentsOfType filled (Ordered.memOfLookup known)).named _ List.mem_cons_self
  · rename_i only known
    cases found
    exact (componentsOfType filled (Ordered.memOfLookup known)).named _ List.mem_cons_self
  · cases found

/- The induction is on what is defined in what, as the classes are put together. -/
theorem classInside (filled : r.Filled) : ∀ d, d ∈ r.allDefinitions → ∀ source,
    r.Yields configuration d source → ∀ x ∈ d.nested, ∃ inner, r.Yields configuration x inner ∧
      ReflTransGen (fun outer part => part ∈ outer.members) source.decl inner.decl := by
  refine ComponentDefinition.nestedInduction fun d ih member source generated x within => ?_
  rcases ComponentDefinition.memNested.mp within with rfl | ⟨e, element, inline, here, below⟩
  · exact ⟨source, generated, .refl⟩
  · obtain ⟨s, t, kept, ok⟩ := generated
    obtain ⟨res, plan, code, styles, templates, nested, _, rfl, parts⟩ :=
      sourceParts filled member kept ok
    have defined : inline ∈ res.definition.inlineDefinitions :=
      List.mem_filterMap.mpr ⟨e, element, here⟩
    obtain ⟨first, inside, generated⟩ := forallLeft parts.inline defined
    obtain ⟨inner, made, deeper⟩ := ih e element inline here (inlineIncluded member element here)
      first generated x below
    exact ⟨inner, made, .head ((partsHold parts).2.2.2 (List.mem_map_of_mem inside)) deeper⟩

end Registry

def SourceBundle.Holds (b : SourceBundle) (x : Decl) : Prop :=
  ∃ top ∈ b.decls, ReflTransGen (fun outer part => part ∈ outer.members) top x

namespace Compilation

variable {c : Compilation} {configuration : Configuration} {bundle : SourceBundle}

theorem classHeld (filled : c.registry.Filled) (ok : c.Generates configuration bundle)
    {d : ComponentDefinition} (member : d ∈ c.registry.allDefinitions) :
    ∃ source, c.registry.Yields configuration d source ∧ bundle.Holds source.decl := by
  obtain ⟨styles, sources, emitted⟩ := generateGives filled ok
  obtain ⟨outer, registered, within⟩ := List.mem_flatMap.mp member
  obtain ⟨top, listed, made⟩ := forallLeft emitted.classes registered
  obtain ⟨source, generated, inside⟩ := Registry.classInside filled outer
    (Registry.definitionIncluded registered) top made d within
  exact ⟨source, generated, top.decl,
    emitted.holds _ (List.mem_append_right _ (List.mem_map_of_mem listed)), inside⟩

/- A reference without arguments and actions is generated by its name alone. -/
theorem usedReferencesRegistered (filled : c.registry.Filled)
    (ok : c.Generates configuration bundle) {d : ComponentDefinition}
    (member : d ∈ c.registry.allDefinitions) {e : Element} (element : e ∈ d.elements)
    {reference : ComponentReference} (kind : e.kind = .component reference)
    (outside : reference.definition = none)
    (used : reference.arguments ≠ [] ∨ e.actions ≠ []) :
    ∃ x ∈ c.registry.definitions, x.typeName = reference.typeName ∧
      (c.registry.component? reference.typeName).1 = some x ∧
      ∃ res, c.registry.Derivation x res := by
  obtain ⟨source, ⟨s, t, kept, generated⟩, _⟩ := classHeld filled ok member
  obtain ⟨res, _, _, _, _, _, _, rfl, parts⟩ := Registry.sourceParts filled member kept generated
  have needs : e.Needs := ⟨reference, kind, used⟩
  obtain ⟨_, _, derivation⟩ := parts.worked
  obtain ⟨x, behind⟩ : ∃ x, c.registry.behind? e = some x := by
    obtain ⟨_, next, behind, _, _⟩ := derivation
    exact ⟨next e, behind e element needs⟩
  have found : (c.registry.component? reference.typeName).1 = some x := by
    simpa [Registry.behind?, kind, ElementKind.reference?, outside] using behind
  exact ⟨x, Registry.visibleRegistered found, Registry.visibleNamed filled found, found,
    Registry.derivationStep derivation ⟨e, element, needs, behind⟩⟩

def outsideReferences (c : Compilation) :
    List (ComponentDefinition × Element × ComponentReference) :=
  c.registry.allDefinitions.flatMap fun d => d.elements.flatMap fun e =>
    (e.kind.reference?.toList.filter (·.definition.isNone)).map fun reference => (d, e, reference)

theorem outsideReferencesHold {d : ComponentDefinition} {e : Element}
    {reference : ComponentReference} (listed : (d, e, reference) ∈ c.outsideReferences) :
    d ∈ c.registry.allDefinitions ∧ e ∈ d.elements ∧ e.kind = .component reference ∧
      reference.definition = none := by
  obtain ⟨_, member, listed⟩ := List.mem_flatMap.mp listed
  obtain ⟨_, element, listed⟩ := List.mem_flatMap.mp listed
  obtain ⟨_, outside, same⟩ := List.mem_map.mp listed
  cases same
  obtain ⟨referred, outside⟩ := List.mem_filter.mp outside
  refine ⟨member, element, ?_, by simpa using outside⟩
  have referred := Option.mem_toList.mp referred
  unfold ElementKind.reference? at referred
  split at referred
  · rename_i reference kind
    cases referred
    exact kind
  · cases referred

/- The badge is referred to from a row that is defined inside the screen. -/
def countedFiles : List SourceFile := [
  .component "Badge.ui.xml" ("<Badge><state><item name=\"count\" type=\"Int\"/></state>" ++
    "<Label id=\"label\" numberOfLines=\"$count\"/></Badge>"),
  .component "Screen.ui.xml"
    "<Screen><Row id=\"row\"><Badge id=\"badge\" count=\"3\"/></Row></Screen>"]

theorem countedBadgeRegistered : ∃ c b, (start .iOS tinted "App.xml").Registers countedFiles {} c ∧
    c.Generates { platform := .iOS } b ∧ ∃ d e reference, (d, e, reference) ∈ c.outsideReferences ∧
      d.typeName = "Row" ∧ reference.arguments = [("count", "3")] ∧
      ∃ x ∈ c.registry.definitions, x.typeName = "Badge" := by
  have computed : (tintedProject countedFiles).toOption.any (fun made =>
      made.1.outsideReferences.any fun (d, _, reference) =>
        d.typeName == "Row" && reference.typeName == "Badge" &&
          reference.arguments == [("count", "3")]) = true := by
    have badge : countedFiles[0].contribution .iOS = _ :=
      SourceFile.componentLetters (Text.lettersAppend rfl rfl) _
    have screen : countedFiles[1].contribution .iOS = _ := SourceFile.componentLetters rfl _
    simp only [countedFiles, List.getElem_cons_zero, List.getElem_cons_succ] at badge screen
    simp only [tintedProject, countedFiles, List.mapM_cons, List.mapM_nil, tintedParsed, badge,
      screen]
    decide +kernel
  obtain ⟨⟨c, b⟩, made, holds⟩ := Result.anyOk computed
  obtain ⟨registers, generates, filled, _⟩ := tintedGives made
  obtain ⟨⟨d, e, reference⟩, listed, found⟩ := List.any_eq_true.mp holds
  simp only [Bool.and_eq_true, beq_iff_eq] at found
  obtain ⟨⟨row, badge⟩, arguments⟩ := found
  obtain ⟨member, element, kind, outside⟩ := outsideReferencesHold listed
  obtain ⟨x, registered, named, _⟩ := usedReferencesRegistered filled generates member element kind
    outside (.inl (by simp [arguments]))
  exact ⟨c, b, registers, generates, d, e, reference, listed, row, arguments, x, registered,
    named.trans badge⟩

def danglingFiles : List SourceFile :=
  [.component "Screen.ui.xml" "<Screen><Missing id=\"m\"/></Screen>"]

theorem missingGenerated : ∃ c b, (start .iOS tinted "App.xml").Registers danglingFiles {} c ∧
    c.Generates { platform := .iOS } b ∧ ∃ d ∈ c.registry.allDefinitions, ∃ e ∈ d.elements,
      ∃ reference, e.kind = .component reference ∧ reference.definition = none ∧
        reference.typeName = "Missing" ∧ ∀ x ∈ c.registry.definitions, x.typeName ≠ "Missing" := by
  have computed : (tintedProject danglingFiles).toOption.any (fun made =>
      made.1.outsideReferences.any (fun (_, _, reference) => reference.typeName == "Missing") &&
        made.1.registry.definitions.all fun x => x.typeName != "Missing") = true := by
    have screen : danglingFiles[0].contribution .iOS = _ := SourceFile.componentLetters rfl _
    simp only [danglingFiles, List.getElem_cons_zero] at screen
    simp only [tintedProject, danglingFiles, List.mapM_cons, List.mapM_nil, tintedParsed, screen]
    decide +kernel
  obtain ⟨⟨c, b⟩, made, holds⟩ := Result.anyOk computed
  obtain ⟨registers, generates, _, _⟩ := tintedGives made
  obtain ⟨dangling, unknown⟩ := (Bool.and_eq_true _ _).mp holds
  obtain ⟨⟨d, e, reference⟩, listed, named⟩ := List.any_eq_true.mp dangling
  obtain ⟨member, element, kind, outside⟩ := outsideReferencesHold listed
  refine ⟨c, b, registers, generates, d, member, e, element, reference, kind, outside,
    beq_iff_eq.mp named, fun x registered => ?_⟩
  simpa using List.all_eq_true.mp unknown x registered

end Compilation
end ViewForge
