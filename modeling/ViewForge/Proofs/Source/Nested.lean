import ViewForge.Proofs.Source.Mention

/-! A class in parts. Among them are the classes inside it: there is one for every component that is
defined at an element, in the order of the elements, and each has been generated like any other. -/
namespace ViewForge
open Code (Decl)

namespace Registry

variable {r : Registry} {c : Configuration}

def Yields (r : Registry) (c : Configuration) (d : ComponentDefinition)
    (source : ComponentSource) : Prop :=
  ∃ s t, r.Keeping s ∧ (r.componentSource c d).outcome s = (.ok source, t)

mutual

theorem inlineSourcesEach (filled : r.Filled) (e : Element)
    (within : ∀ x ∈ e.definitions, x ∈ r.allDefinitions) {nested : List ComponentSource}
    {s t : ResolverState} (kept : r.Keeping s)
    (ok : (r.inlineSources c e).outcome s = (.ok nested, t)) :
    List.Forall₂ (r.Yields c) ((Element.walk [e]).filterMap (·.definition?)) nested := by
  obtain ⟨kind, _, _, _, _, _, _, _, _, children⟩ := e
  rw [Element.walkCons, Element.walk, List.append_nil]
  cases kind with
  | widget w =>
    rw [Element.definitions] at within
    rw [inlineSources] at ok
    exact inlineSourcesOfAllEach filled children within kept ok
  | component reference =>
    obtain ⟨_, _, definition⟩ := reference
    cases definition with
    | none =>
      rw [Element.definitions] at within
      rw [inlineSources] at ok
      exact inlineSourcesOfAllEach filled children within kept ok
    | some d =>
      rw [Element.definitions] at within
      obtain ⟨here, below⟩ := List.forall_mem_append.mp within
      rw [inlineSources] at ok
      obtain ⟨first, u, generated, ok⟩ := Task.bindGives.mp ok
      obtain ⟨others, v, more, last⟩ := Task.bindGives.mp ok
      cases last
      have still : r.Keeping u := by
        have keeps := (componentSourceKeeps (c := c) filled d here s kept).1
        rwa [generated] at keeps
      exact .cons ⟨s, u, kept, generated⟩ (inlineSourcesOfAllEach filled children below still more)

theorem inlineSourcesOfAllEach (filled : r.Filled) (es : List Element)
    (within : ∀ x ∈ Element.definitionsOfAll es, x ∈ r.allDefinitions)
    {nested : List ComponentSource} {s t : ResolverState} (kept : r.Keeping s)
    (ok : (r.inlineSourcesOfAll c es).outcome s = (.ok nested, t)) :
    List.Forall₂ (r.Yields c) ((Element.walk es).filterMap (·.definition?)) nested := by
  cases es with
  | nil =>
    rw [inlineSourcesOfAll] at ok
    cases ok
    rw [Element.walk]
    exact .nil
  | cons e rest =>
    rw [Element.definitionsOfAll] at within
    obtain ⟨here, later⟩ := List.forall_mem_append.mp within
    rw [inlineSourcesOfAll] at ok
    obtain ⟨first, u, own, ok⟩ := Task.bindGives.mp ok
    obtain ⟨others, v, more, last⟩ := Task.bindGives.mp ok
    cases last
    have still : r.Keeping u := by
      have keeps := (inlineSourcesKeeps (c := c) filled e here s kept).1
      rwa [own] at keeps
    have walked : Element.walk (e :: rest) = Element.walk [e] ++ Element.walk rest := by
      rw [← Element.walkAppend]
      rfl
    rw [walked, List.filterMap_append]
    exact List.rel_append (inlineSourcesEach filled e here kept own)
      (inlineSourcesOfAllEach filled rest later still more)

end

theorem rootWithin {d : ComponentDefinition} (member : d ∈ r.allDefinitions) :
    ∀ x ∈ d.root.definitions, x ∈ r.allDefinitions := by
  intro x inside
  obtain ⟨outer, registered, nested⟩ := List.mem_flatMap.mp member
  refine List.mem_flatMap.mpr ⟨outer, registered, ComponentDefinition.nestedTrans nested ?_⟩
  rw [ComponentDefinition.nested, Element.definitionsOfSplit]
  exact List.mem_cons_of_mem _ inside

structure Parts (r : Registry) (c : Configuration) (res : Resolved) (plan : LayoutPlan)
    (code : LoadCode) (styles templates : List Decl) (nested : List ComponentSource)
    (decl : Decl) : Prop where
  worked : r.WorkedOut res
  planned : ∃ s t, (LayoutPlan.ofDefinition res.definition).outcome s = (.ok plan, t)
  loaded : ∃ s t, r.Keeping s ∧
    (res.definition.root.withParents.foldlM (LoadCode.addElement r res) {}).outcome s =
      (.ok code, t)
  styled : stylesDecl (.ofComponent r c res.definition.styles) = .ok styles
  templated : templatesDecl (.ofComponent r c res.definition.styles) res.definition.templates =
    .ok templates
  inline : List.Forall₂ (r.Yields c) res.definition.inlineDefinitions nested
  assembled : decl = classDecl c res.definition.typeName (
    [res.stateClass r.renderContext c, res.actionEnum c]
      ++ res.definition.reloadPath c
      ++ res.definition.fields r.renderContext c plan
      ++ [.function (res.definition.initializer c),
        .function { access := .privateScope, name := "loadView", body := code.body }]
      ++ plan.methods
      ++ [.function (res.observeActions r.renderContext c)]
      ++ res.definition.overrides.map (fun o => .function (ComponentDefinition.overrideMethod o))
      ++ res.definition.reloadHook c
      ++ res.definition.navigationDecls c
      ++ styles ++ templates ++ nested.map (·.decl))

theorem sourceMade (filled : r.Filled) {d : ComponentDefinition} (member : d ∈ r.allDefinitions)
    {s t : ResolverState} (kept : r.Keeping s) {source : ComponentSource}
    (ok : (r.componentSource c d).outcome s = (.ok source, t)) :
    ∃ res plan code styles templates nested, ((r.resolve d).outcome s).1 = .ok res ∧
      res.definition = d ∧ r.Parts c res plan code styles templates nested source.decl ∧
      source.imports = nested.foldl (fun all n => all.union n.imports) (d.imports c) := by
  rw [componentSourceSplit] at ok
  unfold assemble at ok
  obtain ⟨res, s₁, resolves, ok⟩ := Task.bindGives.mp ok
  obtain ⟨members, s₂, own, ok⟩ := Task.bindGives.mp ok
  obtain ⟨nested, s₃, inline, last⟩ := Task.bindGives.mp ok
  cases last
  have resolved : ((r.resolve d).outcome s).1 = .ok res := congrArg Prod.fst resolves
  have derivation := resolveSound filled member kept resolved
  have same : res.definition = d := (derivationDescribes filled member derivation).definition
  subst same
  -- the resolver has kept what is true up to the classes inside
  have first : r.Keeping s₁ := by
    have keeps := (resolveKeepsAll filled member s kept).1
    rwa [resolves] at keeps
  have second : r.Keeping s₂ := by
    have keeps := (membersKeeps (c := c) filled member s₁ first).1
    rwa [own] at keeps
  unfold Registry.members at own
  obtain ⟨plan, s₄, planned, own⟩ := Task.bindGives.mp own
  obtain ⟨load, s₅, loaded, own⟩ := Task.bindGives.mp own
  obtain ⟨styles, styled, own⟩ := Task.liftBindGives own
  obtain ⟨templates, templated, own⟩ := Task.liftBindGives own
  cases own
  have third : r.Keeping s₄ := by
    have keeps := (planKeeps res.definition s₁ first).1
    rwa [planned] at keeps
  unfold loadView at loaded
  obtain ⟨code, s₆, folded, last⟩ := Task.bindGives.mp loaded
  cases last
  have worked : r.WorkedOut res := ⟨filled, member, derivation⟩
  refine ⟨res, plan, code, styles, templates, nested, resolved, rfl, ?_, rfl⟩
  exact ⟨worked, ⟨_, _, planned⟩, ⟨_, _, third, folded⟩, styled, templated,
    inlineSourcesEach filled res.definition.root (rootWithin member) second inline, rfl⟩

theorem sourceParts (filled : r.Filled) {d : ComponentDefinition} (member : d ∈ r.allDefinitions)
    {s t : ResolverState} (kept : r.Keeping s) {source : ComponentSource}
    (ok : (r.componentSource c d).outcome s = (.ok source, t)) :
    ∃ res plan code styles templates nested, ((r.resolve d).outcome s).1 = .ok res ∧
      res.definition = d ∧ r.Parts c res plan code styles templates nested source.decl := by
  obtain ⟨res, plan, code, styles, templates, nested, resolved, same, parts, _⟩ :=
    sourceMade filled member kept ok
  exact ⟨res, plan, code, styles, templates, nested, resolved, same, parts⟩

inductive Member (r : Registry) (c : Configuration) (res : Resolved) (plan : LayoutPlan)
    (code : LoadCode) (inner : List Decl) : Decl → Prop where
  | state : Member r c res plan code inner (res.stateClass r.renderContext c)
  | actions : Member r c res plan code inner (res.actionEnum c)
  | reloadPath {x : Decl} (listed : x ∈ res.definition.reloadPath c) :
      Member r c res plan code inner x
  | field {x : Decl} (listed : x ∈ res.definition.fields r.renderContext c plan) :
      Member r c res plan code inner x
  | initializer : Member r c res plan code inner (.function (res.definition.initializer c))
  | load : Member r c res plan code inner
      (.function { access := .privateScope, name := "loadView", body := code.body })
  | layout {x : Decl} (listed : x ∈ plan.methods) : Member r c res plan code inner x
  | observe : Member r c res plan code inner (.function (res.observeActions r.renderContext c))
  | override (o : Override) : Member r c res plan code inner
      (.function (ComponentDefinition.overrideMethod o))
  | reloadHook {x : Decl} (listed : x ∈ res.definition.reloadHook c) :
      Member r c res plan code inner x
  | navigation {x : Decl} (listed : x ∈ res.definition.navigationDecls c) :
      Member r c res plan code inner x
  | inner {x : Decl} (listed : x ∈ inner) : Member r c res plan code inner x

section Members

variable {res : Resolved} {plan : LayoutPlan} {code : LoadCode} {styles templates : List Decl}
  {nested : List ComponentSource} {decl x : Decl}

theorem partsMember (parts : r.Parts c res plan code styles templates nested decl)
    (member : x ∈ decl.members) :
    r.Member c res plan code (styles ++ templates ++ nested.map (·.decl)) x := by
  rw [parts.assembled] at member
  simp only [classDecl, Code.Decl.members, List.mem_append, List.mem_cons, List.not_mem_nil,
    or_false, List.mem_map] at member
  rcases member with (((((((((((rfl | rfl) | path) | field) | rfl | rfl) | layout) | rfl) |
    ⟨o, _, rfl⟩) | hook) | navigation) | style) | template) | ⟨source, inside, rfl⟩
  · exact .state
  · exact .actions
  · exact .reloadPath path
  · exact .field field
  · exact .initializer
  · exact .load
  · exact .layout layout
  · exact .observe
  · exact .override o
  · exact .reloadHook hook
  · exact .navigation navigation
  · exact .inner (List.mem_append_left _ (List.mem_append_left _ style))
  · exact .inner (List.mem_append_left _ (List.mem_append_right _ template))
  · exact .inner (List.mem_append_right _ (List.mem_map_of_mem inside))

theorem partsHold (parts : r.Parts c res plan code styles templates nested decl) :
    res.stateClass r.renderContext c ∈ decl.members ∧
      res.definition.fields r.renderContext c plan ⊆ decl.members ∧
      .function { access := .privateScope, name := "loadView", body := code.body } ∈ decl.members ∧
      nested.map (·.decl) ⊆ decl.members := by
  rw [parts.assembled]
  simp only [classDecl, Code.Decl.members]
  refine ⟨by simp, fun x listed => ?_, by simp, fun x listed => ?_⟩
  · simp only [List.mem_append]
    simp [listed]
  · exact List.mem_append_right _ listed

theorem partsHoldInner (parts : r.Parts c res plan code styles templates nested decl) :
    styles ++ templates ⊆ decl.members := by
  rw [parts.assembled]
  intro x listed
  simp only [classDecl, Code.Decl.members]
  exact List.mem_append_left _ (List.append_assoc _ styles templates ▸
    List.mem_append_right _ listed)

end Members
end Registry
end ViewForge
