import ViewForge.Proofs.Resolve.Action
import ViewForge.Proofs.Resolver
import ViewForge.Source.Action

/-! The code that publishes actions, against the enumeration of the actions. A call has the labels
of its case, and a value for each; what observes a component inside binds every value that the case
of that component carries. -/
namespace ViewForge
open Code (Expr Stmt Decl EnumCase)

namespace Code

def Decl.cases : Decl → List EnumCase
  | .enumeration _ _ _ cases _ => cases
  | _ => []

def Expr.case? : Expr → Option (String × List (Option String × Expr))
  | .implicitMember name => some (name, [])
  | .call (.implicitMember name) arguments =>
    some (name, arguments.map fun ⟨label, value⟩ => (label, value))
  | _ => none

def Stmt.published? : Stmt → Option (String × List (Option String × Expr))
  | .expr (.call (.member (.member (.identifier "self") "actionPublisher") "publish")
      [⟨some "action", action⟩]) => action.case?
  | _ => none

def Stmt.pattern? : Stmt → Option String
  | .expr (.call (.member _ "listen") [⟨none, .closure _ _ (.guard (.constant text) _ :: _)⟩]) =>
    some text
  | _ => none

def bindingPattern (name : String) (count : Nat) : String :=
  if count = 0 then s!"case .{name} = action"
  else
    let bindings := Text.join ", " ((List.range count).map fun i => "let p" ++ toString i)
    s!"case .{name}({bindings}) = action"

end Code

theorem numberedAccessors (i : Nat) (ps : List (Option String × ValueType)) :
    (numberedParameters i ps).map (·.accessor) =
      (List.range' i ps.length).map fun i => "p" ++ toString i := by
  induction ps generalizing i with
  | nil => rfl
  | cons p rest ih =>
    obtain ⟨label, type⟩ := p
    rw [numberedParameters, List.map_cons, ih, List.length_cons, List.range'_succ, List.map_cons]

namespace ResolvedAction

theorem inheritedWithin {i k : Nat} {events : List EventParameter} {p : ActionParameter}
    (member : p ∈ inheritedParameters i events) (source : p.source = .inherited k) :
    k < i + events.length := by
  induction events generalizing i with
  | nil => simp [inheritedParameters] at member
  | cons event rest ih =>
    rw [inheritedParameters] at member
    rw [List.length_cons]
    rcases List.mem_cons.mp member with rfl | later
    · cases source
      omega
    · have below := ih later
      omega

theorem referenceOwn {d : ComponentDefinition} {current : String} {target : ReferenceTarget}
    {property : Option String} {type : ValueType} {source : ParameterSource}
    (ok : referenceParameter d current target property = .ok (type, source)) (k : Nat) :
    source ≠ .inherited k := by
  unfold referenceParameter at ok
  simp only at ok
  split at ok
  · cases ok
  · split at ok
    · cases ok
      simp
    · split at ok
      · cases ok
        simp
      · cases ok

theorem argumentOwn {d : ComponentDefinition} {state : List StateItem} {current action : String}
    {argument : CallArgument} {p : ActionParameter}
    (ok : argumentParameter d state current action argument = .ok p) (k : Nat) :
    p.source ≠ .inherited k := by
  unfold argumentParameter at ok
  simp only at ok
  split at ok
  · cases ok
    simp
  · split at ok
    · cases ok
      simp
    · cases ok
  · obtain ⟨⟨type, source⟩, found, last⟩ := Result.bindOk.mp ok
    cases last
    exact referenceOwn found k

/- Only where a call is without a list of its own are the values of the event passed on. -/
theorem sourceGives {d : ComponentDefinition} {state : List StateItem} {id : String}
    {action : BoundAction} {event : EventDescription} {s : ActionSource}
    (ok : source d state id action event = .ok s) :
    s.event = event.source ∧ s.eventParameters = event.parameters ∧
      ∀ p ∈ s.parameters, ∀ k, p.source = .inherited k → k < s.eventParameters.length := by
  unfold source at ok
  simp only at ok
  split at ok
  · cases ok
    refine ⟨rfl, rfl, fun p member k inherited => ?_⟩
    simpa using inheritedWithin member inherited
  · obtain ⟨parameters, made, last⟩ := Result.bindOk.mp ok
    cases last
    refine ⟨rfl, rfl, fun p member k inherited => ?_⟩
    obtain ⟨argument, _, parameter⟩ := forallRight (Result.mapMOk made) member
    exact absurd inherited (argumentOwn parameter k)

def case (a : ResolvedAction) : EnumCase :=
  { name := a.name, associated := a.parameters.map fun p => (p.1, p.2.runtimeType) }

theorem enumCases (res : Resolved) (c : Configuration) :
    (res.actionEnum c).cases = res.actions.map case := rfl

end ResolvedAction

namespace ActionSource

theorem publicationGives (context : RenderContext) (a : ResolvedAction) (s : ActionSource) :
    (s.publication context a).published? = some (a.name,
      (a.parameters.map Prod.fst).zip (s.parameters.map (s.parameterCode context))) := by
  have paired : List.zipWith (fun declared p => (declared.1, s.parameterCode context p))
      a.parameters s.parameters =
        (a.parameters.map Prod.fst).zip (s.parameters.map (s.parameterCode context)) := by
    rw [List.zip, List.zipWith_map]
  unfold publication
  simp only [paired, Expr.invoke, Expr.apply, Expr.self, List.map_cons, List.map_nil,
    Code.Stmt.published?]
  generalize (a.parameters.map Prod.fst).zip _ = arguments
  split
  · rename_i empty
    rw [List.isEmpty_iff.mp empty]
    rfl
  · simp [Code.Expr.case?, Function.comp_def]

theorem observationPattern (context : RenderContext) (c : Configuration) (a : ResolvedAction)
    {s : ActionSource} {inner : ResolvedAction} (source : s.event = inner.description.source)
    (parameters : s.eventParameters = inner.description.parameters) :
    (s.observation context c a).pattern? =
      some (Code.bindingPattern inner.name inner.parameters.length) := by
  have observed : (s.observation context c a).pattern? =
      some (pattern inner.name s.eventParameters) := by
    unfold observation
    rw [source]
    rfl
  have count : s.eventParameters.length = inner.parameters.length := by
    have lengths := congrArg List.length (numberedAccessors 0 inner.parameters)
    simpa [parameters, ResolvedAction.description] using lengths
  have bindings : (s.eventParameters.map fun p => "let " ++ p.accessor) =
      (List.range inner.parameters.length).map fun i => "let p" ++ toString i := by
    have accessors := numberedAccessors 0 inner.parameters
    calc (s.eventParameters.map fun p => "let " ++ p.accessor)
        = (s.eventParameters.map (·.accessor)).map ("let " ++ ·) := by simp [Function.comp_def]
      _ = ((List.range inner.parameters.length).map fun i => "p" ++ toString i).map
            ("let " ++ ·) := by
          rw [parameters, List.range_eq_range']
          exact congrArg _ accessors
      _ = (List.range inner.parameters.length).map fun i => "let p" ++ toString i := by
          rw [List.map_map]
          refine List.map_congr_left fun i _ => ?_
          rw [Function.comp_apply, ← String.append_assoc]
          rfl
  simp only [observed, pattern, Code.bindingPattern, bindings, List.isEmpty_iff_length_eq_zero,
    count]

end ActionSource

namespace Registry

variable {r : Registry} {d : ComponentDefinition} {res : Resolved}

structure Matches (r : Registry) (d : ComponentDefinition) (res : Resolved)
    (context : RenderContext) (c : Configuration) (a : ResolvedAction) (case : EnumCase)
    (p : Publisher) (s : ActionSource) : Prop where
  source : r.Publishes d res.state p s
  call : ∃ arguments, (s.publication context a).published? = some (case.name, arguments) ∧
    arguments.length = case.associated.length ∧
    arguments.map Prod.fst = case.associated.map Prod.fst ∧
    arguments.map Prod.snd = s.parameters.map (s.parameterCode context)
  types : s.parameters.map (·.type) = a.parameters.map Prod.snd ∧
    s.parameters.map (·.type.runtimeType) = case.associated.map Prod.snd
  inherited : ∀ q ∈ s.parameters, ∀ k, q.source = .inherited k →
    ∃ event, s.eventParameters[k]? = some event ∧
      s.parameterCode context q = .constant event.accessor
  pattern : ∀ e reference, p.element = some e → e.kind = .component reference →
    ∃ inner child observed, r.behind? e = some inner ∧ r.Derivation inner child ∧
      (∀ t other, r.Used t → ((r.resolve inner).outcome t).1 = .ok other → other = child) ∧
      observed ∈ (child.actionEnum c).cases ∧ observed.name = p.action.event ∧
      (s.observation context c a).pattern? =
        some (Code.bindingPattern observed.name observed.associated.length)

theorem publisherElement {p : Publisher} (listed : p ∈ d.publishers) {e : Element}
    (element : p.element = some e) : e ∈ d.elements := by
  rcases List.mem_append.mp listed with elements | items
  · obtain ⟨x, member, actions⟩ := List.mem_flatMap.mp elements
    obtain ⟨action, _, rfl⟩ := List.mem_map.mp actions
    cases element
    exact member
  · obtain ⟨item, _, made⟩ := List.mem_filterMap.mp items
    obtain ⟨action, _, rfl⟩ := Option.map_eq_some_iff.mp made
    cases element

theorem publishedPattern (filled : r.Filled) (member : d ∈ r.allDefinitions)
    (context : RenderContext) (c : Configuration) (a : ResolvedAction) {state : List StateItem}
    {p : Publisher} (listed : p ∈ d.publishers) {s : ActionSource}
    (published : r.Publishes d state p s) {e : Element} {reference : ComponentReference}
    (element : p.element = some e) (kind : e.kind = .component reference) :
    ∃ inner child observed, r.behind? e = some inner ∧ r.Derivation inner child ∧
      (∀ t other, r.Used t → ((r.resolve inner).outcome t).1 = .ok other → other = child) ∧
      observed ∈ (child.actionEnum c).cases ∧ observed.name = p.action.event ∧
      (s.observation context c a).pattern? =
        some (Code.bindingPattern observed.name observed.associated.length) := by
  obtain ⟨event, triggers, made⟩ := published
  obtain ⟨source, parameters, _⟩ := ResolvedAction.sourceGives made
  cases triggers with
  | widget other =>
    cases element
    rw [kind] at other
    cases other
  | item => cases element
  | @component e inner child action own behind derivation found =>
    cases element
    have inside := publisherElement listed rfl
    refine ⟨inner, child, own.case, behind, derivation, fun t other used ok => ?_, ?_, ?_, ?_⟩
    · have again := resolveSound filled (behindIncluded member inside behind)
        (usedKeeping filled used) ok
      exact derivationUnique again derivation
    · rw [ResolvedAction.enumCases]
      exact List.mem_map_of_mem (List.mem_of_find?_eq_some found)
    · have named := List.find?_some found
      exact beq_iff_eq.mp named
    · rw [ActionSource.observationPattern context c a source parameters]
      simp [ResolvedAction.case]

theorem sourceMatches (filled : r.Filled) (member : d ∈ r.allDefinitions)
    (context : RenderContext) (c : Configuration) {a : ResolvedAction} {p : Publisher}
    (listed : p ∈ d.publishers) {s : ActionSource} (published : r.Publishes d res.state p s)
    (types : s.parameters.map (·.type) = a.parameters.map Prod.snd) :
    r.Matches d res context c a a.case p s where
  source := published
  call := by
    have lengths : a.parameters.length = s.parameters.length := by
      simpa using (congrArg List.length types).symm
    refine ⟨_, ActionSource.publicationGives context a s, ?_, ?_, ?_⟩
    · simp [ResolvedAction.case, lengths]
    · rw [List.map_fst_zip (by simp [lengths])]
      simp [ResolvedAction.case]
    · rw [List.map_snd_zip (by simp [lengths])]
  types := by
    refine ⟨types, ?_⟩
    have named := congrArg (List.map ValueType.runtimeType) types
    simpa [ResolvedAction.case, Function.comp_def] using named
  inherited q inside k source := by
    obtain ⟨event, _, made⟩ := published
    have below := (ResolvedAction.sourceGives made).2.2 q inside k source
    refine ⟨s.eventParameters[k], by simp [below], ?_⟩
    simp [ActionSource.parameterCode, source, below]
  pattern _ _ element kind :=
    publishedPattern filled member context c a listed published element kind

theorem publicationsMatch (filled : r.Filled) (member : d ∈ r.allDefinitions) {s : ResolverState}
    (used : r.Used s) (ok : ((r.resolve d).outcome s).1 = .ok res) (context : RenderContext)
    (c : Configuration) :
    (res.actions.map (·.name)).Nodup ∧
    (∀ p ∈ d.publishers, ∃ a ∈ res.actions, a.name = p.name) ∧
    List.Forall₂ (fun a case => case.name = a.name ∧
        List.Forall₂ (r.Matches d res context c a case) (d.publishers.filter (·.name = a.name))
          a.sources)
      res.actions (res.actionEnum c).cases := by
  have listed := derivationListed (resolveSound filled member (usedKeeping filled used) ok)
  refine ⟨listed.distinct, listed.covers, ?_⟩
  rw [ResolvedAction.enumCases, List.forall₂_map_right_iff]
  refine List.forall₂_same.mpr fun a inside => ⟨rfl, ?_⟩
  obtain ⟨lengths, each⟩ := List.forall₂_iff_zip.mp (listed.sources a inside)
  refine List.forall₂_iff_zip.mpr ⟨lengths, fun {p source} paired => ?_⟩
  obtain ⟨calls, sources⟩ := List.of_mem_zip paired
  exact sourceMatches filled member context c (List.mem_filter.mp calls).1 (each paired)
    (listed.types a inside source sources)

/- The row passes on what its field says, under a name that the form gives to its own action. -/
def formRow : String × String := ("Row", "<Row><TextField action:text=\"set\"/></Row>")

def formFile : String × String :=
  ("Form", "<Form><navigationBar><item id=\"clear\" action=\"set('')\"/></navigationBar>" ++
    "<Row action:set=\"set\"/></Form>")

def form : Registry := ofTexts {} [formRow, formFile]

def formResolved : Result Resolved := ((form.resolve (ofText formFile)).outcome {}).1

/- All that has to be computed, at once: the texts can be read, and the form has one action, which
the row and the button publish. -/
theorem formComputed : ([formRow, formFile].all fun file => (reading file).isOk) = true ∧
    (formResolved.toOption.any fun res => res.actions.map (fun a => (a.case, a.sources.length)) =
      [(⟨"set", [(some "text", "String")]⟩, 2)]) = true := by
  have row : reading formRow = _ := readingLetters rfl
  have own : reading formFile = _ := readingLetters (Text.lettersAppend rfl rfl)
  rw [formResolved]
  simp only [form, ofTexts, ofText, List.all_cons, List.foldl_cons, List.foldl_nil, row, own]
  decide +kernel

theorem formPublications : ∃ res a, formResolved = .ok res ∧ res.actions = [a] ∧
    a.case = ⟨"set", [(some "text", "String")]⟩ ∧ a.sources.length = 2 ∧
    List.Forall₂ (form.Matches (ofText formFile) res form.renderContext { platform := .iOS }
      a a.case) ((ofText formFile).publishers.filter (·.name = a.name)) a.sources := by
  obtain ⟨res, ok, computed⟩ := Result.anyOk formComputed.2
  have run := ok
  rw [formResolved] at run
  obtain ⟨a, actions, same⟩ := List.map_eq_singleton_iff.mp (of_decide_eq_true computed)
  obtain ⟨case, count⟩ := Prod.mk.inj same
  obtain ⟨_, _, each⟩ := publicationsMatch (ofTextsFilled {} formComputed.1)
    (definitionIncluded (lastRegistered {} [formRow] formFile)) .fresh run form.renderContext
    { platform := .iOS }
  rw [ResolvedAction.enumCases, actions] at each
  cases each with
  | cons first _ => exact ⟨res, a, ok, actions, case, count, first.2⟩

end Registry
end ViewForge
