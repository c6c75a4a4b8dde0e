import ViewForge.Proofs.Property
import ViewForge.Element.Reader

/-! The steps of reading, each by what it leaves as it was and by the errors that it can end in. -/
namespace ViewForge
open Markup (Node)

inductive Error.OfAttribute : Error → Prop where
  | parse (cause : ParseError) : OfAttribute (.parse cause)
  | value (value type : String) : OfAttribute (.unknownValue value type)
  | action (event tag : String) : OfAttribute (.unknownAction event tag)

theorem Result.ofParseFails {α : Type} {x : Except ParseError α} {e : Error}
    (failed : ofParse x = .error e) : ∃ cause, e = .parse cause := by
  cases x with
  | error cause =>
    cases failed
    exact ⟨cause, rfl⟩
  | ok a => cases failed

inductive Error.OfBlock : Error → Prop where
  | document (cause : DocumentError) : OfBlock (.document cause)
  | parse (cause : ParseError) : OfBlock (.parse cause)
  | value (value type : String) : OfBlock (.unknownValue value type)
  | state (cause : StateError) : OfBlock (.state cause)
  | property (name element : String) : OfBlock (.unknownProperty name element)

namespace Blocks
open Result

theorem requiredFails (node : Node) (name : String) : (required node name).Fails Error.OfBlock := by
  unfold required
  split
  · exact failsOk _
  · exact failsError (.document _)

theorem textFails {α : Type} (x : Except ParseError α) : (ofParse x).Fails Error.OfBlock := by
  intro e failed
  obtain ⟨cause, rfl⟩ := ofParseFails failed
  exact .parse cause

theorem valueFails (type : ValueType) (raw : String) : (type.parse raw).Fails Error.OfBlock := by
  intro e failed
  obtain ⟨value, name, rfl⟩ := ValueType.parseFails failed
  exact .value value name

theorem templateFails (node : Node) : (Template.read node).Fails Error.OfBlock := by
  unfold Template.read
  dsimp only
  by_cases other : node.name ≠ "attributedText"
  · rw [if_pos other]
    exact failsError (Error.OfBlock.document (.unknownTemplateType node.name))
  · rw [if_neg other]
    refine failsBind (requiredFails node "name") fun name => ?_
    split
    · exact failsBind (failsMap (textFails _)) fun style => failsOk _
    · exact failsOk _

theorem readItemsFails (items : List StateDeclaration) (nodes : List Node) :
    (StateDescription.readItems items nodes).Fails Error.OfBlock := by
  induction nodes generalizing items with
  | nil => exact failsOk items
  | cons node rest ih =>
    rw [StateDescription.readItems]
    refine failsBind (requiredFails node "name") fun name => ?_
    refine failsBind (requiredFails node "type") fun type => ?_
    have last : ∀ default : Option Value, Fails Error.OfBlock (do
        if items.any (·.name == name) then .error (.state (.declaredTwice name))
        StateDescription.readItems (items ++ [⟨name, .lookup type, default⟩]) rest) := by
      intro default
      dsimp only
      split
      · exact failsError (Error.OfBlock.state (.declaredTwice name))
      · exact ih _
    dsimp only at last ⊢
    split
    · exact failsBind (failsMap (valueFails _ _)) last
    · exact last none

theorem overridesFail (node : Node) : (Override.read node).Fails Error.OfBlock := by
  refine failsBind (failsEach fun binding _ => ?_) fun found => failsOk _
  unfold Override.readAttribute
  split
  split
  · exact failsOk _
  · exact failsError (Error.OfBlock.property _ _)

theorem navigationItemFails (node : Node) : (NavigationItem.read node).Fails Error.OfBlock := by
  have position : (NavigationItem.readPosition node).Fails Error.OfBlock := by
    unfold NavigationItem.readPosition
    split
    · exact failsOk _
    · exact failsOk _
    · exact failsError (Error.OfBlock.value _ _)
  unfold NavigationItem.read
  refine failsBind position fun place => ?_
  have last : ∀ action : Option BoundAction, Fails Error.OfBlock (do
      let id ← required node "id"
      let title ← ValueType.string.parse ((node.get? "title").getD "")
      return NavigationItem.mk id title place action) := fun action =>
    failsBind (requiredFails node "id") fun id => failsBind (valueFails _ _) fun title => failsOk _
  dsimp only
  split
  · exact failsBind (textFails _) fun call => last _
  · exact last none

theorem templatesFail (nodes : List Node) :
    Task.Triple (fun _ => True) (absorbTemplates nodes) (fun _ _ => True) Error.OfBlock := by
  induction nodes with
  | nil => exact Task.triplePure fun _ _ => trivial
  | cons node rest ih =>
    rw [absorbTemplates]
    refine Task.tripleBind (fun _ _ => True)
      (Task.tripleLift (fun _ _ _ _ => trivial) (templateFails node)) fun template => ?_
    exact Task.tripleModify (fun _ _ => trivial) ih

/- Only the names of styles can be refused for being used twice in a block. -/
theorem absorbFails {fail : Error → Prop} (component : String) (node : Node)
    (failed : ∀ e, e.OfBlock → fail e)
    (styles : node.name = "styles" → (StyleGroup.read node (some component)).Fails fail) :
    Task.Triple (fun _ => True) (absorb component node) (fun _ _ => True) fail := by
  have changes : ∀ {α : Type} {x : Result α} {f : α → Blocks → Blocks}, x.Fails fail →
      Task.Triple (fun _ => True) (do let a ← liftM x; modify (f a)) (fun _ _ => True) fail := by
    intro α x f own
    refine Task.tripleBind (fun _ _ => True) (Task.tripleLift (fun _ _ _ _ => trivial) own) fun a => ?_
    exact fun _ _ => ⟨fun _ _ _ => trivial, fun _ same => by cases same⟩
  unfold absorb
  split
  · rename_i named
    exact changes (styles named)
  · refine fun s holds => ⟨fun _ _ _ => trivial, fun e same => failed e ?_⟩
    exact (templatesFail _ s holds).2 e same
  · exact changes (failsBind (fun e same => failed e (readItemsFails [] _ e same)) fun _ => failsOk _)
  · exact changes fun e same => failed e (overridesFail node e same)
  · exact changes (failsEach fun item _ e same => failed e (navigationItemFails item e same))
  · exact Task.tripleThrow (failed _ (.document _))

end Blocks

namespace Element

/- A block leaves the ids alone. -/
theorem absorbBlockKeeps {I : ReadState → Prop} {fail : Error → Prop} (component : String)
    (blocks : Blocks) (node : Node) (failed : ∀ e, e.OfBlock → fail e)
    (styles : node.name = "styles" → (StyleGroup.read node (some component)).Fails fail) :
    Task.Triple I (absorbBlock component blocks node) (fun _ => I) fail := by
  refine Task.tripleBind (fun _ => I) (Task.tripleLift (fun _ _ _ holds => holds) ?_)
    fun _ => Task.triplePure fun _ holds => holds
  exact (Blocks.absorbFails component node failed styles blocks trivial).2

/- Which error a name is refused with is said by nothing but the name. -/
theorem invalidNameFails {α : Type} {pre : ReadState → Prop} {post : α → ReadState → Prop}
    {fail : Error → Prop} {name : String} (failed : ∀ path, fail (.invalidType name path)) :
    Task.Triple pre (invalidName name : Read α) post fail :=
  Task.tripleGet fun s _ => Task.tripleThrow (failed s.path)

/- Attributes do not touch ids. -/
section Attributes

variable {I : ReadState → Prop} {fail : Error → Prop}
  (warned : ∀ message u, I u → I (u.warn message)) (failed : ∀ e, e.OfAttribute → fail e)
include warned failed

theorem applyPropertyKeeps (tag name raw : String) (e : Element) :
    Task.Triple I (applyProperty tag e name raw)
      (fun d t => d.kind.reference?.isSome = e.kind.reference?.isSome ∧ I t) fail := by
  unfold applyProperty
  split
  · exact Task.triplePure fun _ holds => ⟨rfl, holds⟩
  · refine Task.tripleBind (fun _ => I) (Task.tripleLift (fun _ _ _ holds => holds) ?_) fun found => ?_
    · intro cause refused
      obtain ⟨value, type, rfl⟩ := PropertyTable.propertyFails refused
      exact failed _ (.value value type)
    · split
      · exact Task.triplePure fun _ holds => ⟨rfl, holds⟩
      · split
        · rename_i extended given
          refine Task.triplePure fun _ holds => ⟨?_, holds⟩
          unfold addArgument at given
          split at given
          · rename_i r component
            cases given
            rw [component]
            rfl
          · cases given
        · exact Task.tripleModify (warned _) (Task.triplePure fun _ holds => ⟨rfl, holds⟩)

theorem applyAttributeKeeps (tag : String) (e : Element) (binding : String × String) :
    Task.Triple I (applyAttribute tag e binding)
      (fun d t => d.kind.reference?.isSome = e.kind.reference?.isSome ∧ I t) fail := by
  have parsed : ∀ {α : Type} {x : Except ParseError α} {f : α → Element},
      (∀ a, (f a).kind = e.kind) → Task.Triple I (liftM (Result.ofParse x) >>= fun a => pure (f a))
        (fun d t => d.kind.reference?.isSome = e.kind.reference?.isSome ∧ I t) fail := by
    intro α x f same
    refine Task.tripleBind (fun _ => I) (Task.tripleLift (fun _ _ _ holds => holds) ?_) fun a => ?_
    · intro cause refused
      obtain ⟨inner, rfl⟩ := Result.ofParseFails refused
      exact failed _ (.parse inner)
    · exact Task.triplePure fun _ holds => ⟨by rw [same a], holds⟩
  obtain ⟨name, raw⟩ := binding
  unfold applyAttribute
  dsimp only
  split
  · exact Task.triplePure fun _ holds => ⟨rfl, holds⟩
  · exact Task.triplePure fun _ holds => ⟨rfl, holds⟩
  · exact Task.triplePure fun _ holds => ⟨rfl, holds⟩
  · exact parsed fun _ => rfl
  · split
    · exact parsed fun _ => rfl
    · split
      · rename_i event _
        refine Task.tripleLift (fun d applied _ holds => ⟨?_, holds⟩) fun cause refused => ?_
        · obtain ⟨call, _, applied⟩ := Result.bindOk.mp applied
          dsimp only at applied
          split at applied <;> cases applied
          rfl
        · rcases Result.bindError.mp refused with unread | ⟨call, _, refused⟩
          · obtain ⟨inner, rfl⟩ := Result.ofParseFails unread
            exact failed _ (.parse inner)
          · dsimp only at refused
            split at refused <;> cases refused
            exact failed _ (.action event _)
      · split
        · exact Task.triplePure fun _ holds => ⟨rfl, holds⟩
        · exact applyPropertyKeeps warned failed tag name raw e

theorem applyAttributesKeeps (tag : String) (attributes : List (String × String)) (e : Element) :
    Task.Triple I (applyAttributes tag attributes e)
      (fun d t => d.kind.reference?.isSome = e.kind.reference?.isSome ∧ I t) fail := by
  have tools : ∀ (d : Element) (tools : List (String × String)),
      Task.Triple I (checkTooling tag d tools) (fun _ => I) fail := by
    intro d tools
    induction tools with
    | nil => exact Task.triplePure fun _ holds => holds
    | cons tool rest ih =>
      rw [checkTooling]
      split
      · exact Task.tripleModify (warned _) ih
      · exact ih
  have each : ∀ binding ∈ attributes, ∀ d : Element,
      Task.Triple (fun t => d.kind.reference?.isSome = e.kind.reference?.isSome ∧ I t)
        (applyAttribute tag d binding)
        (fun d t => d.kind.reference?.isSome = e.kind.reference?.isSome ∧ I t) fail := by
    intro binding _ d
    refine Task.tripleGiven fun same => ?_
    exact Task.tripleOf (applyAttributeKeeps warned failed tag d binding)
      (fun _ holds => holds) (fun _ _ kept => ⟨kept.1.trans same, kept.2⟩) fun _ failed => failed
  refine Task.tripleBind _ (Task.tripleOf (Task.tripleFold each e) (fun _ holds => ⟨rfl, holds⟩)
    (fun _ _ kept => kept) fun _ failed => failed) fun d => Task.tripleGiven fun same => ?_
  exact Task.tripleBind _ (tools d d.tooling) fun _ => Task.triplePure fun _ holds => ⟨same, holds⟩

end Attributes

/- The kind of an element is told by its tag. -/
theorem kindOfKeeps {I : ReadState → Prop} {fail : Error → Prop} {tag : String}
    (failed : ∀ path, fail (.invalidType tag path)) : Task.Triple I (kindOf tag)
      (fun kind t => kind.reference?.isSome = !(Widget.ofTag? tag).isSome ∧ I t) fail := by
  unfold kindOf
  split
  · rename_i w known
    exact Task.triplePure fun _ holds => ⟨by rw [known]; rfl, holds⟩
  · rename_i unknown
    split
    · exact Task.triplePure fun _ holds => ⟨by rw [unknown]; rfl, holds⟩
    · exact invalidNameFails failed

theorem dropLayoutKeeps {I : ReadState → Prop} {fail : Error → Prop}
    (warned : ∀ message u, I u → I (u.warn message)) (tag : String) (root : Element) :
    Task.Triple I (dropLayout tag root) (fun _ => I) fail := by
  unfold dropLayout
  split
  · exact Task.triplePure fun _ holds => holds
  · exact Task.tripleModify (warned _) (Task.triplePure fun _ holds => holds)

theorem inScopeOutcome {α : Type} (component : String) (body : Read α) (s : ReadState) :
    (inScope component body).outcome s = ((body.outcome (s.pushScope component)).1,
      (body.outcome (s.pushScope component)).2.popScope) := by
  unfold inScope
  rw [Task.modifyBind, Task.bindOk (Task.outcomeObserved _ _), Task.modifyBind]
  rfl

theorem inScopeKeeps {α : Type} {component : String} {body : Read α} {pre pre' : ReadState → Prop}
    {post post' : α → ReadState → Prop} {fail : Error → Prop}
    (inside : Task.Triple pre' body post' fail) (enter : ∀ s, pre s → pre' (s.pushScope component))
    (leave : ∀ a t, post' a t → post a t.popScope) :
    Task.Triple pre (inScope component body) post fail := by
  intro s holds
  obtain ⟨gives, fails⟩ := inside _ (enter s holds)
  rw [inScopeOutcome]
  refine ⟨fun a u ok => ?_, fails⟩
  obtain ⟨own, rfl⟩ := Prod.mk.inj ok
  exact leave a _ (gives a _ (Prod.ext own rfl))

end Element
end ViewForge
