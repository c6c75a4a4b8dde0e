import Mathlib.Tactic.MkIffOfInductiveProp
import ViewForge.Proofs.Element.Reader

/-! The blocks of a component. They do not depend on the views between them, and those of one tag do
not depend on those of another: what they come to can be told tag by tag. -/
namespace ViewForge
open Markup (Node)

namespace Blocks

def add (component : String) (blocks : Blocks) (node : Node) : Result Blocks :=
  ((absorb component node).outcome blocks).1.map fun _ => ((absorb component node).outcome blocks).2

def addAll (component : String) (blocks : Blocks) (nodes : List Node) : Result Blocks :=
  nodes.foldlM (add component) blocks

def isBlock (node : Node) : Bool := tags.contains node.name

end Blocks

namespace Element
open Blocks (add addAll isBlock)

theorem absorbBlockOutcome (component : String) (blocks : Blocks) (node : Node) (s : ReadState) :
    (absorbBlock component blocks node).outcome s = (add component blocks node, s) := by
  unfold absorbBlock add
  dsimp only
  rw [Task.outcomeBind, Task.outcomeLift]
  cases ((Blocks.absorb component node).outcome blocks).1 <;> rfl

/- The views and the blocks of a component are read on their own. -/
theorem readBodyGives {component : String} {blocks found : Blocks} {nodes : List Node}
    {es : List Element} {s t : ReadState} :
    (readBody component blocks nodes).outcome s = (.ok (es, found), t) ↔
      (readAll (nodes.filter fun node => !isBlock node)).outcome s = (.ok es, t) ∧
        addAll component blocks (nodes.filter isBlock) = .ok found := by
  induction nodes generalizing blocks es s with
  | nil =>
    constructor
    · intro ok
      cases ok
      exact ⟨rfl, rfl⟩
    · rintro ⟨read, added⟩
      cases read
      cases added
      rfl
  | cons node rest ih =>
    rw [readBody]
    by_cases block : isBlock node = true
    · rw [if_pos (show Blocks.tags.contains node.name = true from block),
        List.filter_cons_of_neg (by simp [block]), List.filter_cons_of_pos block, addAll,
        List.foldlM_cons, Task.outcomeBind, absorbBlockOutcome]
      cases added : add component blocks node with
      | error e => simp [bind, Except.bind]
      | ok next => exact ih
    · rw [if_neg (show ¬ Blocks.tags.contains node.name = true from block),
        List.filter_cons_of_pos (by simp [block]), List.filter_cons_of_neg block, readAll]
      constructor
      · intro ok
        obtain ⟨first, between, one, ok⟩ := Task.bindGives.mp ok
        obtain ⟨⟨others, next⟩, after, more, last⟩ := Task.bindGives.mp ok
        cases last
        obtain ⟨read, added⟩ := ih.mp more
        exact ⟨Task.bindGives.mpr ⟨first, between, one, Task.bindGives.mpr ⟨_, _, read, rfl⟩⟩, added⟩
      · rintro ⟨ok, added⟩
        obtain ⟨first, between, one, ok⟩ := Task.bindGives.mp ok
        obtain ⟨others, after, more, last⟩ := Task.bindGives.mp ok
        cases last
        exact Task.bindGives.mpr ⟨first, between, one,
          Task.bindGives.mpr ⟨(others, found), _, ih.mpr ⟨more, added⟩, rfl⟩⟩

end Element

namespace Blocks

/-- The blocks of the tag come to the value, from the one that there was before them. -/
def Gathers {β γ : Type} (tag : String) (read : Node → Result β) (step : γ → β → γ) (start : γ)
    (nodes : List Node) (value : γ) : Prop :=
  ∃ found, (nodes.filter (·.name == tag)).mapM read = .ok found ∧ value = found.foldl step start

section Gathers

variable {β γ : Type} {tag : String} {read : Node → Result β} {step : γ → β → γ} {start value : γ}
  {node : Node} {nodes : List Node}

theorem gathersNone : Gathers tag read step start [] value ↔ value = start := by
  constructor
  · rintro ⟨found, none, rfl⟩
    cases none
    rfl
  · rintro rfl
    exact ⟨[], rfl, rfl⟩

theorem gathersOwn (named : node.name = tag) : Gathers tag read step start (node :: nodes) value ↔
    ∃ x, read node = .ok x ∧ Gathers tag read step (step start x) nodes value := by
  unfold Gathers
  rw [List.filter_cons_of_pos (by simp [named])]
  simp only [Result.mapMCons]
  constructor
  · rintro ⟨_, ⟨x, others, here, later, rfl⟩, rfl⟩
    exact ⟨x, here, others, later, rfl⟩
  · rintro ⟨x, here, others, later, rfl⟩
    exact ⟨x :: others, ⟨x, others, here, later, rfl⟩, rfl⟩

theorem gathersOther (other : node.name ≠ tag) :
    Gathers tag read step start (node :: nodes) value ↔ Gathers tag read step start nodes value := by
  unfold Gathers
  rw [List.filter_cons_of_neg (by simp [other])]

end Gathers

def mergeStyles (merged : Option StyleGroup) (group : StyleGroup) : Option StyleGroup :=
  match merged with
  | some existing => some { existing with styles := existing.styles ++ group.styles }
  | none => some group

@[mk_iff]
structure Comes (component : String) (start : Blocks) (nodes : List Node) (b : Blocks) : Prop where
  styles : Gathers "styles" (StyleGroup.read · (some component)) mergeStyles start.styles nodes
    b.styles
  templates : Gathers "templates" (fun node => node.children.mapM Template.read) (· ++ ·)
    start.templates nodes b.templates
  state : Gathers "state" StateDescription.read (fun _ last => last) start.state nodes b.state
  overrides : Gathers "overrides" Override.read (fun _ last => last) start.overrides nodes b.overrides
  navigation : Gathers "navigationBar" NavigationItem.readAll (fun _ last => last) start.navigation
    nodes b.navigation

section Add

variable {component : String} {b : Blocks} {node : Node}

theorem addStylesBlock (named : node.name = "styles") : add component b node =
    (StyleGroup.read node (some component)).map fun group =>
      { b with styles := mergeStyles b.styles group } := by
  unfold add absorb
  rw [named]
  cases StyleGroup.read node (some component) with
  | error e => rfl
  | ok group =>
    change Except.ok (addStyles group b) = _
    unfold addStyles
    cases known : b.styles <;> simp [mergeStyles, Except.map]

theorem addTemplatesBlock (named : node.name = "templates") : add component b node =
    (node.children.mapM Template.read).map fun found =>
      { b with templates := b.templates ++ found } := by
  have every : ∀ (nodes : List Node) (b : Blocks), ((absorbTemplates nodes).outcome b).1.map
      (fun _ => ((absorbTemplates nodes).outcome b).2) = (nodes.mapM Template.read).map fun found =>
        { b with templates := b.templates ++ found } := by
    intro nodes
    induction nodes with
    | nil =>
      intro b
      change Except.ok b = Except.ok { b with templates := b.templates ++ [] }
      rw [List.append_nil]
    | cons node rest ih =>
      intro b
      rw [absorbTemplates, List.mapM_cons]
      cases first : Template.read node with
      | error e => rfl
      | ok template =>
        have next := ih { b with templates := b.templates ++ [template] }
        rw [Task.bindOk (Task.outcomeLift _ b), Task.modifyBind, next]
        cases rest.mapM Template.read with
        | error e => rfl
        | ok found => simp [Except.map, bind, Except.bind, pure, Except.pure]
  unfold add absorb
  rw [named]
  exact every node.children b

theorem addStateBlock (named : node.name = "state") : add component b node =
    (StateDescription.read node).map fun state => { b with state } := by
  unfold add absorb
  rw [named]
  cases StateDescription.read node <;> rfl

theorem addOverridesBlock (named : node.name = "overrides") : add component b node =
    (Override.read node).map fun overrides => { b with overrides } := by
  unfold add absorb
  rw [named]
  cases Override.read node <;> rfl

theorem addBarBlock (named : node.name = "navigationBar") : add component b node =
    (NavigationItem.readAll node).map fun navigation => { b with navigation } := by
  unfold add absorb
  rw [named]
  cases NavigationItem.readAll node <;> rfl

end Add

theorem comesAll {component : String} {start b : Blocks} {nodes : List Node} :
    addAll component start (nodes.filter isBlock) = .ok b ↔ Comes component start nodes b := by
  induction nodes generalizing start with
  | nil =>
    rw [comes_iff]
    simp only [gathersNone]
    constructor
    · intro added
      cases added
      exact ⟨rfl, rfl, rfl, rfl, rfl⟩
    · rintro ⟨styles, templates, state, overrides, navigation⟩
      obtain ⟨_, _, _, _, _⟩ := b
      cases styles
      cases templates
      cases state
      cases overrides
      cases navigation
      rfl
  | cons node rest ih =>
    by_cases block : isBlock node = true
    · have listed : node.name ∈ tags := List.contains_iff_mem.mp block
      rw [List.filter_cons_of_pos block, addAll, List.foldlM_cons]
      simp only [Result.bindOk]
      change (∃ next, _ ∧ addAll component next (rest.filter isBlock) = .ok b) ↔ _
      simp only [ih]
      simp only [tags, List.mem_cons, List.not_mem_nil, or_false] at listed
      rcases listed with named | named | named | named | named
      · simp only [addStylesBlock named, Result.mapOk, comes_iff, gathersOwn named, gathersOther,
          named, ne_eq, String.reduceEq, not_false_eq_true]
        grind
      · simp only [addTemplatesBlock named, Result.mapOk, comes_iff, gathersOwn named, gathersOther,
          named, ne_eq, String.reduceEq, not_false_eq_true]
        grind
      · simp only [addStateBlock named, Result.mapOk, comes_iff, gathersOwn named, gathersOther,
          named, ne_eq, String.reduceEq, not_false_eq_true]
        grind
      · simp only [addOverridesBlock named, Result.mapOk, comes_iff, gathersOwn named, gathersOther,
          named, ne_eq, String.reduceEq, not_false_eq_true]
        grind
      · simp only [addBarBlock named, Result.mapOk, comes_iff, gathersOwn named, gathersOther,
          named, ne_eq, String.reduceEq, not_false_eq_true]
        grind
    · have other : ∀ tag ∈ tags, node.name ≠ tag := by
        rintro tag member rfl
        exact block (List.contains_iff_mem.mpr member)
      rw [List.filter_cons_of_neg block, ih, comes_iff, comes_iff]
      simp only [tags, List.forall_mem_cons] at other
      obtain ⟨styles, templates, state, overrides, navigation, -⟩ := other
      rw [gathersOther styles, gathersOther templates, gathersOther state, gathersOther overrides,
        gathersOther navigation]

structure Declares {β : Type} (read : Node → Result β) (name : β → String) (nodes : List Node)
    (found : List β) : Prop where
  read : nodes.mapM read = .ok found
  distinct : (found.map name).Nodup

def NamesApart (xs ys : List Node) : Prop := ∀ m ∈ xs, ∀ n ∈ ys, m.get? "name" ≠ n.get? "name"

instance (xs ys : List Node) : Decidable (NamesApart xs ys) :=
  inferInstanceAs (Decidable (∀ m ∈ xs, ∀ n ∈ ys, m.get? "name" ≠ n.get? "name"))

section Declares

variable {β γ : Type} {read : Node → Result β} {name : β → String} {nodes xs ys : List Node}
  {found : List β}

/- A reader that keeps what it has declared and refuses a name that is among it. -/
theorem declaresBehind (reader : List β → List Node → Result γ) (wrap : List β → γ)
    (done : ∀ before, reader before [] = .ok (wrap before))
    (step : ∀ before node rest out, reader before (node :: rest) = .ok out ↔
      ∃ x, read node = .ok x ∧ name x ∉ before.map name ∧ reader (before ++ [x]) rest = .ok out)
    {before : List β} (distinct : (before.map name).Nodup) {out : γ} :
    reader before nodes = .ok out ↔ ∃ found, nodes.mapM read = .ok found ∧
      ((before ++ found).map name).Nodup ∧ out = wrap (before ++ found) := by
  induction nodes generalizing before with
  | nil =>
    rw [done]
    constructor
    · intro ok
      cases ok
      exact ⟨[], rfl, by simpa using distinct, by simp⟩
    · rintro ⟨found, none, -, rfl⟩
      cases none
      simp
  | cons node rest ih =>
    rw [step]
    simp only [Result.mapMCons]
    constructor
    · rintro ⟨x, here, fresh, more⟩
      have next : ((before ++ [x]).map name).Nodup := by
        rw [List.map_append, List.map_singleton, ← List.concat_eq_append]
        exact distinct.concat fresh
      obtain ⟨found, later, apart, rfl⟩ := (ih next).mp more
      rw [List.append_assoc] at apart ⊢
      exact ⟨x :: found, ⟨x, found, here, later, rfl⟩, apart, rfl⟩
    · rintro ⟨_, ⟨x, found, here, later, rfl⟩, apart, rfl⟩
      have split : before ++ x :: found = (before ++ [x]) ++ found := by simp
      rw [split] at apart
      have next : ((before ++ [x]).map name).Nodup := by
        rw [List.map_append] at apart
        exact (List.nodup_append.mp apart).1
      refine ⟨x, here, fun again => ?_, (ih next).mpr ⟨found, later, apart, congrArg wrap split⟩⟩
      rw [List.map_append, List.map_singleton] at next
      exact (List.nodup_append.mp next).2.2 _ again _ (by simp) rfl

theorem declaresAll (reader : List β → List Node → Result γ) (wrap : List β → γ)
    (done : ∀ before, reader before [] = .ok (wrap before))
    (step : ∀ before node rest out, reader before (node :: rest) = .ok out ↔
      ∃ x, read node = .ok x ∧ name x ∉ before.map name ∧ reader (before ++ [x]) rest = .ok out)
    (out : γ) : reader [] nodes = .ok out ↔
      ∃ found, Declares read name nodes found ∧ out = wrap found := by
  rw [declaresBehind reader wrap done step (show (List.map name []).Nodup from List.nodup_nil)]
  constructor
  · rintro ⟨found, declared, distinct, rfl⟩
    exact ⟨found, ⟨declared, distinct⟩, rfl⟩
  · rintro ⟨found, ⟨declared, distinct⟩, rfl⟩
    exact ⟨found, declared, distinct, rfl⟩

theorem declaresJoined (named : ∀ node x, read node = .ok x → node.get? "name" = some (name x)) :
    Declares read name (xs ++ ys) found ↔ ∃ as bs, Declares read name xs as ∧
      Declares read name ys bs ∧ NamesApart xs ys ∧ found = as ++ bs := by
  have apart : ∀ {as bs : List β}, xs.mapM read = .ok as → ys.mapM read = .ok bs →
      ((∀ a ∈ as.map name, ∀ b ∈ bs.map name, a ≠ b) ↔ NamesApart xs ys) := by
    intro as bs left right
    constructor
    · intro apart m first n second same
      obtain ⟨x, inside, own⟩ := forallLeft (Result.mapMOk left) first
      obtain ⟨y, within, other⟩ := forallLeft (Result.mapMOk right) second
      rw [named m x own, named n y other] at same
      exact apart _ (List.mem_map_of_mem inside) _ (List.mem_map_of_mem within) (Option.some.inj same)
    · intro apart a first b second same
      obtain ⟨x, inside, rfl⟩ := List.mem_map.mp first
      obtain ⟨y, within, rfl⟩ := List.mem_map.mp second
      obtain ⟨m, listed, own⟩ := forallRight (Result.mapMOk left) inside
      obtain ⟨n, listed', other⟩ := forallRight (Result.mapMOk right) within
      exact apart m listed n listed' (by rw [named m x own, named n y other, same])
  constructor
  · rintro ⟨whole, distinct⟩
    obtain ⟨as, bs, left, right, rfl⟩ := Result.mapMAppend.mp whole
    rw [List.map_append, List.nodup_append] at distinct
    exact ⟨as, bs, ⟨left, distinct.1⟩, ⟨right, distinct.2.1⟩, (apart left right).mp distinct.2.2, rfl⟩
  · rintro ⟨as, bs, ⟨left, one⟩, ⟨right, two⟩, different, rfl⟩
    refine ⟨Result.mapMAppend.mpr ⟨as, bs, left, right, rfl⟩, ?_⟩
    rw [List.map_append, List.nodup_append]
    exact ⟨one, two, (apart left right).mpr different⟩

end Declares

theorem requiredGives {node : Node} {name value : String} :
    required node name = .ok value ↔ node.get? name = some value := by
  unfold required
  cases node.get? name <;> simp

theorem styleNamed {node : Node} {s : Style} (ok : Style.read node = .ok s) :
    node.get? "name" = some s.name := by
  unfold Style.read at ok
  split at ok
  · cases ok
  · obtain ⟨name, given, ok⟩ := Result.bindOk.mp ok
    obtain ⟨_, _, ok⟩ := Result.bindOk.mp ok
    dsimp only at ok
    split at ok
    · obtain ⟨_, _, ok⟩ := Result.bindOk.mp ok
      obtain ⟨_, _, ok⟩ := Result.bindOk.mp ok
      cases ok
      exact requiredGives.mp given
    · obtain ⟨_, _, ok⟩ := Result.bindOk.mp ok
      obtain ⟨_, _, ok⟩ := Result.bindOk.mp ok
      cases ok
      exact requiredGives.mp given

/- The styles of a block that has no name of its own. -/
theorem stylesGive {component : String} {node : Node} (plain : node.attributes = [])
    {g : StyleGroup} : StyleGroup.read node (some component) = .ok g ↔
      ∃ styles, Declares Style.read (·.name) node.children styles ∧ g = ⟨component, styles⟩ := by
  have step : ∀ (before : List Style) (node : Node) (rest : List Node) (out : StyleGroup),
      StyleGroup.readStyles ⟨component, before⟩ (node :: rest) = .ok out ↔
        ∃ s, Style.read node = .ok s ∧ s.name ∉ before.map (·.name) ∧
        StyleGroup.readStyles ⟨component, before ++ [s]⟩ rest = .ok out := by
    intro before node rest out
    rw [StyleGroup.readStyles]
    simp only [Result.bindOk]
    refine exists_congr fun s => and_congr_right fun _ => ?_
    have known : (StyleGroup.find? ⟨component, before⟩ s.name).isSome = true ↔
        s.name ∈ before.map (·.name) := by
      simp [StyleGroup.find?, List.find?_isSome]
    by_cases again : s.name ∈ before.map (·.name)
    · rw [if_pos (known.mpr again)]
      simp [again, bind, Except.bind]
    · rw [if_neg fun found => again (known.mp found)]
      simp [again]
  have unnamed : node.get? "name" = none := by rw [Node.get?, plain]; rfl
  unfold StyleGroup.read
  rw [unnamed]
  exact declaresAll (fun before => StyleGroup.readStyles ⟨component, before⟩) _ (fun _ => rfl) step g

def itemOf (node : Node) : Result StateDeclaration := do
  let name ← required node "name"
  let type := ValueType.lookup (← required node "type")
  let default ← match node.get? "default" with
    | some raw => (type.parse raw).map some
    | none => pure none
  return { name, type, default }

theorem itemNamed {node : Node} {x : StateDeclaration} (ok : itemOf node = .ok x) :
    node.get? "name" = some x.name := by
  obtain ⟨name, given, ok⟩ := Result.bindOk.mp ok
  obtain ⟨type, _, ok⟩ := Result.bindOk.mp ok
  dsimp only at ok
  split at ok
  · obtain ⟨_, _, ok⟩ := Result.bindOk.mp ok
    cases ok
    exact requiredGives.mp given
  · obtain ⟨_, _, ok⟩ := Result.bindOk.mp ok
    cases ok
    exact requiredGives.mp given

theorem readItemsNext {before out : List StateDeclaration} {node : Node} {rest : List Node} :
    StateDescription.readItems before (node :: rest) = .ok out ↔ ∃ x, itemOf node = .ok x ∧
      x.name ∉ before.map (·.name) ∧ StateDescription.readItems (before ++ [x]) rest = .ok out := by
  have last : ∀ x : StateDeclaration, (do
      if before.any (·.name == x.name) then .error (.state (.declaredTwice x.name))
      StateDescription.readItems (before ++ [x]) rest) = Except.ok out ↔
      x.name ∉ before.map (·.name) ∧ StateDescription.readItems (before ++ [x]) rest = .ok out := by
    intro x
    dsimp only
    by_cases again : x.name ∈ before.map (·.name)
    · have known : before.any (·.name == x.name) = true := by simpa [List.any_eq_true] using again
      rw [if_pos known]
      simp [again, bind, Except.bind]
    · have new : ¬ before.any (·.name == x.name) = true := by simpa [List.any_eq_true] using again
      rw [if_neg new]
      simp [again]
  have found : ∀ x : StateDeclaration, (x.name ∉ before.map (·.name) ∧
      StateDescription.readItems (before ++ [x]) rest = .ok out) ↔
      ∃ y, (.ok x : Result StateDeclaration) = .ok y ∧ y.name ∉ before.map (·.name) ∧
        StateDescription.readItems (before ++ [y]) rest = .ok out := by
    intro x
    simp
  rw [StateDescription.readItems]
  unfold itemOf
  cases required node "name" with
  | error e => simp [bind, Except.bind]
  | ok name =>
    cases required node "type" with
    | error e => simp [bind, Except.bind]
    | ok type =>
      cases given : node.get? "default" with
      | none => exact (last ⟨name, .lookup type, none⟩).trans (found _)
      | some raw =>
        dsimp only [bind, Except.bind]
        cases (ValueType.lookup type).parse raw with
        | error e => simp [Except.map]
        | ok value => exact (last ⟨name, .lookup type, some value⟩).trans (found _)

/- The items of a block without a handler. -/
theorem stateGives {node : Node} (plain : node.attributes = []) {d : StateDescription} :
    StateDescription.read node = .ok d ↔
      ∃ items, Declares itemOf (·.name) (node.childrenNamed "item") items ∧ d = ⟨items, none⟩ := by
  have unhandled : node.get? "didChange" = none := by rw [Node.get?, plain]; rfl
  have items : ∀ found, StateDescription.readItems [] (node.childrenNamed "item") = .ok found ↔
      ∃ items, Declares itemOf (·.name) (node.childrenNamed "item") items ∧ found = items :=
    declaresAll StateDescription.readItems (fun items => items) (fun _ => rfl)
      fun _ _ _ _ => readItemsNext
  unfold StateDescription.read
  rw [unhandled, Result.bindOk]
  constructor
  · rintro ⟨found, read, last⟩
    cases last
    obtain ⟨_, declares, rfl⟩ := (items found).mp read
    exact ⟨_, declares, rfl⟩
  · rintro ⟨found, declares, rfl⟩
    exact ⟨found, (items found).mpr ⟨found, declares, rfl⟩, rfl⟩

end Blocks
end ViewForge
