import ViewForge.Proofs.Element.Reader

/-! Where definitions come from: everything that is read of one file names that file, and stands on
a container that has the id of roots. What they show in the navigation bar are texts. -/
namespace ViewForge
open Markup (Node)
open ViewForge.Task

def NavigationItem.ArePlain (items : List NavigationItem) : Prop :=
  ∀ item ∈ items, item.title.themeReferences = []

theorem NavigationItem.plainNil : ArePlain [] := by simp [ArePlain]

structure ComponentDefinition.From (path : String) (d : ComponentDefinition) : Prop where
  path : d.sourcePath = path
  root : d.root.id = Element.rootId
  container : d.root.kind = .widget .container
  titles : NavigationItem.ArePlain d.navigation

namespace Blocks

theorem readTitle {node : Node} {item : NavigationItem} (ok : NavigationItem.read node = .ok item) :
    item.title.themeReferences = [] := by
  unfold NavigationItem.read at ok
  obtain ⟨position, _, ok⟩ := Result.bindOk.mp ok
  simp only at ok
  split at ok
  · obtain ⟨call, _, ok⟩ := Result.bindOk.mp ok
    obtain ⟨action, _, ok⟩ := Result.bindOk.mp ok
    obtain ⟨id, _, last⟩ := Result.bindOk.mp ok
    cases last
    simp only
    split <;> rfl
  · obtain ⟨action, _, ok⟩ := Result.bindOk.mp ok
    obtain ⟨id, _, last⟩ := Result.bindOk.mp ok
    cases last
    simp only
    split <;> rfl

theorem absorbTemplatesNavigation {nodes : List Node} {blocks next : Blocks}
    (ok : (absorbTemplates nodes).outcome blocks = (.ok (), next)) :
    next.navigation = blocks.navigation := by
  induction nodes generalizing blocks with
  | nil =>
    cases ok
    rfl
  | cons node rest ih =>
    rw [absorbTemplates] at ok
    obtain ⟨template, _, ok⟩ := Task.liftBindGives ok
    rw [Task.modifyBind] at ok
    have same := ih ok
    exact same

theorem absorbPlain {component : String} {node : Node} {blocks next : Blocks}
    (plain : NavigationItem.ArePlain blocks.navigation)
    (ok : (absorb component node).outcome blocks = (.ok (), next)) :
    NavigationItem.ArePlain next.navigation := by
  unfold absorb at ok
  split at ok
  · obtain ⟨group, _, ok⟩ := Task.liftBindGives ok
    cases ok
    unfold addStyles
    split <;> exact plain
  · rw [absorbTemplatesNavigation ok]
    exact plain
  · obtain ⟨state, _, ok⟩ := Task.liftBindGives ok
    cases ok
    exact plain
  · obtain ⟨overrides, _, ok⟩ := Task.liftBindGives ok
    cases ok
    exact plain
  · obtain ⟨navigation, read, ok⟩ := Task.liftBindGives ok
    cases ok
    intro item member
    obtain ⟨node, _, found⟩ := forallRight (Result.mapMOk read) member
    exact readTitle found
  · cases ok

end Blocks

namespace Element

variable {path : String}

abbrev OfFile (path : String) (s : ReadState) : Prop := s.path = path

theorem warnKeepsFile (message : String) :
    Keeps (OfFile path) (fun _ => True) (warn message) :=
  keepsModify trivial fun _ same => same

theorem invalidNameKeepsFile {α : Type} {P : α → Prop} (name : String) :
    Keeps (OfFile path) P (invalidName name : Read α) :=
  keepsBind keepsGet fun _ _ => keepsThrow _

theorem kindOfKeepsFile (tag : String) :
    Keeps (OfFile path) (fun kind => ∀ id, (bare kind id).definition? = none) (kindOf tag) := by
  unfold kindOf
  split
  · exact keepsPure fun _ => rfl
  · split
    · exact keepsPure fun _ => rfl
    · exact invalidNameKeepsFile tag

theorem claimKeepsFile (id : String) : Keeps (OfFile path) (fun _ => True) (claim id) := by
  unfold claim
  refine keepsBind keepsGet fun s same => ?_
  simp only
  split
  · exact keepsPure trivial
  · split
    · exact keepsThrow _
    · exact fun _ _ => ⟨same, fun _ _ => trivial⟩

theorem readIdKeepsFile (tag : String) (given : Option String) :
    Keeps (OfFile path) (fun _ => True) (readId tag given) := by
  have claimed : ∀ id : ElementId, Keeps (OfFile path) (fun _ => True)
      (do claim id.name; return id : Read ElementId) := fun id =>
    keepsBind (claimKeepsFile id.name) fun _ _ => keepsPure trivial
  unfold readId
  cases given with
  | some raw =>
    refine keepsBind (P := fun _ => True) ?_ fun id _ => claimed id
    unfold providedId
    simp only
    split
    · exact keepsPure trivial
    · exact invalidNameKeepsFile _
  | none =>
    refine keepsBind (P := fun _ => True) ?_ fun id _ => claimed id
    unfold generateId
    exact keepsBind keepsGet fun s same _ _ => ⟨same, fun _ _ => trivial⟩

theorem applyAttributeKeepsFile (tag : String) (e : Element) (given : String × String) :
    Keeps (OfFile path) (fun _ => True) (applyAttribute tag e given) := by
  have properties : ∀ name raw, Keeps (OfFile path) (fun _ => True)
      (applyProperty tag e name raw) := by
    intro name raw
    unfold applyProperty
    split
    · exact keepsPure trivial
    · refine keepsLiftBind fun found => ?_
      split
      · exact keepsPure trivial
      · split
        · exact keepsPure trivial
        · exact keepsBind (warnKeepsFile _) fun _ _ => keepsPure trivial
  obtain ⟨name, raw⟩ := given
  unfold applyAttribute
  simp only
  split
  · exact keepsPure trivial
  · exact keepsPure trivial
  · exact keepsPure trivial
  · exact keepsLiftBind fun _ => keepsPure trivial
  · split
    · exact keepsLiftBind fun _ => keepsPure trivial
    · split
      · exact keepsLift fun _ _ => trivial
      · split
        · exact keepsPure trivial
        · exact properties name raw

theorem checkToolingKeepsFile (tag : String) (e : Element) (tools : List (String × String)) :
    Keeps (OfFile path) (fun _ => True) (checkTooling tag e tools) := by
  induction tools with
  | nil => exact keepsPure trivial
  | cons tool rest ih =>
    rw [checkTooling]
    split
    · exact keepsBind (warnKeepsFile _) fun _ _ => ih
    · exact ih

/- What the attributes leave as it was is known from the runs that succeed. -/
theorem applyAttributesKeepsFile (tag : String) (attributes : List (String × String))
    (before : Element) :
    Keeps (OfFile path) (Dressed (attributes.map Prod.fst) before)
      (applyAttributes tag attributes before) := by
  have kept : Keeps (OfFile path) (fun _ => True) (applyAttributes tag attributes before) := by
    unfold applyAttributes
    refine keepsBind (keepsFold (Q := fun _ => True) ?_ trivial) fun e _ => ?_
    · exact fun given _ e _ => applyAttributeKeepsFile tag e given
    · exact keepsBind (checkToolingKeepsFile tag e _) fun _ _ => keepsPure trivial
  intro s same
  refine ⟨(kept s same).1, fun e ok => ?_⟩
  exact (applyAttributesDressed (Prod.ext ok rfl)).1

theorem dropLayoutKeepsFile (tag : String) (before : Element) :
    Keeps (OfFile path) (Dressed [] before) (dropLayout tag before) := by
  unfold dropLayout
  split
  · exact keepsPure (dressedPlain rfl rfl rfl rfl)
  · exact keepsBind (warnKeepsFile _) fun _ _ => keepsPure (dressedPlain rfl rfl rfl rfl)

theorem absorbBlockKeepsFile {component : String} {blocks : Blocks} {node : Node}
    (plain : NavigationItem.ArePlain blocks.navigation) :
    Keeps (OfFile path) (fun next => NavigationItem.ArePlain next.navigation)
      (absorbBlock component blocks node) := by
  unfold absorbBlock
  simp only
  intro s same
  refine ⟨(keepsLiftBind (Q := fun _ => True) (fun _ => keepsPure trivial) s same).1, ?_⟩
  intro next ok
  obtain ⟨_, absorbed, last⟩ := Task.liftBindGives (Prod.ext ok rfl)
  cases congrArg Prod.fst last
  exact Blocks.absorbPlain plain (Prod.ext absorbed rfl)

theorem inScopeKeepsFile {α : Type} {P : α → Prop} {component : String} {body : Read α}
    (kept : Keeps (OfFile path) P body) : Keeps (OfFile path) P (inScope component body) := by
  unfold inScope
  refine keepsBind (P := fun _ => True) (keepsModify trivial fun _ same => same) fun _ _ => ?_
  refine keepsBind (P := fun outcome => ∀ a, outcome = .ok a → P a) ?_ fun outcome given => ?_
  · intro s same
    obtain ⟨after, gives⟩ := kept s same
    refine ⟨after, fun outcome observed => ?_⟩
    cases observed
    exact gives
  · exact keepsBind (P := fun _ => True) (keepsModify trivial fun _ same => same) fun _ _ =>
      keepsLift given

theorem defineFrom {typeName : String} {isAnonymous : Bool} {root : Element}
    {children : List Element} {blocks : Blocks} (id : root.id = rootId)
    (container : root.kind = .widget .container)
    (inline : ∀ d ∈ definitionsOfAll children, d.From path)
    (plain : NavigationItem.ArePlain blocks.navigation) :
    ∀ x ∈ (define typeName path isAnonymous root children blocks).nested, x.From path := by
  intro x member
  have undefined : root.definition? = none := by rw [definition?, container]; rfl
  rw [nestedDefine undefined] at member
  rcases List.mem_cons.mp member with rfl | inside
  · exact ⟨rfl, id, container, plain⟩
  · exact inline x inside

mutual

theorem readFrom (node : Node) :
    Keeps (OfFile path) (fun e => ∀ d ∈ e.definitions, d.From path) (read node) := by
  obtain ⟨tag, attributes, children, text⟩ := node
  rw [read]
  refine keepsBind (kindOfKeepsFile tag) fun kind plain => ?_
  refine keepsBind keepsGet fun s file => ?_
  simp only
  split
  · exact keepsBind (P := fun _ => False) (keepsThrow _) fun _ no => no.elim
  refine keepsBind (readIdKeepsFile tag _) fun id _ => ?_
  refine keepsBind (applyAttributesKeepsFile tag attributes _) fun e dressed => ?_
  have undefined : e.definition? = none := dressed.definition.trans (plain id)
  have childless : e.children = [] := dressed.children
  split
  · refine keepsPure ?_
    simp [definitionsSplit, undefined, childless, definitionsOfAll]
  · split
    · refine keepsBind (inScopeKeepsFile (readBodyFrom tag {} NavigationItem.plainNil children))
        fun found inside => ?_
      refine keepsPure ?_
      rw [definitionsSplit, childless, definitionsOfAll, List.append_nil]
      intro d member
      obtain ⟨x, here, within⟩ := List.mem_flatMap.mp member
      cases Option.mem_toList.mp here
      rw [file] at within
      exact defineFrom rfl rfl inside.1 inside.2 d within
    · split
      · exact keepsBind (P := fun _ => False) (keepsThrow _) fun _ no => no.elim
      · refine keepsBind (readAllFrom children) fun es below => keepsPure ?_
        rw [definitionsSplit]
        have undefined : Element.definition? { e with children := es } = none := undefined
        simpa [undefined] using below

theorem readAllFrom (nodes : List Node) :
    Keeps (OfFile path) (fun es => ∀ d ∈ definitionsOfAll es, d.From path) (readAll nodes) := by
  cases nodes with
  | nil =>
    rw [readAll]
    exact keepsPure (by simp [definitionsOfAll])
  | cons node rest =>
    rw [readAll]
    refine keepsBind (readFrom node) fun first here => ?_
    refine keepsBind (readAllFrom rest) fun others later => keepsPure ?_
    rw [definitionsOfAll]
    exact List.forall_mem_append.mpr ⟨here, later⟩

theorem readBodyFrom (component : String) (blocks : Blocks)
    (plain : NavigationItem.ArePlain blocks.navigation) (nodes : List Node) :
    Keeps (OfFile path) (fun found => (∀ d ∈ definitionsOfAll found.1, d.From path) ∧
      NavigationItem.ArePlain found.2.navigation) (readBody component blocks nodes) := by
  cases nodes with
  | nil =>
    rw [readBody]
    exact keepsPure ⟨by simp [definitionsOfAll], plain⟩
  | cons node rest =>
    rw [readBody]
    split
    · exact keepsBind (absorbBlockKeepsFile plain) fun next still =>
        readBodyFrom component next still rest
    · refine keepsBind (readFrom node) fun first here => ?_
      refine keepsBind (readBodyFrom component blocks plain rest) fun others later => keepsPure ?_
      rw [definitionsOfAll]
      exact ⟨List.forall_mem_append.mpr ⟨here, later.1⟩, later.2⟩

end

end Element

namespace ComponentDefinition

theorem readFrom (path : String) (node : Node) :
    Keeps (Element.OfFile path) (fun d => d.typeName = node.name ∧ ∀ x ∈ d.nested, x.From path)
      (read node) := by
  unfold read
  simp only
  split
  · exact keepsBind (P := fun _ => False) (Element.invalidNameKeepsFile _) fun _ no => no.elim
  · refine keepsBind keepsGet fun s file => ?_
    refine Element.inScopeKeepsFile ?_
    refine keepsBind (Element.applyAttributesKeepsFile _ _ _) fun dressed facts => ?_
    refine keepsBind (Element.dropLayoutKeepsFile _ _) fun root kept => ?_
    refine keepsBind (Element.readBodyFrom _ {} NavigationItem.plainNil _) fun found inside =>
      keepsPure ⟨rfl, ?_⟩
    rw [file]
    exact Element.defineFrom (kept.id.trans facts.id) (kept.widget _ (facts.widget _ rfl)) inside.1
      inside.2

end ComponentDefinition

theorem Compilation.readComponentFrom {platform : Platform} {path text : String}
    {d : ComponentDefinition} {warnings : List String}
    (ok : readComponent platform path text = (.ok d, warnings)) :
    ∀ x ∈ d.nested, x.From path := by
  unfold readComponent at ok
  split at ok
  · cases ok
  · rename_i node parsed
    exact ((ComponentDefinition.readFrom path node _ rfl).2 d (Prod.mk.inj ok).1).2

end ViewForge
