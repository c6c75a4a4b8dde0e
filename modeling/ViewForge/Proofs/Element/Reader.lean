import ViewForge.Proofs.Element.Tree
import ViewForge.Proofs.Markup
import ViewForge.Proofs.Property
import ViewForge.Proofs.Value
import ViewForge.Project.Compile

/-! What reading promises of components: ids are claimed once for each component, properties are
those of distinct attributes, and only what stands in place is anonymous. -/
namespace ViewForge
open Markup (Node)

def Element.arguments (e : Element) : List (String × String) :=
  (e.kind.reference?.map (·.arguments)).getD []

structure Element.Tidy (e : Element) : Prop where
  keys : (e.properties.map Property.key).Nodup
  bound : ∀ p ∈ e.properties, p.Bound
  outside : ∀ p ∈ e.properties, p.IsOutside
  arguments : (e.arguments.map Prod.fst).Nodup

structure ComponentDefinition.Tidy (d : ComponentDefinition) : Prop where
  ids : (d.elements.map (·.id.name)).Nodup
  references : ∀ e ∈ d.elements, e.kind.reference?.isSome = true → e.id.name ≠ Element.rootName
  elements : ∀ e ∈ d.elements, e.Tidy
  styles : d.styles.IsRead
  items : (d.state.items.map (·.name)).Nodup
  defaults : ∀ item ∈ d.state.items, item.IsTyped

structure Blocks.Tidy (b : Blocks) : Prop where
  styles : ∀ g, b.styles = some g → g.IsRead
  items : (b.state.items.map (·.name)).Nodup
  defaults : ∀ item ∈ b.state.items, item.IsTyped

namespace Blocks

theorem readItemsStep {items found : List StateDeclaration} {node : Node} {rest : List Node}
    (ok : StateDescription.readItems items (node :: rest) = .ok found) :
    ∃ item, item.IsTyped ∧ item.name ∉ items.map (·.name) ∧
      StateDescription.readItems (items ++ [item]) rest = .ok found := by
  rw [StateDescription.readItems] at ok
  obtain ⟨name, _, ok⟩ := Result.bindOk.mp ok
  obtain ⟨raw, _, ok⟩ := Result.bindOk.mp ok
  have last : ∀ default : Option Value,
      (∀ value, default = some value → value.type = ValueType.lookup raw) →
      (if items.any (·.name == name) then do
          Except.error (Error.state (.declaredTwice name))
          StateDescription.readItems (items ++ [⟨name, .lookup raw, default⟩]) rest
        else StateDescription.readItems (items ++ [⟨name, .lookup raw, default⟩]) rest) =
        .ok found →
      ∃ item, item.IsTyped ∧ item.name ∉ items.map (·.name) ∧
        StateDescription.readItems (items ++ [item]) rest = .ok found := by
    intro default typed ok
    split at ok
    · cases ok
    · rename_i fresh
      refine ⟨⟨name, .lookup raw, default⟩, typed, ?_, ok⟩
      intro present
      obtain ⟨item, member, same⟩ := List.mem_map.mp present
      exact fresh (List.any_eq_true.mpr ⟨item, member, beq_iff_eq.mpr same⟩)
  simp only at ok
  split at ok
  · obtain ⟨default, given, ok⟩ := Result.bindOk.mp ok
    obtain ⟨value, parsed, rfl⟩ := Result.mapOk.mp given
    refine last (some value) ?_ ok
    intro other same
    cases same
    exact ValueType.parseTyped parsed
  · exact last none (by simp) ok

theorem readItemsDistinct {items found : List StateDeclaration} {nodes : List Node}
    (distinct : (items.map (·.name)).Nodup)
    (ok : StateDescription.readItems items nodes = .ok found) :
    (found.map (·.name)).Nodup := by
  induction nodes generalizing items with
  | nil =>
    cases ok
    exact distinct
  | cons node rest ih =>
    obtain ⟨item, _, fresh, ok⟩ := readItemsStep ok
    refine ih ?_ ok
    rw [List.map_append, List.map_singleton, ← List.concat_eq_append]
    exact distinct.concat fresh

theorem readItemsTyped {items found : List StateDeclaration} {nodes : List Node}
    (typed : ∀ item ∈ items, item.IsTyped)
    (ok : StateDescription.readItems items nodes = .ok found) : ∀ item ∈ found, item.IsTyped := by
  induction nodes generalizing items with
  | nil =>
    cases ok
    exact typed
  | cons node rest ih =>
    obtain ⟨item, own, _, ok⟩ := readItemsStep ok
    exact ih (List.forall_mem_append.mpr ⟨typed, List.forall_mem_singleton.mpr own⟩) ok

theorem absorbTemplatesKeeps {nodes : List Node} {blocks next : Blocks}
    (ok : (absorbTemplates nodes).outcome blocks = (.ok (), next)) :
    next.styles = blocks.styles ∧ next.state = blocks.state := by
  induction nodes generalizing blocks with
  | nil =>
    cases ok
    exact ⟨rfl, rfl⟩
  | cons node rest ih =>
    rw [absorbTemplates] at ok
    obtain ⟨template, _, ok⟩ := Task.liftBindGives ok
    rw [Task.modifyBind] at ok
    obtain ⟨styles, state⟩ := ih ok
    exact ⟨styles, state⟩

theorem addStylesTidy {blocks : Blocks} {group : StyleGroup} (tidy : blocks.Tidy)
    (read : group.IsRead) : (addStyles group blocks).Tidy := by
  unfold addStyles
  split
  · rename_i existing known
    refine ⟨?_, tidy.items, tidy.defaults⟩
    intro g same s member
    cases same
    rcases List.mem_append.mp member with earlier | later
    · exact tidy.styles existing known s earlier
    · exact read s later
  · refine ⟨?_, tidy.items, tidy.defaults⟩
    intro g same
    cases same
    exact read

theorem absorbTidy {component : String} {node : Node} {blocks next : Blocks} (tidy : blocks.Tidy)
    (ok : (absorb component node).outcome blocks = (.ok (), next)) : next.Tidy := by
  unfold absorb at ok
  split at ok
  · obtain ⟨group, read, ok⟩ := Task.liftBindGives ok
    cases ok
    exact addStylesTidy tidy (StyleGroup.readRead read)
  · obtain ⟨styles, state⟩ := absorbTemplatesKeeps ok
    exact ⟨fun g same => tidy.styles g (styles ▸ same), by rw [state]; exact tidy.items,
      by rw [state]; exact tidy.defaults⟩
  · obtain ⟨state, read, ok⟩ := Task.liftBindGives ok
    cases ok
    obtain ⟨items, found, last⟩ := Result.bindOk.mp read
    cases last
    have none : (([] : List StateDeclaration).map (·.name)).Nodup := List.nodup_nil
    exact ⟨tidy.styles, readItemsDistinct none found, readItemsTyped (by simp) found⟩
  · obtain ⟨overrides, _, ok⟩ := Task.liftBindGives ok
    cases ok
    exact ⟨tidy.styles, tidy.items, tidy.defaults⟩
  · obtain ⟨navigation, _, ok⟩ := Task.liftBindGives ok
    cases ok
    exact ⟨tidy.styles, tidy.items, tidy.defaults⟩
  · cases ok

end Blocks

namespace Element

structure Dressed (names : List String) (before e : Element) : Prop where
  id : e.id = before.id
  children : e.children = before.children
  definition : e.definition? = before.definition?
  widget : ∀ w, before.kind = .widget w → e.kind = .widget w
  more : ∃ added, e.properties = before.properties ++ added ∧
    (added.map Property.key).Sublist names ∧ ∀ p ∈ added, p.Bound ∧ p.IsOutside
  given : ∃ added, e.arguments = before.arguments ++ added ∧ (added.map Prod.fst).Sublist names

theorem dressedPlain {names : List String} {before e : Element} (id : e.id = before.id)
    (children : e.children = before.children) (kind : e.kind = before.kind)
    (properties : e.properties = before.properties) : Dressed names before e :=
  ⟨id, children, by rw [definition?, definition?, kind], by rw [kind]; exact fun _ same => same,
    ⟨[], by simp [properties], List.nil_sublist _, by simp⟩,
    [], by simp [arguments, kind], List.nil_sublist _⟩

theorem dressedTrans {name : String} {names : List String} {a b c : Element}
    (first : Dressed [name] a b) (rest : Dressed names b c) : Dressed (name :: names) a c := by
  obtain ⟨xs, left, below, bound⟩ := first.more
  obtain ⟨ys, right, others, others'⟩ := rest.more
  obtain ⟨as, given, early⟩ := first.given
  obtain ⟨bs, given', late⟩ := rest.given
  refine ⟨rest.id.trans first.id, rest.children.trans first.children,
    rest.definition.trans first.definition, fun w same => rest.widget w (first.widget w same),
    ⟨xs ++ ys, ?_, ?_, ?_⟩, as ++ bs, ?_, ?_⟩
  · rw [right, left, List.append_assoc]
  · rw [List.map_append]
    exact below.append others
  · intro p member
    exact (List.mem_append.mp member).elim (bound p) (others' p)
  · rw [given', given, List.append_assoc]
  · rw [List.map_append]
    exact early.append late

theorem kindOutside {kind : ElementKind} {d : PropertyDescription} (member : d ∈ kind.table) :
    "state" ∉ d.path.scope := by
  cases kind with
  | widget w => exact Widget.tableOutside member
  | component reference => exact Widget.tableOutside (w := .view) member

theorem applyPropertyDressed {tag name raw : String} {before e : Element} {s t : ReadState}
    (ok : (applyProperty tag before name raw).outcome s = (.ok e, t)) :
    Dressed [name] before e ∧ t.scopes = s.scopes := by
  unfold applyProperty at ok
  split at ok
  · cases ok
    exact ⟨dressedPlain rfl rfl rfl rfl, rfl⟩
  · obtain ⟨found, read, ok⟩ := Task.liftBindGives ok
    split at ok
    · rename_i property
      cases ok
      obtain ⟨key, bound, listed⟩ := PropertyTable.propertyRead read
      refine ⟨⟨rfl, rfl, rfl, fun _ same => same, ⟨[property], rfl, by simp [key], ?_⟩, [],
        by simp [arguments], List.nil_sublist _⟩, rfl⟩
      intro p member
      cases List.mem_singleton.mp member
      exact ⟨bound, kindOutside listed⟩
    · split at ok
      · rename_i extended given
        cases ok
        unfold addArgument at given
        split at given
        · rename_i r component
          cases given
          refine ⟨⟨rfl, rfl, ?_, ?_, ⟨[], by simp, List.nil_sublist _, by simp⟩, [(name, raw)], ?_,
            by simp⟩, rfl⟩
          · simp [definition?, component, ElementKind.reference?]
          · simp [component]
          · simp [arguments, component, ElementKind.reference?]
        · cases given
      · cases ok
        exact ⟨dressedPlain rfl rfl rfl rfl, rfl⟩

theorem applyActionDressed {event raw name : String} {before e : Element}
    (ok : before.applyAction event raw = .ok e) : Dressed [name] before e := by
  obtain ⟨call, _, ok⟩ := Result.bindOk.mp ok
  simp only at ok
  split at ok
  · cases ok
  · cases ok
    exact dressedPlain rfl rfl rfl rfl

theorem applyAttributeDressed {tag name raw : String} {before e : Element} {s t : ReadState}
    (ok : (applyAttribute tag before (name, raw)).outcome s = (.ok e, t)) :
    Dressed [name] before e ∧ t.scopes = s.scopes := by
  unfold applyAttribute at ok
  simp only at ok
  split at ok
  · cases ok
    exact ⟨dressedPlain rfl rfl rfl rfl, rfl⟩
  · cases ok
    exact ⟨dressedPlain rfl rfl rfl rfl, rfl⟩
  · cases ok
    exact ⟨dressedPlain rfl rfl rfl rfl, rfl⟩
  · obtain ⟨styles, _, ok⟩ := Task.liftBindGives ok
    cases ok
    exact ⟨dressedPlain rfl rfl rfl rfl, rfl⟩
  · split at ok
    · obtain ⟨constraints, _, ok⟩ := Task.liftBindGives ok
      cases ok
      exact ⟨dressedPlain rfl rfl rfl rfl, rfl⟩
    · split at ok
      · obtain ⟨applied, rfl⟩ := Task.liftGives ok
        exact ⟨applyActionDressed applied, rfl⟩
      · split at ok
        · cases ok
          exact ⟨dressedPlain rfl rfl rfl rfl, rfl⟩
        · exact applyPropertyDressed ok

theorem attributesDressed {tag : String} {attributes : List (String × String)}
    {before e : Element} {s t : ReadState}
    (ok : (attributes.foldlM (applyAttribute tag) before).outcome s = (.ok e, t)) :
    Dressed (attributes.map Prod.fst) before e ∧ t.scopes = s.scopes := by
  induction attributes generalizing before s with
  | nil =>
    cases ok
    exact ⟨dressedPlain rfl rfl rfl rfl, rfl⟩
  | cons first rest ih =>
    obtain ⟨next, between, applied, others⟩ := Task.foldlGives.mp ok
    obtain ⟨one, same⟩ := applyAttributeDressed applied
    obtain ⟨more, again⟩ := ih others
    exact ⟨dressedTrans one more, again.trans same⟩

theorem checkToolingKeeps {tag : String} {e : Element} {tools : List (String × String)}
    {s t : ReadState} (ok : (checkTooling tag e tools).outcome s = (.ok (), t)) :
    t.scopes = s.scopes := by
  induction tools generalizing s with
  | nil =>
    cases ok
    rfl
  | cons tool rest ih =>
    rw [checkTooling] at ok
    split at ok
    · obtain ⟨_, between, warned, more⟩ := Task.bindGives.mp ok
      cases warned
      have same := ih more
      exact same
    · exact ih ok

theorem applyAttributesDressed {tag : String} {attributes : List (String × String)}
    {before e : Element} {s t : ReadState}
    (ok : (applyAttributes tag attributes before).outcome s = (.ok e, t)) :
    Dressed (attributes.map Prod.fst) before e ∧ t.scopes = s.scopes := by
  unfold applyAttributes at ok
  obtain ⟨found, between, applied, ok⟩ := Task.bindGives.mp ok
  obtain ⟨_, after, checked, last⟩ := Task.bindGives.mp ok
  cases last
  obtain ⟨dressed, same⟩ := attributesDressed applied
  exact ⟨dressed, (checkToolingKeeps checked).trans same⟩

theorem dropLayoutDressed {tag : String} {before e : Element} {s t : ReadState}
    (ok : (dropLayout tag before).outcome s = (.ok e, t)) :
    Dressed [] before e ∧ t.scopes = s.scopes := by
  unfold dropLayout at ok
  split at ok
  · cases ok
    exact ⟨dressedPlain rfl rfl rfl rfl, rfl⟩
  · obtain ⟨_, between, warned, last⟩ := Task.bindGives.mp ok
    cases warned
    cases last
    exact ⟨dressedPlain rfl rfl rfl rfl, rfl⟩

theorem dropLayoutDrops {tag : String} {before e : Element} {s t : ReadState}
    (ok : (dropLayout tag before).outcome s = (.ok e, t)) : e.layout = [] := by
  unfold dropLayout at ok
  split at ok
  · rename_i none
    cases ok
    exact List.isEmpty_iff.mp none
  · obtain ⟨_, between, warned, last⟩ := Task.bindGives.mp ok
    cases last
    rfl

theorem dressedTidy {names : List String} {kind : ElementKind} {id : ElementId} {e : Element}
    (distinct : names.Nodup) (plain : (bare kind id).arguments = [])
    (dressed : Dressed names (bare kind id) e) : e.Tidy := by
  obtain ⟨added, same, below, bound⟩ := dressed.more
  obtain ⟨arguments, given, named⟩ := dressed.given
  have all : e.properties = added := by simpa [bare] using same
  have every : e.arguments = arguments := by rw [given, plain, List.nil_append]
  rw [← all] at below bound
  rw [← every] at named
  exact ⟨distinct.sublist below, fun p member => (bound p member).1,
    fun p member => (bound p member).2, distinct.sublist named⟩

theorem kindOfPlain {tag : String} {kind : ElementKind} {s t : ReadState}
    (ok : (kindOf tag).outcome s = (.ok kind, t)) :
    kind.reference?.bind (·.definition) = none ∧ (∀ id, (bare kind id).arguments = []) ∧ t = s := by
  unfold kindOf at ok
  split at ok
  · cases ok
    exact ⟨rfl, fun _ => rfl, rfl⟩
  · split at ok
    · cases ok
      exact ⟨rfl, fun _ => rfl, rfl⟩
    · cases ok

/- Only letters that are no digits stand at the end of the name of the root. -/
theorem numberedNotRoot (base : String) (n : Nat) : base ++ toString n ≠ rootName := by
  intro same
  have letters : base.toList ++ (toString n).toList = rootName.toList := by
    rw [← same, String.toList_append]
  have digits : ∀ c ∈ (toString n).toList, c.isDigit = true := by
    intro c member
    rw [show toString n = n.repr from rfl, Nat.toList_repr] at member
    exact Nat.isDigit_of_mem_toDigits (by decide) (by decide) member
  have some : (toString n).toList ≠ [] := by
    rw [show toString n = n.repr from rfl, Nat.toList_repr]
    exact Nat.toDigits_ne_nil
  have last := digits _ (List.getLast_mem some)
  have final : rootName.toList.getLast (by decide) = (toString n).toList.getLast some := by
    simp only [← letters]
    exact List.getLast_append_of_ne_nil _ some
  rw [← final] at last
  exact absurd last (by decide)

theorem allowedNotRoot {name : String} (allowed : isAllowed name = true) : name ≠ rootName := by
  rintro rfl
  exact absurd allowed (by decide)

def Takes (id : String) (s t : ReadState) : Prop :=
  ∀ scope outer, s.scopes = scope :: outer →
    id ∉ scope.ids ∧ t.scopes = { scope with ids := id :: scope.ids } :: outer

theorem claimTakes {id : String} {s t : ReadState} (ok : (claim id).outcome s = (.ok (), t)) :
    Takes id s t := by
  intro scope outer inside
  unfold claim at ok
  rw [Task.getBind, inside] at ok
  simp only at ok
  split at ok
  · cases ok
  · rename_i free
    cases ok
    exact ⟨by simpa using free, rfl⟩

theorem readIdTakes {tag : String} {given : Option String} {id : ElementId} {s t : ReadState}
    (ok : (readId tag given).outcome s = (.ok id, t)) :
    id.name ≠ rootName ∧ Takes id.name s t := by
  unfold readId at ok
  simp only at ok
  split at ok
  · rename_i raw
    obtain ⟨found, between, provided, rest⟩ := Task.bindGives.mp ok
    obtain ⟨_, after, claimed, last⟩ := Task.bindGives.mp rest
    cases last
    unfold providedId at provided
    simp only at provided
    split at provided
    · rename_i allowed
      cases provided
      exact ⟨allowedNotRoot allowed, claimTakes claimed⟩
    · cases provided
  · obtain ⟨found, between, generated, rest⟩ := Task.bindGives.mp ok
    obtain ⟨_, after, claimed, last⟩ := Task.bindGives.mp rest
    cases last
    cases generated
    have takes := claimTakes claimed
    exact ⟨numberedNotRoot _ _, takes⟩

structure Inline (proper : Prop) (d : ComponentDefinition) : Prop where
  anonymous : d.isAnonymous = true
  root : d.root.id = rootId
  layout : d.root.layout = []
  ids : (d.elements.map (·.id.name)).Nodup
  tidy : proper → d.Tidy

/-- What reading the elements has done: their ids are claimed, once for each component, and all that
they hold is tidy if what was read is `proper`. -/
structure Claims (proper : Prop) (s t : ReadState) (es : List Element) : Prop where
  scopes : ∀ scope outer, s.scopes = scope :: outer →
    t.scopes = { scope with ids := ((walk es).map (·.id.name)).reverse ++ scope.ids } :: outer
  distinct : ∀ scope outer, s.scopes = scope :: outer → scope.ids.Nodup →
    (((walk es).map (·.id.name)).reverse ++ scope.ids).Nodup
  named : ∀ e ∈ walk es, e.id.name ≠ rootName
  tidy : proper → ∀ e ∈ walk es, e.Tidy
  inline : ∀ d ∈ definitionsOfAll es, Inline proper d

theorem claimsNil (proper : Prop) (s : ReadState) : Claims proper s s [] where
  scopes scope outer inside := by simpa [walk] using inside
  distinct scope outer _ before := by simpa [walk] using before
  named := by simp [walk]
  tidy := by simp [walk]
  inline := by simp [definitionsOfAll]

theorem claimsOf {proper given : Prop} {s t : ReadState} {es : List Element}
    (claims : Claims proper s t es) (enough : given → proper) : Claims given s t es where
  scopes := claims.scopes
  distinct := claims.distinct
  named := claims.named
  tidy holds := claims.tidy (enough holds)
  inline d member := by
    obtain ⟨anonymous, root, layout, ids, tidy⟩ := claims.inline d member
    exact ⟨anonymous, root, layout, ids, fun holds => tidy (enough holds)⟩

theorem claimsAppend {proper : Prop} {s t u : ReadState} {xs ys : List Element}
    (first : Claims proper s t xs) (rest : Claims proper t u ys) :
    Claims proper s u (xs ++ ys) where
  scopes scope outer inside := by
    rw [rest.scopes _ _ (first.scopes scope outer inside), walkAppend, List.map_append,
      List.reverse_append, List.append_assoc]
  distinct scope outer inside before := by
    rw [walkAppend, List.map_append, List.reverse_append, List.append_assoc]
    exact rest.distinct _ _ (first.scopes scope outer inside)
      (first.distinct scope outer inside before)
  named e member := by
    rw [walkAppend] at member
    exact (List.mem_append.mp member).elim (first.named e) (rest.named e)
  tidy holds e member := by
    rw [walkAppend] at member
    exact (List.mem_append.mp member).elim (first.tidy holds e) (rest.tidy holds e)
  inline d member := by
    rw [definitionsOfAllFlat, List.flatMap_append, List.mem_append, ← definitionsOfAllFlat,
      ← definitionsOfAllFlat] at member
    exact member.elim (first.inline d) (rest.inline d)

theorem claimsElement {proper : Prop} {s t u : ReadState} {e : Element}
    (named : e.id.name ≠ rootName) (takes : Takes e.id.name s t) (tidy : proper → e.Tidy)
    (inline : ∀ d, e.definition? = some d → ∀ x ∈ d.nested, Inline proper x)
    (below : Claims proper t u e.children) : Claims proper s u [e] where
  scopes scope outer inside := by
    rw [below.scopes _ _ (takes scope outer inside).2, walkCons]
    simp [walk]
  distinct scope outer inside before := by
    obtain ⟨free, taken⟩ := takes scope outer inside
    have after := below.distinct _ _ taken (List.nodup_cons.mpr ⟨free, before⟩)
    rw [walkCons]
    simpa [walk] using after
  named x member := by
    rw [walkCons, walk, List.append_nil] at member
    rcases List.mem_cons.mp member with rfl | inside
    · exact named
    · exact below.named x inside
  tidy holds x member := by
    rw [walkCons, walk, List.append_nil] at member
    rcases List.mem_cons.mp member with rfl | inside
    · exact tidy holds
    · exact below.tidy holds x inside
  inline d member := by
    rw [definitionsOfAll, definitionsOfAll, List.append_nil, definitionsSplit] at member
    rcases List.mem_append.mp member with here | inside
    · obtain ⟨x, found, within⟩ := List.mem_flatMap.mp here
      exact inline x (Option.mem_toList.mp found) d within
    · exact below.inline d inside

theorem inScopeGives {α : Type} {component : String} {body : Read α} {a : α} {s t : ReadState}
    (ok : (inScope component body).outcome s = (.ok a, t)) :
    ∃ u, body.outcome (s.pushScope component) = (.ok a, u) ∧ t.scopes = u.scopes.tail := by
  unfold inScope at ok
  rw [Task.modifyBind] at ok
  obtain ⟨outcome, u, observed, rest⟩ := Task.bindGives.mp ok
  rw [Task.outcomeObserved, Prod.mk.injEq, Except.ok.injEq] at observed
  rw [Task.modifyBind] at rest
  obtain ⟨same, rfl⟩ := Task.liftGives rest
  exact ⟨u, Prod.ext (observed.1.trans same) observed.2, rfl⟩

theorem absorbBlockTidy {component : String} {blocks next : Blocks} {node : Node}
    {s t : ReadState} (tidy : blocks.Tidy)
    (ok : (absorbBlock component blocks node).outcome s = (.ok next, t)) : next.Tidy ∧ t = s := by
  unfold absorbBlock at ok
  simp only at ok
  obtain ⟨_, absorbed, last⟩ := Task.liftBindGives ok
  cases last
  exact ⟨Blocks.absorbTidy tidy (Prod.ext absorbed rfl), rfl⟩

section Define

variable {typeName path : String} {isAnonymous : Bool} {root : Element} {children : List Element}
  {blocks : Blocks} {proper : Prop} {s t : ReadState} {scope : IdScope} {outer : List IdScope}

/- The root of a component has the one id that nobody else can claim. -/
theorem defineIds (inside : s.scopes = scope :: outer) (free : scope.ids = [])
    (id : root.id = rootId) (claims : Claims proper s t children) :
    ((define typeName path isAnonymous root children blocks).elements.map (·.id.name)).Nodup := by
  have distinct := claims.distinct scope outer inside (by rw [free]; exact List.nodup_nil)
  rw [free, List.append_nil, List.nodup_reverse] at distinct
  have elements : (define typeName path isAnonymous root children blocks).elements =
      { root with children } :: walk children := by
    simp [ComponentDefinition.elements, descendants, define, walkCons, walk]
  rw [elements, List.map_cons, List.nodup_cons]
  refine ⟨?_, distinct⟩
  intro again
  obtain ⟨e, member, same⟩ := List.mem_map.mp again
  exact claims.named e member (by rw [same, id]; rfl)

theorem defineTidy (inside : s.scopes = scope :: outer) (free : scope.ids = [])
    (id : root.id = rootId) (plain : root.kind.reference? = none) (tidy : root.Tidy)
    (claims : Claims proper s t children) (holds : proper) (given : blocks.Tidy) :
    (define typeName path isAnonymous root children blocks).Tidy where
  ids := defineIds inside free id claims
  references e member refers := by
    simp only [ComponentDefinition.elements, descendants, define, walkCons, walk,
      List.append_nil] at member
    rcases List.mem_cons.mp member with rfl | below
    · rw [plain] at refers
      cases refers
    · exact claims.named e below
  elements e member := by
    simp only [ComponentDefinition.elements, descendants, define, walkCons, walk,
      List.append_nil] at member
    rcases List.mem_cons.mp member with rfl | below
    · exact ⟨tidy.keys, tidy.bound, tidy.outside, tidy.arguments⟩
    · exact claims.tidy holds e below
  styles := by
    cases known : blocks.styles with
    | none => simp [define, known, StyleGroup.IsRead]
    | some g => simpa [define, known] using given.styles g known
  items := given.items
  defaults := given.defaults

end Define

theorem nestedDefine {typeName path : String} {isAnonymous : Bool} {root : Element}
    {children : List Element} {blocks : Blocks} (plain : root.definition? = none) :
    (define typeName path isAnonymous root children blocks).nested =
      define typeName path isAnonymous root children blocks :: definitionsOfAll children := by
  have none : Element.definition? { root with children } = none := plain
  rw [ComponentDefinition.nested, definitionsOfSplit]
  simp [define, definitionsSplit, none]

theorem bareTidy {kind : ElementKind} {id : ElementId} (plain : (bare kind id).arguments = []) :
    (bare kind id).Tidy :=
  ⟨by simp [bare], by simp [bare], by simp [bare], by simp [plain]⟩

mutual

theorem readClaims (node : Node) {e : Element} {s t : ReadState}
    (ok : (read node).outcome s = (.ok e, t)) : Claims node.Tidy s t [e] := by
  obtain ⟨tag, attributes, children, text⟩ := node
  rw [read] at ok
  obtain ⟨kind, start, kinded, available⟩ := Task.bindGives.mp ok
  obtain ⟨plain, ungiven, rfl⟩ := kindOfPlain kinded
  rw [Task.getBind] at available
  by_cases missing : (!kind.isAvailable start.platform) = true
  · simp only [missing, if_true] at available
    cases available
  · simp only [missing] at available
    obtain ⟨id, claimed, taken, dressing⟩ := Task.bindGives.mp available
    obtain ⟨named, takes⟩ := readIdTakes taken
    obtain ⟨found, dressed, applied, rest⟩ := Task.bindGives.mp dressing
    obtain ⟨facts, same⟩ := applyAttributesDressed applied
    have takes' : Takes found.id.name start dressed := by
      intro scope outer inside
      rw [facts.id, same]
      exact takes scope outer inside
    have tidy : Node.Tidy ⟨tag, attributes, children, text⟩ → found.Tidy := fun proper =>
      dressedTidy proper.attributes (ungiven id) facts
    have name : found.id.name ≠ rootName := by
      rw [facts.id]
      exact named
    have bare : found.definition? = none := by
      rw [facts.definition]
      simp only [definition?, bare, plain]
    split at rest
    · cases rest
      refine claimsElement name takes' tidy ?_ ?_
      · intro d here
        rw [bare] at here
        cases here
      · rw [facts.children]
        exact claimsNil _ t
    · split at rest
      · rename_i r component
        obtain ⟨⟨inner, blocks⟩, after, entered, last⟩ := Task.bindGives.mp rest
        cases last
        obtain ⟨body, read, scopes⟩ := inScopeGives entered
        obtain ⟨claims, kept⟩ := readBodyClaims tag {} ⟨by simp, by simp, by simp⟩ children read
        have left : t.scopes = dressed.scopes := by
          rw [scopes, claims.scopes _ _ rfl]
          rfl
        have given : found.arguments = r.arguments := by rw [arguments, component]; rfl
        refine claimsElement name (t := t) ?_ ?_ ?_ ?_
        · intro scope outer inside
          rw [left]
          exact takes' scope outer inside
        · intro proper
          have distinct := (tidy proper).arguments
          rw [given] at distinct
          exact ⟨(tidy proper).keys, (tidy proper).bound, (tidy proper).outside, distinct⟩
        · intro d here x member
          cases here
          rw [nestedDefine rfl] at member
          rcases List.mem_cons.mp member with rfl | within
          · exact ⟨rfl, rfl, rfl, defineIds rfl rfl rfl claims, fun proper =>
              defineTidy rfl rfl rfl rfl (bareTidy rfl) claims proper.children kept⟩
          · exact (claimsOf claims Node.Tidy.children).inline x within
        · rw [facts.children]
          exact claimsNil _ t
      · split at rest
        · cases rest
        · obtain ⟨es, after, more, last⟩ := Task.bindGives.mp rest
          cases last
          refine claimsElement name takes' ?_ ?_
            (claimsOf (readAllClaims children more) Node.Tidy.children)
          · intro proper
            have own := tidy proper
            exact ⟨own.keys, own.bound, own.outside, own.arguments⟩
          · intro d here
            exact absurd (bare.symm.trans here) (by simp)

theorem readAllClaims (nodes : List Node) {es : List Element} {s t : ReadState}
    (ok : (readAll nodes).outcome s = (.ok es, t)) :
    Claims (∀ node ∈ nodes, node.Tidy) s t es := by
  cases nodes with
  | nil =>
    cases ok
    exact claimsNil _ s
  | cons node rest =>
    rw [readAll] at ok
    obtain ⟨first, between, one, ok⟩ := Task.bindGives.mp ok
    obtain ⟨others, after, more, last⟩ := Task.bindGives.mp ok
    cases last
    simp only [List.forall_mem_cons]
    exact claimsAppend (claimsOf (readClaims node one) And.left)
      (claimsOf (readAllClaims rest more) And.right)

theorem readBodyClaims (component : String) (blocks : Blocks) (given : blocks.Tidy)
    (nodes : List Node) {es : List Element} {found : Blocks} {s t : ReadState}
    (ok : (readBody component blocks nodes).outcome s = (.ok (es, found), t)) :
    Claims (∀ node ∈ nodes, node.Tidy) s t es ∧ found.Tidy := by
  cases nodes with
  | nil =>
    cases ok
    exact ⟨claimsNil _ s, given⟩
  | cons node rest =>
    simp only [List.forall_mem_cons]
    rw [readBody] at ok
    split at ok
    · obtain ⟨next, between, absorbed, more⟩ := Task.bindGives.mp ok
      obtain ⟨kept, rfl⟩ := absorbBlockTidy given absorbed
      obtain ⟨claims, last⟩ := readBodyClaims component next kept rest more
      exact ⟨claimsOf claims And.right, last⟩
    · obtain ⟨first, between, one, ok⟩ := Task.bindGives.mp ok
      obtain ⟨⟨elements, next⟩, after, more, last⟩ := Task.bindGives.mp ok
      cases last
      obtain ⟨claims, kept⟩ := readBodyClaims component blocks given rest more
      exact ⟨claimsAppend (claimsOf (readClaims node one) And.left)
        (claimsOf claims And.right), kept⟩

end

end Element

namespace ComponentDefinition

structure Parts (node : Node) (d : ComponentDefinition) (root : Element) (children : List Element)
    (blocks : Blocks) (s t : ReadState) : Prop where
  scopes : ∃ outer, s.scopes = { component := node.name } :: outer
  definition : ∃ path, d = Element.define node.name path false root children blocks
  id : root.id = Element.rootId
  plain : root.kind.reference? = none
  bare : root.definition? = none
  layout : root.layout = []
  tidy : node.Tidy → root.Tidy
  claims : Element.Claims (∀ child ∈ node.children, child.Tidy) s t children
  blocks : blocks.Tidy

theorem readParts {node : Node} {d : ComponentDefinition} {s t : ReadState}
    (ok : (read node).outcome s = (.ok d, t)) :
    ∃ root children blocks u v, Parts node d root children blocks u v := by
  unfold read at ok
  simp only at ok
  split at ok
  · cases ok
  · rw [Task.getBind] at ok
    obtain ⟨u, body, _⟩ := Element.inScopeGives ok
    obtain ⟨dressed, s₁, applied, body⟩ := Task.bindGives.mp body
    obtain ⟨facts, same⟩ := Element.applyAttributesDressed applied
    obtain ⟨root, s₂, dropped, body⟩ := Task.bindGives.mp body
    obtain ⟨kept, same'⟩ := Element.dropLayoutDressed dropped
    obtain ⟨⟨children, blocks⟩, s₃, read, last⟩ := Task.bindGives.mp body
    cases last
    obtain ⟨claims, given⟩ :=
      Element.readBodyClaims node.name {} ⟨by simp, by simp, by simp⟩ node.children read
    have rooted : node.Tidy → root.Tidy := by
      intro proper
      have tidy := Element.dressedTidy proper.attributes rfl facts
      obtain ⟨added, properties, none, _⟩ := kept.more
      have nothing : added = [] := by simpa using none
      obtain ⟨extra, arguments, more⟩ := kept.given
      have nobody : extra = [] := by simpa using more
      rw [nothing, List.append_nil] at properties
      rw [nobody, List.append_nil] at arguments
      exact ⟨by rw [properties]; exact tidy.keys, by rw [properties]; exact tidy.bound,
        by rw [properties]; exact tidy.outside, by rw [arguments]; exact tidy.arguments⟩
    exact ⟨root, children, blocks, s₂, u, ⟨s.scopes, same'.trans same⟩, ⟨s.path, rfl⟩,
      kept.id.trans facts.id, by rw [kept.widget _ (facts.widget _ rfl)]; rfl,
      kept.definition.trans facts.definition, Element.dropLayoutDrops dropped, rooted, claims,
      given⟩

/- The definition of a file is the only one in it that does not stand in place. -/
theorem readTidy {node : Node} (tidy : node.Tidy) {d : ComponentDefinition} {s t : ReadState}
    (ok : (read node).outcome s = (.ok d, t)) :
    d.isAnonymous = false ∧ d.Tidy ∧
      ∀ x ∈ d.nested, x = d ∨ (x.isAnonymous = true ∧ x.Tidy) := by
  obtain ⟨root, children, blocks, u, v, parts⟩ := readParts ok
  obtain ⟨outer, inside⟩ := parts.scopes
  obtain ⟨path, rfl⟩ := parts.definition
  refine ⟨rfl, ?_, ?_⟩
  · exact Element.defineTidy inside rfl parts.id parts.plain (parts.tidy tidy) parts.claims
      tidy.children parts.blocks
  · intro x member
    rw [Element.nestedDefine parts.bare] at member
    refine (List.mem_cons.mp member).imp id fun within => ?_
    have inline := parts.claims.inline x within
    exact ⟨inline.anonymous, inline.tidy tidy.children⟩

/- That ids are distinct hangs on no property of the document. -/
theorem readIds {node : Node} {d : ComponentDefinition} {s t : ReadState}
    (ok : (read node).outcome s = (.ok d, t)) :
    ∀ x ∈ d.nested, x.root.id = Element.rootId ∧ (x.elements.map (·.id.name)).Nodup := by
  obtain ⟨root, children, blocks, u, v, parts⟩ := readParts ok
  obtain ⟨outer, inside⟩ := parts.scopes
  obtain ⟨path, rfl⟩ := parts.definition
  intro x member
  rw [Element.nestedDefine parts.bare] at member
  rcases List.mem_cons.mp member with rfl | within
  · exact ⟨parts.id, Element.defineIds inside rfl parts.id parts.claims⟩
  · have inline := parts.claims.inline x within
    exact ⟨inline.root, inline.ids⟩

theorem readRoots {node : Node} {d : ComponentDefinition} {s t : ReadState}
    (ok : (read node).outcome s = (.ok d, t)) : ∀ x ∈ d.nested, x.root.layout = [] := by
  obtain ⟨root, children, blocks, u, v, parts⟩ := readParts ok
  obtain ⟨path, rfl⟩ := parts.definition
  intro x member
  rw [Element.nestedDefine parts.bare] at member
  rcases List.mem_cons.mp member with rfl | within
  · exact parts.layout
  · exact (parts.claims.inline x within).layout

end ComponentDefinition

theorem Compilation.readComponentTidy {platform : Platform} {path text : String}
    {d : ComponentDefinition} {warnings : List String}
    (ok : readComponent platform path text = (.ok d, warnings)) :
    d.isAnonymous = false ∧ d.Tidy ∧
      ∀ x ∈ d.nested, x = d ∨ (x.isAnonymous = true ∧ x.Tidy) := by
  unfold readComponent at ok
  split at ok
  · cases ok
  · rename_i node parsed
    exact ComponentDefinition.readTidy (Markup.parseTidy parsed)
      (Prod.ext (Prod.mk.inj ok).1 rfl)

theorem Compilation.readComponentRoots {platform : Platform} {path text : String}
    {d : ComponentDefinition} {warnings : List String}
    (ok : readComponent platform path text = (.ok d, warnings)) :
    ∀ x ∈ d.nested, x.root.layout = [] := by
  unfold readComponent at ok
  split at ok
  · cases ok
  · exact ComponentDefinition.readRoots (Prod.ext (Prod.mk.inj ok).1 rfl)

end ViewForge
