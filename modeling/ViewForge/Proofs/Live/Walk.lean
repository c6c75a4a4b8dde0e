import ViewForge.Proofs.Element.Preorder
import ViewForge.Proofs.Live.Session

/-! Walks of a tree, and a run that follows one. The elements come in preorder with their parents,
so that the view of a parent is there when a child is put into it. -/
namespace ViewForge
namespace LiveSession

variable {s : LiveSession} {build : Builder} {res : Resolved} {values : StateValues}
  {root : ViewNumber} {before after placed : Placed} {e : Element} {state next : LiveState}

theorem placeNestedViews {view : ViewNumber}
    (ok : (s.placeNested build values view before e).outcome state = (.ok after, next)) :
    after.views = before.views := by
  rcases placeNestedCases ok with
    ⟨_, rfl, _⟩ | ⟨_, _, _, _, _, _, _, _, _, _, rfl⟩
  · rfl
  · rfl

/- Whatever the builder does, an element adds one view, under its own id. -/
theorem placeViews {parent : Option Element}
    (ok : (s.place build res values root before (e, parent)).outcome state = (.ok after, next)) :
    ∃ view, after.views = Ordered.put e.id.name view before.views := by
  unfold place at ok
  cases parent with
  | none =>
    obtain ⟨view, _, _, ok⟩ := Task.bindGives.mp ok
    obtain ⟨_, _, _, last⟩ := Task.bindGives.mp ok
    cases last
    exact ⟨view, rfl⟩
  | some parent =>
    obtain ⟨view, _, _, ok⟩ := Task.bindGives.mp ok
    obtain ⟨_, _, _, nested⟩ := Task.bindGives.mp ok
    exact ⟨view, placeNestedViews nested⟩

theorem foldViews {elements : List Element.Parented}
    (ok : (elements.foldlM (s.place build res values root) before).outcome state =
      (.ok after, next)) : ∃ entries : List (String × ViewNumber),
        entries.map Prod.fst = elements.map (·.1.id.name) ∧
        after.views = entries.foldl (fun all p => Ordered.put p.1 p.2 all) before.views := by
  induction elements generalizing before state with
  | nil =>
    cases ok
    exact ⟨[], rfl, rfl⟩
  | cons parented rest ih =>
    obtain ⟨between, u, first, others⟩ := Task.foldlGives.mp ok
    obtain ⟨view, put⟩ := placeViews first
    obtain ⟨entries, ids, views⟩ := ih others
    refine ⟨(parented.1.id.name, view) :: entries, by rw [List.map_cons, ids, List.map_cons], ?_⟩
    rw [views, put, List.foldl_cons]

theorem foldKnown {elements : List Element.Parented}
    (ok : (elements.foldlM (s.place build res values root) {}).outcome state = (.ok placed, next))
    {parented : Element.Parented} (passed : parented ∈ elements) (d : ComponentDefinition) :
    ∃ view, viewOf d placed.views parented.1.id.name = .ok view := by
  obtain ⟨entries, ids, views⟩ := foldViews ok
  have known : parented.1.id.name ∈ ([] ++ entries).map Prod.fst := by
    rw [List.nil_append, ids]
    exact List.mem_map_of_mem passed
  have found := Ordered.lookupKnown (Ordered.knownPutAll known)
  rw [← show placed.views = _ from views] at found
  obtain ⟨view, found⟩ := Option.isSome_iff_exists.mp found
  exact ⟨view, by rw [viewOf, found]⟩

/- With distinct ids no view takes the place of another. -/
theorem foldKeys {elements : List Element.Parented}
    (distinct : (elements.map (·.1.id.name)).Nodup)
    (ok : (elements.foldlM (s.place build res values root) {}).outcome state = (.ok placed, next)) :
    placed.views.map Prod.fst = elements.map (·.1.id.name) := by
  obtain ⟨entries, ids, views⟩ := foldViews ok
  have fresh : (([] ++ entries).map Prod.fst).Nodup := by
    rw [List.nil_append, ids]
    exact distinct
  rw [views, Ordered.putDistinct fresh, List.nil_append, ids]

end LiveSession

structure Element.Preordered (e : Element) : Prop where
  preorder : e.descendants = e.preorder
  listed : Lists e.at? e.descendants
  count : e.descendants.length = e.count
  parented : Lists (e.parentedAt? none) e.withParents
  elements : e.withParents.map Prod.fst = e.descendants
  after : ∀ before child parent rest, e.withParents = before ++ (child, some parent) :: rest →
    ∃ above, (parent, above) ∈ before

def ComponentDefinition.FindsParents (d : ComponentDefinition) : Prop :=
  ∀ (s : LiveSession) (build : LiveSession.Builder) (res : Resolved) (values : StateValues)
    (root : ViewNumber) (before : List Element.Parented) (child parent : Element)
    (rest : List Element.Parented) (placed : LiveSession.Placed) (start now : LiveState),
    d.root.withParents = before ++ (child, some parent) :: rest →
    (before.foldlM (s.place build res values root) {}).outcome start = (.ok placed, now) →
    (∃ view, LiveSession.viewOf res.definition placed.views parent.id.name = .ok view) ∧
      ((d.elements.map (·.id.name)).Nodup →
        placed.views.map Prod.fst = before.map (·.1.id.name))

theorem Element.preordered (e : Element) : e.Preordered where
  preorder := descendantsPreorder e
  listed := descendantsListed e
  count := walkCount [e]
  parented := walkParentedListed e none
  elements := withParentsFirst e
  after _ _ _ _ walked := parentBefore walked

theorem ComponentDefinition.findsParents (d : ComponentDefinition) : d.FindsParents := by
  intro s build res values root before child parent rest placed start now walked ok
  obtain ⟨above, passed⟩ := Element.parentBefore walked
  refine ⟨LiveSession.foldKnown ok passed res.definition, fun distinct => ?_⟩
  refine LiveSession.foldKeys ?_ ok
  have whole := Element.withParentsFirst d.root
  rw [walked, List.map_append] at whole
  rw [elements, ← whole, List.map_append] at distinct
  have own := (List.nodup_append.mp distinct).1
  rw [List.map_map] at own
  exact own

theorem walksInPreorder :
    (∀ e : Element, e.Preordered) ∧ (∀ d : ComponentDefinition, d.FindsParents) ∧
      ∀ d : ComponentDefinition, Lists d.at? d.nested ∧
        d.nested = d :: d.inlineDefinitions.flatMap ComponentDefinition.nested := by
  refine ⟨Element.preordered, ComponentDefinition.findsParents, fun d => ⟨?_, ?_⟩⟩
  · exact d.nestedListed
  · exact d.nestedSplit

def plainElement (widget : Widget) (name : String) (children : List Element) : Element :=
  { Element.bare (.widget widget) ⟨name, true⟩ with children }

def plainTitle : Element := plainElement .label "title" []

def plainColumn : Element := plainElement .stackView "column" [plainTitle]

def plainSend : Element := plainElement .button "send" []

def plainPage : ComponentDefinition :=
  { typeName := "Page", isAnonymous := false, styles := { name := "Page" }, templates := []
    state := {}, overrides := [], navigation := [], sourcePath := ""
    root := plainElement .container Element.rootName [plainColumn, plainSend] }

def plainSession : LiveSession :=
  { registry := { platform := .iOS, application := {} }, host := {}, theme := "", traits := {} }

def plainResolved : Resolved :=
  { definition := plainPage, properties := [], state := [], actions := [] }

def plainBefore : List Element.Parented :=
  [(plainPage.root, none), (plainColumn, some plainPage.root), (plainTitle, some plainColumn)]

def plainPlaced : Result LiveSession.Placed × LiveState :=
  (plainBefore.foldlM (plainSession.place (plainSession.build 0) plainResolved [] 0) {}).outcome {}

theorem plainWalked :
    plainPage.root.withParents = plainBefore ++ [(plainSend, some plainPage.root)] ∧
    (plainPage.elements.map (·.id.name)).Nodup ∧
    (∃ placed now, plainPlaced = (.ok placed, now) ∧
      (∃ view, LiveSession.viewOf plainPage placed.views plainPage.root.id.name = .ok view) ∧
      placed.views.map Prod.fst = ["self", "column", "title"]) ∧
    plainPage.root.Preordered ∧ Lists plainPage.at? plainPage.nested := by
  obtain ⟨ordered, finds, nested⟩ := walksInPreorder
  have walked : plainPage.root.withParents =
      plainBefore ++ (plainSend, some plainPage.root) :: [] := by
    simp [Element.withParents, Element.walkParented, Element.childrenOf, plainPage, plainBefore,
      plainColumn, plainSend, plainTitle, plainElement, Element.bare]
  have distinct : (plainPage.elements.map (·.id.name)).Nodup := by
    rw [ComponentDefinition.elements, ← Element.withParentsFirst, walked]
    decide
  obtain ⟨placed, now, ok⟩ := Result.okGives (show plainPlaced.1.isOk = true from rfl)
  obtain ⟨found, keys⟩ := finds plainPage plainSession (plainSession.build 0) plainResolved [] 0
    plainBefore plainSend plainPage.root [] placed {} now walked ok
  exact ⟨walked, distinct, ⟨placed, now, ok, found, keys distinct⟩, ordered _, (nested _).1⟩

end ViewForge
