import ViewForge.Proofs.Style.ThemeScope
import ViewForge.Proofs.Theme
import ViewForge.Source.Component

/-! The theme items that styles and templates read. A style is checked before it is written, and
what it refers to besides its own values are other styles, whole themes and the view at hand. -/
namespace ViewForge
open Code (Expr Stmt Decl)

namespace StyleSource

def Unread (e : Expr) : Prop := ∀ after, themeReads (e.trails after) = []

theorem globalTypeElsewhere (group : String) :
    StyleGroup.globalType group ∉ ["theme", "ApplicationTheme"] := by
  intro same
  have letters : (StyleGroup.globalType group).toList.getLast? = some 's' := by
    simp [StyleGroup.globalType]
  simp only [List.mem_cons, List.not_mem_nil, or_false] at same
  rcases same with same | same <;> simp [same] at letters

theorem ownTypeElsewhere : StyleGroup.ownType ∉ ["theme", "ApplicationTheme"] := by decide

theorem referenceUnread {s : StyleSource} (typed : s.typeName ∉ ["theme", "ApplicationTheme"])
    {theme : Expr} (whole : themeReads (theme.trails []) = []) {name : StyleName} {e : Expr}
    {cache next : StyleCache} (ok : (s.reference theme name).outcome cache = (.ok e, next)) :
    Unread e := by
  have owner : s.owner name ∉ ["theme", "ApplicationTheme"] := by
    cases name with
    | inGroup name => exact typed
    | qualified group name => exact globalTypeElsewhere group
  simp only [List.mem_cons, List.not_mem_nil, or_false, not_or] at owner
  intro after
  unfold reference at ok
  obtain ⟨m, _, ok⟩ := Task.liftBindGives ok
  obtain ⟨themed, t, _, last⟩ := Task.bindGives.mp ok
  cases themed <;> cases last <;> simp [Expr.trails, owner, whole]

section Code

variable {context : RenderContext} {bases : List Expr} {properties : List Property}

/- What is read is what the own properties refer to. -/
theorem propertyReads (reachable : context.theme.IsReachable) {p : Property}
    (value : ∃ v, p.binding = .value v) (state : Expr) {reference : ThemeReference}
    (read : reference ∈ themeReads ((p.code context state).trails [])) :
    ∃ v, p.binding = .value v ∧ reference ∈ v.themeReferences := by
  obtain ⟨v, bound⟩ := value
  rw [Property.code, bound] at read
  simp only at read
  rw [v.codeReads reachable] at read
  exact ⟨v, bound, read⟩

theorem viewReads (reachable : context.theme.IsReachable) (unread : ∀ e ∈ bases, Unread e)
    (values : ∀ p ∈ properties, ∃ v, p.binding = .value v) :
    ∀ reference ∈ themeReads ((viewCode context bases properties).trails []),
      ∃ p ∈ properties, ∃ v, p.binding = .value v ∧ reference ∈ v.themeReferences := by
  have applied : ∀ p : Property, themeReads
      ((p.apply (.identifier "view") (p.code context (.identifier "state"))).trails) =
      themeReads ((p.code context (.identifier "state")).trails []) := by
    intro p
    unfold Property.apply
    split <;> simp [Stmt.trails, PropertyPath.memberOf, Expr.trails]
  intro reference read
  simp only [viewCode, Expr.trails, Stmt.allTrailsFlat, List.flatMap_append, List.flatMap_map,
    readsAppend, readsFlat, List.mem_append, List.mem_flatMap] at read
  rcases read with ⟨e, listed, own⟩ | ⟨p, listed, own⟩
  · simp [Stmt.trails, Expr.trails, unread e listed []] at own
  · rw [applied] at own
    exact ⟨p, listed, propertyReads reachable (values p listed) _ own⟩

theorem attributedReads (reachable : context.theme.IsReachable) (unread : ∀ e ∈ bases, Unread e)
    (values : ∀ p ∈ properties, ∃ v, p.binding = .value v) :
    ∀ reference ∈ themeReads ((attributedCode context bases properties).trails []),
      ∃ p ∈ properties, ∃ v, p.binding = .value v ∧ reference ∈ v.themeReferences := by
  -- the first layer is called upon by the others, so that more than its own trails lead through it
  have layers : ∀ (es : List Expr) (first : Expr) (after : List String),
      ∀ reference ∈ themeReads ((es.foldl overlay first).trails after),
        (∃ after, reference ∈ themeReads (first.trails after)) ∨
          ∃ e ∈ es, reference ∈ themeReads (e.trails []) := by
    intro es
    induction es with
    | nil => exact fun first after reference read => .inl ⟨after, read⟩
    | cons e rest ih =>
      intro first after reference read
      rcases ih (overlay first e) after reference read with ⟨_, here⟩ | ⟨x, listed, later⟩
      · simp only [overlay, Expr.invokeTrails, readsAppend, List.mem_append] at here
        rcases here with before | own
        · exact .inl ⟨_, before⟩
        · refine .inr ⟨e, List.mem_cons_self, ?_⟩
          simpa [Expr.trails, Stmt.trails] using own
      · exact .inr ⟨x, List.mem_cons_of_mem _ listed, later⟩
  have own : ∀ after, ∀ reference ∈ themeReads ((Expr.dictionary (properties.map fun p =>
      ⟨.implicitMember p.description.path.flatten, p.code context (.identifier "state")⟩)).trails
        after), ∃ p ∈ properties, ∃ v, p.binding = .value v ∧ reference ∈ v.themeReferences := by
    intro after reference read
    rw [Expr.trails, Code.Entry.allTrailsMap] at read
    simp only [Expr.trails, List.nil_append, readsFlat, List.mem_flatMap] at read
    obtain ⟨p, listed, inside⟩ := read
    exact ⟨p, listed, propertyReads reachable (values p listed) _ inside⟩
  intro reference read
  unfold attributedCode at read
  cases bases with
  | nil => exact own [] reference read
  | cons first rest =>
    obtain ⟨here, others⟩ := List.forall_mem_cons.mp unread
    rcases layers _ first [] reference read with ⟨after, inside⟩ | ⟨e, listed, inside⟩
    · simp [here after] at inside
    · rcases List.mem_append.mp listed with base | last
      · simp [others e base []] at inside
      · cases List.mem_singleton.mp last
        exact own [] reference inside

theorem codeReads (reachable : context.theme.IsReachable) (unread : ∀ e ∈ bases, Unread e)
    {st : Style} (values : ∀ p ∈ st.properties, ∃ v, p.binding = .value v) :
    ∀ reference ∈ themeReads ((code context bases st).1.trails []),
      ∃ p ∈ st.properties, ∃ v, p.binding = .value v ∧ reference ∈ v.themeReferences := by
  unfold code
  split
  · exact viewReads reachable unread values
  · exact attributedReads reachable unread values

end Code

theorem styleReads {s : StyleSource} (typed : s.typeName ∉ ["theme", "ApplicationTheme"])
    {st : Style} (values : ∀ p ∈ st.properties, ∃ v, p.binding = .value v) {member : Decl}
    {cache next : StyleCache} (ok : (s.style st).outcome cache = (.ok member, next)) :
    ∀ reference ∈ member.themeReads, s.registry.application.values.hasItem reference = true := by
  unfold style at ok
  obtain ⟨_, checked, ok⟩ := Task.liftBindGives ok
  obtain ⟨themed, _, _, ok⟩ := Task.bindGives.mp ok
  obtain ⟨bases, _, referred, ok⟩ := Task.bindGives.mp ok
  have unread : ∀ e ∈ bases, Unread e := by
    intro e listed
    obtain ⟨name, _, _, _, made⟩ := Task.mapGivesEach referred listed
    exact referenceUnread typed (by simp [Expr.trails]) made
  have declared : ∀ context : RenderContext, context.theme.IsReachable →
      ∀ reference ∈ themeReads ((code context bases st).1.trails []),
        s.registry.application.values.hasItem reference = true := by
    intro context reachable reference read
    obtain ⟨p, listed, v, bound, own⟩ := codeReads reachable unread values reference read
    exact Registry.checkedProperties checked listed bound reference own
  cases themed with
  | true =>
    cases ok
    simpa [Decl.themeReads, themedDecl, Decl.trails, Code.Function.trails, Stmt.trails,
      Code.Parameter.unlabelled, code] using
      declared { s.registry.renderContext with theme := .parameter "theme" } (.inr rfl)
  | false =>
    cases ok
    simpa [Decl.themeReads, plainDecl, Decl.trails, Code.Property.trails, Code.Property.constant,
      code] using declared s.registry.renderContext (.inl rfl)

theorem declReads {s : StyleSource} (typed : s.typeName ∉ ["theme", "ApplicationTheme"])
    (read : s.group.IsRead) {decl : Decl} (ok : s.decl = .ok decl) :
    ∀ reference ∈ decl.themeReads, s.registry.application.values.hasItem reference = true := by
  obtain ⟨members, emitted, last⟩ := Result.bindOk.mp ok
  cases last
  intro reference inside
  obtain ⟨member, listed, own⟩ := Decl.memReads.mp inside
  obtain ⟨st, styled, _, _, made⟩ := Task.mapGivesEach (Prod.ext emitted rfl) listed
  obtain ⟨node, found⟩ := read st styled
  exact styleReads typed (fun p own => (Style.readValues found p own).1) made reference own

end StyleSource

namespace Template

theorem textUnread (t : Template) : themeReads (t.textCode.trails []) = [] := by
  have sums : ∀ (es : List Expr) (first : Expr),
      (∀ e ∈ first :: es, themeReads (e.trails []) = []) → themeReads ((es.foldl (fun sum next => .binary sum "+" next) first).trails []) = [] := by
    intro es
    induction es with
    | nil => exact fun first unread => unread first List.mem_cons_self
    | cons e rest ih =>
      intro first unread
      refine ih _ (List.forall_mem_cons.mpr ⟨?_, fun x listed => unread x (by simp [listed])⟩)
      rw [Expr.trails, readsAppend, unread first (by simp), unread e (by simp), List.nil_append]
  have parts : ∀ e ∈ t.segments.map segmentCode, themeReads (e.trails []) = [] := by
    intro e listed
    obtain ⟨segment, _, rfl⟩ := List.mem_map.mp listed
    cases segment with
    | text text => simp [segmentCode]
    | argument name => simp [segmentCode, Expr.trails]
  unfold textCode
  split
  · simp
  · rename_i first rest same
    exact sums rest first (same ▸ parts)

theorem attributesUnread {s : StyleSource} (typed : s.typeName ∉ ["theme", "ApplicationTheme"])
    {name : StyleName} {e : Expr} (ok : attributesCode s name = .ok e) :
    themeReads (e.trails []) = [] := by
  unfold attributesCode at ok
  obtain ⟨m, _, ok⟩ := Result.bindOk.mp ok
  simp only at ok
  split at ok
  · cases ok
  · refine StyleSource.referenceUnread typed ?_ (Prod.ext ok rfl) []
    simp [Expr.trails]

theorem functionUnread {s : StyleSource} (typed : s.typeName ∉ ["theme", "ApplicationTheme"])
    {t : Template} {f : Code.Function} (ok : t.function s = .ok f) :
    (Decl.function f).themeReads = [] := by
  have whole : ∀ attributes : Expr, themeReads (attributes.trails []) = [] →
      themeReads ((Stmt.ret (some ((Expr.identifier "NSAttributedString").apply [
        (some "string", t.textCode), (some "attributes", attributes)]))).trails) = [] := by
    intro attributes unread
    simp [Stmt.trails, Expr.trails, t.textUnread, unread]
  unfold function at ok
  simp only at ok
  split at ok
  · obtain ⟨attributes, made, last⟩ := Result.bindOk.mp ok
    cases last
    simpa [Decl.themeReads, Decl.trails, Code.Function.trails] using
      whole attributes (attributesUnread typed made)
  · cases ok
    simpa [Decl.themeReads, Decl.trails, Code.Function.trails] using
      whole (.dictionary []) rfl

theorem functionsUnread {s : StyleSource} (typed : s.typeName ∉ ["theme", "ApplicationTheme"])
    {templates : List Template} {members : List Decl} (ok : functions s templates = .ok members) :
    ∀ x ∈ members, x.themeReads = [] := by
  induction templates generalizing members with
  | nil =>
    cases ok
    simp
  | cons t rest ih =>
    rw [functions] at ok
    obtain ⟨first, made, ok⟩ := Result.bindOk.mp ok
    obtain ⟨others, more, last⟩ := Result.bindOk.mp ok
    cases last
    exact List.forall_mem_cons.mpr ⟨functionUnread typed made, ih more⟩

end Template
end ViewForge
