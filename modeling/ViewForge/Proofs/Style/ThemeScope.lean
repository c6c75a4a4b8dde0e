import ViewForge.Proofs.Code
import ViewForge.Proofs.Style.Flatten

/-! Where the theme stands in the source of styles. A member of a group is a function of the theme
when its flattened properties use the theme; the call of a base is handed the theme when the base's
flattened properties use it. The two differ where a style overrides what is themed in a base. -/
namespace ViewForge
open Code (Expr Stmt Decl)

section Values

variable {context : RenderContext}

theorem Color.codeUnthemed (active : context.theme = .current) (c : Color) :
    (c.code context.theme).mentions "theme" = false := by
  obtain ⟨base, modifiers⟩ := c
  have start : (base.code context.theme).mentions "theme" = false := by
    rw [active]
    cases base <;>
      simp [Base.code, ThemeAccess.item, ThemeAccess.category, Expr.mentions, Expr.number]
  unfold code
  simp only
  generalize base.code context.theme = target at start ⊢
  induction modifiers generalizing target with
  | nil => exact start
  | cons m rest ih =>
    refine ih _ ?_
    simp [Modifier.code, start, Expr.number, Expr.mentions]

mutual

theorem Value.codeUnthemed (active : context.theme = .current) (v : Value) :
    (v.code context).mentions "theme" = false := by
  cases v with
  | color c => rw [code]; exact c.codeUnthemed active
  | layerColor c => rw [code, Expr.mentions]; exact c.codeUnthemed active
  | font f =>
    rw [code, active]
    cases f <;> simp [Font.code, ThemeAccess.item, ThemeAccess.category, Expr.mentions,
      Expr.number, Expr.string]
  | image i =>
    rw [code, active]
    cases i <;> simp [Image.code, ThemeAccess.item, ThemeAccess.category, Expr.mentions,
      Expr.string]
  | localized key =>
    rw [code]
    cases context.localizationTable <;> simp [localizedCode, Expr.mentions, Expr.string]
  | array element items => rw [code, Expr.mentions]; exact Value.codesUnthemed active items
  | present wrapped value => rw [code]; exact value.codeUnthemed active
  | _ => simp [code, Expr.mentions, Expr.boolean, Expr.number, Expr.string, Expr.nil]

theorem Value.codesUnthemed (active : context.theme = .current) (vs : List Value) :
    Expr.anyMentions "theme" (codes context vs) = false := by
  cases vs with
  | nil => rw [codes, Expr.anyMentions]
  | cons v rest =>
    rw [codes, Expr.anyMentions, v.codeUnthemed active, Value.codesUnthemed active rest]
    rfl

end

theorem Property.codeUnthemed (active : context.theme = .current) {p : Property}
    (value : ∃ v, p.binding = .value v) (state : Expr) :
    (p.code context state).mentions "theme" = false := by
  obtain ⟨v, bound⟩ := value
  rw [code, bound]
  exact v.codeUnthemed active

theorem Property.applyMentions (p : Property) (name : String) (target value : Expr) :
    (p.apply target value).mentions name = (target.mentions name || value.mentions name) := by
  unfold apply
  split <;> simp [Stmt.mentions, PropertyPath.memberOf, Expr.mentions]

end Values

namespace StyleSource

variable {context : RenderContext}

theorem viewCodeMentions (active : context.theme = .current) (bases : List Expr)
    {properties : List Property} (values : ∀ p ∈ properties, ∃ v, p.binding = .value v) :
    (viewCode context bases properties).mentions "theme" = bases.any (·.mentions "theme") := by
  have own : (properties.any fun p => (p.code context (.identifier "state")).mentions "theme") =
      false := by
    rw [List.any_eq_false]
    intro p member
    rw [p.codeUnthemed active (values p member)]
    exact Bool.false_ne_true
  rw [viewCode, Expr.mentions, Stmt.anyMentionsAny, List.any_append, List.any_map, List.any_map]
  have view : ("view" == "theme") = false := by decide
  simp only [Function.comp_def, Stmt.mentions, Expr.applyMentions, Property.applyMentions,
    Expr.mentions, List.any_cons, List.any_nil, view, Bool.or_false, Bool.false_or, own]

theorem overlayMentions (merged layer : Expr) :
    (overlay merged layer).mentions "theme" =
      (merged.mentions "theme" || layer.mentions "theme") := by
  simp [overlay, Expr.mentions, Stmt.anyMentions, Stmt.mentions]

theorem attributedCodeMentions (active : context.theme = .current) (bases : List Expr)
    {properties : List Property} (values : ∀ p ∈ properties, ∃ v, p.binding = .value v) :
    (attributedCode context bases properties).mentions "theme" =
      bases.any (·.mentions "theme") := by
  have layers : ∀ (es : List Expr) (first : Expr), (es.foldl overlay first).mentions "theme" =
      (first.mentions "theme" || es.any (·.mentions "theme")) := by
    intro es
    induction es with
    | nil => simp
    | cons e rest ih =>
      intro first
      rw [List.foldl_cons, ih, overlayMentions, List.any_cons, Bool.or_assoc]
  have own : (Expr.dictionary (properties.map fun p => ⟨.implicitMember p.description.path.flatten,
      p.code context (.identifier "state")⟩)).mentions "theme" = false := by
    rw [Expr.mentions, Code.Entry.anyMentionsMap, List.any_eq_false]
    intro p member
    rw [p.codeUnthemed active (values p member), Expr.mentions]
    exact Bool.false_ne_true
  unfold attributedCode
  cases bases with
  | nil => simpa using own
  | cons first rest =>
    simp only [layers, List.any_append, List.any_cons, own, List.any_nil, Bool.or_false]

theorem codeMentions (active : context.theme = .current) (bases : List Expr) {st : Style}
    (values : ∀ p ∈ st.properties, ∃ v, p.binding = .value v) :
    (code context bases st).1.mentions "theme" = bases.any (·.mentions "theme") := by
  unfold code
  split
  · exact viewCodeMentions active bases values
  · exact attributedCodeMentions active bases values

end StyleSource

def StyleScope.Themed (scope : StyleScope) (n : StyleScope.Entry) : Prop :=
  ∃ full, scope.Expansion n full ∧ (lastOccurrences full).any Property.isThemed = true

theorem StyleScope.flattenedThemed {scope : StyleScope} {n : StyleScope.Entry} {ps : List Property}
    (flat : scope.Flattened n ps) : ps.any Property.isThemed = true ↔ scope.Themed n := by
  obtain ⟨full, expansion, rfl⟩ := flat.expanded
  refine ⟨fun any => ⟨full, expansion, any⟩, ?_⟩
  rintro ⟨other, again, any⟩
  rw [expansionUnique expansion again]
  exact any

theorem StyleScope.isThemedGives {scope : StyleScope} (keyed : scope.Keyed)
    {name : StyleName} {current : Option StyleGroup} (known : scope.HoldsCurrent current)
    {themed : Bool} {cache next : StyleCache} (sound : scope.Sound cache)
    (ok : (scope.isThemed name current).outcome cache = (.ok themed, next)) :
    ∃ n ps, scope.lookup name current = .ok n ∧ scope.Flattened n ps ∧
      themed = ps.any Property.isThemed ∧ scope.Sound next := by
  unfold isThemed at ok
  obtain ⟨ps, after, flat, last⟩ := Task.bindGives.mp ok
  cases last
  obtain ⟨n, found, flattened, kept⟩ := keyedSound keyed known sound flat
  exact ⟨n, ps, found, flattened, rfl, kept⟩

namespace StyleSource

def memberCode (owner name : String) (themed : Bool) : Expr :=
  let member := (Expr.identifier owner).member name
  if themed then member.apply [(none, .identifier "theme")] else member

def referenceCode (owner name : String) (theme : Expr) (themed : Bool) : Expr :=
  let member := (Expr.identifier owner).member name
  if themed then member.apply [(none, theme)] else member

theorem memberCodeMentions {owner : String} (typed : owner ≠ "theme") (name : String)
    (themed : Bool) : (memberCode owner name themed).mentions "theme" = themed := by
  cases themed <;> simp [memberCode, Expr.mentions, typed]

theorem globalTypeNotTheme (group : String) : StyleGroup.globalType group ≠ "theme" := by
  intro same
  have letters := congrArg (fun s : String => s.toList.getLast?) same
  simp [StyleGroup.globalType] at letters

theorem ownerNotTheme {s : StyleSource} (typed : s.typeName ≠ "theme") (name : StyleName) :
    s.owner name ≠ "theme" := by
  cases name with
  | inGroup name => exact typed
  | qualified group name => exact globalTypeNotTheme group

def Refers (s : StyleSource) (name : StyleName) (e : Expr) : Prop :=
  ∃ m ps, s.scope.lookup name (some s.group) = .ok m ∧ s.scope.Flattened m ps ∧
    e = memberCode (s.owner name) m.2.name (ps.any Property.isThemed)

theorem holdsOwn {s : StyleSource} (held : s.scope.Holds s.group) :
    s.scope.HoldsCurrent (some s.group) := by
  intro g same
  cases same
  exact held

/- Whatever stands for the theme, it is handed over where the style that is found is themed. -/
theorem referenceMade {s : StyleSource} (keyed : s.scope.Keyed)
    (held : s.scope.Holds s.group) {theme : Expr} {name : StyleName} {e : Expr}
    {cache next : StyleCache} (sound : s.scope.Sound cache)
    (ok : (s.reference theme name).outcome cache = (.ok e, next)) :
    ∃ m ps, s.scope.lookup name (some s.group) = .ok m ∧ s.scope.Flattened m ps ∧
      e = referenceCode (s.owner name) m.2.name theme (ps.any Property.isThemed) ∧
      s.scope.Sound next := by
  unfold reference at ok
  obtain ⟨m, found, ok⟩ := Task.liftBindGives ok
  obtain ⟨themed, after, answered, last⟩ := Task.bindGives.mp ok
  obtain ⟨m', ps, found', flat, same, kept⟩ :=
    StyleScope.isThemedGives keyed (holdsOwn held) sound answered
  cases Except.ok.inj (found.symm.trans found')
  refine ⟨m, ps, found, flat, ?_, ?_⟩
  · rw [← same]
    cases themed <;> cases last <;> rfl
  · cases themed <;> cases last <;> exact kept

theorem referenceGives {s : StyleSource} (keyed : s.scope.Keyed)
    (held : s.scope.Holds s.group) {name : StyleName} {e : Expr} {cache next : StyleCache}
    (sound : s.scope.Sound cache)
    (ok : (s.reference (.identifier "theme") name).outcome cache = (.ok e, next)) :
    s.Refers name e ∧ s.scope.Sound next := by
  obtain ⟨m, ps, found, flat, same, kept⟩ := referenceMade keyed held sound ok
  exact ⟨⟨m, ps, found, flat, same⟩, kept⟩

theorem referencesGive {s : StyleSource} (keyed : s.scope.Keyed)
    (held : s.scope.Holds s.group) {names : List StyleName} {es : List Expr}
    {cache next : StyleCache} (sound : s.scope.Sound cache)
    (ok : (names.mapM (s.reference (.identifier "theme"))).outcome cache = (.ok es, next)) :
    List.Forall₂ s.Refers names es ∧ s.scope.Sound next := by
  induction names generalizing es cache with
  | nil =>
    cases ok
    exact ⟨.nil, sound⟩
  | cons base rest ih =>
    obtain ⟨e, after, others, first, more, rfl⟩ := Task.mapGives ok
    obtain ⟨refers, kept⟩ := referenceGives keyed held sound first
    obtain ⟨later, sound⟩ := ih kept more
    exact ⟨.cons refers later, sound⟩

theorem referencesMention {s : StyleSource} (typed : s.typeName ≠ "theme")
    {names : List StyleName} {es : List Expr} (refers : List.Forall₂ s.Refers names es) :
    es.any (·.mentions "theme") = true ↔
      ∃ base ∈ names, ∃ m, s.scope.lookup base (some s.group) = .ok m ∧ s.scope.Themed m := by
  induction refers with
  | nil => simp
  | @cons base e rest others first _ ih =>
    obtain ⟨m, ps, found, flat, rfl⟩ := first
    rw [List.any_cons, Bool.or_eq_true, ih, List.exists_mem_cons_iff,
      memberCodeMentions (ownerNotTheme typed base), StyleScope.flattenedThemed flat]
    refine or_congr ⟨fun themed => ⟨m, found, themed⟩, ?_⟩ Iff.rfl
    rintro ⟨m', found', themed⟩
    cases Except.ok.inj (found.symm.trans found')
    exact themed

def memberDecl (s : StyleSource) (st : Style) (bases : List Expr) (themed : Bool) : Decl :=
  let context := s.registry.renderContext
  if themed then
    let (value, typeName) := code { context with theme := .parameter "theme" } bases st
    themedDecl s.configuration st.name typeName value
  else
    let (value, typeName) := code context bases st
    plainDecl s.configuration st.name typeName value

def Declared (s : StyleSource) (st : Style) (member : Decl) : Prop :=
  ∃ judged ps bases, s.scope.lookup (.inGroup st.name) (some s.group) = .ok judged ∧
    s.scope.Flattened judged ps ∧ List.Forall₂ s.Refers st.extend bases ∧
    member = s.memberDecl st bases (ps.any Property.isThemed)

theorem styleDeclares {s : StyleSource} (keyed : s.scope.Keyed)
    (held : s.scope.Holds s.group) {st : Style} {member : Decl} {cache next : StyleCache}
    (sound : s.scope.Sound cache) (ok : (s.style st).outcome cache = (.ok member, next)) :
    s.Declared st member ∧ s.scope.Sound next := by
  unfold style at ok
  obtain ⟨_, _, ok⟩ := Task.liftBindGives ok
  obtain ⟨themed, after, answered, ok⟩ := Task.bindGives.mp ok
  obtain ⟨judged, ps, found, flat, same, kept⟩ :=
    StyleScope.isThemedGives keyed (holdsOwn held) sound answered
  obtain ⟨bases, last, referred, ok⟩ := Task.bindGives.mp ok
  obtain ⟨refers, sound⟩ := referencesGive keyed held kept referred
  refine ⟨⟨judged, ps, bases, found, flat, refers, ?_⟩, ?_⟩
  · rw [← same]
    cases themed <;> cases ok <;> rfl
  · cases themed <;> cases ok <;> exact sound

theorem stylesDeclare {s : StyleSource} (keyed : s.scope.Keyed)
    (held : s.scope.Holds s.group) {styles : List Style} {members : List Decl}
    {cache next : StyleCache} (sound : s.scope.Sound cache)
    (ok : (styles.mapM s.style).outcome cache = (.ok members, next)) :
    List.Forall₂ s.Declared styles members := by
  induction styles generalizing members cache with
  | nil =>
    cases ok
    exact .nil
  | cons st rest ih =>
    obtain ⟨member, after, others, first, more, rfl⟩ := Task.mapGives ok
    obtain ⟨declared, kept⟩ := styleDeclares keyed held sound first
    exact .cons declared (ih kept more)

/-- What the member of a style says of the theme: `judged` decides whether it is a function of the
theme, and a constant mentions the theme if some base is a function of it. -/
structure Member (s : StyleSource) (st : Style) (judged : StyleScope.Entry) (member : Decl) :
    Prop where
  takes : member.takes "theme" = true ↔ s.scope.Themed judged
  mentions : ¬ s.scope.Themed judged → (member.mentions "theme" = true ↔
    ∃ base ∈ st.extend, ∃ m, s.scope.lookup base (some s.group) = .ok m ∧ s.scope.Themed m)

theorem memberGives {s : StyleSource} (typed : s.typeName ≠ "theme")
    (active : s.registry.renderContext.theme = .current) {st : Style}
    (values : ∀ p ∈ st.properties, ∃ v, p.binding = .value v) {judged : StyleScope.Entry}
    {ps : List Property} (flat : s.scope.Flattened judged ps) {bases : List Expr}
    (refers : List.Forall₂ s.Refers st.extend bases) :
    s.Member st judged (s.memberDecl st bases (ps.any Property.isThemed)) := by
  have answer := StyleScope.flattenedThemed flat
  cases themed : ps.any Property.isThemed with
  | true =>
    have yes : s.scope.Themed judged := answer.mp themed
    exact ⟨⟨fun _ => yes, fun _ => rfl⟩, fun no => absurd yes no⟩
  | false =>
    have no : ¬ s.scope.Themed judged := fun yes => by simp [answer.mpr yes] at themed
    refine ⟨⟨fun takes => absurd takes ?_, fun yes => absurd yes no⟩, fun _ => ?_⟩
    · simp [memberDecl, plainDecl, Decl.takes]
    · rw [← referencesMention typed refers, ← codeMentions active bases values]
      simp [memberDecl, plainDecl, Decl.mentions, Code.Property.mentions, Code.Property.constant,
        code]

theorem stylesGive {s : StyleSource} (coherent : s.scope.Coherent) (held : s.scope.Holds s.group)
    (typed : s.typeName ≠ "theme") (active : s.registry.renderContext.theme = .current)
    {styles : List Style}
    (values : ∀ st ∈ styles, ∀ p ∈ st.properties, ∃ v, p.binding = .value v)
    {members : List Decl} {cache next : StyleCache} (sound : s.scope.Sound cache)
    (ok : (styles.mapM s.style).outcome cache = (.ok members, next)) :
    List.Forall₂ (fun st member => ∃ judged,
      s.scope.lookup (.inGroup st.name) (some s.group) = .ok judged ∧
        s.Member st judged member) styles members := by
  refine List.Forall₂.imp ?_ ((List.forall₂_and_left _ _).mpr
    ⟨values, stylesDeclare (StyleScope.coherentKeyed coherent) held sound ok⟩)
  rintro st member ⟨own, judged, ps, bases, found, flat, refers, rfl⟩
  exact ⟨judged, found, memberGives typed active own flat refers⟩

inductive Made (r : Registry) (c : Configuration) : StyleSource → Prop where
  | registered {name : String} {g : StyleGroup} (member : (name, g) ∈ r.styleGroups) :
      Made r c (ofGlobal r c g)
  | own {d : ComponentDefinition} (within : d ∈ r.allDefinitions)
      (apart : r.styleGroups.lookup d.styles.name = none) : Made r c (ofComponent r c d.styles)

section Made

variable {r : Registry} {c : Configuration} {s : StyleSource}

theorem madeCoherent (filled : r.Filled) (made : s.Made r c) : s.scope.Coherent := by
  have named : ∀ name g, r.styleGroups.lookup name = some g → g.name = name :=
    fun _ _ found => (Registry.groupsRead filled (Ordered.memOfLookup found)).1
  cases made with
  | registered member => exact ⟨named, by rintro _ ⟨⟩⟩
  | own within apart =>
    refine ⟨named, ?_⟩
    rintro g ⟨⟩
    exact apart

theorem madeHeld (filled : r.Filled) (made : s.Made r c) : s.scope.Holds s.group := by
  cases made with
  | registered member => exact .inl (Registry.groupFound filled member)
  | own within apart => exact .inr rfl

theorem madeTyped (made : s.Made r c) : s.typeName ≠ "theme" := by
  cases made with
  | registered member => exact globalTypeNotTheme _
  | own within apart => exact (by decide : StyleGroup.ownType ≠ "theme")

theorem madeRead (filled : r.Filled) (made : s.Made r c) : s.group.IsRead := by
  cases made with
  | registered member =>
    obtain ⟨_, _, _, read⟩ := Registry.groupsRead filled member
    exact StyleGroup.readRead read
  | own within apart => exact (Registry.allDefinitionsTidy filled within).styles

end Made

theorem tablesKnown (kind : StyleKind) : ∀ d ∈ kind.table, d.type.isKnown = true := by
  have widgets : (Widget.all.all fun w => w.table.all (·.type.isKnown)) = true := by
    decide +kernel
  have texts : attributedTextTable.all (·.type.isKnown) = true := by decide +kernel
  cases kind with
  | view w =>
    have listed : w ∈ Widget.all := by cases w <;> decide
    exact List.all_eq_true.mp (List.all_eq_true.mp widgets w listed)
  | attributedText => exact List.all_eq_true.mp texts

/- Types that are known have values without code of their own, so that no text of a style hides a
variable. -/
theorem themeScopeExactly {r : Registry} (filled : r.Filled) {c : Configuration} {s : StyleSource}
    (made : s.Made r c) {decl : Decl} (ok : s.decl = .ok decl) :
    ∃ members, decl = .type .structType s.configuration.plainAccess [] s.typeName [] members ∧
      List.Forall₂ (fun st member => ∃ judged,
        s.scope.lookup (.inGroup st.name) (some s.group) = .ok judged ∧
        (∀ name, (name, s.group) ∈ r.styleGroups → judged = (s.group, st)) ∧
        (member.takes "theme" = true ↔ s.scope.Themed judged) ∧
        ((member.mentions "theme" = true → member.takes "theme" = true) ↔
          s.scope.Themed judged ∨ ∀ base ∈ st.extend, ∀ m,
            s.scope.lookup base (some s.group) = .ok m → ¬ s.scope.Themed m) ∧
        ∀ p ∈ st.properties, p.description.type.isKnown = true) s.group.styles members := by
  have read := madeRead filled made
  unfold StyleSource.decl at ok
  obtain ⟨members, emitted, last⟩ := Result.bindOk.mp ok
  cases last
  refine ⟨members, rfl, ?_⟩
  have active : s.registry.renderContext.theme = .current := rfl
  have given := stylesGive (madeCoherent filled made) (madeHeld filled made) (madeTyped made) active
    (fun st inside p own => by
      obtain ⟨node, found⟩ := read st inside
      exact (Style.readValues found p own).1)
    (StyleScope.soundEmpty _) (Prod.ext emitted rfl)
  refine List.Forall₂.imp ?_ ((List.forall₂_and_left _ _).mpr ⟨fun st inside => inside, given⟩)
  rintro st member ⟨inside, judged, found, facts⟩
  refine ⟨judged, found, ?_, facts.takes, ?_, ?_⟩
  · intro name registered
    have self : s.scope.lookup (.inGroup st.name) (some s.group) = .ok (s.group, st) := by
      simp [StyleScope.lookup, Registry.styleFound filled registered inside]
    exact Except.ok.inj (found.symm.trans self)
  · by_cases themed : s.scope.Themed judged
    · exact ⟨fun _ => .inl themed, fun _ _ => facts.takes.mpr themed⟩
    · constructor
      · intro bound
        refine .inr fun base named m looked yes => ?_
        have mentioned := (facts.mentions themed).mpr ⟨base, named, m, looked, yes⟩
        exact themed (facts.takes.mp (bound mentioned))
      · rintro (yes | none) mentioned
        · exact absurd yes themed
        · obtain ⟨base, named, m, looked, yes⟩ := (facts.mentions themed).mp mentioned
          exact absurd yes (none base named m looked)
  · intro p own
    obtain ⟨node, found⟩ := read st inside
    exact tablesKnown st.kind _ (Style.readValues found p own).2

/- The base is themed, and the style that extends it sets the same property to a plain colour. -/
def overridingSheet : Markup.Node :=
  { name := "styleGroup", attributes := [("name", "G")], children := [
      { name := "ViewStyle", attributes := [("name", "base"), ("backgroundColor", ":accent")] },
      { name := "ViewStyle",
        attributes := [("name", "plain"), ("extend", "base"), ("backgroundColor", "red")] }] }

def overridingGroup : StyleGroup :=
  (StyleGroup.read overridingSheet none).toOption.getD { name := "" }

def overriding : Registry :=
  let application : Application :=
    { themes := ["default"], defaultTheme := "default",
      values := { colors := [("accent", [("default", ⟨.named "orange", []⟩)])] } }
  (({ platform := .iOS, application } : Registry).addGroup overridingGroup).1

def overridingSource : StyleSource := ofGlobal overriding { platform := .iOS } overridingGroup

theorem overridingFilled : overriding.Filled :=
  .group (.empty .iOS _) (Result.okGetD (by decide +kernel) _)

theorem overridingRegistered : ("G", overridingGroup) ∈ overriding.styleGroups := by
  have named : overridingGroup.name = "G" := by decide +kernel
  rw [← named]
  exact List.mem_singleton_self _

def overridingMembers : List Decl :=
  ((overridingGroup.styles.mapM overridingSource.style).outcome []).1.toOption.getD []

theorem overridingDecl : overridingSource.decl = .ok (.type .structType .moduleScope []
    (StyleGroup.globalType overridingGroup.name) [] overridingMembers) := by
  have emitted :
      ((overridingGroup.styles.mapM overridingSource.style).outcome []).1.isOk = true := by
    decide +kernel
  exact Result.bindOk.mpr ⟨overridingMembers, Result.okGetD emitted [], rfl⟩

theorem themeEscapes : ∃ (r : Registry) (c : Configuration) (name : String) (g : StyleGroup)
    (members : List Decl), r.Filled ∧ (name, g) ∈ r.styleGroups ∧
      (ofGlobal r c g).decl = .ok (.type .structType c.plainAccess []
        (StyleGroup.globalType g.name) [] members) ∧
      ∃ member ∈ members, member.mentions "theme" = true ∧ member.takes "theme" = false := by
  have escapes : (overridingMembers.any fun member =>
      member.mentions "theme" && !member.takes "theme") = true := by decide +kernel
  obtain ⟨member, inside, mentions⟩ := List.any_eq_true.mp escapes
  rw [Bool.and_eq_true, Bool.not_eq_true'] at mentions
  exact ⟨overriding, { platform := .iOS }, "G", overridingGroup, overridingMembers,
    overridingFilled, overridingRegistered, overridingDecl, member, inside, mentions⟩

theorem themeScopeOverriding : List.Forall₂ (fun st member =>
      (member.takes "theme" = true ↔ overridingSource.scope.Themed (overridingGroup, st)))
    overridingGroup.styles overridingMembers := by
  obtain ⟨members, same, each⟩ := themeScopeExactly overridingFilled
    (.registered overridingRegistered) overridingDecl
  cases same
  refine each.imp ?_
  rintro st member ⟨judged, _, self, takes, _⟩
  cases self "G" overridingRegistered
  exact takes

end StyleSource
end ViewForge
