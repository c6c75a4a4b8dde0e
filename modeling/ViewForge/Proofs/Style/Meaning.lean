import ViewForge.Proofs.Style.ThemeScope

/-! What the source of styles does when it runs. A style does what its bases do, one after the
other, and then sets its own properties; what is set last under a key is what flattening gives. A
value that counts is read from the theme that its member is handed: where it is themed, so is its
style. -/
open Relation (TransGen)
namespace ViewForge
open Code (Expr Stmt Decl)
open StyleScope (Entry)

namespace Code

inductive Step where
  | base (reference : Expr)
  | set (statement : Stmt)

def Stmt.step : Stmt → Step
  | .expr (.call reference [⟨none, .identifier "view"⟩]) => .base reference
  | statement => .set statement

def Entry.step : Entry → Step
  | ⟨key, value⟩ => .set (.assign key value)

def Expr.layer : Expr → List Step
  | .dictionary entries => entries.map Entry.step
  | reference => [.base reference]

def Expr.steps : Expr → List Step
  | .closure [] ["view"] body => body.map Stmt.step
  | .call (.member merged "merging") [⟨none, layer⟩, ⟨some "uniquingKeysWith",
      .closure [] ["_", "new"] [.ret (some (.identifier "new"))]⟩] => merged.steps ++ layer.layer
  | other => other.layer

def Decl.name? : Decl → Option String
  | .function f => some f.name
  | .property p => some p.name
  | _ => none

def Decl.value? : Decl → Option Expr
  | .function f =>
    match f.body with
    | [.ret value] => value
    | _ => none
  | .property p => p.value
  | _ => none

end Code

section Values

variable {context : RenderContext}

theorem Color.codeSame {c : Color} (plain : c.isThemed = false) (a b : ThemeAccess) :
    c.code a = c.code b := by
  obtain ⟨base, modifiers⟩ := c
  have same : base.code a = base.code b := by
    cases base with
    | themed name => cases plain
    | _ => rfl
  rw [code, code, same]

mutual

/- A value without an item of the theme does not ask how the theme is accessed. -/
theorem Value.codeSame (theme : ThemeAccess) (v : Value) (plain : v.isThemed = false) :
    v.code context = v.code { context with theme } := by
  cases v with
  | color c =>
    rw [isThemed] at plain
    rw [code, code, c.codeSame plain]
  | layerColor c =>
    rw [isThemed] at plain
    rw [code, code, c.codeSame plain]
  | font f =>
    rw [code, code]
    cases f with
    | themed name => cases plain
    | _ => rfl
  | image i =>
    rw [code, code]
    cases i with
    | themed name => cases plain
    | named name => rfl
  | array element items =>
    rw [isThemed] at plain
    rw [code, code, Value.codesSame theme items plain]
  | present wrapped value =>
    rw [isThemed] at plain
    rw [code, code, value.codeSame theme plain]
  | _ => rw [code, code]

theorem Value.codesSame (theme : ThemeAccess) (vs : List Value) (plain : anyThemed vs = false) :
    codes context vs = codes { context with theme } vs := by
  cases vs with
  | nil => rw [codes, codes]
  | cons v rest =>
    rw [anyThemed, Bool.or_eq_false_iff] at plain
    rw [codes, codes, v.codeSame theme plain.1, Value.codesSame theme rest plain.2]

end

theorem Property.codeSame (theme : ThemeAccess) (state : Expr) {p : Property}
    (plain : p.isThemed = false) :
    p.code context state = p.code { context with theme } state := by
  unfold code
  cases bound : p.binding with
  | value v => exact v.codeSame theme (by simpa [isThemed, value?, bound] using plain)
  | state name => rfl
  | code e => rfl

end Values

abbrev Write := Property × Expr

namespace Write

def last (key : String) (ws : List Write) : Option Write := ws.reverse.find? (·.1.key == key)

variable {ws more : List Write}

theorem lastAppend (key : String) (ws more : List Write) :
    last key (ws ++ more) = (last key more).or (last key ws) := by
  rw [last, List.reverse_append, List.find?_append]
  rfl

theorem lastProperty (key : String) (ws : List Write) :
    (last key ws).map Prod.fst = (lastOccurrences (ws.map Prod.fst)).find? (·.key == key) := by
  rw [lastOccurrencesFind, ← List.map_reverse, List.find?_map]
  rfl

def Rendered (context : RenderContext) (ws : List Write) : Prop :=
  ∀ key w, last key ws = some w →
    w.2 = w.1.code { context with theme := .parameter "theme" } (.identifier "state")

variable {context : RenderContext}

theorem renderedAppend (before : Rendered context ws) (after : Rendered context more) :
    Rendered context (ws ++ more) := by
  intro key w found
  rw [lastAppend] at found
  rcases Option.or_eq_some_iff.mp found with late | ⟨_, early⟩
  · exact after key w late
  · exact before key w early

end Write

def StyleKind.set : StyleKind → Write → Stmt
  | .view _, (p, value) => p.apply (.identifier "view") value
  | .attributedText, (p, value) => .assign (.implicitMember p.key) value

theorem StyleKind.acceptsSet {a b : StyleKind} (accepted : a.accepts b = true) : a.set = b.set := by
  funext w
  cases a with
  | view v =>
    cases b with
    | view u => rfl
    | attributedText => cases v <;> cases accepted
  | attributedText =>
    cases b with
    | view u => cases accepted
    | attributedText => rfl

namespace StyleSource

def ownWrites (context : RenderContext) (st : Style) : List Write :=
  st.properties.map fun p => (p, p.code context (.identifier "state"))

theorem ownProperties (context : RenderContext) (st : Style) :
    (ownWrites context st).map Prod.fst = st.properties := by
  simp [ownWrites, Function.comp_def]

/- Where a style uses the theme, all of it is rendered with the theme at hand; where it does not,
the values that count do not ask for the theme. -/
theorem ownRendered (context : RenderContext) {st : Style} {before : List Property} {themed : Bool}
    (judged : themed = (lastOccurrences (before ++ st.properties)).any Property.isThemed) :
    Write.Rendered context (ownWrites
      (if themed then { context with theme := .parameter "theme" } else context) st) := by
  intro key w found
  have inside := List.mem_reverse.mp (List.mem_of_find?_eq_some found)
  obtain ⟨p, member, rfl⟩ := List.mem_map.mp inside
  cases themed with
  | true => rfl
  | false =>
    have counts : p ∈ lastOccurrences st.properties := by
      have last := Write.lastProperty key (ownWrites context st)
      simp only [Bool.false_eq_true, if_false] at found
      rw [found, ownProperties, Option.map_some] at last
      exact List.mem_of_find?_eq_some last.symm
    have plain := List.any_eq_false.mp judged.symm p
      ((lastOccurrencesSuffix before st.properties).subset counts)
    exact Property.codeSame _ _ (Bool.eq_false_iff.mpr plain)

section Steps

variable {context : RenderContext}

theorem memberCodeSame {owner other name another : String} {themed themed' : Bool} :
    memberCode owner name themed = memberCode other another themed' ↔
      owner = other ∧ name = another ∧ themed = themed' := by
  cases themed <;> cases themed' <;> simp [memberCode, Expr.apply]

theorem memberCodeLayer (owner name : String) (themed : Bool) :
    (memberCode owner name themed).layer = [.base (memberCode owner name themed)] := by
  cases themed <;> rfl

theorem memberCodeSteps (owner name : String) (themed : Bool) :
    (memberCode owner name themed).steps = [.base (memberCode owner name themed)] := by
  cases themed <;> simp [memberCode, Expr.apply, Code.Expr.steps, Code.Expr.layer]

theorem viewSteps (bases : List Expr) (st : Style) :
    (viewCode context bases st.properties).steps = bases.map .base ++
      (ownWrites context st).map fun w => .set (w.1.apply (.identifier "view") w.2) := by
  have own : ∀ p : Property, ∀ value,
      (p.apply (.identifier "view") value).step = .set (p.apply (.identifier "view") value) := by
    intro p value
    unfold Property.apply
    split
    · rfl
    · simp [Expr.invoke, Expr.apply, Code.Stmt.step]
  rw [viewCode, Code.Expr.steps, List.map_append, List.map_map, List.map_map, ownWrites,
    List.map_map]
  congr 1
  exact List.map_congr_left fun p _ => own p _

theorem overlaySteps (merged layer : Expr) :
    (overlay merged layer).steps = merged.steps ++ layer.layer := by
  simp [overlay, Expr.invoke, Expr.apply, Code.Expr.steps]

theorem overlaysSteps (layers : List Expr) (first : Expr) :
    (layers.foldl overlay first).steps = first.steps ++ layers.flatMap Code.Expr.layer := by
  induction layers generalizing first with
  | nil => simp
  | cons layer rest ih =>
    rw [List.foldl_cons, ih, overlaySteps, List.append_assoc, List.flatMap_cons]

/- The attributes have no states, so that their keys are their names. -/
theorem attributedSteps {bases : List Expr}
    (members : ∀ e ∈ bases, ∃ owner name themed, e = memberCode owner name themed) {st : Style}
    (stateless : ∀ p ∈ st.properties, p.controlState = none) :
    (attributedCode context bases st.properties).steps = bases.map .base ++
      (ownWrites context st).map fun w => .set (.assign (.implicitMember w.1.key) w.2) := by
  have own : (Expr.dictionary (st.properties.map fun p => ⟨.implicitMember
        p.description.path.flatten, p.code context (.identifier "state")⟩)).layer =
      (ownWrites context st).map fun w => .set (.assign (.implicitMember w.1.key) w.2) := by
    rw [Code.Expr.layer, List.map_map, ownWrites, List.map_map]
    refine List.map_congr_left fun p inside => ?_
    simp [Code.Entry.step, Property.key, stateless p inside]
  have bare : ∀ es : List Expr, (∀ e ∈ es, ∃ owner name themed, e = memberCode owner name themed) →
      es.flatMap Code.Expr.layer = es.map .base := by
    intro es each
    rw [← List.flatMap_pure_eq_map]
    refine List.flatMap_congr fun e inside => ?_
    obtain ⟨owner, name, themed, rfl⟩ := each e inside
    exact memberCodeLayer owner name themed
  unfold attributedCode
  cases bases with
  | nil => simpa [Code.Expr.steps] using own
  | cons first rest =>
    obtain ⟨⟨owner, name, themed, rfl⟩, others⟩ := List.forall_mem_cons.mp members
    rw [overlaysSteps, List.flatMap_append, bare rest others, List.flatMap_singleton, own,
      memberCodeSteps]
    rfl

theorem codeSteps {bases : List Expr}
    (members : ∀ e ∈ bases, ∃ owner name themed, e = memberCode owner name themed) {st : Style}
    (stateless : st.kind = .attributedText → ∀ p ∈ st.properties, p.controlState = none) :
    (code context bases st).1.steps =
      bases.map .base ++ (ownWrites context st).map fun w => .set (st.kind.set w) := by
  unfold code
  cases kind : st.kind with
  | view w => exact viewSteps bases st
  | attributedText => exact attributedSteps members (stateless kind)

end Steps

theorem memberTakes (s : StyleSource) (st : Style) (bases : List Expr) (themed : Bool) :
    (s.memberDecl st bases themed).takes "theme" = themed := by
  cases themed <;> rfl

theorem memberValue (s : StyleSource) (st : Style) (bases : List Expr) (themed : Bool) :
    (s.memberDecl st bases themed).value? = some (code (if themed then
      { s.registry.renderContext with theme := .parameter "theme" } else s.registry.renderContext)
        bases st).1 := by
  cases themed <;> rfl

end StyleSource

namespace Registry

variable {r : Registry} {c : Configuration}

def Declares (r : Registry) (c : Configuration) (n : Entry) (member : Decl) : Prop :=
  ∃ decl, (StyleSource.ofGlobal r c n.1).decl = .ok decl ∧
    decl.members.find? (·.name? == some n.2.name) = some member

/-- What the steps of a style set, one statement after the other. The bases are met in the order in
which the style names them; each is referred to as what is declared for it, handed the theme if that
is a function of the theme, and in its place stands what its own steps set. -/
inductive Plays (r : Registry) (c : Configuration) :
    Entry → List StyleName → List Code.Step → List Stmt → Prop where
  | done (n : Entry) : Plays r c n [] [] []
  | set {n : Entry} {names : List StyleName} {steps : List Code.Step} {more : List Stmt}
      (statement : Stmt) (others : Plays r c n names steps more) :
      Plays r c n names (.set statement :: steps) (statement :: more)
  | base {n m : Entry} {base : StyleName} {names : List StyleName} {reference code : Expr}
      {steps : List Code.Step} {member : Decl} {inner more : List Stmt}
      (found : r.styleScope.lookup base (some n.1) = .ok m) (declares : r.Declares c m member)
      (refers : reference = StyleSource.memberCode (StyleGroup.globalType m.1.name) m.2.name
        (member.takes "theme"))
      (value : member.value? = some code) (plays : Plays r c m m.2.extend code.steps inner)
      (others : Plays r c n names steps more) :
      Plays r c n (base :: names) (.base reference :: steps) (inner ++ more)

def Runs (r : Registry) (c : Configuration) (n : Entry) (run : List Stmt) : Prop :=
  ∃ member code, r.Declares c n member ∧ member.value? = some code ∧
    r.Plays c n n.2.extend code.steps run

theorem declaresUnique {n : Entry} {a b : Decl} (left : r.Declares c n a)
    (right : r.Declares c n b) : a = b := by
  obtain ⟨decl, made, found⟩ := left
  obtain ⟨decl', made', found'⟩ := right
  cases Except.ok.inj (made.symm.trans made')
  exact Option.some.inj (found.symm.trans found')

theorem playsUnique {n : Entry} {names : List StyleName} {steps : List Code.Step}
    {run other : List Stmt} (left : r.Plays c n names steps run)
    (right : r.Plays c n names steps other) : run = other := by
  induction left generalizing other with
  | done n =>
    cases right
    rfl
  | set statement _ ih =>
    cases right with
    | set _ others => rw [ih others]
  | base found declares _ value _ _ inner rest =>
    cases right with
    | base found' declares' _ value' plays others =>
      cases Except.ok.inj (found.symm.trans found')
      cases declaresUnique declares declares'
      cases Option.some.inj (value.symm.trans value')
      rw [inner plays, rest others]

theorem runsUnique {n : Entry} {run other : List Stmt} (left : r.Runs c n run)
    (right : r.Runs c n other) : run = other := by
  obtain ⟨member, code, declares, value, plays⟩ := left
  obtain ⟨member', code', declares', value', plays'⟩ := right
  cases declaresUnique declares declares'
  cases Option.some.inj (value.symm.trans value')
  exact playsUnique plays plays'

theorem playsOwn (n : Entry) (run : List Stmt) : r.Plays c n [] (run.map .set) run := by
  induction run with
  | nil => exact .done n
  | cons statement rest ih => exact .set statement ih

def Generated (r : Registry) (c : Configuration) : Prop :=
  ∀ entry ∈ r.styleGroups, ∃ decl, (StyleSource.ofGlobal r c entry.2).decl = .ok decl

theorem membersFound {R : Style → Decl → Prop} {styles : List Style} {members : List Decl}
    (each : List.Forall₂ R styles members)
    (named : ∀ st member, R st member → member.name? = some st.name)
    (distinct : (styles.map Style.name).Nodup) {st : Style} (inside : st ∈ styles) :
    ∃ member, members.find? (·.name? == some st.name) = some member ∧ R st member := by
  induction each with
  | nil => simp at inside
  | @cons first member rest members related _ ih =>
    obtain ⟨fresh, distinct⟩ := List.nodup_cons.mp distinct
    rcases List.mem_cons.mp inside with rfl | later
    · exact ⟨member, by simp [named _ _ related], related⟩
    · have apart : first.name ≠ st.name := fun same =>
        fresh (same ▸ List.mem_map_of_mem later)
      obtain ⟨found, known, related'⟩ := ih distinct later
      exact ⟨found, by simp [named _ _ related, apart, known], related'⟩

section Declared

variable {n : Entry}

theorem registeredGroup (known : r.styleScope.Registered n) :
    (n.1.name, n.1) ∈ r.styleGroups := by
  rcases known.group with found | own
  · exact Ordered.memOfLookup found
  · cases own

theorem styleRead (filled : r.Filled) (known : r.styleScope.Registered n) :
    ∃ node, Style.read node = .ok n.2 := by
  obtain ⟨_, _, _, read⟩ := groupsRead filled (registeredGroup known)
  exact StyleGroup.readRead read n.2 (StyleGroup.foundName known.style).2

theorem styleDeclared (filled : r.Filled) (generated : r.Generated c)
    (known : r.styleScope.Registered n) : ∃ member, r.Declares c n member ∧
      (StyleSource.ofGlobal r c n.1).Declared n.2 member := by
  have group := registeredGroup known
  obtain ⟨decl, made⟩ := generated _ group
  have source : (StyleSource.ofGlobal r c n.1).Made r c := .registered group
  obtain ⟨members, emitted, last⟩ := Result.bindOk.mp made
  have each := StyleSource.stylesDeclare
    (StyleScope.coherentKeyed (StyleSource.madeCoherent filled source))
    (StyleSource.madeHeld filled source) (StyleScope.soundEmpty _) (Prod.ext emitted rfl)
  obtain ⟨_, _, _, read⟩ := groupsRead filled group
  obtain ⟨member, found, declared⟩ := membersFound each
    (by
      rintro st member ⟨_, ps, _, _, _, _, rfl⟩
      unfold StyleSource.memberDecl
      split <;> rfl)
    (StyleGroup.readDistinct read) (StyleGroup.foundName known.style).2
  cases last
  exact ⟨member, ⟨_, made, found⟩, declared⟩

/- The name of a style in its own group is the style itself. -/
theorem memberDeclared (filled : r.Filled) (generated : r.Generated c)
    (known : r.styleScope.Registered n) : ∃ member ps bases, r.Declares c n member ∧
      r.styleScope.Flattened n ps ∧
      List.Forall₂ (StyleSource.ofGlobal r c n.1).Refers n.2.extend bases ∧
      member = (StyleSource.ofGlobal r c n.1).memberDecl n.2 bases (ps.any Property.isThemed) := by
  obtain ⟨member, declares, judged, ps, bases, found, flat, refers, same⟩ :=
    styleDeclared filled generated known
  have self : r.styleScope.lookup (.inGroup n.2.name) (some n.1) = .ok n := by
    simp [StyleScope.lookup, known.style]
  cases Except.ok.inj (self.symm.trans found)
  exact ⟨member, ps, bases, declares, flat, refers, same⟩

/- A name leads to the style of that name, in the group at hand or in the one that it says. -/
theorem lookupNamed (filled : r.Filled) {g : StyleGroup} {name : StyleName} {m : Entry}
    (found : r.styleScope.lookup name (some g) = .ok m) :
    (name = .inGroup m.2.name ∧ m.1 = g) ∨ name = .qualified m.1.name m.2.name := by
  obtain ⟨_, ⟨bare, here | own⟩ | ⟨group, rfl, held⟩⟩ := StyleScope.lookupFound found
  · exact .inl ⟨bare, (Option.some.inj here).symm⟩
  · cases own
  · exact .inr (by rw [(styleScopeCoherent filled).named group m.1 held])

theorem ownerFound (filled : r.Filled) {g : StyleGroup} {name : StyleName} {m : Entry}
    (found : r.styleScope.lookup name (some g) = .ok m) :
    (StyleSource.ofGlobal r c g).owner name = StyleGroup.globalType m.1.name := by
  rcases lookupNamed filled found with ⟨rfl, rfl⟩ | rfl
  · rfl
  · rfl

theorem refersDeclared (filled : r.Filled) (generated : r.Generated c)
    (known : r.styleScope.Registered n) {name : StyleName} {e : Expr}
    (refers : (StyleSource.ofGlobal r c n.1).Refers name e) {m : Entry}
    (found : r.styleScope.lookup name (some n.1) = .ok m) {member : Decl}
    (declares : r.Declares c m member) :
    e = StyleSource.memberCode (StyleGroup.globalType m.1.name) m.2.name
      (member.takes "theme") := by
  obtain ⟨m', ps, found', flat, rfl⟩ := refers
  cases Except.ok.inj (found.symm.trans found')
  have registered := StyleScope.lookupRegistered (styleScopeCoherent filled).named
    (StyleScope.registeredSelf known) found
  obtain ⟨other, qs, bases, again, flat', _, rfl⟩ := memberDeclared filled generated registered
  cases declaresUnique declares again
  cases StyleScope.flattenedUnique flat flat'
  rw [StyleSource.memberTakes, ownerFound filled found]

/- What is declared for a style, and that code would refer to it so. -/
def Names (r : Registry) (c : Configuration) (reference : Expr) (n : Entry) (member : Decl) : Prop :=
  r.styleScope.Registered n ∧ r.Declares c n member ∧
    reference = StyleSource.memberCode (StyleGroup.globalType n.1.name) n.2.name
      (member.takes "theme")

/- Two declarations have one reference exactly if the types of their groups have one name, and so
have the styles, and both are functions of the theme or neither is. -/
theorem namesShared {m : Entry} {a b : Decl} (known : r.styleScope.Registered n)
    (known' : r.styleScope.Registered m) (declares : r.Declares c n a)
    (declares' : r.Declares c m b) :
    (∃ reference, r.Names c reference n a ∧ r.Names c reference m b) ↔
      StyleGroup.globalType n.1.name = StyleGroup.globalType m.1.name ∧ n.2.name = m.2.name ∧
        a.takes "theme" = b.takes "theme" := by
  rw [← StyleSource.memberCodeSame]
  constructor
  · rintro ⟨_, ⟨_, _, rfl⟩, _, _, same⟩
    exact same
  · intro same
    exact ⟨_, ⟨known, declares, rfl⟩, known', declares', same⟩

/- A reference says one declaration only where no two groups have types of one name: the groups
`main` and `Main` share `MainStyles`. -/
theorem namesUnique (filled : r.Filled)
    (apart : (r.styleGroups.map fun entry => StyleGroup.globalType entry.2.name).Nodup)
    {m : Entry} {reference : Expr} {a b : Decl} (left : r.Names c reference n a)
    (right : r.Names c reference m b) : n = m ∧ a = b := by
  have ⟨known, declares, _⟩ := left
  have ⟨known', declares', _⟩ := right
  obtain ⟨types, styles, _⟩ :=
    (namesShared known known' declares declares').mp ⟨reference, left, right⟩
  have groups : (n.1.name, n.1) = (m.1.name, m.1) :=
    List.inj_on_of_nodup_map apart (registeredGroup known) (registeredGroup known') types
  cases StyleScope.registeredUnique (styleScopeCoherent filled) known known'
    (Prod.mk.inj groups).1 styles
  exact ⟨rfl, declaresUnique declares declares'⟩

example : StyleGroup.globalType "main" = StyleGroup.globalType "Main" := by decide

/- Then every reference to a base says what is declared for that base, and nothing else. -/
theorem playsNamed (filled : r.Filled)
    (apart : (r.styleGroups.map fun entry => StyleGroup.globalType entry.2.name).Nodup)
    (known : r.styleScope.Registered n) {names : List StyleName} {steps : List Code.Step}
    {run : List Stmt} (plays : r.Plays c n names steps run) {reference : Expr}
    (emitted : .base reference ∈ steps) : ∃ base ∈ names, ∃ m member,
      r.styleScope.lookup base (some n.1) = .ok m ∧
      ∀ x a, r.Names c reference x a ↔ x = m ∧ a = member := by
  induction plays with
  | done n => cases emitted
  | set statement _ ih =>
    rcases List.mem_cons.mp emitted with never | later
    · cases never
    · exact ih known later
  | @base n m base names _ code steps member _ _ found declares refers _ _ _ _ ih =>
    rcases List.mem_cons.mp emitted with here | later
    · cases here
      have registered := StyleScope.lookupRegistered (styleScopeCoherent filled).named
        (StyleScope.registeredSelf known) found
      have own : r.Names c _ m member := ⟨registered, declares, refers⟩
      refine ⟨base, List.mem_cons_self, m, member, found, fun x a => ⟨fun named => ?_, ?_⟩⟩
      · exact namesUnique filled apart named own
      · rintro ⟨rfl, rfl⟩
        exact own
    · obtain ⟨other, listed, told⟩ := ih known later
      exact ⟨other, List.mem_cons_of_mem _ listed, told⟩

end Declared

/-- The writes of a run: these properties, in this order, and for every key the value that
counts. -/
structure Writes (r : Registry) (c : Configuration) (n : Entry) (full : List Property)
    (ws : List Write) : Prop where
  properties : ws.map Prod.fst = full
  runs : r.Runs c n (ws.map n.2.kind.set)
  rendered : Write.Rendered r.renderContext ws

/- Base after base. What remains to be played comes after all of them. -/
theorem basesPlay (filled : r.Filled) (generated : r.Generated c) {n : Entry}
    (known : r.styleScope.Registered n) {names : List StyleName} {references : List Expr}
    (refers : List.Forall₂ (StyleSource.ofGlobal r c n.1).Refers names references)
    (accepted : ∀ base ∈ names, ∀ m, r.styleScope.lookup base (some n.1) = .ok m →
      m.2.kind.accepts n.2.kind = true) {full : StyleName → List Property}
    (each : ∀ base ∈ names, ∀ m, r.styleScope.lookup base (some n.1) = .ok m →
      ∃ ws, r.Writes c m (full base) ws) :
    ∃ ws, ws.map Prod.fst = names.flatMap full ∧ Write.Rendered r.renderContext ws ∧
      ∀ steps more, r.Plays c n [] steps more →
        r.Plays c n names (references.map .base ++ steps) (ws.map n.2.kind.set ++ more) := by
  induction refers with
  | nil => exact ⟨[], rfl, by rintro _ _ ⟨⟩, fun _ _ plays => plays⟩
  | @cons base reference names references first _ ih =>
    obtain ⟨suits, accepted⟩ := List.forall_mem_cons.mp accepted
    obtain ⟨here, later⟩ := List.forall_mem_cons.mp each
    have ⟨m, ps, found, flat, same⟩ := first
    obtain ⟨inner, writes⟩ := here m found
    obtain ⟨ws, properties, rendered, plays⟩ := ih accepted later
    obtain ⟨member, code, declares, value, run⟩ := writes.runs
    refine ⟨inner ++ ws, ?_, Write.renderedAppend writes.rendered rendered, ?_⟩
    · rw [List.map_append, writes.properties, properties, List.flatMap_cons]
    · intro steps more remaining
      rw [StyleKind.acceptsSet (suits m found)] at run
      rw [List.map_append, List.append_assoc]
      exact .base found declares (refersDeclared filled generated known first found declares)
        value run (plays steps more remaining)

theorem expansionWrites (filled : r.Filled) (generated : r.Generated c) {n : Entry}
    {full : List Property} (expansion : r.styleScope.Expansion n full)
    (known : r.styleScope.Registered n) : ∃ ws, r.Writes c n full ws := by
  induction expansion with
  | @mk n full found bases ih =>
    obtain ⟨member, ps, references, declares, flat, refers, rfl⟩ :=
      memberDeclared filled generated known
    obtain ⟨lookups, _⟩ := flat.grounded
    obtain ⟨ws, properties, rendered, plays⟩ := basesPlay filled generated known refers
      (fun base inside m looked => by
        obtain ⟨m', looked', suits⟩ := lookups base inside
        cases Except.ok.inj (looked.symm.trans looked')
        exact suits)
      (fun base inside m looked => ih base inside m looked
        (StyleScope.lookupRegistered (styleScopeCoherent filled).named
          (StyleScope.registeredSelf known) looked))
    -- Whether the member is a function of the theme is decided by what is written here.
    have judged : ps = lastOccurrences (n.2.extend.flatMap full ++ n.2.properties) := by
      obtain ⟨other, again, rfl⟩ := flat.expanded
      rw [StyleScope.expansionUnique again (.mk full found bases)]
    have own := StyleSource.ownRendered r.renderContext
      (congrArg (List.any · Property.isThemed) judged)
    refine ⟨ws ++ StyleSource.ownWrites _ n.2, ?_, ⟨_, _, declares,
      StyleSource.memberValue _ _ _ _, ?_⟩, Write.renderedAppend rendered own⟩
    · rw [List.map_append, properties, StyleSource.ownProperties]
    · obtain ⟨node, read⟩ := styleRead filled known
      have members : ∀ e ∈ references, ∃ owner name themed,
          e = StyleSource.memberCode owner name themed := by
        intro e inside
        obtain ⟨_, _, _, _, _, _, same⟩ := forallRight refers inside
        exact ⟨_, _, _, same⟩
      rw [StyleSource.codeSteps members (Style.readStateless read), List.map_append]
      refine plays _ _ ?_
      rw [← Function.comp_def, ← List.map_map]
      exact playsOwn n _

/- Groups and styles may have any name, but what is extended has been named, and names that are read
are plain. -/
theorem reachedPlain (filled : r.Filled) {n m : Entry} (known : r.styleScope.Registered m)
    (reached : TransGen r.styleScope.Extends m n) : r.styleScope.Registered n ∧
      ':' ∉ n.2.name.toList ∧ (n.1 = m.1 ∨ ':' ∉ n.1.name.toList) := by
  have step : ∀ {k n : Entry}, r.styleScope.Registered k → r.styleScope.Extends k n →
      r.styleScope.Registered n ∧ ':' ∉ n.2.name.toList ∧
        (n.1 = k.1 ∨ ':' ∉ n.1.name.toList) := by
    rintro k n known ⟨base, inside, found⟩
    obtain ⟨node, read⟩ := styleRead filled known
    obtain ⟨raw, parsed⟩ := (Style.readParts read).2 base inside
    have plain := StyleName.parsePlain parsed
    refine ⟨StyleScope.lookupRegistered (styleScopeCoherent filled).named
      (StyleScope.registeredSelf known) found, ?_⟩
    rcases lookupNamed filled found with ⟨rfl, same⟩ | rfl
    · exact ⟨plain, .inl same⟩
    · exact ⟨plain.2, .inr plain.1⟩
  induction reached with
  | single first => exact step known first
  | tail _ last ih =>
    obtain ⟨registered, _, group⟩ := ih
    obtain ⟨registered, style, here⟩ := step registered last
    refine ⟨registered, style, here.elim (fun same => ?_) .inr⟩
    rw [same]
    exact group

theorem styleScopeApart (filled : r.Filled) : r.styleScope.Apart := by
  intro n m left right reaches same
  obtain ⟨_, style, group⟩ := reachedPlain filled right reaches
  have letters := StyleScope.qualifiedLetters same
  have names : n.1.name.toList = m.1.name.toList ∧ n.2.name.toList = m.2.name.toList := by
    rcases group with equal | plain
    · rw [equal] at letters ⊢
      exact ⟨rfl, by simpa using letters⟩
    · -- There is one sign between the parts on this side, and so on the other.
      have signs := congrArg (List.count ':') letters
      rw [List.count_append, List.count_append, List.count_cons_self, List.count_cons_self,
        List.count_eq_zero_of_not_mem plain, List.count_eq_zero_of_not_mem style] at signs
      exact StyleScope.separated plain (List.count_eq_zero.mp (by omega)) letters
  exact StyleScope.registeredUnique (styleScopeCoherent filled) left right
    (String.toList_injective names.1) (String.toList_injective names.2)

theorem runsFlattened (filled : r.Filled) (generated : r.Generated c) {name : String}
    {g : StyleGroup} (group : (name, g) ∈ r.styleGroups) {s : Style} (style : s ∈ g.styles) :
    ∃ ps ws, ((r.styleScope.flatten (.qualified g.name s.name) none).outcome []).1 = .ok ps ∧
      r.Runs c (g, s) (ws.map s.kind.set) ∧
      (∀ run, r.Runs c (g, s) run → run = ws.map s.kind.set) ∧
      r.styleScope.Expansion (g, s) (ws.map Prod.fst) ∧
      (∀ key, key ∈ ws.map (·.1.key) ↔ key ∈ ps.map Property.key) ∧
      ∀ key, (Write.last key ws).map Prod.snd = (ps.find? (·.key == key)).map fun p =>
        p.code { r.renderContext with theme := .parameter "theme" } (.identifier "state") := by
  have coherent := styleScopeCoherent filled
  have held := groupFound filled group
  have known : r.styleScope.Registered (g, s) := ⟨.inl held, styleFound filled group style⟩
  have found : r.styleScope.lookup (.qualified g.name s.name) none = .ok (g, s) := by
    simp only [StyleScope.lookup, styleScope, held, Option.bind_some,
      styleFound filled group style, Option.map_some]
  obtain ⟨_, ps, _, _, flat, _, _⟩ := memberDeclared filled generated known
  obtain ⟨qs, next, ok⟩ := StyleScope.flattenFromEnds coherent (styleScopeApart filled) found known
    (StyleScope.groundedFlattenable flat.grounded) ⟨List.nodup_nil, by simp⟩
    (by simp : r.styleScope.size < r.styleScope.size + 1 + [].length) []
  have unscoped : r.styleScope.HoldsCurrent none := by
    intro _ same
    cases same
  obtain ⟨n, again, flat', _⟩ := StyleScope.flattenFromSound coherent unscoped
    (StyleScope.soundEmpty _) ok
  cases Except.ok.inj (found.symm.trans again)
  obtain ⟨full, expansion, rfl⟩ := flat'.expanded
  obtain ⟨ws, rfl, runs, rendered⟩ := expansionWrites filled generated expansion known
  refine ⟨_, ws, congrArg Prod.fst ok, runs, fun run other => runsUnique other runs, expansion,
    fun key => ?_, fun key => ?_⟩
  · rw [lastOccurrencesKeys, List.map_map]
    rfl
  · rw [← Write.lastProperty, Option.map_map]
    cases last : Write.last key ws with
    | none => rfl
    | some w => exact congrArg some (rendered key w last)

/- A panel is in the colours of the theme, and then has a colour of its own for its background. -/
def panelSheet : Markup.Node :=
  { name := "styleGroup", attributes := [("name", "Panels")], children := [
      { name := "ViewStyle", attributes := [("name", "themed"), ("tintColor", ":accent"),
        ("backgroundColor", ":accent")] },
      { name := "ViewStyle", attributes := [("name", "panel"), ("extend", "themed"),
        ("backgroundColor", "red")] }] }

def panelGroup : StyleGroup := (StyleGroup.read panelSheet none).toOption.getD { name := "" }

def panels : Registry :=
  let application : Application :=
    { themes := ["default"], defaultTheme := "default",
      values := { colors := [("accent", [("default", ⟨.named "orange", []⟩)])] } }
  (({ platform := .iOS, application } : Registry).addGroup panelGroup).1

def panelFlattened : Result (List Property) :=
  ((panels.styleScope.flatten (.qualified panelGroup.name "panel") none).outcome []).1

theorem panelsComputed : (StyleGroup.read panelSheet none).isOk = true ∧
    (StyleSource.ofGlobal panels { platform := .iOS } panelGroup).decl.isOk = true ∧
    (panelGroup.styles.any fun s => s.name == "panel") = true ∧
    (panelFlattened.toOption.any fun ps => ps.map (fun p => (p.key, p.isThemed)) =
      [("tintColor", true), ("backgroundColor", false)]) = true := by
  decide +kernel

theorem panelRuns : ∃ s ps ws, s ∈ panelGroup.styles ∧ s.name = "panel" ∧ panelFlattened = .ok ps ∧
    ps.map (fun p => (p.key, p.isThemed)) = [("tintColor", true), ("backgroundColor", false)] ∧
    panels.Runs { platform := .iOS } (panelGroup, s) (ws.map s.kind.set) ∧
    ∀ key, (Write.last key ws).map Prod.snd = (ps.find? (·.key == key)).map fun p =>
      p.code { panels.renderContext with theme := .parameter "theme" } (.identifier "state") := by
  obtain ⟨readable, generated, listed, flat⟩ := panelsComputed
  obtain ⟨s, style, named⟩ := List.any_eq_true.mp listed
  obtain ⟨qs, ok, computed⟩ := Result.anyOk flat
  have filled : panels.Filled := .group (.empty .iOS _) (Result.okGetD readable _)
  have sources : panels.Generated { platform := .iOS } := by
    intro entry member
    cases List.mem_singleton.mp member
    exact ⟨_, Result.okGetD generated default⟩
  obtain ⟨ps, ws, flattened, runs, _, _, _, last⟩ :=
    runsFlattened filled sources (List.mem_singleton_self _) style
  have called : s.name = "panel" := beq_iff_eq.mp named
  rw [called] at flattened
  cases Except.ok.inj (ok.symm.trans flattened)
  exact ⟨s, qs, ws, style, called, ok, of_decide_eq_true computed, runs, last⟩

end Registry
end ViewForge
