import ViewForge.Proofs.Project.Classes
import ViewForge.Proofs.Style.Meaning
import ViewForge.Proofs.Style.Scopes

/-! References to styles against their declarations. Whether a style is a function of the theme is
decided where it is declared, at every style that extends it and at every template, each time in
another scope; the code of a project takes the same decision everywhere. -/
namespace ViewForge
open Code (Expr Stmt Decl)
open StyleScope (Entry)

namespace Code

def Step.reference? : Step → Option Expr
  | .base reference => some reference
  | .set _ => none

def Decl.baseReferences (member : Decl) : List Expr :=
  (member.value?.toList.flatMap Expr.steps).filterMap Step.reference?

def Decl.attributes? : Decl → Option Expr
  | .function f =>
    match f.body with
    | [.ret (some (.call (.identifier "NSAttributedString") [_, ⟨some "attributes", e⟩]))] =>
      some e
    | _ => none
  | _ => none

/-- The reference is to a member of this type, by the name of the type, and hands over the theme
exactly if what is declared under the name of the member is a function of the theme. -/
structure Decl.Serves (house : Decl) (name : String) (theme reference : Expr) : Prop where
  declared : ∃ member ∈ house.members, member.name? = some name
  agrees : ∃ access typeName members, house = .type .structType access [] typeName [] members ∧
    ∀ member ∈ members, member.name? = some name →
      reference = if member.takes "theme" then
        ((Expr.identifier typeName).member name).apply [(none, theme)]
      else (Expr.identifier typeName).member name

end Code

namespace StyleSource

variable {s : StyleSource} {b : SourceBundle} {around : List Decl}

theorem ownKeyed {groups : List (String × StyleGroup)}
    (named : ∀ name g, groups.lookup name = some g → g.name = name) {own : StyleGroup}
    (apart : own.styles ≠ [] → groups.lookup own.name = none) :
    ({ groups, own := some own } : StyleScope).Keyed := by
  have styled : ∀ {n : Entry}, n.1 = own → n.1.find? n.2.name = some n.2 → own.styles ≠ [] := by
    rintro n rfl found none
    simp [StyleGroup.find?, none] at found
  have groups : ∀ {n m : Entry}, ({ groups, own := some own } : StyleScope).Registered n →
      ({ groups, own := some own } : StyleScope).Registered m → n.1.name = m.1.name →
      n.1 = m.1 := by
    intro n m left right same
    rcases left.group with held | mine <;> rcases right.group with held' | mine'
    · exact Option.some.inj (held.symm.trans (same ▸ held'))
    · cases mine'
      rw [same, apart (styled rfl right.style)] at held
      cases held
    · cases mine
      rw [← same, apart (styled rfl left.style)] at held'
      cases held'
    · exact Option.some.inj (mine.symm.trans mine')
  refine ⟨named, fun n m left right group style => ?_⟩
  have same := groups left right group
  refine Prod.ext same (Option.some.inj (left.style.symm.trans ?_))
  rw [same, style]
  exact right.style

/- A style that is judged in a wider scope than its own source is judged as it is declared. -/
theorem declServes (keyed : s.scope.Keyed) (held : s.scope.Holds s.group) {house : Decl}
    (made : s.decl = .ok house) {st : Style} (found : s.group.find? st.name = some st)
    {wide : StyleScope} (within : s.scope.Within wide) {ps : List Property}
    (flat : wide.Flattened (s.group, st) ps) (theme : Expr) :
    house.Serves st.name theme
      (referenceCode s.typeName st.name theme (ps.any Property.isThemed)) := by
  obtain ⟨members, emitted, last⟩ := Result.bindOk.mp made
  cases last
  have declared := stylesDeclare keyed held (StyleScope.soundEmpty _) (Prod.ext emitted rfl)
  have named : ∀ {st' member}, s.Declared st' member → member.name? = some st'.name := by
    rintro st' member ⟨_, ps, _, _, _, _, rfl⟩
    unfold memberDecl
    split <;> rfl
  constructor
  · obtain ⟨member, inside, own⟩ := forallLeft declared (StyleGroup.foundName found).2
    exact ⟨member, inside, named own⟩
  · refine ⟨_, _, members, rfl, fun member inside same => ?_⟩
    obtain ⟨st', _, own⟩ := forallRight declared inside
    have name : st'.name = st.name := Option.some.inj ((named own).symm.trans same)
    obtain ⟨judged, qs, bases, looked, flat', _, rfl⟩ := own
    have self : s.scope.lookup (.inGroup st'.name) (some s.group) = .ok (s.group, st) := by
      simp [StyleScope.lookup, name, found]
    cases Except.ok.inj (self.symm.trans looked)
    cases StyleScope.flattenedUnique flat (StyleScope.flattenedWithin within flat')
    rw [memberTakes]
    rfl

/-- The type of a group, as it stands where the code of a source can name it: that of its own group
around the source, that of a global group in the code of the project. -/
inductive Sees (b : SourceBundle) (around : List Decl) (s : StyleSource) :
    StyleGroup → Decl → Prop where
  | own {house : Decl} (listed : house ∈ around) (made : s.decl = .ok house) :
      Sees b around s s.group house
  | global {g : StyleGroup} {house : Decl}
      (held : s.registry.styleGroups.lookup g.name = some g) (listed : house ∈ b.decls)
      (made : (ofGlobal s.registry s.configuration g).decl = .ok house) : Sees b around s g house

def Agrees (b : SourceBundle) (around : List Decl) (s : StyleSource) (theme : Expr)
    (name : StyleName) (reference : Expr) : Prop :=
  ∃ m house, s.scope.lookup name (some s.group) = .ok m ∧ s.Sees b around m.1 house ∧
    house.Serves m.2.name theme reference

structure Extending (b : SourceBundle) (around : List Decl) (s : StyleSource) (st : Style)
    (member : Decl) : Prop where
  named : member.name? = some st.name
  bases : List.Forall₂ (s.Agrees b around (.identifier "theme")) st.extend member.baseReferences

structure Attributing (b : SourceBundle) (around : List Decl) (s : StyleSource) (t : Template)
    (member : Decl) : Prop where
  named : member.name? = some t.name
  style : ∀ name, t.style = some name → ∃ reference, member.attributes? = some reference ∧
    s.Agrees b around ((Expr.identifier themeType).member "current") name reference

/-- A source around which, and around the code of the project, stand the types of all groups whose
styles it can name. -/
structure Housed (b : SourceBundle) (around : List Decl) (s : StyleSource) : Prop where
  keyed : s.scope.Keyed
  groups : s.scope.groups = s.registry.styleGroups
  own : (s.scope.own = none ∧ s.scope.Holds s.group) ∨ s.scope.own = some s.group
  read : s.group.IsRead
  here : s.group.styles ≠ [] → ∃ house ∈ around, s.decl = .ok house
  globals : ∀ g, s.registry.styleGroups.lookup g.name = some g →
    (ofGlobal s.registry s.configuration g).scope.Keyed ∧
      ∃ house ∈ b.decls, (ofGlobal s.registry s.configuration g).decl = .ok house

section Housed

variable (housed : s.Housed b around)
include housed

theorem housedHolds : s.scope.Holds s.group :=
  housed.own.elim And.right .inr

theorem housedWithin (g : StyleGroup) :
    (ofGlobal s.registry s.configuration g).scope.Within s.scope := by
  have scope : s.scope = { groups := s.registry.styleGroups, own := s.scope.own } := by
    rw [← housed.groups]
  rw [scope]
  rcases housed.own with ⟨none, _⟩ | own
  · rw [none]
    exact StyleScope.withinSelf _
  · rw [own]
    exact StyleScope.withinOwn _ _

theorem housedAround {name : StyleName} {m : Entry}
    (found : s.scope.lookup name (some s.group) = .ok m) {ps : List Property}
    (flat : s.scope.Flattened m ps) (theme : Expr) :
    s.Agrees b around theme name
      (referenceCode (s.owner name) m.2.name theme (ps.any Property.isThemed)) := by
  refine ⟨m, ?_⟩
  obtain ⟨style, ⟨rfl, here⟩ | ⟨group, rfl, listed⟩⟩ := StyleScope.lookupFound found
  · obtain ⟨g, st⟩ := m
    have mine : g = s.group := by
      rcases housed.own, here with ⟨⟨none, _⟩ | own, here | here⟩
      · exact (Option.some.inj here).symm
      · cases none.symm.trans here
      · exact (Option.some.inj here).symm
      · exact (Option.some.inj (own.symm.trans here)).symm
    cases mine
    obtain ⟨house, listed, made⟩ :=
      housed.here (List.ne_nil_of_mem (StyleGroup.foundName style).2)
    exact ⟨house, found, .own listed made, declServes housed.keyed (housedHolds housed) made
      style (StyleScope.withinSelf _) flat theme⟩
  · cases housed.keyed.named group m.1 listed
    have held : s.registry.styleGroups.lookup m.1.name = some m.1 := housed.groups ▸ listed
    obtain ⟨keyed, house, listed, made⟩ := housed.globals m.1 held
    exact ⟨house, found, .global held listed made,
      declServes keyed (.inl held) made style (housedWithin housed m.1) flat theme⟩

theorem housedStyles {house : Decl} (made : s.decl = .ok house) :
    List.Forall₂ (s.Extending b around) s.group.styles house.members := by
  obtain ⟨members, emitted, last⟩ := Result.bindOk.mp made
  cases last
  have declared := stylesDeclare housed.keyed (housedHolds housed) (StyleScope.soundEmpty _)
    (Prod.ext emitted rfl)
  refine List.Forall₂.imp ?_
    ((List.forall₂_and_left _ _).mpr ⟨fun st inside => housed.read st inside, declared⟩)
  rintro st member ⟨⟨node, read⟩, judged, ps, references, _, _, refers, rfl⟩
  constructor
  · unfold memberDecl
    split <;> rfl
  · have members : ∀ e ∈ references, ∃ owner name themed, e = memberCode owner name themed := by
      intro e inside
      obtain ⟨_, _, _, _, _, _, same⟩ := forallRight refers inside
      exact ⟨_, _, _, same⟩
    have listed : (s.memberDecl st references (ps.any Property.isThemed)).baseReferences =
        references := by
      rw [Code.Decl.baseReferences, memberValue, Option.toList_some, List.flatMap_singleton,
        codeSteps members (Style.readStateless read), List.filterMap_append, List.filterMap_map,
        List.filterMap_map]
      simp [Function.comp_def, Code.Step.reference?]
    rw [listed]
    refine refers.imp ?_
    rintro name e ⟨m, qs, found, flat, rfl⟩
    exact housedAround housed found flat _

theorem housedTemplate {t : Template} {f : Code.Function} (made : t.function s = .ok f) :
    s.Attributing b around t (.function f) := by
  unfold Template.function at made
  cases styled : t.style with
  | none =>
    rw [styled] at made
    cases made
    exact ⟨rfl, by simp [styled]⟩
  | some name =>
    simp only [styled] at made
    obtain ⟨reference, written, last⟩ := Result.bindOk.mp made
    cases last
    refine ⟨rfl, fun other same => ⟨reference, rfl, ?_⟩⟩
    cases styled.symm.trans same
    unfold Template.attributesCode at written
    obtain ⟨_, _, written⟩ := Result.bindOk.mp written
    simp only at written
    split at written
    · cases written
    · obtain ⟨m, ps, found, flat, rfl, _⟩ := referenceMade housed.keyed (housedHolds housed)
        (StyleScope.soundEmpty _) (Prod.ext written rfl)
      exact housedAround housed found flat _

theorem housedTemplates {templates : List Template} {members : List Decl}
    (made : Template.functions s templates = .ok members) :
    List.Forall₂ (s.Attributing b around) templates members := by
  induction templates generalizing members with
  | nil =>
    cases made
    exact .nil
  | cons t rest ih =>
    rw [Template.functions] at made
    obtain ⟨first, own, made⟩ := Result.bindOk.mp made
    obtain ⟨others, more, last⟩ := Result.bindOk.mp made
    cases last
    exact .cons (housedTemplate housed own) (ih more)

end Housed
end StyleSource

namespace Compilation
open StyleSource

variable {c : Compilation} {configuration : Configuration} {bundle : SourceBundle}

theorem globalsHoused (filled : c.registry.Filled) (ok : c.Generates configuration bundle)
    {name : String} {g : StyleGroup} (listed : (name, g) ∈ c.registry.styleGroups) :
    (ofGlobal c.registry configuration g).scope.Keyed ∧
      ∃ house ∈ bundle.decls, (ofGlobal c.registry configuration g).decl = .ok house := by
  obtain ⟨styles, sources, emitted⟩ := generateGives filled ok
  obtain ⟨house, inside, made⟩ := forallLeft emitted.styled (List.mem_map_of_mem listed)
  exact ⟨StyleScope.coherentKeyed (madeCoherent filled (.registered listed)), house,
    emitted.holds house (List.mem_append_left _ inside), made⟩

theorem globalHoused (filled : c.registry.Filled) (ok : c.Generates configuration bundle)
    {name : String} {g : StyleGroup} (listed : (name, g) ∈ c.registry.styleGroups) :
    (ofGlobal c.registry configuration g).Housed bundle bundle.decls where
  keyed := (globalsHoused filled ok listed).1
  groups := rfl
  own := .inl ⟨rfl, madeHeld filled (.registered listed)⟩
  read := madeRead filled (.registered listed)
  here _ := (globalsHoused filled ok listed).2
  globals _ held := globalsHoused filled ok (Ordered.memOfLookup held)

theorem ownHoused (filled : c.registry.Filled) (ok : c.Generates configuration bundle)
    {d : ComponentDefinition} (member : d ∈ c.registry.allDefinitions)
    (apart : d.styles.styles ≠ [] → c.registry.styleGroups.lookup d.styles.name = none)
    {around : List Decl} (here : d.styles.styles ≠ [] →
      ∃ house ∈ around, (ofComponent c.registry configuration d.styles).decl = .ok house) :
    (ofComponent c.registry configuration d.styles).Housed bundle around where
  keyed := ownKeyed
    (fun _ _ held => (Registry.groupsRead filled (Ordered.memOfLookup held)).1) apart
  groups := rfl
  own := .inr rfl
  read := (Registry.allDefinitionsTidy filled member).styles
  here := here
  globals _ held := globalsHoused filled ok (Ordered.memOfLookup held)

/- An own group without styles may have any name, since no style is found in it. -/
theorem styleReferencesAgree (filled : c.registry.Filled)
    (ok : c.Generates configuration bundle)
    (apart : ∀ d ∈ c.registry.allDefinitions, d.styles.styles ≠ [] →
      c.registry.styleGroups.lookup d.styles.name = none) :
    (∀ entry ∈ c.registry.styleGroups, ∃ house ∈ bundle.decls,
      (ofGlobal c.registry configuration entry.2).decl = .ok house ∧
      List.Forall₂ ((ofGlobal c.registry configuration entry.2).Extending bundle bundle.decls)
        entry.2.styles house.members) ∧
    ∀ d ∈ c.registry.allDefinitions, ∃ source, c.registry.Yields configuration d source ∧
      bundle.Holds source.decl ∧
      (d.styles.styles ≠ [] → ∃ house ∈ source.decl.members,
        (ofComponent c.registry configuration d.styles).decl = .ok house ∧
        List.Forall₂ ((ofComponent c.registry configuration d.styles).Extending bundle
          source.decl.members) d.styles.styles house.members) ∧
      (d.templates ≠ [] → ∃ house ∈ source.decl.members,
        List.Forall₂ ((ofComponent c.registry configuration d.styles).Attributing bundle
          source.decl.members) d.templates house.members) := by
  refine ⟨fun entry listed => ?_, fun d member => ?_⟩
  · obtain ⟨_, house, inside, made⟩ := globalsHoused filled ok listed
    exact ⟨house, inside, made, housedStyles (globalHoused filled ok listed) made⟩
  · obtain ⟨source, generated, held⟩ := classHeld filled ok member
    refine ⟨source, generated, held, ?_⟩
    obtain ⟨s, t, kept, run⟩ := generated
    obtain ⟨res, plan, code, styles, templates, nested, _, rfl, parts⟩ :=
      Registry.sourceParts filled member kept run
    have inside := Registry.partsHoldInner parts
    have styled : res.definition.styles.styles ≠ [] → ∃ house ∈ source.decl.members,
        (ofComponent c.registry configuration res.definition.styles).decl = .ok house := by
      intro some
      have made := parts.styled
      unfold Registry.stylesDecl at made
      rw [if_neg (by simpa [ofComponent] using some)] at made
      obtain ⟨house, own, rfl⟩ := Result.mapOk.mp made
      exact ⟨house, inside (by simp), own⟩
    have housed := ownHoused filled ok member (apart _ member) styled
    refine ⟨fun some => ?_, fun some => ?_⟩
    · obtain ⟨house, listed, made⟩ := styled some
      exact ⟨house, listed, made, housedStyles housed made⟩
    · have made := parts.templated
      unfold Registry.templatesDecl at made
      rw [if_neg (by simpa using some)] at made
      obtain ⟨members, own, rfl⟩ := Result.mapOk.mp made
      exact ⟨_, inside (List.mem_append_right _ (List.mem_singleton_self _)),
        housedTemplates housed own⟩

/- A row that is defined inside a card has a style and a template of its own. The style extends a
themed style of the project and hides what is themed in it, while the template has the themed one. -/
def rowFiles : List SourceFile := [
  .sheet "Main.styles.xml" ("<styleGroup name=\"Main\">" ++
    "<attributedTextStyle name=\"loud\" foregroundColor=\":accent\"/></styleGroup>"),
  .component "Card.ui.xml" ("<Card><Row id=\"row\"><styles name=\"Looks\">" ++
    "<attributedTextStyle name=\"calm\" extend=\":Main:loud\" foregroundColor=\"red\"/></styles>" ++
    "<templates><attributedText name=\"title\" style=\":Main:loud\">Hi \x7b\x7bname\x7d\x7d" ++
    "</attributedText></templates></Row></Card>")]

theorem rowReferencesAgree : ∃ c b, (start .iOS tinted "App.xml").Registers rowFiles {} c ∧
    c.Generates { platform := .iOS } b ∧ ∃ d ∈ c.registry.allDefinitions,
      d.styles.styles.map (fun s => (s.name, s.extend)) = [("calm", [.qualified "Main" "loud"])] ∧
      d.templates.map (fun t => (t.name, t.style)) = [("title", some (.qualified "Main" "loud"))] ∧
      ∃ source, c.registry.Yields { platform := .iOS } d source ∧ b.Holds source.decl ∧
        (∃ house ∈ source.decl.members, List.Forall₂
          ((ofComponent c.registry { platform := .iOS } d.styles).Extending b source.decl.members)
          d.styles.styles house.members) ∧
        ∃ house ∈ source.decl.members, List.Forall₂
          ((ofComponent c.registry { platform := .iOS } d.styles).Attributing b source.decl.members)
          d.templates house.members := by
  have computed : (tintedProject rowFiles).toOption.any (fun made =>
      (made.1.registry.allDefinitions.any fun d =>
        d.styles.styles.map (fun s => (s.name, s.extend)) ==
          [("calm", [.qualified "Main" "loud"])] &&
        d.templates.map (fun t => (t.name, t.style)) ==
          [("title", some (.qualified "Main" "loud"))]) &&
      made.1.registry.allDefinitions.all fun d =>
        (made.1.registry.styleGroups.lookup d.styles.name).isNone) = true := by
    have main : rowFiles[0].contribution .iOS = _ :=
      SourceFile.sheetLetters (Text.lettersAppend rfl rfl) _
    have card : rowFiles[1].contribution .iOS = _ := SourceFile.componentLetters
      (Text.lettersAppend (Text.lettersAppend (Text.lettersAppend rfl rfl) rfl) rfl) _
    simp only [rowFiles, List.getElem_cons_zero, List.getElem_cons_succ] at main card
    simp only [tintedProject, rowFiles, List.mapM_cons, List.mapM_nil, tintedParsed, main, card]
    decide +kernel
  obtain ⟨⟨c, b⟩, made, holds⟩ := Result.anyOk computed
  obtain ⟨registers, generates, filled, _⟩ := tintedGives made
  obtain ⟨row, apart⟩ := (Bool.and_eq_true _ _).mp holds
  obtain ⟨d, member, row⟩ := List.any_eq_true.mp row
  obtain ⟨styles, templates⟩ := (Bool.and_eq_true _ _).mp row
  have styles := eq_of_beq styles
  have templates := eq_of_beq templates
  obtain ⟨source, generated, held, own, attributes⟩ := (styleReferencesAgree filled generates
    fun x inside _ => by simpa using List.all_eq_true.mp apart x inside).2 d member
  obtain ⟨house, listed, _, agree⟩ := own (by rintro none; simp [none] at styles)
  exact ⟨c, b, registers, generates, d, member, styles, templates, source, generated, held,
    ⟨house, listed, agree⟩, attributes (by rintro none; simp [none] at templates)⟩

end Compilation
end ViewForge
