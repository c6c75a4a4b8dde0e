import ViewForge.Proofs.Project.Order
import ViewForge.Proofs.Source.Reads

/-! Dangling theme items. What a project reads of the theme is provided by the application as long
as the values that nobody checks refer to declared items, and only then. -/
namespace ViewForge
open Code (Decl)

namespace SourceBundle

def decls (b : SourceBundle) : List Decl := b.units.flatMap (·.2.decls)

def themeReads (b : SourceBundle) : List ThemeReference := b.decls.flatMap (·.themeReads)

theorem emitDecls (b : SourceBundle) (e : Emission) {x : Decl} :
    x ∈ (b.emit e).decls ↔
      x ∈ b.decls ∨ x = Compilation.sourceComment e.source ∨ x = e.decl := by
  have extended : ∀ u : SourceUnit, (e.extend u).decls =
      u.decls ++ [Compilation.sourceComment e.source, e.decl] := by
    intro u
    simp [Emission.extend, SourceUnit.add, SourceUnit.addImports]
  have own := Ordered.memOfLookup (emitOwn b e)
  constructor
  · intro member
    obtain ⟨entry, listed, inside⟩ := List.mem_flatMap.mp member
    rcases Ordered.memPut listed with rfl | old
    · -- the unit that is put in place keeps what it held and gets the two at its end
      have inside : x ∈ (e.extend ((b.units.lookup e.source).getD {})).decls := inside
      rw [extended] at inside
      rcases List.mem_append.mp inside with before | added
      · cases found : b.units.lookup e.source with
        | none => simp [found] at before
        | some u =>
          rw [found] at before
          exact .inl (List.mem_flatMap.mpr ⟨_, Ordered.memOfLookup found, before⟩)
      · exact .inr (by simpa using added)
    · exact .inl (List.mem_flatMap.mpr ⟨entry, old, inside⟩)
  · rintro (old | added)
    · obtain ⟨entry, listed, inside⟩ := List.mem_flatMap.mp old
      rcases Ordered.memPutOld e.source (e.extend ((b.units.lookup e.source).getD {})) listed with
        kept | found
      · exact List.mem_flatMap.mpr ⟨entry, kept, inside⟩
      · refine List.mem_flatMap.mpr ⟨_, own, ?_⟩
        rw [extended, found]
        exact List.mem_append_left _ inside
    · refine List.mem_flatMap.mpr ⟨_, own, ?_⟩
      rw [extended]
      exact List.mem_append_right _ (by simpa using added)

theorem emitAllDecls (b : SourceBundle) (es : List Emission) {x : Decl} :
    x ∈ (es.foldl emit b).decls ↔
      x ∈ b.decls ∨ ∃ e ∈ es, x = Compilation.sourceComment e.source ∨ x = e.decl := by
  induction es generalizing b with
  | nil => simp
  | cons e rest ih => simp only [List.foldl_cons, ih, emitDecls, List.exists_mem_cons_iff, or_assoc]

end SourceBundle

deriving instance DecidableEq for ThemeValues, Application

namespace Compilation

variable {c : Compilation} {configuration : Configuration} {bundle : SourceBundle}

theorem generateComponentsGives (filled : c.registry.Filled) {ds : List ComponentDefinition}
    (registered : ∀ d ∈ ds, d ∈ c.registry.definitions) {s t : ResolverState}
    (kept : c.registry.Keeping s) {b : SourceBundle}
    (ok : (c.generateComponents configuration ds b).outcome s = (.ok bundle, t)) :
    ∃ (es : List Emission) (sources : List ComponentSource), bundle = es.foldl .emit b ∧
      es.map (·.decl) = sources.map (·.decl) ∧
      List.Forall₂ (c.registry.Yields configuration) ds sources := by
  induction ds generalizing b s with
  | nil =>
    cases ok
    exact ⟨[], [], rfl, rfl, .nil⟩
  | cons d rest ih =>
    obtain ⟨here, later⟩ := List.forall_mem_cons.mp registered
    rw [generateComponents] at ok
    obtain ⟨source, u, first, ok⟩ := Task.bindGives.mp ok
    rw [Task.inFileOutcome] at first
    have within : ∀ x ∈ d.nested, x ∈ c.registry.allDefinitions :=
      fun x inside => List.mem_flatMap.mpr ⟨d, here, inside⟩
    have still := (Registry.componentSourceKeeps (c := configuration) filled d within s kept).1
    cases run : (c.registry.componentSource configuration d).outcome s with
    | mk result v =>
      rw [run] at first still
      cases result with
      | error e => cases first
      | ok found =>
        cases first
        obtain ⟨es, sources, rfl, same, each⟩ := ih later still ok
        exact ⟨⟨d.sourcePath, source.imports, source.decl⟩ :: es, source :: sources, rfl,
          by rw [List.map_cons, List.map_cons, same], .cons ⟨s, _, kept, run⟩ each⟩

/-- What a project is generated from: the theme, a declaration for every group, and a class for
every component that is not in another. -/
structure Emitted (c : Compilation) (configuration : Configuration) (bundle : SourceBundle)
    (styles : List Decl) (sources : List ComponentSource) : Prop where
  theme : ∃ theme, c.registry.application.themeDecl configuration = .ok theme
  styled : List.Forall₂ (fun g decl =>
    (StyleSource.ofGlobal c.registry configuration g).decl = .ok decl)
      (c.registry.styleGroups.map (·.2)) styles
  classes : List.Forall₂ (c.registry.Yields configuration) c.registry.definitions sources
  holds : ∀ x ∈ styles ++ sources.map (·.decl), x ∈ bundle.decls
  only : ∀ x ∈ bundle.decls, x ∈ styles ++ sources.map (·.decl) ∨ ∃ path, x = sourceComment path

theorem generateGives (filled : c.registry.Filled) (ok : c.Generates configuration bundle) :
    ∃ styles sources, c.Emitted configuration bundle styles sources := by
  unfold Generates generate at ok
  obtain ⟨theme, themed, ok⟩ := Task.liftBindGives (Prod.ext ok rfl)
  obtain ⟨b, styled, ok⟩ := Task.liftBindGives ok
  rw [generateStylesEmits] at styled
  obtain ⟨es, grouped, rfl⟩ := Result.mapOk.mp styled
  obtain ⟨others, sources, rfl, same, each⟩ :=
    generateComponentsGives filled (fun _ member => member) (Registry.soundFresh _) ok
  refine ⟨es.map (·.decl), sources, ⟨theme, Result.inFileOk themed⟩, ?_, each, ?_, ?_⟩
  · rw [List.forall₂_map_right_iff]
    refine (Result.mapMOk grouped).imp fun g e made => ?_
    obtain ⟨decl, found, rfl⟩ := Result.mapOk.mp made
    exact Result.inFileOk found
  · intro x listed
    rw [← List.foldl_append, SourceBundle.emitAllDecls]
    rw [← same, ← List.map_append] at listed
    obtain ⟨e, inside, rfl⟩ := List.mem_map.mp listed
    exact .inr ⟨e, inside, .inr rfl⟩
  · intro x held
    rw [← List.foldl_append, SourceBundle.emitAllDecls] at held
    rw [← same, ← List.map_append]
    rcases held with none | ⟨e, inside, rfl | rfl⟩
    · simp [SourceBundle.decls] at none
    · exact .inr ⟨_, rfl⟩
    · exact .inl (List.mem_map_of_mem inside)

theorem themeReadsProvided (filled : c.registry.Filled) (ok : c.Generates configuration bundle) :
    (∀ reference ∈ bundle.themeReads, c.registry.application.Provides reference ∨
      ∃ d ∈ c.registry.allDefinitions, ∃ v, c.registry.Unchecked d v ∧
        reference ∈ v.themeReferences) ∧
    (∀ g ∈ c.registry.styleGroups, ∃ x ∈ bundle.decls,
      (StyleSource.ofGlobal c.registry configuration g.2).decl = .ok x ∧
      ∀ reference ∈ x.themeReads, c.registry.application.Provides reference) ∧
    ((∀ reference ∈ bundle.themeReads, c.registry.application.Provides reference) ↔
      ∀ d ∈ c.registry.allDefinitions, ∀ v, c.registry.Unchecked d v → c.registry.Declared v) := by
  obtain ⟨styles, sources, emitted⟩ := generateGives filled ok
  obtain ⟨theme, themed⟩ := emitted.theme
  have provided : ∀ {reference}, c.registry.application.values.hasItem reference = true →
      c.registry.application.Provides reference := Application.declaredProvided themed
  have styled : ∀ x ∈ styles, ∀ reference ∈ x.themeReads,
      c.registry.application.Provides reference := by
    intro x listed reference read
    obtain ⟨g, inside, made⟩ := forallRight emitted.styled listed
    obtain ⟨entry, registered, rfl⟩ := List.mem_map.mp inside
    obtain ⟨_, _, _, found⟩ := Registry.groupsRead filled registered
    exact provided (StyleSource.declReads (StyleSource.globalTypeElsewhere _)
      (StyleGroup.readRead found) made reference read)
  have sourced : ∀ reference ∈ bundle.themeReads, c.registry.application.Provides reference ∨
      ∃ d ∈ c.registry.allDefinitions, ∃ v, c.registry.Unchecked d v ∧
        reference ∈ v.themeReferences := by
    intro reference read
    obtain ⟨x, held, read⟩ := List.mem_flatMap.mp read
    rcases emitted.only x held with listed | ⟨path, rfl⟩
    · rcases List.mem_append.mp listed with style | generated
      · exact .inl (styled x style reference read)
      -- what a class reads comes from it or from a component inside it, which is registered with it
      · obtain ⟨source, inside, rfl⟩ := List.mem_map.mp generated
        obtain ⟨d, registered, made⟩ := forallRight emitted.classes inside
        rcases Registry.classSourced filled d (Registry.definitionIncluded registered) source made
          reference read with declared | ⟨y, within, v, unchecked⟩
        · exact .inl (provided declared)
        · exact .inr ⟨y, List.mem_flatMap.mpr ⟨d, registered, within⟩, v, unchecked⟩
    · simp [sourceComment, Decl.themeReads, Decl.trails] at read
  refine ⟨sourced, fun g registered => ?_, fun all d member v unchecked reference refers => ?_,
    fun all reference read => ?_⟩
  · obtain ⟨x, listed, made⟩ := forallLeft emitted.styled (List.mem_map_of_mem registered)
    exact ⟨x, emitted.holds x (List.mem_append_left _ listed), made, styled x listed⟩
  · obtain ⟨outer, registered, within⟩ := List.mem_flatMap.mp member
    obtain ⟨source, inside, made⟩ := forallLeft emitted.classes registered
    have read := Registry.classReads filled outer (Registry.definitionIncluded registered) source
      made d within v unchecked reference refers
    have held := emitted.holds _ (List.mem_append_right _ (List.mem_map_of_mem inside))
    exact (all reference (List.mem_flatMap.mpr ⟨_, held, read⟩)).declared
  · rcases sourced reference read with given | ⟨d, member, v, unchecked, refers⟩
    · exact given
    · exact provided (all d member v unchecked reference refers)

/- One colour is declared. The card has a state item with a themed default, which the page sets. -/
def tinted : Application :=
  (Application.parse ("<Application><Colors><item name=\"accent\" default=\"orange\"/></Colors>" ++
    "</Application>")).toOption.getD {}

theorem tintedParsed : tinted =
    { themes := ["default"]
      defaultTheme := "default"
      values := { colors := [("accent", [("default", ⟨.named "orange", []⟩)])] } } := by
  rw [tinted, Application.parse, Markup.parseLetters ?letters]
  case letters => exact Text.lettersAppend rfl rfl
  decide +kernel

def cardFile (color : String) : SourceFile :=
  .component "Card.ui.xml" ("<Card><state><item name=\"tint\" type=\"Color\" default=\":" ++
    color ++ "\"/></state><View id=\"v\" backgroundColor=\"$tint\"/></Card>")

def tintedFiles : List SourceFile := [
  .sheet "Main.styles.xml"
    "<styleGroup name=\"Main\"><ViewStyle name=\"card\" tintColor=\":accent\"/></styleGroup>",
  cardFile "accent", .component "Page.ui.xml" "<Page><Card id=\"card\" tint=\":accent\"/></Page>"]

def tintedProject (files : List SourceFile) : Result (Compilation × SourceBundle) := do
  let xs ← files.mapM (SourceFile.contribution .iOS)
  let c := xs.foldl take (start .iOS tinted "App.xml")
  let b ← ((c.generate { platform := .iOS }).outcome {}).1
  return (c, b)

theorem tintedGives {files : List SourceFile} {c : Compilation} {b : SourceBundle}
    (made : tintedProject files = .ok (c, b)) :
    (start .iOS tinted "App.xml").Registers files {} c ∧ c.Generates { platform := .iOS } b ∧
      c.registry.Filled ∧ c.registry.application = tinted := by
  obtain ⟨xs, contributed, made⟩ := Result.bindOk.mp made
  obtain ⟨bundle, generated, last⟩ := Result.bindOk.mp made
  cases last
  refine ⟨?_, generated, takeAllFilled (.empty _ _) contributed, (takeAllKeeps _ xs).2.1⟩
  rw [Registers, registerAll]
  exact Result.mapOk.mpr ⟨xs, contributed, rfl⟩

theorem tintedReads : ∃ c b, (start .iOS tinted "App.xml").Registers tintedFiles {} c ∧
    c.Generates { platform := .iOS } b ∧ ⟨.color, "accent"⟩ ∈ b.themeReads ∧
    ∀ d ∈ c.registry.allDefinitions, ∀ v, c.registry.Unchecked d v → c.registry.Declared v := by
  have computed : (tintedProject tintedFiles).toOption.any (fun made =>
      made.2.themeReads.contains ⟨.color, "accent"⟩ && made.2.themeReads.all fun reference =>
        tinted.values.hasItem reference &&
          tinted.themes.all fun theme => tinted.values.provides theme reference) = true := by
    have main : tintedFiles[0].contribution .iOS = _ := SourceFile.sheetLetters rfl _
    have card : (cardFile "accent").contribution .iOS = _ := SourceFile.componentLetters
      (Text.lettersAppend (Text.lettersAppend rfl rfl) rfl) _
    have page : tintedFiles[2].contribution .iOS = _ := SourceFile.componentLetters rfl _
    simp only [tintedFiles, List.getElem_cons_zero, List.getElem_cons_succ] at main page
    simp only [tintedProject, tintedFiles, List.mapM_cons, List.mapM_nil, tintedParsed, main, card,
      page]
    decide +kernel
  obtain ⟨⟨c, b⟩, made, holds⟩ := Result.anyOk computed
  obtain ⟨registers, generates, filled, application⟩ := tintedGives made
  obtain ⟨accent, all⟩ := (Bool.and_eq_true _ _).mp holds
  refine ⟨c, b, registers, generates, List.contains_iff_mem.mp accent, ?_⟩
  refine (themeReadsProvided filled generates).2.2.mp fun reference read => ?_
  have given := List.all_eq_true.mp all reference read
  obtain ⟨declared, complete⟩ := (Bool.and_eq_true _ _).mp given
  rw [application]
  exact ⟨declared, List.all_eq_true.mp complete⟩

theorem ghostRead : ∃ c b, (start .iOS tinted "App.xml").Registers [cardFile "ghost"] {} c ∧
    c.Generates { platform := .iOS } b ∧ ⟨.color, "ghost"⟩ ∈ b.themeReads ∧
      ¬ c.registry.application.Provides ⟨.color, "ghost"⟩ := by
  have computed : (tintedProject [cardFile "ghost"]).toOption.any (fun made =>
      made.2.themeReads.contains ⟨.color, "ghost"⟩) = true := by
    have card : (cardFile "ghost").contribution .iOS = _ := SourceFile.componentLetters
      (Text.lettersAppend (Text.lettersAppend rfl rfl) rfl) _
    simp only [tintedProject, List.mapM_cons, List.mapM_nil, tintedParsed, card]
    decide +kernel
  have missing : tinted.values.hasItem ⟨.color, "ghost"⟩ = false := by
    rw [tintedParsed]
    rfl
  obtain ⟨⟨c, b⟩, made, ghost⟩ := Result.anyOk computed
  obtain ⟨registers, generates, _, application⟩ := tintedGives made
  refine ⟨c, b, registers, generates, List.contains_iff_mem.mp ghost, fun given => ?_⟩
  rw [application] at given
  cases missing.symm.trans given.declared

end Compilation
end ViewForge
