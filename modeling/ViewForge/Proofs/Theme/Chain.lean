import ViewForge.Proofs.Markup
import ViewForge.Proofs.Theme
import ViewForge.Value.Live

/-! Where the references between themed items lead. An item may stand for another one of its
category, in every theme for a different one. Evaluating it follows these references up to a limit,
and its accessor follows them as code, without one. Whether they come to an end, nothing checks:
neither when the description is read nor when the themes are declared. -/
namespace ViewForge
open Code (Expr Stmt Decl Block Trail)

def ThemeReference.value : ThemeReference → Value
  | ⟨.color, item⟩ => .color ⟨.themed item, []⟩
  | ⟨.font, item⟩ => .font (.themed item)
  | ⟨.image, item⟩ => .image (.themed item)

namespace ThemeValues

variable (values : ThemeValues) (theme : String)

def next? (category : ThemeCategory) (item : String) : Option String :=
  match category with
  | .color => (values.colors.get? theme item).bind Application.colorReference?
  | .font => (values.fonts.get? theme item).bind Application.fontReference?
  | .image => (values.images.get? theme item).bind Application.imageReference?

end ThemeValues

/-- The references from the item end at a value, after so many items at most. -/
inductive EndsWithin (next? : String → Option String) : Nat → String → Prop where
  | value {steps : Nat} {item : String} (ends : next? item = none) :
      EndsWithin next? (steps + 1) item
  | reference {steps : Nat} {item other : String} (refers : next? item = some other)
      (rest : EndsWithin next? steps other) : EndsWithin next? (steps + 1) item

theorem endsAccessible {next? : String → Option String} {item : String} {steps : Nat}
    (ends : EndsWithin next? steps item) :
    Acc (fun other item => next? item = some other) item := by
  induction ends with
  | value ends => exact ⟨_, fun other refers => by rw [ends] at refers; cases refers⟩
  | reference refers _ ih =>
    refine ⟨_, fun other again => ?_⟩
    rw [refers] at again
    cases again
    exact ih

structure Follows {β : Type} (next? : String → Option String) (IsItem : String → Prop)
    (run : Nat → String → Result β) : Prop where
  closed : ∀ item other, IsItem item → next? item = some other → IsItem other
  stops : ∀ item, run 0 item = .error (LiveContext.cyclic item)
  ends : ∀ item steps, IsItem item → next? item = none → ∃ v, run (steps + 1) item = .ok v
  goes : ∀ item other steps, next? item = some other →
    ∃ f : β → β, run (steps + 1) item = (run steps other).map f

theorem followsExactly {β : Type} {next? : String → Option String} {IsItem : String → Prop}
    {run : Nat → String → Result β} (follows : Follows next? IsItem run) {item : String}
    (known : IsItem item) (steps : Nat) :
    ((∃ v, run steps item = .ok v) ↔ EndsWithin next? steps item) ∧
      ∀ e, run steps item = .error e → ∃ last, e = LiveContext.cyclic last := by
  induction steps generalizing item with
  | zero =>
    rw [follows.stops]
    refine ⟨⟨?_, ?_⟩, ?_⟩
    · rintro ⟨v, none⟩
      cases none
    · rintro ⟨⟩
    · rintro e ⟨⟩
      exact ⟨item, rfl⟩
  | succ steps ih =>
    cases refers : next? item with
    | none =>
      obtain ⟨v, given⟩ := follows.ends item steps known refers
      refine ⟨⟨fun _ => .value refers, fun _ => ⟨v, given⟩⟩, fun e failed => ?_⟩
      rw [given] at failed
      cases failed
    | some other =>
      obtain ⟨f, same⟩ := follows.goes item other steps refers
      obtain ⟨exactly, failures⟩ := ih (follows.closed item other known refers)
      rw [same]
      refine ⟨⟨?_, ?_⟩, fun e failed => ?_⟩
      · rintro ⟨v, given⟩
        obtain ⟨w, inner, _⟩ := Result.mapOk.mp given
        exact .reference refers (exactly.mp ⟨w, inner⟩)
      · intro ends
        cases ends with
        | value ends => rw [ends] at refers; cases refers
        | reference again rest =>
          rw [refers] at again
          cases again
          obtain ⟨w, inner⟩ := exactly.mpr rest
          exact ⟨f w, by rw [inner]; rfl⟩
      · cases inner : run steps other with
        | error e' =>
          rw [inner] at failed
          cases failed
          exact failures e inner
        | ok w =>
          rw [inner] at failed
          cases failed

def selfReads (trails : List Trail) : List String :=
  trails.filterMap fun
    | "self" :: item :: _ => some item
    | _ => none

namespace Code

def Decl.getter? : Decl → Option (String × Block)
  | .property p => p.getter.map fun getter => (p.name, getter)
  | _ => none

def Decl.gettersIn (typeName : String) : Decl → List (String × Block)
  | .type _ _ _ name _ inner => if name = typeName then inner.filterMap getter? else []
  | _ => []

def Decl.accessors (category : ThemeCategory) : Decl → List (String × Block)
  | .enumeration _ _ _ _ members =>
    members.flatMap (·.gettersIn (Text.capitalized category.plural))
  | _ => []

def Case.asked (theme : String) : Case → List String
  | .on [.implicitMember name] body =>
    if name = theme then selfReads (Stmt.allTrails body) else []
  | _ => []

def Stmt.asked (theme : String) : Stmt → List String
  | .switch (.identifier "theme") cases => cases.flatMap (·.asked theme)
  | s => selfReads s.trails

def Decl.Calls (decl : Decl) (category : ThemeCategory) (theme item other : String) : Prop :=
  ∃ getter, (item, getter) ∈ decl.accessors category ∧ other ∈ getter.flatMap (·.asked theme)

end Code

section Accessors

theorem siblingReads (category : ThemeCategory) (item : String) (after : List String) :
    selfReads ((ThemeAccess.siblings.item category item).trails after) = [item] := rfl

theorem Color.codeSelf (c : Color) (after : List String) :
    selfReads ((c.code .siblings).trails after) = (Application.colorReference? c).toList := by
  obtain ⟨base, modifiers⟩ := c
  have start : ∀ after, selfReads ((base.code .siblings).trails after) =
      (Application.colorReference? ⟨base, []⟩).toList := by
    intro after
    cases base with
    | themed name => exact siblingReads .color name after
    | _ => simp [Base.code, Expr.trails, Application.colorReference?, selfReads]
  have whole : Application.colorReference? ⟨base, modifiers⟩ =
      Application.colorReference? ⟨base, []⟩ := rfl
  rw [whole]
  unfold code
  simp only
  generalize base.code .siblings = target at start ⊢
  clear whole
  induction modifiers generalizing target after with
  | nil => exact start after
  | cons m rest ih =>
    refine ih after _ fun after => ?_
    simp [Modifier.code, start]

theorem Font.codeSelf (f : Font) :
    selfReads ((f.code .siblings).trails []) = (Application.fontReference? f).toList := by
  cases f with
  | themed name => exact siblingReads .font name []
  | _ => simp [Font.code, Expr.trails, Application.fontReference?, selfReads]

theorem Image.codeSelf (i : Image) :
    selfReads ((i.code .siblings).trails []) = (Application.imageReference? i).toList := by
  cases i with
  | themed name => exact siblingReads .image name []
  | named name => simp [Image.code, Expr.trails, Application.imageReference?, selfReads]

variable {α : Type} {c : Configuration} {themes : List String} {typeName : String}
  {code : α → Expr} {reference? : α → Option String}

theorem casesAsk (reads : ∀ v, selfReads ((code v).trails []) = (reference? v).toList)
    {item : String} {values : List (String × α)} {found : List Code.Case}
    (ok : ThemeSource.cases item values code themes = .ok found) {theme : String}
    (listed : theme ∈ themes) {other : String} :
    other ∈ found.flatMap (·.asked theme) ↔
      (values.lookup theme).bind reference? = some other := by
  -- one theme may be listed twice, and is then asked in the same way again
  have each : ∀ {themes : List String} {found : List Code.Case},
      ThemeSource.cases item values code themes = .ok found →
      (other ∈ found.flatMap (·.asked theme) ↔
        theme ∈ themes ∧ (values.lookup theme).bind reference? = some other) := by
    intro themes
    induction themes with
    | nil =>
      intro found ok
      cases ok
      simp
    | cons first rest ih =>
      intro found ok
      rw [ThemeSource.cases] at ok
      split at ok
      · cases ok
      · rename_i value given
        obtain ⟨others, more, last⟩ := Result.bindOk.mp ok
        cases last
        rw [List.flatMap_cons, List.mem_append, ih more, List.mem_cons]
        by_cases same : first = theme
        · subst same
          simp [Code.Case.asked, Stmt.trails, reads, given, Option.mem_toList]
        · simp [Code.Case.asked, same, Ne.symm same]
  rw [each ok]
  exact and_iff_right listed

theorem accessorsMade {items : ThemedItems α} {found : List Decl}
    (ok : ThemeSource.accessors c themes typeName code items = .ok found) :
    List.Forall₂ (fun entry made => made.1 = entry.1 ∧
      ∃ cases, ThemeSource.cases entry.1 entry.2 code themes = .ok cases ∧
        made.2 = [.switch (.identifier "theme") cases]) items (found.filterMap Decl.getter?) := by
  induction items generalizing found with
  | nil =>
    cases ok
    exact .nil
  | cons entry rest ih =>
    obtain ⟨item, values⟩ := entry
    rw [ThemeSource.accessors] at ok
    obtain ⟨cases, made, ok⟩ := Result.bindOk.mp ok
    obtain ⟨others, more, last⟩ := Result.bindOk.mp ok
    cases last
    exact .cons ⟨rfl, cases, made, rfl⟩ (ih more)

/- Items are distinct, so that the accessor of an item is the one that is made from its values. -/
theorem accessorsAsk (reads : ∀ v, selfReads ((code v).trails []) = (reference? v).toList)
    {items : ThemedItems α} (distinct : (items.map Prod.fst).Nodup) {found : List Decl}
    (ok : ThemeSource.accessors c themes typeName code items = .ok found) {theme : String}
    (listed : theme ∈ themes) {item other : String} :
    (∃ getter, (item, getter) ∈ found.filterMap Decl.getter? ∧
      other ∈ getter.flatMap (·.asked theme)) ↔
      (items.get? theme item).bind reference? = some other := by
  have made := accessorsMade ok
  have whole : ∀ {values : List (String × α)} {cases : List Code.Case},
      items.lookup item = some values → ThemeSource.cases item values code themes = .ok cases →
      (other ∈ ([.switch (.identifier "theme") cases] : Block).flatMap (·.asked theme) ↔
        (items.get? theme item).bind reference? = some other) := by
    intro values cases known given
    rw [ThemedItems.get?, known, Option.bind_some, ← casesAsk reads given listed,
      List.flatMap_singleton]
    rfl
  constructor
  · rintro ⟨getter, member, asked⟩
    obtain ⟨⟨_, values⟩, inside, rfl, cases, given, rfl⟩ := forallRight made member
    exact (whole (Ordered.lookupOfMem distinct inside) given).mp asked
  · intro refers
    cases known : items.lookup item with
    | none =>
      rw [ThemedItems.get?, known] at refers
      cases refers
    | some values =>
      obtain ⟨⟨_, getter⟩, member, rfl, cases, given, rfl⟩ :=
        forallLeft made (Ordered.memOfLookup known)
      exact ⟨_, member, (whole known given).mpr refers⟩

end Accessors

namespace Application

variable {app : Application} {c : Configuration} {decl : Decl}

theorem categoryGetters {α : Type} {themes : List String} {category : ThemeCategory}
    {typeName : String} {items : ThemedItems α} {code : α → Expr} {made : List Decl}
    (ok : ThemeSource.category c themes category typeName items code = .ok made) :
    ∃ found, ThemeSource.accessors c themes typeName code items = .ok found ∧ ∀ name,
      made.flatMap (·.gettersIn name) =
        if Text.capitalized category.plural = name then found.filterMap Decl.getter? else [] := by
  obtain ⟨found, members, last⟩ := Result.bindOk.mp ok
  cases last
  refine ⟨found, members, fun name => ?_⟩
  have plain : ∀ p : Code.Property, p.getter = none →
      (Decl.property p :: found).filterMap Decl.getter? = found.filterMap Decl.getter? := by
    intro p none
    rw [List.filterMap_cons, Decl.getter?, none]
    rfl
  simp only [List.flatMap_cons, List.flatMap_nil, Decl.gettersIn, List.nil_append, List.append_nil]
  rw [plain _ rfl]

structure Distinct (values : ThemeValues) : Prop where
  colors : (values.colors.map Prod.fst).Nodup
  fonts : (values.fonts.map Prod.fst).Nodup
  images : (values.images.map Prod.fst).Nodup

theorem callsExactly (distinct : Distinct app.values) (ok : app.themeDecl c = .ok decl)
    {theme : String} (listed : theme ∈ app.themes) {category : ThemeCategory}
    {item other : String} :
    decl.Calls category theme item other ↔
      app.values.next? theme category item = some other := by
  obtain ⟨colors, colored, ok⟩ := Result.bindOk.mp ok
  obtain ⟨images, pictured, ok⟩ := Result.bindOk.mp ok
  obtain ⟨fonts, lettered, last⟩ := Result.bindOk.mp ok
  cases last
  obtain ⟨foundColors, colorsMade, inColors⟩ := categoryGetters colored
  obtain ⟨foundImages, imagesMade, inImages⟩ := categoryGetters pictured
  obtain ⟨foundFonts, fontsMade, inFonts⟩ := categoryGetters lettered
  have elsewhere : ∀ name, (ThemeSource.selector c app).flatMap (Decl.gettersIn name) = [] :=
    fun _ => rfl
  have apart : Text.capitalized ThemeCategory.color.plural = "Colors" ∧
      Text.capitalized ThemeCategory.image.plural = "Images" ∧
      Text.capitalized ThemeCategory.font.plural = "Fonts" := by decide +kernel
  obtain ⟨colorName, imageName, fontName⟩ := apart
  unfold Decl.Calls Decl.accessors
  simp only [List.flatMap_append, elsewhere, inColors, inImages, inFonts, colorName, imageName,
    fontName, List.nil_append]
  cases category with
  | color =>
    rw [colorName, if_pos rfl, if_neg (by decide), if_neg (by decide), List.append_nil,
      List.append_nil]
    exact accessorsAsk (fun v => v.codeSelf []) distinct.colors colorsMade listed
  | font =>
    rw [fontName, if_pos rfl, if_neg (by decide), if_neg (by decide), List.nil_append,
      List.nil_append]
    exact accessorsAsk Font.codeSelf distinct.fonts fontsMade listed
  | image =>
    rw [imageName, if_pos rfl, if_neg (by decide), if_neg (by decide), List.nil_append,
      List.append_nil]
    exact accessorsAsk Image.codeSelf distinct.images imagesMade listed

theorem readItemsDistinct {α : Type} {category : String} {themes : List String}
    {parse : String → Result α} {before found : ThemedItems α} {nodes : List Markup.Node}
    (distinct : (before.map Prod.fst).Nodup)
    (ok : readItems category themes parse before nodes = .ok found) :
    (found.map Prod.fst).Nodup := by
  induction nodes generalizing before with
  | nil =>
    cases ok
    exact distinct
  | cons node rest ih =>
    rw [readItems] at ok
    split at ok
    · cases ok
    · rename_i name _
      obtain ⟨values, _, ok⟩ := Result.bindOk.mp ok
      simp only at ok
      split at ok
      · cases ok
      · rename_i fresh
        refine ih ?_ ok
        rw [List.map_append, List.map_singleton, ← List.concat_eq_append]
        refine distinct.concat fun again => fresh ?_
        obtain ⟨⟨_, value⟩, member, rfl⟩ := List.mem_map.mp again
        rw [Ordered.lookupOfMem distinct member]
        rfl

theorem readCategoryDistinct {α : Type} {root : Markup.Node} {category : String}
    {themes : List String} {parse : String → Result α} {found : ThemedItems α}
    (ok : readCategory root category themes parse = .ok found) : (found.map Prod.fst).Nodup := by
  unfold readCategory at ok
  split at ok
  · exact readItemsDistinct (by simp) ok
  · cases ok
    simp

theorem checkItemsDeclared {α : Type} {values : ThemeValues} {category : ThemeCategory}
    {reference? : α → Option String} {entries : List (String × α)}
    (ok : checkItems values category reference? entries = .ok ()) :
    ∀ entry ∈ entries, ∀ other, reference? entry.2 = some other →
      values.hasItem ⟨category, other⟩ = true := by
  induction entries with
  | nil => simp
  | cons entry rest ih =>
    obtain ⟨theme, value⟩ := entry
    rw [checkItems] at ok
    split at ok
    · rename_i item refers
      split at ok
      · rename_i known
        refine List.forall_mem_cons.mpr ⟨fun other same => ?_, ih ok⟩
        rw [refers] at same
        cases same
        exact known
      · cases ok
    · rename_i none
      refine List.forall_mem_cons.mpr ⟨fun other same => ?_, ih ok⟩
      rw [none] at same
      cases same

structure Checked (values : ThemeValues) : Prop where
  distinct : Distinct values
  closed : ∀ theme category item other, values.next? theme category item = some other →
    values.hasItem ⟨category, other⟩ = true

theorem givenListed {α : Type} {items : ThemedItems α} {theme item : String} {value : α}
    (given : items.get? theme item = some value) : (theme, value) ∈ items.flatMap (·.2) := by
  obtain ⟨values, known, found⟩ := Option.bind_eq_some_iff.mp given
  exact List.mem_flatMap.mpr ⟨_, Ordered.memOfLookup known, Ordered.memOfLookup found⟩

theorem checkValuesClosed {values : ThemeValues} (ok : checkValues values = .ok ())
    (theme : String) (category : ThemeCategory) (item other : String)
    (refers : values.next? theme category item = some other) :
    values.hasItem ⟨category, other⟩ = true := by
  obtain ⟨_, colors, ok⟩ := Result.bindOk.mp ok
  obtain ⟨_, fonts, images⟩ := Result.bindOk.mp ok
  cases category with
  | color =>
    obtain ⟨value, given, same⟩ := Option.bind_eq_some_iff.mp refers
    exact checkItemsDeclared colors _ (givenListed given) other same
  | font =>
    obtain ⟨value, given, same⟩ := Option.bind_eq_some_iff.mp refers
    exact checkItemsDeclared fonts _ (givenListed given) other same
  | image =>
    obtain ⟨value, given, same⟩ := Option.bind_eq_some_iff.mp refers
    exact checkItemsDeclared images _ (givenListed given) other same

theorem parseChecked {source : String} (ok : parse source = .ok app) : Checked app.values := by
  unfold parse at ok
  obtain ⟨root, _, ok⟩ := Result.bindOk.mp ok
  simp only at ok
  split at ok
  · cases ok
  · obtain ⟨theme, _, ok⟩ := Result.bindOk.mp ok
    obtain ⟨colors, colored, ok⟩ := Result.bindOk.mp ok
    obtain ⟨images, pictured, ok⟩ := Result.bindOk.mp ok
    obtain ⟨fonts, lettered, ok⟩ := Result.bindOk.mp ok
    obtain ⟨_, checked, last⟩ := Result.bindOk.mp ok
    cases last
    exact ⟨⟨readCategoryDistinct colored, readCategoryDistinct lettered,
      readCategoryDistinct pictured⟩, checkValuesClosed checked⟩

end Application

namespace LiveContext

variable {values : ThemeValues} {theme : String}

def IsItem (values : ThemeValues) (theme : String) (category : ThemeCategory) (item : String) :
    Prop := values.provides theme ⟨category, item⟩ = true

theorem adjustNothing (color : LiveColor) : LiveColor.adjust [] color = color := by
  cases color with
  | rgba channels => rfl
  | system name before => rw [LiveColor.adjust, List.append_nil]

theorem colorEnds {c : Color} (ends : Application.colorReference? c = none) (steps : Nat) :
    ∃ v, color ⟨theme, values⟩ steps c = .ok v := by
  obtain ⟨base, modifiers⟩ := c
  cases base with
  | themed name => cases ends
  | _ => cases steps <;> exact ⟨_, rfl⟩

/- The adjustments of a reference come after those of the items on the way. -/
theorem colorAdjusted (steps : Nat) (item : String) (modifiers : List Color.Modifier) :
    color ⟨theme, values⟩ steps ⟨.themed item, modifiers⟩ =
      (color ⟨theme, values⟩ steps ⟨.themed item, []⟩).map (LiveColor.adjust modifiers) := by
  cases steps with
  | zero => rfl
  | succ steps =>
    rw [color, color]
    simp only
    split
    · rfl
    · rename_i next _
      cases color ⟨theme, values⟩ steps next with
      | error e => rfl
      | ok v =>
        simp only [Except.map]
        rw [adjustNothing]

section Categories

variable (closed : ∀ category item other, IsItem values theme category item →
  values.next? theme category item = some other → IsItem values theme category other)
include closed

theorem colorFollows : Follows (values.next? theme .color) (IsItem values theme .color)
    fun steps item => color ⟨theme, values⟩ steps ⟨.themed item, []⟩ where
  closed := closed .color
  stops item := rfl
  ends item steps known ends := by
    obtain ⟨value, given⟩ := Option.isSome_iff_exists.mp known
    rw [ThemeValues.next?, given, Option.bind_some] at ends
    obtain ⟨v, found⟩ : ∃ v, color ⟨theme, values⟩ steps value = .ok v := colorEnds ends steps
    exact ⟨v, by simp only [color, given, found, Except.map, adjustNothing]⟩
  goes item other steps refers := by
    obtain ⟨⟨base, modifiers⟩, given, same⟩ := Option.bind_eq_some_iff.mp refers
    cases base with
    | themed name =>
      cases same
      refine ⟨LiveColor.adjust modifiers, ?_⟩
      simp only [color, given]
      rw [colorAdjusted]
      cases color ⟨theme, values⟩ steps ⟨.themed other, []⟩ with
      | error e => rfl
      | ok v => simp only [Except.map, adjustNothing]
    | _ => cases same

theorem fontFollows : Follows (values.next? theme .font) (IsItem values theme .font)
    fun steps item => font ⟨theme, values⟩ steps (.themed item) where
  closed := closed .font
  stops item := rfl
  ends item steps known ends := by
    obtain ⟨value, given⟩ := Option.isSome_iff_exists.mp known
    rw [ThemeValues.next?, given, Option.bind_some] at ends
    simp only [font, given]
    cases value with
    | themed name => cases ends
    | _ => cases steps <;> exact ⟨_, rfl⟩
  goes item other steps refers := by
    obtain ⟨value, given, same⟩ := Option.bind_eq_some_iff.mp refers
    simp only [font, given]
    cases value with
    | themed name =>
      cases same
      exact ⟨id, by cases font ⟨theme, values⟩ steps (.themed other) <;> rfl⟩
    | _ => cases same

theorem imageFollows : Follows (values.next? theme .image) (IsItem values theme .image)
    fun steps item => image ⟨theme, values⟩ steps (.themed item) where
  closed := closed .image
  stops item := rfl
  ends item steps known ends := by
    obtain ⟨value, given⟩ := Option.isSome_iff_exists.mp known
    rw [ThemeValues.next?, given, Option.bind_some] at ends
    simp only [image, given]
    cases value with
    | themed name => cases ends
    | named name => cases steps <;> exact ⟨_, rfl⟩
  goes item other steps refers := by
    obtain ⟨value, given, same⟩ := Option.bind_eq_some_iff.mp refers
    simp only [image, given]
    cases value with
    | themed name =>
      cases same
      exact ⟨id, by cases image ⟨theme, values⟩ steps (.themed other) <;> rfl⟩
    | named name => cases same

/- An item is evaluated with as many steps as the limit allows. -/
theorem liveExactly {reference : ThemeReference}
    (known : IsItem values theme reference.category reference.item) :
    ((∃ v, reference.value.live ⟨theme, values⟩ = .ok v) ↔
      EndsWithin (values.next? theme reference.category) themeChainLimit reference.item) ∧
    ∀ e, reference.value.live ⟨theme, values⟩ = .error e → ∃ last, e = cyclic last := by
  obtain ⟨category, item⟩ := reference
  cases category with
  | color =>
    obtain ⟨exactly, failures⟩ := followsExactly (colorFollows closed) known themeChainLimit
    refine ⟨⟨?_, ?_⟩, fun e failed => ?_⟩
    · rintro ⟨v, given⟩
      rw [ThemeReference.value, Value.live] at given
      obtain ⟨found, given, _⟩ := Result.mapOk.mp given
      exact exactly.mp ⟨found, given⟩
    · intro ends
      obtain ⟨found, given⟩ := exactly.mpr ends
      exact ⟨.color found, by rw [ThemeReference.value, Value.live]; exact congrArg _ given⟩
    · rw [ThemeReference.value, Value.live] at failed
      cases given : color ⟨theme, values⟩ themeChainLimit ⟨.themed item, []⟩ with
      | ok found =>
        rw [given] at failed
        cases failed
      | error e' =>
        rw [given] at failed
        cases failed
        exact failures e given
  | font =>
    rw [ThemeReference.value, Value.live]
    exact followsExactly (fontFollows closed) known themeChainLimit
  | image =>
    rw [ThemeReference.value, Value.live]
    exact followsExactly (imageFollows closed) known themeChainLimit

end Categories

end LiveContext

namespace Application

/- Reading the description and declaring the themes make sure that every reference leads to an item
that there is. How far the references lead they leave open, and only evaluation has a limit. -/
theorem evaluatedWithin {source : String} {app : Application} (parsed : parse source = .ok app)
    {c : Configuration} {decl : Decl} (ok : app.themeDecl c = .ok decl) {theme : String}
    (listed : theme ∈ app.themes) {reference : ThemeReference}
    (declared : app.values.hasItem reference = true) :
    ((∃ v, reference.value.live ⟨theme, app.values⟩ = .ok v) ↔
      EndsWithin (app.values.next? theme reference.category) themeChainLimit reference.item) ∧
    (∀ e, reference.value.live ⟨theme, app.values⟩ = .error e →
      ∃ last, e = LiveContext.cyclic last) ∧
    ((∃ steps, EndsWithin (app.values.next? theme reference.category) steps reference.item) →
      Acc (fun other item => decl.Calls reference.category theme item other) reference.item) := by
  have checked := parseChecked parsed
  have provided : ∀ {reference : ThemeReference}, app.values.hasItem reference = true →
      LiveContext.IsItem app.values theme reference.category reference.item := fun declared =>
    (declaredProvided ok declared).complete theme listed
  obtain ⟨exactly, failures⟩ := LiveContext.liveExactly
    (fun category item other _ refers => provided (checked.closed theme category item other refers))
    (provided declared)
  have calls : ∀ item other, decl.Calls reference.category theme item other ↔
      app.values.next? theme reference.category item = some other :=
    fun _ _ => callsExactly checked.distinct ok listed
  refine ⟨exactly, failures, ?_⟩
  rintro ⟨steps, ends⟩
  simp only [calls]
  exact endsAccessible ends

section Themes

def appOf (source : String) : Application := (parse source).toOption.getD {}

def declOf (source : String) : Decl :=
  ((appOf source).themeDecl { platform := .iOS }).toOption.getD (.comment "")

structure Accepted (source theme : String) (reference : ThemeReference) : Prop where
  parsed : parse source = .ok (appOf source)
  made : (appOf source).themeDecl { platform := .iOS } = .ok (declOf source)
  listed : theme ∈ (appOf source).themes
  declared : (appOf source).values.hasItem reference = true

def Evaluates (source theme : String) (reference : ThemeReference) : Prop :=
  ∃ v, reference.value.live ⟨theme, (appOf source).values⟩ = .ok v

/-- The accessor of the item does not call others, or itself, forever. -/
def Returns (source theme : String) (reference : ThemeReference) : Prop :=
  Acc (fun other item => (declOf source).Calls reference.category theme item other) reference.item

/- What makes a description accepted and whatever else is asked of it, from one reading. -/
def accepts (source theme : String) (reference : ThemeReference) (also : Application → Bool) :
    Bool :=
  (parse source).toOption.any fun app => (app.themeDecl { platform := .iOS }).isOk &&
    decide (theme ∈ app.themes) && app.values.hasItem reference && also app

theorem acceptedComputed {source theme : String} {reference : ThemeReference}
    {also : Application → Bool} (computed : accepts source theme reference also = true) :
    Accepted source theme reference ∧ also (appOf source) = true := by
  obtain ⟨app, parsed, checks⟩ := Result.anyOk computed
  have same : appOf source = app := by
    rw [appOf, parsed]
    rfl
  simp only [Bool.and_eq_true, decide_eq_true_eq] at checks
  obtain ⟨⟨⟨made, listed⟩, declared⟩, more⟩ := checks
  subst same
  exact ⟨⟨parsed, Result.okGetD made (.comment ""), listed, declared⟩, more⟩

theorem notEvaluated {source theme : String} {reference : ThemeReference}
    (failed : (reference.value.live ⟨theme, (appOf source).values⟩).isOk = false) :
    ¬ Evaluates source theme reference := by
  rintro ⟨v, evaluated⟩
  rw [evaluated] at failed
  cases failed

def nightSource : String :=
  "<Application><Themes><day/><night/></Themes><Colors><item name=\"a\" day=\"red\" night=\":b\"/>" ++
    "<item name=\"b\" day=\"red\" night=\"red\"/></Colors></Application>"

def nightChained (app : Application) : Bool :=
  app.values.next? "night" .color "a" == some "b" &&
    app.values.next? "night" .color "b" == none

theorem nightEvaluated : Accepted nightSource "night" ⟨.color, "a"⟩ ∧
    Evaluates nightSource "night" ⟨.color, "a"⟩ ∧
    Returns nightSource "night" ⟨.color, "a"⟩ := by
  have read : Markup.parse nightSource = _ := Markup.parseLetters (Text.lettersAppend rfl rfl)
  have computed : accepts nightSource "night" ⟨.color, "a"⟩ nightChained = true := by
    simp only [accepts, parse, read]
    decide +kernel
  obtain ⟨accepted, chained⟩ := acceptedComputed computed
  obtain ⟨refers, ends⟩ := (Bool.and_eq_true _ _).mp chained
  have chain : EndsWithin ((appOf nightSource).values.next? "night" .color) themeChainLimit "a" :=
    .reference (eq_of_beq refers) (.value (eq_of_beq ends))
  obtain ⟨exactly, _, returns⟩ := evaluatedWithin accepted.parsed accepted.made accepted.listed
    accepted.declared
  exact ⟨accepted, exactly.mpr chain, returns ⟨_, chain⟩⟩

def loopSource : String :=
  "<Application><Colors><item name=\"a\" default=\":a\"/></Colors></Application>"

theorem selfCallsForever {α : Type} {calls : α → α → Prop} {a : α} (again : calls a a) :
    ¬ Acc calls a := by
  intro accessible
  induction accessible with
  | intro a _ ih => exact ih a again again

def loopMade (app : Application) : Bool :=
  !(Value.live ⟨"default", app.values⟩ (ThemeReference.value ⟨.color, "a"⟩)).isOk &&
    (((app.themeDecl { platform := .iOS }).toOption.getD (.comment "")).accessors .color).map
      (fun entry => (entry.1, entry.2.flatMap (·.asked "default"))) == [("a", ["a"])]

/- An item that stands for itself is accepted. -/
theorem acceptedUnevaluated : Accepted loopSource "default" ⟨.color, "a"⟩ ∧
    ¬ Evaluates loopSource "default" ⟨.color, "a"⟩ ∧
    ¬ Returns loopSource "default" ⟨.color, "a"⟩ := by
  have read : Markup.parse loopSource = _ := Markup.parseLetters rfl
  have computed : accepts loopSource "default" ⟨.color, "a"⟩ loopMade = true := by
    simp only [accepts, parse, read]
    decide +kernel
  obtain ⟨accepted, looped⟩ := acceptedComputed computed
  obtain ⟨failed, asked⟩ := (Bool.and_eq_true _ _).mp looped
  have calls : (declOf loopSource).Calls .color "default" "a" "a" := by
    obtain ⟨⟨item, getter⟩, member, same⟩ :=
      List.mem_map.mp (eq_of_beq asked ▸ List.mem_singleton_self _)
    obtain ⟨rfl, reads⟩ := Prod.mk.inj same
    exact ⟨getter, member, by rw [reads]; exact List.mem_singleton_self _⟩
  exact ⟨accepted, notEvaluated (by simpa using failed), selfCallsForever calls⟩

end Themes

end Application

end ViewForge
