import ViewForge.Proofs.Ordered
import ViewForge.Proofs.Task
import ViewForge.Proofs.Trails
import ViewForge.Registry
import ViewForge.Source.Theme

/-! The theme items that code reads. The code of a value reads the items that the value refers to,
one for one, and an application that has a declaration provides every item that it declares. -/
namespace ViewForge
open Code (Expr Trail Decl)

namespace ThemeReference

def ofMembers? : List String → Option ThemeReference
  | plural :: item :: _ =>
    ([ThemeCategory.color, .font, .image].find? (·.plural == plural)).map (⟨·, item⟩)
  | _ => none

/-- The item that a trail reads: code reaches a theme as the active one, or as a variable. -/
def ofTrail? : Trail → Option ThemeReference
  | "theme" :: members => ofMembers? members
  | "ApplicationTheme" :: "current" :: members => ofMembers? members
  | _ => none

theorem shortNone {trail : Trail} (short : trail.length ≤ 2) : ofTrail? trail = none := by
  have few : ∀ members : List String, members.length ≤ 1 → ofMembers? members = none := by
    intro members short
    match members, short with
    | [], _ => rfl
    | [_], _ => rfl
  unfold ofTrail?
  split
  · exact few _ (Nat.le_of_succ_le_succ short)
  · exact few _ (Nat.le_of_succ_le (Nat.le_of_succ_le_succ short))
  · rfl

theorem elsewhereNone {head : String} (apart : head ≠ "theme") (inactive : head ≠ "ApplicationTheme")
    (members : List String) : ofTrail? (head :: members) = none := by
  unfold ofTrail?
  split <;> simp_all

end ThemeReference

def themeReads (trails : List Trail) : List ThemeReference :=
  trails.filterMap ThemeReference.ofTrail?

@[simp] theorem readsNil : themeReads [] = [] := rfl

theorem readsCons (trail : Trail) (rest : List Trail) :
    themeReads (trail :: rest) = (ThemeReference.ofTrail? trail).toList ++ themeReads rest := by
  unfold themeReads
  cases read : ThemeReference.ofTrail? trail <;> simp [read]

@[simp] theorem readsAppend (xs ys : List Trail) :
    themeReads (xs ++ ys) = themeReads xs ++ themeReads ys := List.filterMap_append

@[simp] theorem readsFlat {α : Type} (f : α → List Trail) (xs : List α) :
    themeReads (xs.flatMap f) = xs.flatMap fun x => themeReads (f x) := by
  induction xs with
  | nil => rfl
  | cons x rest ih => simp only [List.flatMap_cons, readsAppend, ih]

@[simp] theorem readsElsewhere {head : String} (apart : head ≠ "theme")
    (inactive : head ≠ "ApplicationTheme") (members : List String) (rest : List Trail) :
    themeReads ((head :: members) :: rest) = themeReads rest := by
  rw [readsCons, ThemeReference.elsewhereNone apart inactive]
  rfl

@[simp] theorem readsName (name : String) (rest : List Trail) :
    themeReads ([name] :: rest) = themeReads rest := by
  rw [readsCons, ThemeReference.shortNone (by simp)]
  rfl

@[simp] theorem readsMember (name member : String) (rest : List Trail) :
    themeReads ([name, member] :: rest) = themeReads rest := by
  rw [readsCons, ThemeReference.shortNone (by simp)]
  rfl

namespace Code.Decl

def themeReads (d : Decl) : List ThemeReference := ViewForge.themeReads d.trails

theorem memReads {kind : Code.TypeKind} {access : Code.Access} {modifiers inherits : List String}
    {name : String} {members : List Decl} {reference : ThemeReference} :
    reference ∈ (Decl.type kind access modifiers name inherits members).themeReads ↔
      ∃ x ∈ members, reference ∈ x.themeReads := by
  rw [themeReads, trails, allTrailsFlat, readsFlat, List.mem_flatMap]
  rfl

end Code.Decl

def ThemeAccess.IsReachable (access : ThemeAccess) : Prop :=
  access = .current ∨ access = .parameter "theme"

theorem ThemeAccess.itemReads {access : ThemeAccess} (reachable : access.IsReachable)
    (category : ThemeCategory) (name : String) (after : List String) :
    themeReads ((access.item category name).trails after) = [⟨category, name⟩] := by
  rcases reachable with rfl | rfl <;> cases category <;> rfl

section Values

variable {context : RenderContext}

@[simp] theorem numberTrails (x : Float) (after : List String) :
    (Expr.number x).trails after = [] := by rw [Expr.number, Expr.trails]

@[simp] theorem stringTrails (s : String) (after : List String) :
    (Expr.string s).trails after = [] := by rw [Expr.string, Expr.trails]

theorem Color.codeReads (reachable : context.theme.IsReachable) (c : Color) (after : List String) :
    themeReads ((c.code context.theme).trails after) = Value.colorReferences c := by
  obtain ⟨base, modifiers⟩ := c
  have start : ∀ after, themeReads ((base.code context.theme).trails after) =
      Value.colorReferences ⟨base, []⟩ := by
    intro after
    cases base with
    | themed name => exact ThemeAccess.itemReads reachable .color name after
    | _ => simp [Base.code, Expr.trails, Value.colorReferences]
  have whole : Value.colorReferences ⟨base, modifiers⟩ = Value.colorReferences ⟨base, []⟩ := rfl
  rw [whole]
  unfold code
  simp only
  generalize base.code context.theme = target at start ⊢
  clear whole
  induction modifiers generalizing target after with
  | nil => exact start after
  | cons m rest ih =>
    refine ih after _ fun after => ?_
    simp [Modifier.code, start]

mutual

theorem Value.codeReads (reachable : context.theme.IsReachable) (v : Value) (after : List String) :
    themeReads ((v.code context).trails after) = v.themeReferences := by
  cases v with
  | color c => rw [code, themeReferences]; exact c.codeReads reachable after
  | layerColor c => rw [code, Expr.trails, themeReferences]; exact c.codeReads reachable _
  | font f =>
    rw [code]
    cases f with
    | themed name => rw [themeReferences]; exact ThemeAccess.itemReads reachable .font name after
    | _ => simp [Font.code, Expr.trails, themeReferences]
  | image i =>
    rw [code]
    cases i with
    | themed name => rw [themeReferences]; exact ThemeAccess.itemReads reachable .image name after
    | named name => simp [Image.code, Expr.trails, themeReferences]
  | localized key =>
    rw [code]
    cases context.localizationTable <;> simp [localizedCode, Expr.trails, themeReferences]
  | array element items =>
    rw [code, Expr.trails, themeReferences]
    exact Value.codesRead reachable items
  | present wrapped value => rw [code, themeReferences]; exact value.codeReads reachable after
  | _ => simp [code, Expr.trails, Expr.boolean, Expr.nil, themeReferences]

theorem Value.codesRead (reachable : context.theme.IsReachable) (vs : List Value) :
    themeReads (Expr.allTrails (codes context vs)) = allReferences vs := by
  cases vs with
  | nil => rfl
  | cons v rest =>
    rw [codes, Expr.allTrails, readsAppend, allReferences, v.codeReads reachable,
      Value.codesRead reachable rest]

end

def Value.origins : List String :=
  ["NSLocalizedString", "UIColor", "UIFont", "UIImage", "CGPoint", "CGSize", "CGRect",
    "UIEdgeInsets", "ApplicationTheme", "theme"]

def beginsIn (origins : List String) (trail : Trail) : Prop :=
  ∃ origin ∈ origins, trail.head? = some origin

theorem ThemeAccess.itemBegins {access : ThemeAccess} (reachable : access.IsReachable)
    (category : ThemeCategory) (name : String) (after : List String) :
    ∀ trail ∈ (access.item category name).trails after, beginsIn Value.origins trail := by
  rcases reachable with rfl | rfl <;>
    simp [item, ThemeAccess.category, Expr.trails, beginsIn, Value.origins]

theorem Color.codeBegins (reachable : context.theme.IsReachable) (c : Color) (after : List String) :
    ∀ trail ∈ (c.code context.theme).trails after, beginsIn Value.origins trail := by
  obtain ⟨base, modifiers⟩ := c
  have start : ∀ after, ∀ trail ∈ (base.code context.theme).trails after,
      beginsIn Value.origins trail := by
    intro after
    cases base with
    | themed name => exact ThemeAccess.itemBegins reachable .color name after
    | _ => simp [Base.code, Expr.trails, beginsIn, Value.origins]
  unfold code
  simp only
  generalize base.code context.theme = target at start ⊢
  induction modifiers generalizing target after with
  | nil => exact start after
  | cons m rest ih =>
    refine ih after _ fun after => ?_
    simpa [Modifier.code] using start _

mutual

theorem Value.codeBegins (reachable : context.theme.IsReachable) (v : Value) (after : List String) :
    ∀ trail ∈ (v.code context).trails after, beginsIn Value.origins trail := by
  cases v with
  | color c => rw [code]; exact c.codeBegins reachable after
  | layerColor c => rw [code, Expr.trails]; exact c.codeBegins reachable _
  | font f =>
    rw [code]
    cases f with
    | themed name => exact ThemeAccess.itemBegins reachable .font name after
    | _ => simp [Font.code, Expr.trails, beginsIn, origins]
  | image i =>
    rw [code]
    cases i with
    | themed name => exact ThemeAccess.itemBegins reachable .image name after
    | named name => simp [Image.code, Expr.trails, beginsIn, origins]
  | localized key =>
    rw [code]
    cases context.localizationTable <;> simp [localizedCode, Expr.trails, beginsIn, origins]
  | array element items =>
    rw [code, Expr.trails]
    exact Value.codesBegin reachable items
  | present wrapped value => rw [code]; exact value.codeBegins reachable after
  | _ => simp [code, Expr.trails, Expr.boolean, Expr.nil, beginsIn, origins]

theorem Value.codesBegin (reachable : context.theme.IsReachable) (vs : List Value) :
    ∀ trail ∈ Expr.allTrails (codes context vs), beginsIn Value.origins trail := by
  cases vs with
  | nil => simp [codes]
  | cons v rest =>
    rw [codes, Expr.allTrails]
    exact List.forall_mem_append.mpr ⟨v.codeBegins reachable [], Value.codesBegin reachable rest⟩

end

end Values

def ThemeValues.provides (values : ThemeValues) (theme : String) (reference : ThemeReference) :
    Bool :=
  match reference.category with
  | .color => (values.colors.get? theme reference.item).isSome
  | .font => (values.fonts.get? theme reference.item).isSome
  | .image => (values.images.get? theme reference.item).isSome

namespace Application

structure Provides (app : Application) (reference : ThemeReference) : Prop where
  declared : app.values.hasItem reference = true
  complete : ∀ theme ∈ app.themes, app.values.provides theme reference = true

theorem casesComplete {α : Type} {item : String} {values : List (String × α)} {code : α → Expr}
    {themes : List String} {found : List Code.Case}
    (ok : ThemeSource.cases item values code themes = .ok found) :
    ∀ theme ∈ themes, (values.lookup theme).isSome = true := by
  induction themes generalizing found with
  | nil => simp
  | cons theme rest ih =>
    rw [ThemeSource.cases] at ok
    split at ok
    · cases ok
    · rename_i value given
      obtain ⟨others, more, _⟩ := Result.bindOk.mp ok
      exact List.forall_mem_cons.mpr ⟨by rw [given]; rfl, ih more⟩

theorem accessorsComplete {α : Type} {c : Configuration} {themes : List String} {typeName : String}
    {code : α → Expr} {items : ThemedItems α} {found : List Decl}
    (ok : ThemeSource.accessors c themes typeName code items = .ok found) :
    ∀ entry ∈ items, ∀ theme ∈ themes, (entry.2.lookup theme).isSome = true := by
  induction items generalizing found with
  | nil => simp
  | cons entry rest ih =>
    obtain ⟨item, values⟩ := entry
    rw [ThemeSource.accessors] at ok
    obtain ⟨cases, complete, ok⟩ := Result.bindOk.mp ok
    obtain ⟨others, more, _⟩ := Result.bindOk.mp ok
    exact List.forall_mem_cons.mpr ⟨casesComplete complete, ih more⟩

theorem categoryComplete {α : Type} {c : Configuration} {themes : List String}
    {category : ThemeCategory} {typeName : String} {items : ThemedItems α} {code : α → Expr}
    {found : List Decl} (ok : ThemeSource.category c themes category typeName items code = .ok found)
    {item : String} (declared : (items.lookup item).isSome = true) :
    ∀ theme ∈ themes, (items.get? theme item).isSome = true := by
  intro theme listed
  obtain ⟨values, looked⟩ := Option.isSome_iff_exists.mp declared
  obtain ⟨members, made, _⟩ := Result.bindOk.mp ok
  rw [ThemedItems.get?, looked, Option.bind_some]
  exact accessorsComplete made _ (Ordered.memOfLookup looked) theme listed

theorem declaredProvided {app : Application} {c : Configuration} {decl : Decl}
    (ok : app.themeDecl c = .ok decl) {reference : ThemeReference}
    (declared : app.values.hasItem reference = true) : app.Provides reference := by
  refine ⟨declared, ?_⟩
  obtain ⟨colors, colored, ok⟩ := Result.bindOk.mp ok
  obtain ⟨images, pictured, ok⟩ := Result.bindOk.mp ok
  obtain ⟨fonts, lettered, _⟩ := Result.bindOk.mp ok
  obtain ⟨category, item⟩ := reference
  cases category with
  | color => exact categoryComplete colored declared
  | font => exact categoryComplete lettered declared
  | image => exact categoryComplete pictured declared

theorem checkedDeclared {app : Application} {value : Value}
    (ok : app.checkReferences value = .ok ()) :
    ∀ reference ∈ value.themeReferences, app.values.hasItem reference = true := by
  intro reference listed
  unfold checkReferences at ok
  split at ok
  · cases ok
  · rename_i none
    simpa using List.find?_eq_none.mp none reference listed

end Application

namespace Registry

def Declared (r : Registry) (v : Value) : Prop :=
  ∀ reference ∈ v.themeReferences, r.application.values.hasItem reference = true

theorem checkedProperties {r : Registry} {ps : List Property} (ok : r.checkReferences ps = .ok ())
    {p : Property} (listed : p ∈ ps) {v : Value} (bound : p.binding = .value v) :
    r.Declared v := by
  induction ps with
  | nil => simp at listed
  | cons first rest ih =>
    rw [checkReferences] at ok
    rcases List.mem_cons.mp listed with rfl | later
    · have value : p.value? = some v := by rw [Property.value?, bound]
      simp only [value] at ok
      obtain ⟨_, checked, _⟩ := Result.bindOk.mp ok
      exact Application.checkedDeclared checked
    · split at ok
      · obtain ⟨_, _, ok⟩ := Result.bindOk.mp ok
        exact ih ok later
      · exact ih ok later

end Registry
end ViewForge
