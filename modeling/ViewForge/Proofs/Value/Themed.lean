import ViewForge.Proofs.Style.Meaning

/-! What it means that a value is themed. It says so itself, it refers to an item of the theme, and
its code tells one access to the theme from every other: these are the same values. -/
namespace ViewForge
open Code (Expr)

theorem ThemeAccess.itemApart {a b : ThemeAccess} (category : ThemeCategory) (name : String)
    (same : a.item category name = b.item category name) : a = b := by
  obtain ⟨holders, _⟩ := Expr.member.inj same
  cases a <;> cases b <;> simp_all [ThemeAccess.category, Expr.self]

theorem Color.Modifier.codeApart {m : Color.Modifier} {a b : Expr} (same : m.code a = m.code b) :
    a = b := by
  obtain ⟨methods, _⟩ := Expr.call.inj same
  obtain ⟨targets, _⟩ := Expr.member.inj methods
  exact targets

theorem Color.codeApart {c : Color} (themed : c.isThemed = true) {a b : ThemeAccess}
    (same : c.code a = c.code b) : a = b := by
  obtain ⟨base, modifiers⟩ := c
  cases base with
  | themed name =>
    refine ThemeAccess.itemApart .color name ?_
    unfold code at same
    simp only [Base.code] at same
    generalize a.item .color name = left at same ⊢
    generalize b.item .color name = right at same ⊢
    induction modifiers generalizing left right with
    | nil => exact same
    | cons m rest ih => exact Color.Modifier.codeApart (ih themed _ _ same)
  | _ => cases themed

section Values

variable {context : RenderContext} {a b : ThemeAccess}

mutual

theorem Value.codeApart (v : Value) (themed : v.isThemed = true)
    (same : v.code { context with theme := a } = v.code { context with theme := b }) : a = b := by
  cases v with
  | color c =>
    rw [isThemed] at themed
    rw [code, code] at same
    exact Color.codeApart themed same
  | layerColor c =>
    rw [isThemed] at themed
    rw [code, code] at same
    exact Color.codeApart themed (Expr.member.inj same).1
  | font f =>
    rw [code, code] at same
    cases f with
    | themed name => exact ThemeAccess.itemApart _ name same
    | _ => cases themed
  | image i =>
    rw [code, code] at same
    cases i with
    | themed name => exact ThemeAccess.itemApart _ name same
    | named name => cases themed
  | array element items =>
    rw [isThemed] at themed
    rw [code, code] at same
    exact Value.codesApart items themed (Expr.array.inj same)
  | present wrapped value =>
    rw [isThemed] at themed
    rw [code, code] at same
    exact value.codeApart themed same
  | _ => simp [isThemed] at themed

theorem Value.codesApart (vs : List Value) (themed : anyThemed vs = true)
    (same : codes { context with theme := a } vs = codes { context with theme := b } vs) :
    a = b := by
  cases vs with
  | nil => cases themed
  | cons v rest =>
    rw [anyThemed, Bool.or_eq_true] at themed
    rw [codes, codes] at same
    obtain ⟨first, others⟩ := List.cons.inj same
    rcases themed with here | later
    · exact v.codeApart here first
    · exact Value.codesApart rest later others

end

end Values

theorem Value.colorRefers (c : Color) : colorReferences c ≠ [] ↔ c.isThemed = true := by
  obtain ⟨base, modifiers⟩ := c
  cases base <;> simp [colorReferences, Color.isThemed]

mutual

theorem Value.refersThemed (v : Value) : v.themeReferences ≠ [] ↔ v.isThemed = true := by
  cases v with
  | color c => rw [themeReferences, isThemed]; exact colorRefers c
  | layerColor c => rw [themeReferences, isThemed]; exact colorRefers c
  | font f => cases f <;> simp [themeReferences, isThemed, Font.isThemed]
  | image i => cases i <;> simp [themeReferences, isThemed, Image.isThemed]
  | array element items => rw [themeReferences, isThemed]; exact Value.anyRefer items
  | present wrapped value => rw [themeReferences, isThemed]; exact value.refersThemed
  | _ => simp [themeReferences, isThemed]

theorem Value.anyRefer (vs : List Value) : allReferences vs ≠ [] ↔ anyThemed vs = true := by
  cases vs with
  | nil => simp [allReferences, anyThemed]
  | cons v rest =>
    rw [allReferences, anyThemed, Bool.or_eq_true, ← v.refersThemed, ← Value.anyRefer rest,
      ne_eq, List.append_eq_nil_iff, not_and_or]

end

namespace Value

theorem codeTells (v : Value) (context : RenderContext) (a b : ThemeAccess) :
    v.code { context with theme := a } = v.code { context with theme := b } ↔
      a = b ∨ v.isThemed = false := by
  constructor
  · intro same
    cases themed : v.isThemed with
    | false => exact .inr rfl
    | true => exact .inl (v.codeApart themed same)
  · intro either
    rcases either with equal | plain
    · rw [equal]
    · exact Value.codeSame b v plain

theorem themedExactly (v : Value) (context : RenderContext) :
    (v.isThemed = true ↔ v.themeReferences ≠ []) ∧
    (v.isThemed = true ↔ v.code { context with theme := .current } ≠
      v.code { context with theme := .parameter "theme" }) ∧
    ∀ a b : ThemeAccess, v.code { context with theme := a } =
      v.code { context with theme := b } ↔ a = b ∨ v.isThemed = false := by
  refine ⟨v.refersThemed.symm, ?_, codeTells v context⟩
  rw [ne_eq, codeTells]
  simp

end Value
end ViewForge
