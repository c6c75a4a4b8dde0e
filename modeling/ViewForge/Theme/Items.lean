import ViewForge.Value.Basic
/-! Themed items: for every item its values by theme, in the order of their declaration. -/
namespace ViewForge

abbrev ThemedItems (α : Type) := List (String × List (String × α))

def ThemedItems.get? (items : ThemedItems α) (theme name : String) : Option α :=
  (items.lookup name).bind (·.lookup theme)

structure ThemeValues where
  colors : ThemedItems Color := []
  images : ThemedItems Image := []
  fonts : ThemedItems Font := []
  deriving Repr

def ThemeValues.hasItem (values : ThemeValues) (reference : ThemeReference) : Bool :=
  match reference.category with
  | .color => (values.colors.lookup reference.item).isSome
  | .font => (values.fonts.lookup reference.item).isSome
  | .image => (values.images.lookup reference.item).isSome

end ViewForge
