import ViewForge.Application
import ViewForge.Source.Configuration
/-! The type of themes: a case for every theme, and a struct of accessors for every category. -/
namespace ViewForge
open Code (Expr Stmt Decl Block)

def themeType : String := "ApplicationTheme"

namespace ThemeSource

def cases (item : String) (values : List (String × α)) (code : α → Expr) :
    List String → Result (List Code.Case)
  | [] => .ok []
  | theme :: rest =>
    match values.lookup theme with
    | none => .error (.themedItemNotFound theme item)
    | some value => do
      let others ← cases item values code rest
      return .on [.implicitMember theme] [.ret (some (code value))] :: others

def accessors (c : Configuration) (themes : List String) (typeName : String) (code : α → Expr) :
    ThemedItems α → Result (List Decl)
  | [] => .ok []
  | (item, values) :: rest => do
    let getter : Block := [.switch (.identifier "theme") (← cases item values code themes)]
    let others ← accessors c themes typeName code rest
    return .property (.computed c.plainAccess item typeName getter) :: others

def category (c : Configuration) (themes : List String) (category : ThemeCategory)
    (typeName : String) (items : ThemedItems α) (code : α → Expr) : Result (List Decl) := do
  let access := c.plainAccess
  let name := Text.capitalized category.plural
  let members ← accessors c themes typeName code items
  let theme := { Code.Property.stored access "theme" themeType with mutable := false }
  return [
    .property (.computed access category.plural name
      [.ret (some ((Expr.identifier name).apply [(some "theme", .self)]))]),
    .type .structType access [] name [] (.property theme :: members)]

def selector (c : Configuration) (app : Application) : List Decl := [
  .property {
    Code.Property.constant c.plainAccess "selector" ((Expr.identifier "ThemeSelector").apply [
      (some "defaultTheme", .implicitMember app.defaultTheme)]) with
    modifiers := ["static"] },
  .property {
    Code.Property.computed c.plainAccess "current" themeType
      [.ret (some ((Expr.identifier themeType).path ["selector", "currentTheme"]))] with
    modifiers := ["static"] }]

end ThemeSource

def Application.themeDecl (app : Application) (c : Configuration) : Result Decl := do
  let colors ← ThemeSource.category c app.themes .color "UIColor" app.values.colors
    (Color.code .siblings)
  let images ← ThemeSource.category c app.themes .image "UIImage?" app.values.images
    (Image.code .siblings)
  let fonts ← ThemeSource.category c app.themes .font "UIFont" app.values.fonts
    (Font.code .siblings)
  return .enumeration c.plainAccess themeType ["String", "CaseIterable"]
    (app.themes.map fun theme => { name := theme })
    (ThemeSource.selector c app ++ colors ++ images ++ fonts)

end ViewForge
