import ViewForge.Code.Basic
import ViewForge.Platform
/-! Where generated code reads themed values from. -/
namespace ViewForge
open Code (Expr)

inductive ThemeAccess where
  | current
  | parameter (name : String)
  | siblings
  deriving DecidableEq, Repr

inductive ThemeCategory where
  | color
  | font
  | image
  deriving DecidableEq, Repr

namespace ThemeCategory

def name : ThemeCategory → String
  | color => "color"
  | font => "font"
  | image => "image"

def plural : ThemeCategory → String
  | color => "colors"
  | font => "fonts"
  | image => "images"

end ThemeCategory

structure ThemeReference where
  category : ThemeCategory
  item : String
  deriving DecidableEq, Repr

def ThemeAccess.category (access : ThemeAccess) (category : ThemeCategory) : Expr :=
  match access with
  | current => ((Expr.identifier "ApplicationTheme").member "current").member category.plural
  | parameter name => (Expr.identifier name).member category.plural
  | siblings => .self

def ThemeAccess.item (access : ThemeAccess) (category : ThemeCategory) (name : String) : Expr :=
  (access.category category).member name

structure RenderContext where
  platform : Platform
  localizationTable : Option String := none
  theme : ThemeAccess := .current
  deriving DecidableEq, Repr

end ViewForge
