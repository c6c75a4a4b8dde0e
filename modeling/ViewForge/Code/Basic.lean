import ViewForge.Error
/-! Generated source as data: expressions, statements and declarations. Nothing here knows of
elements, styles or themes. -/
namespace ViewForge.Code

inductive Access where
  | privateScope
  | fileScope
  | moduleScope
  | publicScope
  | openScope
  deriving DecidableEq, Repr

namespace Access

def keyword : Access → String
  | privateScope => "private"
  | fileScope => "fileprivate"
  | moduleScope => "internal"
  | publicScope => "public"
  | openScope => "open"

def lead (a : Access) : String := if a = moduleScope then "" else a.keyword ++ " "

def outsideClass : Access → Access
  | openScope => publicScope
  | a => a

def parse : String → Except ConfigurationError Access
  | "private" => .ok privateScope
  | "fileprivate" => .ok fileScope
  | "internal" => .ok moduleScope
  | "public" => .ok publicScope
  | "open" => .ok openScope
  | other => .error (.invalidAccess other)

end Access

mutual

inductive Expr where
  | constant (text : String)
  | identifier (name : String)
  | member (target : Expr) (name : String)
  | implicitMember (name : String)
  | call (target : Expr) (arguments : List Argument)
  | binary (lhs : Expr) (operator : String) (rhs : Expr)
  | not (inner : Expr)
  | closure (captures parameters : List String) (body : List Stmt)
  | array (items : List Expr)
  | dictionary (entries : List Entry)

inductive Argument where
  | mk (label : Option String) (value : Expr)

inductive Entry where
  | mk (key value : Expr)

inductive Stmt where
  | expr (e : Expr)
  | assign (target value : Expr)
  | declare (name : String) (mutable : Bool) (typeName : Option String) (value : Option Expr)
  | ret (value : Option Expr)
  | ifThen (condition : Expr) (body : List Stmt)
  | ifElse (condition : Expr) (body otherwise : List Stmt)
  | guard (condition : Expr) (otherwise : List Stmt)
  | switch (subject : Expr) (cases : List Case)
  | comment (text : String)
  | blank

inductive Case where
  | on (patterns : List Expr) (body : List Stmt)
  | default (body : List Stmt)

end

abbrev Block := List Stmt

instance : Inhabited Expr := ⟨.constant ""⟩
instance : Inhabited Stmt := ⟨.blank⟩

def escape : Char → List Char
  | '"' => ['\\', '"']
  | '\\' => ['\\', '\\']
  | '\n' => ['\\', 'n']
  | '\t' => ['\\', 't']
  | '\r' => ['\\', 'r']
  | c => [c]

def quote (s : String) : String :=
  String.ofList ('"' :: s.toList.flatMap escape ++ ['"'])

namespace Expr

def boolean (b : Bool) : Expr := .constant (if b then "true" else "false")

def number (x : Float) : Expr := .constant (Number.literal x)

def string (s : String) : Expr := .constant (quote s)

def nil : Expr := .constant "nil"

def path (target : Expr) (names : List String) : Expr := names.foldl .member target

def apply (target : Expr) (arguments : List (Option String × Expr)) : Expr :=
  .call target (arguments.map fun a => ⟨a.1, a.2⟩)

def invoke (target : Expr) (method : String) (arguments : List (Option String × Expr)) : Expr :=
  (target.member method).apply arguments

def self : Expr := .identifier "self"

end Expr

namespace Stmt

def constant (name : String) (value : Expr) : Stmt := .declare name false none (some value)

end Stmt

inductive TypeKind where
  | classType
  | structType
  | extensionType
  deriving DecidableEq, Repr

def TypeKind.keyword : TypeKind → String
  | classType => "class"
  | structType => "struct"
  | extensionType => "extension"

structure Parameter where
  /-- The outer name; an underscore leaves it out of calls. -/
  label : Option String := none
  name : String
  typeName : String
  default : Option Expr := none

def Parameter.unlabelled (name typeName : String) : Parameter :=
  { label := some "_", name, typeName }

structure Function where
  isInitializer : Bool := false
  access : Access
  modifiers : List String := []
  name : String
  parameters : List Parameter := []
  returns : Option String := none
  body : Block := []

structure Property where
  attributes : List String := []
  access : Access
  modifiers : List String := []
  mutable : Bool := false
  name : String
  typeName : Option String := none
  value : Option Expr := none
  didSet : Option Block := none
  getter : Option Block := none

namespace Property

def constant (access : Access) (name : String) (value : Expr) : Property :=
  { access, name, value := some value }

def stored (access : Access) (name typeName : String) : Property :=
  { access, name, mutable := true, typeName := some typeName }

def computed (access : Access) (name typeName : String) (getter : Block) : Property :=
  { access, name, mutable := true, typeName := some typeName, getter := some getter }

end Property

structure EnumCase where
  name : String
  associated : List (Option String × String) := []
  deriving DecidableEq, Repr

inductive Decl where
  | type (kind : TypeKind) (access : Access) (modifiers : List String) (name : String)
      (inherits : List String) (members : List Decl)
  | function (f : Function)
  | property (p : Property)
  | enumeration (access : Access) (name : String) (inherits : List String) (cases : List EnumCase)
      (members : List Decl)
  | comment (text : String)

instance : Inhabited Decl := ⟨.comment ""⟩

end ViewForge.Code
