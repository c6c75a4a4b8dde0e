import ViewForge.Code.Basic
/-! Source text of generated code. Every function takes the indentation it prints at; a closure
prints its body one level deeper and closes at the level it stands on. -/
namespace ViewForge.Code

def indentation (level : Nat) : String := Text.repeated "    " level

def line (level : Nat) (text : String) : String :=
  if text = "" then "\n" else indentation level ++ text ++ "\n"

/-- Binary operands stand in parentheses, so that precedence never matters. -/
def asOperand : Expr → String → String
  | .binary .., text => "(" ++ text ++ ")"
  | _, text => text

def closureHeader (captures parameters : List String) : String :=
  "\x7b" ++ (if captures.isEmpty then "" else " [" ++ Text.join ", " captures ++ "]")
    ++ (if parameters.isEmpty then "" else " " ++ Text.join ", " parameters)
    ++ (if captures.isEmpty && parameters.isEmpty then "" else " in")

def comments (level : Nat) (text : String) : String :=
  Text.concat ((Text.lines text).map fun l => line level ("// " ++ l))

def annotated (typeName : Option String) : String :=
  match typeName with
  | some t => ": " ++ t
  | none => ""

def initialized (value : Option String) : String :=
  match value with
  | some v => " = " ++ v
  | none => ""

mutual

def Expr.render (level : Nat) : Expr → String
  | .constant text => text
  | .identifier name => name
  | .member target name => asOperand target (target.render level) ++ "." ++ name
  | .implicitMember name => "." ++ name
  | .call target arguments =>
    asOperand target (target.render level) ++ "("
      ++ Text.join ", " (renderArguments level arguments) ++ ")"
  | .binary lhs operator rhs =>
    asOperand lhs (lhs.render level) ++ " " ++ operator ++ " " ++ asOperand rhs (rhs.render level)
  | .not inner => "!(" ++ inner.render level ++ ")"
  | .closure captures parameters body =>
    match body with
    | [] => closureHeader captures parameters ++ " \x7d"
    | first :: more =>
      closureHeader captures parameters ++ "\n" ++ first.render (level + 1)
        ++ renderBlock (level + 1) more ++ indentation level ++ "\x7d"
  | .array items => "[" ++ Text.join ", " (renderExprs level items) ++ "]"
  | .dictionary entries =>
    if entries.isEmpty then "[:]" else "[" ++ Text.join ", " (renderEntries level entries) ++ "]"

def renderExprs (level : Nat) : List Expr → List String
  | [] => []
  | e :: rest => e.render level :: renderExprs level rest

def renderArguments (level : Nat) : List Argument → List String
  | [] => []
  | ⟨some label, value⟩ :: rest =>
    (label ++ ": " ++ value.render level) :: renderArguments level rest
  | ⟨none, value⟩ :: rest => value.render level :: renderArguments level rest

def renderEntries (level : Nat) : List Entry → List String
  | [] => []
  | ⟨key, value⟩ :: rest =>
    (key.render level ++ ": " ++ value.render level) :: renderEntries level rest

def Stmt.render (level : Nat) : Stmt → String
  | .expr e => line level (e.render level)
  | .assign target value => line level (target.render level ++ " = " ++ value.render level)
  | .declare name mutable typeName value =>
    line level ((if mutable then "var " else "let ") ++ name ++ annotated typeName
      ++ match value with
        | some v => " = " ++ v.render level
        | none => "")
  | .ret none => line level "return"
  | .ret (some value) => line level ("return " ++ value.render level)
  | .ifThen condition body =>
    line level ("if " ++ condition.render level ++ " \x7b")
      ++ renderBlock (level + 1) body ++ line level "\x7d"
  | .ifElse condition body otherwise =>
    line level ("if " ++ condition.render level ++ " \x7b")
      ++ renderBlock (level + 1) body ++ line level "\x7d else \x7b"
      ++ renderBlock (level + 1) otherwise ++ line level "\x7d"
  | .guard condition otherwise =>
    line level ("guard " ++ condition.render level ++ " else \x7b")
      ++ renderBlock (level + 1) otherwise ++ line level "\x7d"
  | .switch subject cases =>
    line level ("switch " ++ subject.render level ++ " \x7b")
      ++ renderCases level cases ++ line level "\x7d"
  | .comment text => comments level text
  | .blank => line level ""

def renderBlock (level : Nat) : List Stmt → String
  | [] => ""
  | s :: rest => s.render level ++ renderBlock level rest

def renderCases (level : Nat) : List Case → String
  | [] => ""
  | .on patterns body :: rest =>
    line level ("case " ++ Text.join ", " (renderExprs level patterns) ++ ":")
      ++ renderBlock (level + 1) body ++ renderCases level rest
  | .default body :: rest =>
    line level "default:" ++ renderBlock (level + 1) body ++ renderCases level rest

end

def modifierLead (modifiers : List String) : String := Text.concat (modifiers.map (· ++ " "))

def inheritance (inherits : List String) : String :=
  if inherits.isEmpty then "" else ": " ++ Text.join ", " inherits

def braced (level : Nat) (header body : String) : String :=
  line level (header ++ " \x7b") ++ body ++ line level "\x7d"

def Parameter.render (level : Nat) (p : Parameter) : String :=
  (match p.label with
    | some label => label ++ " "
    | none => "") ++ p.name ++ ": " ++ p.typeName ++ initialized (p.default.map (·.render level))

def Function.render (level : Nat) (f : Function) : String :=
  let parameters := Text.join ", " (f.parameters.map (·.render level))
  let signature :=
    (if f.isInitializer then "init" else "func " ++ f.name) ++ "(" ++ parameters ++ ")"
  let returns := match f.returns with
    | some r => " -> " ++ r
    | none => ""
  braced level (f.access.lead ++ modifierLead f.modifiers ++ signature ++ returns)
    (renderBlock (level + 1) f.body)

def Property.render (level : Nat) (p : Property) : String :=
  let header := p.access.outsideClass.lead ++ modifierLead p.modifiers
    ++ (if p.mutable then "var " else "let ") ++ p.name ++ annotated p.typeName
    ++ initialized (p.value.map (·.render level))
  Text.concat (p.attributes.map (line level)) ++
    match p.getter, p.didSet with
    | some getter, _ => braced level header (renderBlock (level + 1) getter)
    | none, some didSet =>
      braced level header (braced (level + 1) "didSet" (renderBlock (level + 2) didSet))
    | none, none => line level header

def EnumCase.render (level : Nat) (c : EnumCase) : String :=
  if c.associated.isEmpty then line level ("case " ++ c.name)
  else
    let values := c.associated.map fun a => match a.1 with
      | some label => label ++ ": " ++ a.2
      | none => a.2
    line level ("case " ++ c.name ++ "(" ++ Text.join ", " values ++ ")")

mutual

def Decl.render (level : Nat) : Decl → String
  | .type kind access modifiers name inherits members =>
    let scope := if kind = .classType then access else access.outsideClass
    braced level
      (scope.lead ++ modifierLead modifiers ++ kind.keyword ++ " " ++ name ++ inheritance inherits)
      (renderMembers (level + 1) members)
  | .function f => f.render level
  | .property p => p.render level
  | .enumeration access name inherits cases members =>
    braced level (access.outsideClass.lead ++ "enum " ++ name ++ inheritance inherits)
      (Text.concat (cases.map (·.render (level + 1)))
        ++ (if members.isEmpty then "" else line (level + 1) "")
        ++ renderMembers (level + 1) members)
  | .comment text => comments level text

def renderMembers (level : Nat) : List Decl → String
  | [] => ""
  | [d] => d.render level
  | d :: e :: rest => d.render level ++ line level "" ++ renderMembers level (e :: rest)

end

end ViewForge.Code
