import ViewForge.Proofs.Code.Indentation

/-! The printer with a state. A text grows line by line at an indentation that goes up and down on
the way; every description appends what is rendered at the indentation it begins with, and ends with
that indentation. -/
namespace ViewForge.Code

structure Printer where
  written : String := ""
  level : Nat := 0

namespace Printer

def line (p : Printer) (text : String) : Printer :=
  { p with written := p.written ++ Code.line p.level text }

def indented (p : Printer) (body : Printer → Printer) : Printer :=
  let inner := body { p with level := p.level + 1 }
  { inner with level := inner.level - 1 }

def block (p : Printer) (header : String) (body : Printer → Printer) : Printer :=
  ((p.line (header ++ " \x7b")).indented body).line "\x7d"

def comment (p : Printer) (text : String) : Printer :=
  (Text.lines text).foldl (fun p l => p.line ("// " ++ l)) p

end Printer

def Expr.describe (e : Expr) (p : Printer) : Printer := p.line (e.render p.level)

mutual

def Stmt.describe : Stmt → Printer → Printer
  | .expr e, p => e.describe p
  | .assign target value, p => p.line (target.render p.level ++ " = " ++ value.render p.level)
  | .declare name mutable typeName value, p =>
    p.line ((if mutable then "var " else "let ") ++ name ++ annotated typeName
      ++ match value with
        | some v => " = " ++ v.render p.level
        | none => "")
  | .ret none, p => p.line "return"
  | .ret (some value), p => p.line ("return " ++ value.render p.level)
  | .ifThen condition body, p =>
    ((p.line ("if " ++ condition.render p.level ++ " \x7b")).indented (describeBlock body)).line
      "\x7d"
  | .ifElse condition body otherwise, p =>
    ((((p.line ("if " ++ condition.render p.level ++ " \x7b")).indented (describeBlock body)).line
      "\x7d else \x7b").indented (describeBlock otherwise)).line "\x7d"
  | .guard condition otherwise, p =>
    p.block ("guard " ++ condition.render p.level ++ " else") (describeBlock otherwise)
  | .switch subject cases, p =>
    (describeCases p.level cases (p.line ("switch " ++ subject.render p.level ++ " \x7b"))).line
      "\x7d"
  | .comment text, p => p.comment text
  | .blank, p => p.line ""

def describeBlock : List Stmt → Printer → Printer
  | [], p => p
  | s :: rest, p => describeBlock rest (s.describe p)

def describeCases (level : Nat) : List Case → Printer → Printer
  | [], p => p
  | .on patterns body :: rest, p =>
    describeCases level rest
      ((p.line ("case " ++ Text.join ", " (renderExprs level patterns) ++ ":")).indented
        (describeBlock body))
  | .default body :: rest, p =>
    describeCases level rest ((p.line "default:").indented (describeBlock body))

end

def Function.header (f : Function) (level : Nat) : String :=
  f.access.lead ++ modifierLead f.modifiers
    ++ ((if f.isInitializer then "init" else "func " ++ f.name) ++ "("
      ++ Text.join ", " (f.parameters.map (·.render level)) ++ ")")
    ++ match f.returns with
      | some r => " -> " ++ r
      | none => ""

def Function.describe (f : Function) (p : Printer) : Printer :=
  p.block (f.header p.level) (describeBlock f.body)

def Property.header (q : Property) (level : Nat) : String :=
  q.access.outsideClass.lead ++ modifierLead q.modifiers ++ (if q.mutable then "var " else "let ")
    ++ q.name ++ annotated q.typeName ++ initialized (q.value.map (·.render level))

def Property.describe (q : Property) (p : Printer) : Printer :=
  let attributed := q.attributes.foldl Printer.line p
  match q.getter, q.didSet with
  | some getter, _ => attributed.block (q.header p.level) (describeBlock getter)
  | none, some didSet =>
    attributed.block (q.header p.level) fun inner => inner.block "didSet" (describeBlock didSet)
  | none, none => attributed.line (q.header p.level)

def EnumCase.describe (c : EnumCase) (p : Printer) : Printer :=
  if c.associated.isEmpty then p.line ("case " ++ c.name)
  else
    let values := c.associated.map fun a => match a.1 with
      | some label => label ++ ": " ++ a.2
      | none => a.2
    p.line ("case " ++ c.name ++ "(" ++ Text.join ", " values ++ ")")

mutual

def Decl.describe : Decl → Printer → Printer
  | .type kind access modifiers name inherits members, p =>
    let scope := if kind = .classType then access else access.outsideClass
    p.block (scope.lead ++ modifierLead modifiers ++ kind.keyword ++ " " ++ name
      ++ inheritance inherits) (describeMembers members)
  | .function f, p => f.describe p
  | .property q, p => q.describe p
  | .enumeration access name inherits cases members, p =>
    p.block (access.outsideClass.lead ++ "enum " ++ name ++ inheritance inherits) fun inner =>
      let listed := cases.foldl (fun inner c => c.describe inner) inner
      if members.isEmpty then listed else describeMembers members (listed.line "")
  | .comment text, p => p.comment text

def describeMembers : List Decl → Printer → Printer
  | [], p => p
  | [d], p => d.describe p
  | d :: e :: rest, p => describeMembers (e :: rest) ((d.describe p).line "")

end

def Writes (describe : Printer → Printer) (printed : Nat → String) : Prop :=
  ∀ p, describe p = { written := p.written ++ printed p.level, level := p.level }

theorem writesLine (text : Nat → String) :
    Writes (fun p => p.line (text p.level)) fun level => line level (text level) := fun _ => rfl

variable {f g : Printer → Printer} {s t : Nat → String}

theorem writesThen (first : Writes f s) (second : Writes g t) :
    Writes (fun p => g (f p)) fun level => s level ++ t level := by
  intro p
  change g (f p) = _
  rw [first p, second, String.append_assoc]

/- The level that the first began with is used by the second. -/
theorem writesThenAt {h : Nat → Printer → Printer} (first : Writes f s)
    (second : ∀ level written, h level { written, level } =
      { written := written ++ t level, level }) :
    Writes (fun p => h p.level (f p)) fun level => s level ++ t level := by
  intro p
  change h p.level (f p) = _
  rw [first p, second, String.append_assoc]

theorem writesNone : Writes id fun _ => "" := fun p => by simp

theorem writesIndented (body : Writes f s) :
    Writes (fun p => p.indented f) fun level => s (level + 1) := by
  intro p
  change p.indented f = _
  rw [Printer.indented, body]
  rfl

theorem writesBlock (header : Nat → String) (body : Writes f s) :
    Writes (fun p => p.block (header p.level) f)
      fun level => braced level (header level) (s (level + 1)) :=
  writesThen (writesThen (writesLine fun level => header level ++ " \x7b") (writesIndented body))
    (writesLine fun _ => "\x7d")

theorem blockWritten (body : Writes f s) (header : String) (p : Printer) :
    p.block header f =
      { written := p.written ++ braced p.level header (s (p.level + 1)), level := p.level } :=
  writesBlock (fun _ => header) body p

theorem writesEach {α : Type} {describe : α → Printer → Printer} {printed : α → Nat → String}
    (each : ∀ x, Writes (describe x) (printed x)) (xs : List α) :
    Writes (fun p => xs.foldl (fun p x => describe x p) p)
      fun level => Text.concat (xs.map (printed · level)) := by
  induction xs with
  | nil => exact writesNone
  | cons x rest ih => exact writesThen (each x) ih

theorem commentWrites (text : String) : Writes (·.comment text) (comments · text) :=
  writesEach (fun l => writesLine fun _ => "// " ++ l) (Text.lines text)

theorem exprWrites (e : Expr) : Writes e.describe fun level => line level (e.render level) :=
  writesLine e.render

mutual

theorem stmtWrites (s : Stmt) : Writes s.describe (s.render ·) := by
  intro p
  cases s with
  | expr e =>
    simp only [Stmt.describe, Stmt.render]
    exact exprWrites e p
  | assign target value =>
    simp only [Stmt.describe, Stmt.render]
    rfl
  | declare name mutable typeName value =>
    cases value <;> simp only [Stmt.describe, Stmt.render] <;> rfl
  | ret value => cases value <;> simp only [Stmt.describe, Stmt.render] <;> rfl
  | ifThen condition body =>
    simp only [Stmt.describe, Stmt.render]
    exact writesThen (writesThen
      (writesLine fun level => "if " ++ condition.render level ++ " \x7b")
      (writesIndented (blockWrites body))) (writesLine fun _ => "\x7d") p
  | ifElse condition body otherwise =>
    simp only [Stmt.describe, Stmt.render]
    exact writesThen (writesThen (writesThen (writesThen
      (writesLine fun level => "if " ++ condition.render level ++ " \x7b")
      (writesIndented (blockWrites body))) (writesLine fun _ => "\x7d else \x7b"))
      (writesIndented (blockWrites otherwise))) (writesLine fun _ => "\x7d") p
  | guard condition otherwise =>
    simp only [Stmt.describe, Stmt.render]
    have header : ∀ text : String, "guard " ++ text ++ " else \x7b" =
        "guard " ++ text ++ " else" ++ " \x7b" := fun text => String.toList_inj.mp (by simp)
    rw [header]
    exact writesBlock (fun level => "guard " ++ condition.render level ++ " else")
      (blockWrites otherwise) p
  | switch subject cases =>
    simp only [Stmt.describe, Stmt.render]
    exact writesThen (writesThenAt
      (writesLine fun level => "switch " ++ subject.render level ++ " \x7b")
      fun level => casesWrite level cases) (writesLine fun _ => "\x7d") p
  | comment text =>
    simp only [Stmt.describe, Stmt.render]
    exact commentWrites text p
  | blank =>
    simp only [Stmt.describe, Stmt.render]
    rfl

theorem blockWrites (body : List Stmt) : Writes (describeBlock body) (renderBlock · body) := by
  intro p
  cases body with
  | nil =>
    simp only [describeBlock, renderBlock]
    exact writesNone p
  | cons s rest =>
    simp only [describeBlock, renderBlock]
    exact writesThen (stmtWrites s) (blockWrites rest) p

theorem casesWrite (level : Nat) (cases : List Case) (written : String) :
    describeCases level cases { written, level } =
      { written := written ++ renderCases level cases, level } := by
  cases cases with
  | nil =>
    rw [describeCases, renderCases]
    exact writesNone _
  | cons c rest =>
    cases c with
    | on patterns body =>
      have step := writesThen
        (writesLine fun level => "case " ++ Text.join ", " (renderExprs level patterns) ++ ":")
        (writesIndented (blockWrites body)) { written, level }
      dsimp only at step
      rw [describeCases, renderCases, step, casesWrite level rest, String.append_assoc]
    | default body =>
      have step := writesThen (writesLine fun _ => "default:") (writesIndented (blockWrites body))
        { written, level }
      dsimp only at step
      rw [describeCases, renderCases, step, casesWrite level rest, String.append_assoc]

end

theorem functionWrites (f : Function) : Writes f.describe (f.render ·) := by
  intro p
  simp only [Function.describe, Function.render]
  exact writesBlock f.header (blockWrites f.body) p

theorem propertyWrites (q : Property) : Writes q.describe (q.render ·) := by
  intro p
  have attributed : q.attributes.foldl Printer.line p = _ :=
    writesEach (fun a => writesLine fun _ => a) q.attributes p
  simp only [Property.describe, Property.render, attributed, Property.header]
  cases q.getter with
  | some getter => simp only [blockWritten (blockWrites getter), String.append_assoc]
  | none =>
    cases q.didSet with
    | some didSet =>
      have observer := writesBlock (fun _ => "didSet") (blockWrites didSet)
      simp only [blockWritten observer, String.append_assoc]
    | none => simp only [Printer.line, String.append_assoc]

theorem enumCaseWrites (c : EnumCase) : Writes c.describe (c.render ·) := by
  intro p
  simp only [EnumCase.describe, EnumCase.render]
  split <;> rfl

mutual

theorem declWrites (d : Decl) : Writes d.describe (d.render ·) := by
  intro p
  cases d with
  | type kind access modifiers name inherits members =>
    simp only [Decl.describe, Decl.render]
    exact writesBlock (fun _ => _) (membersWrite members) p
  | function f =>
    simp only [Decl.describe, Decl.render]
    exact functionWrites f p
  | property q =>
    simp only [Decl.describe, Decl.render]
    exact propertyWrites q p
  | enumeration access name inherits cases members =>
    simp only [Decl.describe, Decl.render]
    have listed := writesEach enumCaseWrites cases
    have inner : Writes (fun inner =>
        let listed := cases.foldl (fun inner c => c.describe inner) inner
        if members.isEmpty then listed else describeMembers members (listed.line ""))
      fun level => Text.concat (cases.map (·.render level))
        ++ (if members.isEmpty then "" else line level "") ++ renderMembers level members := by
      cases members with
      | nil =>
        simp only [renderMembers]
        exact writesThen (writesThen listed writesNone) writesNone
      | cons d rest =>
        exact writesThen (writesThen listed (writesLine fun _ => "")) (membersWrite (d :: rest))
    exact writesBlock (fun _ => _) inner p
  | comment text =>
    simp only [Decl.describe, Decl.render]
    exact commentWrites text p

theorem membersWrite (members : List Decl) :
    Writes (describeMembers members) (renderMembers · members) := by
  intro p
  cases members with
  | nil =>
    simp only [describeMembers, renderMembers]
    exact writesNone p
  | cons d rest =>
    cases rest with
    | nil =>
      simp only [describeMembers, renderMembers]
      exact declWrites d p
    | cons e more =>
      simp only [describeMembers, renderMembers]
      exact writesThen (writesThen (declWrites d) (writesLine fun _ => ""))
        (membersWrite (e :: more)) p

end

/-- The description writes what is rendered and leaves the indentation as it was; where the names
and constants have no line breaks, what is rendered one level deeper is the same with all lines
moved. -/
structure Prints (describe : Printer → Printer) (printed : Nat → String) (texts : List String) :
    Prop where
  writes : Writes describe printed
  moves : OneLine texts → ∀ level, printed (level + 1) = shifted (printed level)

structure NestsWithin (level : Nat) (body : Block) (members : List Decl) : Prop where
  closure : body ≠ [] → ∀ captures parameters,
    (Expr.closure captures parameters body).render level = closureHeader captures parameters ++
      "\n" ++ shifted (renderBlock level body) ++ indentation level ++ "\x7d"
  case : ∀ patterns rest, renderCases level (.on patterns body :: rest) =
    line level ("case " ++ Text.join ", " (renderExprs level patterns) ++ ":") ++
      shifted (renderBlock level body) ++ renderCases level rest
  default : ∀ rest, renderCases level (.default body :: rest) =
    line level "default:" ++ shifted (renderBlock level body) ++ renderCases level rest
  type : ∀ kind access modifiers name inherits, ∃ header,
    (Decl.type kind access modifiers name inherits members).render level =
      braced level header (shifted (renderMembers level members))
  enumeration : ∀ access name inherits cases, ∃ header listed,
    (Decl.enumeration access name inherits cases members).render level =
      braced level header (listed ++ shifted (renderMembers level members))

theorem closureAround {body : Block} (inhabited : body ≠ []) (level : Nat)
    (captures parameters : List String) :
    (Expr.closure captures parameters body).render level = closureHeader captures parameters ++
      "\n" ++ renderBlock (level + 1) body ++ indentation level ++ "\x7d" := by
  cases body with
  | nil => exact absurd rfl inhabited
  | cons first more => rw [Expr.render, renderBlock, ← String.append_assoc]

theorem nestsWithin (level : Nat) {body : Block} {members : List Decl}
    (plain : OneLine (blockTexts body)) (listed : OneLine (memberTexts members)) :
    NestsWithin level body members := by
  have moved := linesShifted (blockLines level body plain)
  have within := linesShifted (membersLines level members listed)
  constructor
  · intro inhabited captures parameters
    rw [closureAround inhabited, moved]
  · intro patterns rest
    rw [renderCases, moved]
  · intro rest
    rw [renderCases, moved]
  · intro kind access modifiers name inherits
    exact ⟨_, by rw [Decl.render, within]⟩
  · intro access name inherits cases
    exact ⟨_, _, by rw [Decl.render, within]⟩

theorem indentationCommutes :
    (∀ e : Expr, Prints e.describe (fun level => line level (e.render level)) e.texts) ∧
    (∀ s : Stmt, Prints s.describe (s.render ·) s.texts) ∧
    (∀ b : Block, Prints (describeBlock b) (renderBlock · b) (blockTexts b)) ∧
    (∀ d : Decl, Prints d.describe (d.render ·) d.texts) ∧
    (∀ ds : List Decl, Prints (describeMembers ds) (renderMembers · ds) (memberTexts ds)) ∧
    (∀ level captures parameters body, body ≠ [] →
      (Expr.closure captures parameters body).render level = closureHeader captures parameters ++
        "\n" ++ (describeBlock body { level := level + 1 }).written ++ indentation level ++
          "\x7d") ∧
    ∀ level body members, OneLine (blockTexts body) → OneLine (memberTexts members) →
      NestsWithin level body members := by
  refine ⟨fun e => ?_, fun s => ?_, fun b => ?_, fun d => ?_, fun ds => ?_, ?_, ?_⟩
  · refine ⟨exprWrites e, fun plain level => ?_⟩
    exact linesShifted (linesOfHangs level (exprHangs level e plain))
  · exact ⟨stmtWrites s, fun plain level => linesShifted (stmtLines level s plain)⟩
  · exact ⟨blockWrites b, fun plain level => linesShifted (blockLines level b plain)⟩
  · exact ⟨declWrites d, fun plain level => linesShifted (declLines level d plain)⟩
  · exact ⟨membersWrite ds, fun plain level => linesShifted (membersLines level ds plain)⟩
  · intro level captures parameters body inhabited
    rw [closureAround inhabited, blockWrites, String.empty_append]
  · exact fun level body members plain listed => nestsWithin level plain listed

def observing : Stmt :=
  .expr ((Expr.identifier "theme").apply [(none, .closure ["self"] [] [
    .switch (.identifier "kind") [.on [.implicitMember "light"] [.blank, .ret none]]])])

theorem observingMoved :
    OneLine observing.texts ∧
    observing.describe { written := "init()\n", level := 1 } =
      { written := "init()\n" ++ shifted (observing.render 0), level := 1 } ∧
    shifted (observing.render 0) =
      "    theme(\x7b [self] in\n        switch kind \x7b\n        case .light:\n\n" ++
      "            return\n        \x7d\n    \x7d)\n" := by
  have plain : OneLine observing.texts := by decide
  obtain ⟨_, stmts, _⟩ := indentationCommutes
  obtain ⟨writes, moves⟩ := stmts observing
  refine ⟨plain, ?_, ?_⟩
  · rw [writes, ← moves plain]
  · decide +kernel

end ViewForge.Code
