import ViewForge.Proofs.Code.Shifted

/-! Code printed further to the right. As long as its names and constants have no line breaks, what
is printed one level deeper is the same text with all lines moved, wherever closures stand in it. -/
namespace ViewForge.Code

mutual

def Expr.texts : Expr → List String
  | .constant text => [text]
  | .identifier name | .implicitMember name => [name]
  | .member target name => target.texts ++ [name]
  | .call target arguments => target.texts ++ argumentTexts arguments
  | .binary lhs operator rhs => lhs.texts ++ operator :: rhs.texts
  | .not inner => inner.texts
  | .closure captures parameters body => captures ++ parameters ++ blockTexts body
  | .array items => exprTexts items
  | .dictionary entries => entryTexts entries

def exprTexts : List Expr → List String
  | [] => []
  | e :: rest => e.texts ++ exprTexts rest

def argumentTexts : List Argument → List String
  | [] => []
  | ⟨some label, value⟩ :: rest => label :: value.texts ++ argumentTexts rest
  | ⟨none, value⟩ :: rest => value.texts ++ argumentTexts rest

def entryTexts : List Entry → List String
  | [] => []
  | ⟨key, value⟩ :: rest => key.texts ++ value.texts ++ entryTexts rest

def Stmt.texts : Stmt → List String
  | .expr e => e.texts
  | .assign target value => target.texts ++ value.texts
  | .declare name _ typeName none => name :: typeName.toList
  | .declare name _ typeName (some value) => name :: typeName.toList ++ value.texts
  | .ret none | .comment _ | .blank => []
  | .ret (some value) => value.texts
  | .ifThen condition body | .guard condition body => condition.texts ++ blockTexts body
  | .ifElse condition body otherwise =>
    condition.texts ++ blockTexts body ++ blockTexts otherwise
  | .switch subject cases => subject.texts ++ caseTexts cases

def blockTexts : List Stmt → List String
  | [] => []
  | s :: rest => s.texts ++ blockTexts rest

def caseTexts : List Case → List String
  | [] => []
  | .on patterns body :: rest => exprTexts patterns ++ blockTexts body ++ caseTexts rest
  | .default body :: rest => blockTexts body ++ caseTexts rest

end

def Parameter.texts (p : Parameter) : List String :=
  p.label.toList ++ p.name :: p.typeName :: p.default.toList.flatMap Expr.texts

def Function.texts (f : Function) : List String :=
  f.modifiers ++ f.name :: f.parameters.flatMap Parameter.texts ++ f.returns.toList ++
    blockTexts f.body

def Property.texts (p : Property) : List String :=
  p.attributes ++ p.modifiers ++ p.name :: p.typeName.toList ++
    p.value.toList.flatMap Expr.texts ++ p.didSet.toList.flatMap blockTexts ++
    p.getter.toList.flatMap blockTexts

def EnumCase.texts (c : EnumCase) : List String :=
  c.name :: c.associated.flatMap fun a => a.1.toList ++ [a.2]

mutual

def Decl.texts : Decl → List String
  | .type _ _ modifiers name inherits members =>
    modifiers ++ name :: inherits ++ memberTexts members
  | .function f => f.texts
  | .property p => p.texts
  | .enumeration _ name inherits cases members =>
    name :: inherits ++ cases.flatMap EnumCase.texts ++ memberTexts members
  | .comment _ => []

def memberTexts : List Decl → List String
  | [] => []
  | d :: rest => d.texts ++ memberTexts rest

end

abbrev OneLine (texts : List String) : Prop := ∀ text ∈ texts, '\n' ∉ text.toList

theorem operandHangs {text moved : String} (e : Expr) (hangs : Hangs text moved) :
    Hangs (asOperand e text) (asOperand e moved) := by
  unfold asOperand
  split
  · exact hangsBetween (by decide) hangs (by decide)
  · exact hangs

theorem hangsSame {texts : List String} (plain : OneLine texts) :
    Hangs (Text.join ", " texts) (Text.join ", " texts) :=
  hangsJoin (List.forall₂_same.mpr fun text member => hangsPlain (plain text member))

theorem headerHangs {captures parameters : List String} (captured : OneLine captures)
    (taken : OneLine parameters) :
    Hangs (closureHeader captures parameters) (closureHeader captures parameters) := by
  unfold closureHeader
  refine hangsAppend (hangsAppend (hangsAppend (hangsPlain (by decide)) ?_) ?_) ?_
  · split
    · exact hangsPlain (by decide)
    · exact hangsBetween (by decide) (hangsSame captured) (by decide)
  · split
    · exact hangsPlain (by decide)
    · exact hangsAppend (hangsPlain (by decide)) (hangsSame taken)
  · split <;> exact hangsPlain (by decide)

theorem headerBegun (captures parameters : List String) :
    closureHeader captures parameters ≠ "" := by
  simp [closureHeader]

theorem annotatedHangs {typeName : Option String} (plain : OneLine typeName.toList) :
    Hangs (annotated typeName) (annotated typeName) := by
  cases typeName with
  | none => exact hangsNone
  | some t => exact hangsAppend (hangsPlain (by decide)) (hangsPlain (plain t (by simp)))

/- By the structure of the code, at every level at once: a closure prints its body one deeper. -/
mutual

theorem exprHangs (level : Nat) (e : Expr) (plain : OneLine e.texts) :
    Hangs (e.render level) (e.render (level + 1)) := by
  cases e with
  | constant text =>
    rw [Expr.render, Expr.render]
    exact hangsPlain (plain text (by simp [Expr.texts]))
  | identifier name =>
    rw [Expr.render, Expr.render]
    exact hangsPlain (plain name (by simp [Expr.texts]))
  | implicitMember name =>
    rw [Expr.render, Expr.render]
    exact hangsAppend (hangsPlain (by decide)) (hangsPlain (plain name (by simp [Expr.texts])))
  | member target name =>
    rw [Expr.texts] at plain
    obtain ⟨first, last⟩ := List.forall_mem_append.mp plain
    have operand := operandHangs target (exprHangs level target first)
    rw [Expr.render, Expr.render]
    exact hangsAppend (hangsAppend operand (hangsPlain (by decide)))
      (hangsPlain (last name (List.mem_singleton_self name)))
  | call target arguments =>
    rw [Expr.texts] at plain
    obtain ⟨first, others⟩ := List.forall_mem_append.mp plain
    have operand := operandHangs target (exprHangs level target first)
    rw [Expr.render, Expr.render]
    refine hangsAppend (hangsAppend (hangsAppend operand (hangsPlain (by decide))) ?_)
      (hangsPlain (by decide))
    exact hangsJoin (argumentsHang level arguments others)
  | binary lhs operator rhs =>
    rw [Expr.texts] at plain
    obtain ⟨left, others⟩ := List.forall_mem_append.mp plain
    obtain ⟨sign, right⟩ := List.forall_mem_cons.mp others
    rw [Expr.render, Expr.render]
    refine hangsAppend (hangsAppend (hangsAppend (hangsAppend ?_ (hangsPlain (by decide)))
      (hangsPlain sign)) (hangsPlain (by decide))) ?_
    · exact operandHangs lhs (exprHangs level lhs left)
    · exact operandHangs rhs (exprHangs level rhs right)
  | not inner =>
    rw [Expr.texts] at plain
    rw [Expr.render, Expr.render]
    exact hangsBetween (by decide) (exprHangs level inner plain) (by decide)
  | closure captures parameters body =>
    rw [Expr.texts] at plain
    obtain ⟨front, within⟩ := List.forall_mem_append.mp plain
    obtain ⟨captured, taken⟩ := List.forall_mem_append.mp front
    have header := headerHangs captured taken
    cases body with
    | nil =>
      rw [Expr.render, Expr.render]
      exact hangsAppend header (hangsPlain (by decide))
    | cons first more =>
      have lines := blockLines (level + 1) (first :: more) within
      rw [renderBlock, renderBlock] at lines
      have around := hangsBraced level header (headerBegun captures parameters) lines
      rw [← String.append_assoc, ← String.append_assoc] at around
      rw [Expr.render, Expr.render]
      exact around
  | array items =>
    rw [Expr.texts] at plain
    rw [Expr.render, Expr.render]
    exact hangsBetween (by decide) (hangsJoin (exprsHang level items plain)) (by decide)
  | dictionary entries =>
    rw [Expr.texts] at plain
    rw [Expr.render, Expr.render]
    split
    · exact hangsPlain (by decide)
    · exact hangsBetween (by decide) (hangsJoin (entriesHang level entries plain)) (by decide)

theorem exprsHang (level : Nat) (es : List Expr) (plain : OneLine (exprTexts es)) :
    List.Forall₂ Hangs (renderExprs level es) (renderExprs (level + 1) es) := by
  cases es with
  | nil => exact .nil
  | cons e rest =>
    rw [exprTexts] at plain
    obtain ⟨first, others⟩ := List.forall_mem_append.mp plain
    rw [renderExprs, renderExprs]
    exact .cons (exprHangs level e first) (exprsHang level rest others)

theorem argumentsHang (level : Nat) (arguments : List Argument)
    (plain : OneLine (argumentTexts arguments)) :
    List.Forall₂ Hangs (renderArguments level arguments)
      (renderArguments (level + 1) arguments) := by
  cases arguments with
  | nil => exact .nil
  | cons argument rest =>
    obtain ⟨label, value⟩ := argument
    cases label with
    | none =>
      rw [argumentTexts] at plain
      obtain ⟨first, others⟩ := List.forall_mem_append.mp plain
      rw [renderArguments, renderArguments]
      exact .cons (exprHangs level value first) (argumentsHang level rest others)
    | some label =>
      rw [argumentTexts] at plain
      obtain ⟨named, plain⟩ := List.forall_mem_cons.mp plain
      obtain ⟨first, others⟩ := List.forall_mem_append.mp plain
      rw [renderArguments, renderArguments]
      refine .cons ?_ (argumentsHang level rest others)
      exact hangsAppend (hangsAppend (hangsPlain named) (hangsPlain (by decide)))
        (exprHangs level value first)

theorem entriesHang (level : Nat) (entries : List Entry) (plain : OneLine (entryTexts entries)) :
    List.Forall₂ Hangs (renderEntries level entries) (renderEntries (level + 1) entries) := by
  cases entries with
  | nil => exact .nil
  | cons entry rest =>
    obtain ⟨key, value⟩ := entry
    rw [entryTexts] at plain
    obtain ⟨here, others⟩ := List.forall_mem_append.mp plain
    obtain ⟨first, second⟩ := List.forall_mem_append.mp here
    rw [renderEntries, renderEntries]
    refine .cons ?_ (entriesHang level rest others)
    exact hangsAppend (hangsAppend (exprHangs level key first) (hangsPlain (by decide)))
      (exprHangs level value second)

theorem stmtLines (level : Nat) (s : Stmt) (plain : OneLine s.texts) :
    Lines (s.render level) (s.render (level + 1)) := by
  cases s with
  | expr e =>
    rw [Stmt.texts] at plain
    rw [Stmt.render, Stmt.render]
    exact linesOfHangs level (exprHangs level e plain)
  | assign target value =>
    rw [Stmt.texts] at plain
    obtain ⟨first, second⟩ := List.forall_mem_append.mp plain
    rw [Stmt.render, Stmt.render]
    refine linesOfHangs level (hangsAppend (hangsAppend ?_ (hangsPlain (by decide))) ?_)
    · exact exprHangs level target first
    · exact exprHangs level value second
  | declare name mutable typeName value =>
    have lead : Hangs (if mutable then "var " else "let ")
        (if mutable then "var " else "let ") := by
      split <;> exact hangsPlain (by decide)
    cases value with
    | none =>
      rw [Stmt.texts] at plain
      obtain ⟨named, typed⟩ := List.forall_mem_cons.mp plain
      rw [Stmt.render, Stmt.render]
      exact linesOfHangs level (hangsAppend (hangsAppend (hangsAppend lead (hangsPlain named))
        (annotatedHangs typed)) (hangsPlain (by decide)))
    | some value =>
      rw [Stmt.texts] at plain
      obtain ⟨front, given⟩ := List.forall_mem_append.mp plain
      obtain ⟨named, typed⟩ := List.forall_mem_cons.mp front
      rw [Stmt.render, Stmt.render]
      refine linesOfHangs level (hangsAppend (hangsAppend (hangsAppend lead (hangsPlain named))
        (annotatedHangs typed)) (hangsAppend (hangsPlain (by decide)) ?_))
      exact exprHangs level value given
  | ret value =>
    cases value with
    | none =>
      rw [Stmt.render, Stmt.render]
      exact plainLine level (by decide)
    | some value =>
      rw [Stmt.texts] at plain
      rw [Stmt.render, Stmt.render]
      exact linesOfHangs level (hangsAppend (hangsPlain (by decide)) (exprHangs level value plain))
  | ifThen condition body =>
    rw [Stmt.texts] at plain
    obtain ⟨asked, within⟩ := List.forall_mem_append.mp plain
    rw [Stmt.render, Stmt.render]
    refine linesClosed level ?_ (blockLines (level + 1) body within)
    exact hangsBetween (by decide) (exprHangs level condition asked) (by decide)
  | ifElse condition body otherwise =>
    rw [Stmt.texts] at plain
    obtain ⟨front, others⟩ := List.forall_mem_append.mp plain
    obtain ⟨asked, within⟩ := List.forall_mem_append.mp front
    rw [Stmt.render, Stmt.render]
    refine linesAppend (linesAppend (linesAppend (linesAppend (linesOfHangs level ?_)
      (blockLines (level + 1) body within)) (plainLine level (by decide)))
      (blockLines (level + 1) otherwise others)) (plainLine level (by decide))
    exact hangsBetween (by decide) (exprHangs level condition asked) (by decide)
  | guard condition otherwise =>
    rw [Stmt.texts] at plain
    obtain ⟨asked, within⟩ := List.forall_mem_append.mp plain
    rw [Stmt.render, Stmt.render]
    refine linesClosed level ?_ (blockLines (level + 1) otherwise within)
    exact hangsBetween (by decide) (exprHangs level condition asked) (by decide)
  | switch subject cases =>
    rw [Stmt.texts] at plain
    obtain ⟨asked, within⟩ := List.forall_mem_append.mp plain
    rw [Stmt.render, Stmt.render]
    refine linesClosed level ?_ (casesLines level cases within)
    exact hangsBetween (by decide) (exprHangs level subject asked) (by decide)
  | comment text =>
    rw [Stmt.render, Stmt.render]
    exact commentLines level text
  | blank =>
    rw [Stmt.render, Stmt.render]
    exact plainLine level (by decide)

theorem blockLines (level : Nat) (body : List Stmt) (plain : OneLine (blockTexts body)) :
    Lines (renderBlock level body) (renderBlock (level + 1) body) := by
  cases body with
  | nil => exact linesNone
  | cons s rest =>
    rw [blockTexts] at plain
    obtain ⟨first, others⟩ := List.forall_mem_append.mp plain
    rw [renderBlock, renderBlock]
    exact linesAppend (stmtLines level s first) (blockLines level rest others)

theorem casesLines (level : Nat) (cases : List Case) (plain : OneLine (caseTexts cases)) :
    Lines (renderCases level cases) (renderCases (level + 1) cases) := by
  cases cases with
  | nil => exact linesNone
  | cons c rest =>
    cases c with
    | on patterns body =>
      rw [caseTexts] at plain
      obtain ⟨here, others⟩ := List.forall_mem_append.mp plain
      obtain ⟨matched, within⟩ := List.forall_mem_append.mp here
      rw [renderCases, renderCases]
      refine linesAppend (linesAppend (linesOfHangs level ?_) (blockLines (level + 1) body within))
        (casesLines level rest others)
      exact hangsBetween (by decide) (hangsJoin (exprsHang level patterns matched)) (by decide)
    | default body =>
      rw [caseTexts] at plain
      obtain ⟨within, others⟩ := List.forall_mem_append.mp plain
      rw [renderCases, renderCases]
      exact linesAppend (linesAppend (plainLine level (by decide))
        (blockLines (level + 1) body within)) (casesLines level rest others)

end

theorem bracedLines {header movedHeader body moved : String} (level : Nat)
    (hangs : Hangs header movedHeader) (lines : Lines body moved) :
    Lines (braced level header body) (braced (level + 1) movedHeader moved) :=
  linesClosed level (hangsAppend hangs (hangsPlain (by decide))) lines

theorem modifiersHang {modifiers : List String} (plain : OneLine modifiers) :
    Hangs (modifierLead modifiers) (modifierLead modifiers) := by
  unfold modifierLead
  induction modifiers with
  | nil => exact hangsNone
  | cons modifier rest ih =>
    obtain ⟨first, others⟩ := List.forall_mem_cons.mp plain
    rw [List.map_cons, Text.concat]
    exact hangsAppend (hangsAppend (hangsPlain first) (hangsPlain (by decide))) (ih others)

theorem leadHangs (access : Access) : Hangs access.lead access.lead := by
  cases access <;> exact hangsPlain (by decide)

theorem inheritanceHangs {inherits : List String} (plain : OneLine inherits) :
    Hangs (inheritance inherits) (inheritance inherits) := by
  unfold inheritance
  split
  · exact hangsPlain (by decide)
  · exact hangsAppend (hangsPlain (by decide)) (hangsSame plain)

theorem initializedHangs (level : Nat) {value : Option Expr}
    (plain : OneLine (value.toList.flatMap Expr.texts)) :
    Hangs (initialized (value.map (·.render level)))
      (initialized (value.map (·.render (level + 1)))) := by
  cases value with
  | none => exact hangsNone
  | some e =>
    rw [Option.toList_some, List.flatMap_singleton] at plain
    exact hangsAppend (hangsPlain (by decide)) (exprHangs level e plain)

theorem parameterHangs (level : Nat) (p : Parameter) (plain : OneLine p.texts) :
    Hangs (p.render level) (p.render (level + 1)) := by
  obtain ⟨labelled, others⟩ := List.forall_mem_append.mp plain
  obtain ⟨named, others⟩ := List.forall_mem_cons.mp others
  obtain ⟨typed, given⟩ := List.forall_mem_cons.mp others
  unfold Parameter.render
  refine hangsAppend (hangsAppend (hangsAppend (hangsAppend ?_ (hangsPlain named))
    (hangsPlain (by decide))) (hangsPlain typed)) (initializedHangs level given)
  cases label : p.label with
  | none => exact hangsNone
  | some l => exact hangsAppend (hangsPlain (labelled l (by simp [label]))) (hangsPlain (by decide))

theorem functionLines (level : Nat) (f : Function) (plain : OneLine f.texts) :
    Lines (f.render level) (f.render (level + 1)) := by
  obtain ⟨front, within⟩ := List.forall_mem_append.mp plain
  obtain ⟨front, returned⟩ := List.forall_mem_append.mp front
  obtain ⟨modified, front⟩ := List.forall_mem_append.mp front
  obtain ⟨named, taken⟩ := List.forall_mem_cons.mp front
  unfold Function.render
  refine bracedLines level ?_ (blockLines (level + 1) f.body within)
  refine hangsAppend (hangsAppend (hangsAppend (leadHangs f.access) (modifiersHang modified)) ?_) ?_
  · refine hangsAppend (hangsAppend (hangsAppend ?_ (hangsPlain (by decide))) (hangsJoin ?_))
      (hangsPlain (by decide))
    · split
      · exact hangsPlain (by decide)
      · exact hangsAppend (hangsPlain (by decide)) (hangsPlain named)
    · refine mapsRelated fun p member => parameterHangs level p fun text inside => ?_
      exact taken text (List.mem_flatMap.mpr ⟨p, member, inside⟩)
  · cases returns : f.returns with
    | none => exact hangsNone
    | some r =>
      have plain := returned r (by simp [returns])
      exact hangsAppend (hangsPlain (by decide)) (hangsPlain plain)

theorem propertyLines (level : Nat) (p : Property) (plain : OneLine p.texts) :
    Lines (p.render level) (p.render (level + 1)) := by
  obtain ⟨front, computed⟩ := List.forall_mem_append.mp plain
  obtain ⟨front, observed⟩ := List.forall_mem_append.mp front
  obtain ⟨front, given⟩ := List.forall_mem_append.mp front
  obtain ⟨front, others⟩ := List.forall_mem_append.mp front
  obtain ⟨attributed, modified⟩ := List.forall_mem_append.mp front
  obtain ⟨named, typed⟩ := List.forall_mem_cons.mp others
  have keyword : Hangs (if p.mutable then "var " else "let ")
      (if p.mutable then "var " else "let ") := by
    split <;> exact hangsPlain (by decide)
  have header := hangsAppend (hangsAppend (hangsAppend (hangsAppend (hangsAppend
    (leadHangs p.access.outsideClass) (modifiersHang modified)) keyword) (hangsPlain named))
    (annotatedHangs typed)) (initializedHangs level given)
  unfold Property.render
  refine linesAppend (linesConcat ?_) ?_
  · exact mapsRelated fun text member => plainLine level (attributed text member)
  · cases getter : p.getter with
    | some body =>
      have within : OneLine (blockTexts body) := by simpa [getter] using computed
      exact bracedLines level header (blockLines (level + 1) body within)
    | none =>
      cases didSet : p.didSet with
      | some body =>
        have within : OneLine (blockTexts body) := by simpa [didSet] using observed
        exact bracedLines level header (bracedLines (level + 1) (hangsPlain (by decide))
          (blockLines (level + 2) body within))
      | none => exact linesOfHangs level header

theorem enumCaseLines (level : Nat) (c : EnumCase) (plain : OneLine c.texts) :
    Lines (c.render level) (c.render (level + 1)) := by
  obtain ⟨named, carried⟩ := List.forall_mem_cons.mp plain
  have lead := hangsAppend (hangsPlain (show '\n' ∉ "case ".toList by decide)) (hangsPlain named)
  unfold EnumCase.render
  split
  · exact linesOfHangs level lead
  · refine linesOfHangs level (hangsAppend (hangsAppend (hangsAppend lead (hangsPlain (by decide)))
      (hangsJoin ?_)) (hangsPlain (by decide)))
    refine mapsRelated fun a member => ?_
    obtain ⟨label, typeName⟩ := a
    have own : OneLine (label.toList ++ [typeName]) := fun text inside =>
      carried text (List.mem_flatMap.mpr ⟨(label, typeName), member, inside⟩)
    obtain ⟨labelled, typed⟩ := List.forall_mem_append.mp own
    have last := hangsPlain (typed typeName (List.mem_singleton_self typeName))
    cases label with
    | none => exact last
    | some l =>
      exact hangsAppend (hangsAppend (hangsPlain (labelled l (List.mem_singleton_self l)))
        (hangsPlain (by decide))) last

mutual

theorem declLines (level : Nat) (d : Decl) (plain : OneLine d.texts) :
    Lines (d.render level) (d.render (level + 1)) := by
  cases d with
  | type kind access modifiers name inherits members =>
    rw [Decl.texts] at plain
    obtain ⟨front, within⟩ := List.forall_mem_append.mp plain
    obtain ⟨modified, others⟩ := List.forall_mem_append.mp front
    obtain ⟨named, inherited⟩ := List.forall_mem_cons.mp others
    rw [Decl.render, Decl.render]
    refine bracedLines level ?_ (membersLines (level + 1) members within)
    refine hangsAppend (hangsAppend (hangsAppend (hangsAppend (hangsAppend (leadHangs _)
      (modifiersHang modified)) ?_) (hangsPlain (by decide))) (hangsPlain named))
      (inheritanceHangs inherited)
    cases kind <;> exact hangsPlain (by decide)
  | function f =>
    rw [Decl.texts] at plain
    rw [Decl.render, Decl.render]
    exact functionLines level f plain
  | property p =>
    rw [Decl.texts] at plain
    rw [Decl.render, Decl.render]
    exact propertyLines level p plain
  | enumeration access name inherits cases members =>
    rw [Decl.texts] at plain
    obtain ⟨front, within⟩ := List.forall_mem_append.mp plain
    obtain ⟨front, listed⟩ := List.forall_mem_append.mp front
    obtain ⟨named, inherited⟩ := List.forall_mem_cons.mp front
    rw [Decl.render, Decl.render]
    refine bracedLines level ?_ (linesAppend (linesAppend (linesConcat ?_) ?_)
      (membersLines (level + 1) members within))
    · exact hangsAppend (hangsAppend (hangsAppend (leadHangs _) (hangsPlain (by decide)))
        (hangsPlain named)) (inheritanceHangs inherited)
    · refine mapsRelated fun c member => enumCaseLines (level + 1) c fun text inside => ?_
      exact listed text (List.mem_flatMap.mpr ⟨c, member, inside⟩)
    · split
      · exact linesNone
      · exact plainLine (level + 1) (by decide)
  | comment text =>
    rw [Decl.render, Decl.render]
    exact commentLines level text

theorem membersLines (level : Nat) (members : List Decl) (plain : OneLine (memberTexts members)) :
    Lines (renderMembers level members) (renderMembers (level + 1) members) := by
  cases members with
  | nil => exact linesNone
  | cons d rest =>
    rw [memberTexts] at plain
    obtain ⟨first, others⟩ := List.forall_mem_append.mp plain
    cases rest with
    | nil =>
      rw [renderMembers, renderMembers]
      exact declLines level d first
    | cons e more =>
      rw [renderMembers, renderMembers]
      exact linesAppend (linesAppend (declLines level d first) (plainLine level (by decide)))
        (membersLines level (e :: more) others)

end

end ViewForge.Code
