import ViewForge.Layout.Condition
/-! Layout constraints and the attributes that declare them. -/
namespace ViewForge
open ParseError (Reason)
open Token (Parsed Optional)

inductive Anchor where
  | top
  | bottom
  | leading
  | trailing
  | left
  | right
  | width
  | height
  | centerX
  | centerY
  | firstBaseline
  | lastBaseline
  deriving DecidableEq, Repr

namespace Anchor

def all : List Anchor := [top, bottom, leading, trailing, left, right, width, height, centerX,
  centerY, firstBaseline, lastBaseline]

def name : Anchor → String
  | top => "top"
  | bottom => "bottom"
  | leading => "leading"
  | trailing => "trailing"
  | left => "left"
  | right => "right"
  | width => "width"
  | height => "height"
  | centerX => "centerX"
  | centerY => "centerY"
  | firstBaseline => "firstBaseline"
  | lastBaseline => "lastBaseline"

def ofName? (name : String) : Option Anchor := all.find? (·.name == name)

def isDimension : Anchor → Bool
  | width | height => true
  | _ => false

end Anchor

inductive Relation where
  | equal
  | greaterOrEqual
  | lessOrEqual
  deriving DecidableEq, Repr

namespace Relation

def method : Relation → String
  | equal => "equalTo"
  | greaterOrEqual => "greaterThanOrEqualTo"
  | lessOrEqual => "lessThanOrEqualTo"

def ofName? : String → Option Relation
  | "eq" => some equal
  | "gt" | "ge" | "gte" => some greaterOrEqual
  | "lt" | "le" | "lte" => some lessOrEqual
  | _ => none

end Relation

inductive ConstraintTarget where
  | parent
  | this
  | safeArea
  | field (id : String)
  | constant (value : Float)
  deriving DecidableEq, Repr

namespace ConstraintTarget

def ofName : String → ConstraintTarget
  | "super" => parent
  | "self" => this
  | "safeAreaLayoutGuide" | "safeArea" => safeArea
  | id => field id

def isConstant : ConstraintTarget → Bool
  | constant _ => true
  | _ => false

end ConstraintTarget

inductive ConstraintModifier where
  | offset (value : Float)
  | inset (value : Float)
  | multipliedBy (factor : Float)
  | dividedBy (divisor : Float)
  deriving DecidableEq, Repr

namespace Priority

def required : Nat := 1000

def ofName? : String → Option Nat
  | "required" => some 1000
  | "high" => some 750
  | "medium" => some 500
  | "low" => some 250
  | "fittingSize" => some 50
  | _ => none

end Priority

structure Constraint where
  anchor : Anchor
  relation : Relation
  target : ConstraintTarget
  targetAnchor : Option Anchor
  modifiers : List ConstraintModifier
  priority : Nat
  field : Option String
  condition : Option Condition
  deriving DecidableEq, Repr

namespace Constraint

def isConditional (c : Constraint) : Bool := c.condition.isSome

def reference? (c : Constraint) : Option String :=
  match c.target with
  | .field id => some id
  | _ => none

/-- The anchors that an attribute binds, each with the anchor of the target it is bound to when
the value names none. -/
def anchors? : String → Option (List (Anchor × Anchor))
  | "edges" => some [(.top, .top), (.left, .left), (.bottom, .bottom), (.right, .right)]
  | "fillHorizontally" => some [(.left, .left), (.right, .right)]
  | "fillVertically" => some [(.top, .top), (.bottom, .bottom)]
  | "center" => some [(.centerX, .centerX), (.centerY, .centerY)]
  | "size" => some [(.width, .width), (.height, .height)]
  | "above" => some [(.bottom, .top)]
  | "below" => some [(.top, .bottom)]
  | "before" => some [(.trailing, .leading)]
  | "after" => some [(.leading, .trailing)]
  | "leftOf" => some [(.right, .left)]
  | "rightOf" => some [(.left, .right)]
  | other => (Anchor.ofName? other).map fun a => [(a, a)]

/-- A constraint as it is written, before its attribute gives it anchors. -/
structure Clause where
  relation : Relation
  target : ConstraintTarget
  targetAnchor : Option Anchor
  modifiers : List ConstraintModifier
  priority : Nat
  field : Option String
  condition : Option Condition
  deriving DecidableEq, Repr

def readCondition : (ts : List Token) → Except Reason (Optional ts (Option Condition))
  | .bracketsOpen :: more => do
    let c ← Condition.readOr more
    let closing ← Token.expect .bracketsClose c.rest
    return ((c.closedBy closing).map some).behind.toOptional
  | _ => .ok (.unread none)

def readRelation : (ts : List Token) → Except Reason (Optional ts Relation)
  | .colon :: more => do
    let name ← Token.expectIdentifier more
    match Relation.ofName? name.value with
    | some relation => return (name.map fun _ => relation).behind.toOptional
    | none => .error (.unknownRelation name.value)
  | _ => .ok (.unread .equal)

def readField : (ts : List Token) → Optional ts (Option String)
  | .identifier name :: .operator symbol :: _ =>
    if symbol = "=" then (Parsed.front (some name)).behind.toOptional else .unread none
  | _ => .unread none

def readTarget :
    (ts : List Token) → Except Reason (Parsed ts (ConstraintTarget × Option Anchor))
  | .number x :: _ => .ok (.front (.constant x, none))
  | .identifier name :: .period :: rest => do
    let anchor ← Token.expectIdentifier rest
    match Anchor.ofName? anchor.value with
    | some a => return (anchor.map fun _ => (.ofName name, some a)).behind.behind
    | none => .error (.unknownAnchor anchor.value)
  | .identifier name :: _ => .ok (.front (.ofName name, none))
  | token :: _ => .error (.targetExpected (some token.display))
  | [] => .error (.targetExpected none)

def readFactor (ts : List Token) : Except Reason (Parsed ts Float) :=
  match ts with
  | .identifier label :: rest =>
    if label = "by" then do
      let colon ← Token.expect .colon rest
      let factor ← Token.expectNumber colon.rest
      return (colon.andThen factor).behind
    else .error (Token.unexpected "argument label 'by'" (.identifier label :: rest))
  | ts => .error (Token.unexpected "argument label 'by'" ts)

def readModifier (name : String) (ts : List Token) :
    Except Reason (Parsed ts ConstraintModifier) :=
  match name with
  | "offset" => do
    let x ← Token.expectNumber ts
    return x.map .offset
  | "inset" => do
    let x ← Token.expectNumber ts
    return x.map .inset
  | "multiplied" => do
    let x ← readFactor ts
    return x.map .multipliedBy
  | "divided" => do
    let x ← readFactor ts
    if x.value == 0.0 then .error .divisionByZero
    return x.map .dividedBy
  | other => .error (.unknownConstraintModifier other)

def readModifiers (ts : List Token) : Except Reason (Optional ts (List ConstraintModifier)) :=
  match ts with
  | .identifier name :: rest => do
    let opening ← Token.expect .parensOpen rest
    let modifier ← readModifier name opening.rest
    let closing ← Token.expect .parensClose modifier.rest
    let more ← readModifiers closing.rest
    let taken := (opening.andThen modifier).closedBy closing
    return (taken.andThenOptional (more.map (modifier.value :: ·))).behind.toOptional
  | _ => .ok (.unread [])
termination_by ts.length
decreasing_by
  have h₁ := opening.shorter
  have h₂ := modifier.shorter
  have h₃ := closing.shorter
  simp only [List.length_cons]; omega

def readPriority : (ts : List Token) → Except Reason (Optional ts Nat)
  | .atSign :: .identifier name :: _ =>
    match Priority.ofName? name with
    | some p => .ok (Parsed.front p).behind.toOptional
    | none => .error (.unknownPriority name)
  | .atSign :: .number x :: _ =>
    if Number.isWhole x && 1.0 ≤ x && x ≤ 1000.0 then
      .ok (Parsed.front (Number.truncate x).toNat).behind.toOptional
    else .error .invalidPriority
  | .atSign :: _ => .error .invalidPriority
  | _ => .ok (.unread Priority.required)

/-- `[condition] :relation field = target.anchor modifiers @priority` -/
def readClause (ts : List Token) : Except Reason (Parsed ts Clause) := do
  let condition ← readCondition ts
  let relation ← readRelation condition.rest
  let field := readField relation.rest
  let target ← readTarget field.rest
  let modifiers ← readModifiers target.rest
  let priority ← readPriority modifiers.rest
  return ⟨{ relation := relation.value, target := target.value.1, targetAnchor := target.value.2,
            modifiers := modifiers.value, priority := priority.value, field := field.value,
            condition := condition.value }, priority.rest, by
    have h₁ := condition.bounded
    have h₂ := relation.bounded
    have h₃ := field.bounded
    have h₄ := target.shorter
    have h₅ := modifiers.bounded
    have h₆ := priority.bounded
    omega⟩

def Clause.bind (clause : Clause) (anchors : Anchor × Anchor) : Except Reason Constraint :=
  let targetAnchor :=
    if clause.targetAnchor.isNone && anchors.2 != anchors.1 then some anchors.2
    else clause.targetAnchor
  let constraint : Constraint :=
    { anchor := anchors.1, relation := clause.relation, target := clause.target,
      targetAnchor := targetAnchor, modifiers := clause.modifiers, priority := clause.priority,
      field := clause.field, condition := clause.condition }
  if clause.target.isConstant then
    if anchors.1.isDimension then .ok { constraint with targetAnchor := clause.targetAnchor }
    else .error (.constantTarget anchors.1.name)
  else .ok constraint

def readClauses (anchors : List (Anchor × Anchor)) (ts : List Token) :
    Except Reason (List Constraint) := do
  let clause ← readClause ts
  let constraints ← anchors.mapM clause.value.bind
  if clause.rest.isEmpty then return constraints
  let semicolon ← Token.expect .semicolon clause.rest
  return constraints ++ (← readClauses anchors semicolon.rest)
termination_by ts.length
decreasing_by
  have h₁ := clause.shorter
  have h₂ := semicolon.shorter
  omega

def parseAll (name value : String) : Except ParseError (List Constraint) := do
  match anchors? name with
  | none => .error ⟨.unknownLayoutAttribute name, value⟩
  | some anchors =>
    let ts ← Token.tokenize value
    let constraints ← reading value (readClauses anchors ts)
    if 1 < anchors.length && constraints.any (·.field.isSome) then
      .error ⟨.fieldOnSeveral name, value⟩
    return constraints

end Constraint

end ViewForge
