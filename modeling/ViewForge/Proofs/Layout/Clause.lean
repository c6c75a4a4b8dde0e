import ViewForge.Layout.Constraint
import ViewForge.Proofs.Layout.Grammar

/-! The grammar of layout attributes, and the reader against it. A clause is made of six parts, four
of which may be left out; no part has a semicolon in it, so that the clauses of an attribute are what
stands between the semicolons. -/
namespace ViewForge.Constraint
open ParseError (Reason)
open Token (Parsed Optional)

/- The tokens of every part of a clause. A part that is left out has none. -/
inductive Guards : Option Condition → List Token → Prop where
  | always : Guards none []
  | given {ts : List Token} {c : Condition} (derives : Condition.Derives .or ts c) :
      Guards (some c) (.bracketsOpen :: ts ++ [.bracketsClose])

inductive Relates : Relation → List Token → Prop where
  | equal : Relates .equal []
  | named {name : String} {r : Relation} (known : Relation.ofName? name = some r) :
      Relates r [.colon, .identifier name]

inductive Holds : Option String → List Token → Prop where
  | nowhere : Holds none []
  | field (name : String) : Holds (some name) [.identifier name, .operator "="]

inductive Aims : ConstraintTarget → Option Anchor → List Token → Prop where
  | constant (x : Float) : Aims (.constant x) none [.number x]
  | whole (name : String) : Aims (.ofName name) none [.identifier name]
  | anchored (name : String) {word : String} {anchor : Anchor}
      (known : Anchor.ofName? word = some anchor) :
      Aims (.ofName name) (some anchor) [.identifier name, .period, .identifier word]

inductive Modifies : ConstraintModifier → List Token → Prop where
  | offset (x : Float) :
      Modifies (.offset x) [.identifier "offset", .parensOpen, .number x, .parensClose]
  | inset (x : Float) :
      Modifies (.inset x) [.identifier "inset", .parensOpen, .number x, .parensClose]
  | multiplied (x : Float) :
      Modifies (.multipliedBy x) [.identifier "multiplied", .parensOpen, .identifier "by", .colon,
        .number x, .parensClose]
  | divided {x : Float} (some : (x == 0.0) = false) :
      Modifies (.dividedBy x) [.identifier "divided", .parensOpen, .identifier "by", .colon,
        .number x, .parensClose]

inductive ModifiesAll : List ConstraintModifier → List Token → Prop where
  | none : ModifiesAll [] []
  | next {m : ConstraintModifier} {ms : List ConstraintModifier} {ts rest : List Token}
      (first : Modifies m ts) (others : ModifiesAll ms rest) : ModifiesAll (m :: ms) (ts ++ rest)

inductive Ranks : Nat → List Token → Prop where
  | required : Ranks Priority.required []
  | named {name : String} {p : Nat} (known : Priority.ofName? name = some p) :
      Ranks p [.atSign, .identifier name]
  | number {x : Float} (whole : (Number.isWhole x && 1.0 ≤ x && x ≤ 1000.0) = true) :
      Ranks (Number.truncate x).toNat [.atSign, .number x]

inductive Clause.Spelled (c : Clause) : List Token → Prop where
  | parts {guard relation field target modifiers priority : List Token}
      (guards : Guards c.condition guard) (relates : Relates c.relation relation)
      (holds : Holds c.field field) (aims : Aims c.target c.targetAnchor target)
      (modifies : ModifiesAll c.modifiers modifiers) (ranks : Ranks c.priority priority) :
      c.Spelled (guard ++ (relation ++ (field ++ (target ++ (modifiers ++ priority)))))

/- What is read is written in front. -/
theorem expectFront {t : Token} (mark : ∀ x, t ≠ .number x) {ts : List Token} {p : Parsed ts Unit}
    (ok : Token.expect t ts = .ok p) : ts = t :: p.rest := by
  unfold Token.expect at ok
  split at ok
  · split at ok
    · rename_i agrees
      cases ok
      unfold Token.agrees at agrees
      split at agrees
      · exact absurd rfl (mark _)
      · rw [eq_of_beq agrees]
        rfl
    · cases ok
  · cases ok

theorem numberFront {ts : List Token} {p : Parsed ts Float} (ok : Token.expectNumber ts = .ok p) :
    ts = .number p.value :: p.rest := by
  unfold Token.expectNumber at ok
  split at ok <;> cases ok
  rfl

theorem identifierFront {ts : List Token} {p : Parsed ts String}
    (ok : Token.expectIdentifier ts = .ok p) : ts = .identifier p.value :: p.rest := by
  unfold Token.expectIdentifier at ok
  split at ok <;> cases ok
  rfl

theorem conditionRead {ts : List Token} {p : Optional ts (Option Condition)}
    (ok : readCondition ts = .ok p) : ∃ used, ts = used ++ p.rest ∧ Guards p.value used := by
  unfold readCondition at ok
  split at ok
  · obtain ⟨c, found, ok⟩ := Result.bindOk.mp ok
    obtain ⟨closing, closed, ok⟩ := Result.bindOk.mp ok
    cases ok
    obtain ⟨used, split, derives, _⟩ := Condition.readersRead.1 _ c found
    have whole := split.trans (congrArg (used ++ ·) (expectFront (by simp) closed))
    refine ⟨_, ?_, .given derives⟩
    calc _ = Token.bracketsOpen :: (used ++ .bracketsClose :: closing.rest) := congrArg _ whole
      _ = .bracketsOpen :: used ++ [.bracketsClose] ++ closing.rest := by simp
  · cases ok
    exact ⟨[], rfl, .always⟩

theorem relationRead {ts : List Token} {p : Optional ts Relation} (ok : readRelation ts = .ok p) :
    ∃ used, ts = used ++ p.rest ∧ Relates p.value used := by
  unfold readRelation at ok
  split at ok
  · obtain ⟨name, found, ok⟩ := Result.bindOk.mp ok
    split at ok
    · rename_i known
      cases ok
      exact ⟨_, congrArg _ (identifierFront found), .named known⟩
    · cases ok
  · cases ok
    exact ⟨[], rfl, .equal⟩

theorem fieldRead (ts : List Token) :
    ∃ used, ts = used ++ (readField ts).rest ∧ Holds (readField ts).value used := by
  unfold readField
  split
  · split
    · rename_i same
      subst same
      exact ⟨_, rfl, .field _⟩
    · exact ⟨[], rfl, .nowhere⟩
  · exact ⟨[], rfl, .nowhere⟩

theorem targetRead {ts : List Token} {p : Parsed ts (ConstraintTarget × Option Anchor)}
    (ok : readTarget ts = .ok p) :
    ∃ used, ts = used ++ p.rest ∧ Aims p.value.1 p.value.2 used := by
  unfold readTarget at ok
  split at ok
  · cases ok
    exact ⟨_, rfl, .constant _⟩
  · obtain ⟨word, found, ok⟩ := Result.bindOk.mp ok
    split at ok
    · rename_i known
      cases ok
      exact ⟨_, congrArg (_ :: _ :: ·) (identifierFront found), .anchored _ known⟩
    · cases ok
  · cases ok
    exact ⟨_, rfl, .whole _⟩
  · cases ok
  · cases ok

theorem factorRead {ts : List Token} {p : Parsed ts Float} (ok : readFactor ts = .ok p) :
    ts = .identifier "by" :: .colon :: .number p.value :: p.rest := by
  unfold readFactor at ok
  split at ok
  · split at ok
    · rename_i same
      subst same
      obtain ⟨colon, marked, ok⟩ := Result.bindOk.mp ok
      obtain ⟨factor, found, ok⟩ := Result.bindOk.mp ok
      cases ok
      have behind := (expectFront (by simp) marked).trans (congrArg _ (numberFront found))
      exact congrArg _ behind
    · cases ok
  · cases ok

theorem modifierRead {name : String} {ts rest : List Token} {m : Parsed ts ConstraintModifier}
    (ok : readModifier name ts = .ok m) (closed : m.rest = .parensClose :: rest) :
    ∃ used, .identifier name :: .parensOpen :: ts = used ++ rest ∧ Modifies m.value used := by
  unfold readModifier at ok
  split at ok
  · obtain ⟨⟨x, left, _⟩, found, ok⟩ := Result.bindOk.mp ok
    cases ok
    obtain rfl : ts = .number x :: left := numberFront found
    cases closed
    exact ⟨_, rfl, .offset x⟩
  · obtain ⟨⟨x, left, _⟩, found, ok⟩ := Result.bindOk.mp ok
    cases ok
    obtain rfl : ts = .number x :: left := numberFront found
    cases closed
    exact ⟨_, rfl, .inset x⟩
  · obtain ⟨⟨x, left, _⟩, found, ok⟩ := Result.bindOk.mp ok
    cases ok
    obtain rfl : ts = _ :: _ :: .number x :: left := factorRead found
    cases closed
    exact ⟨_, rfl, .multiplied x⟩
  · obtain ⟨⟨x, left, _⟩, found, ok⟩ := Result.bindOk.mp ok
    simp only at ok
    split at ok
    · cases ok
    · rename_i some
      cases ok
      obtain rfl : ts = _ :: _ :: .number x :: left := factorRead found
      cases closed
      exact ⟨_, rfl, .divided (by simpa using some)⟩
  · cases ok

theorem modifiersRead {ts : List Token} {p : Optional ts (List ConstraintModifier)}
    (ok : readModifiers ts = .ok p) : ∃ used, ts = used ++ p.rest ∧ ModifiesAll p.value used := by
  induction ts using readModifiers.induct with
  | case1 name rest ih =>
    rw [readModifiers] at ok
    obtain ⟨opening, opened, ok⟩ := Result.bindOk.mp ok
    obtain ⟨modifier, found, ok⟩ := Result.bindOk.mp ok
    obtain ⟨closing, closed, ok⟩ := Result.bindOk.mp ok
    obtain ⟨more, further, ok⟩ := Result.bindOk.mp ok
    cases ok
    obtain ⟨used, split, first⟩ := modifierRead found (expectFront (by simp) closed)
    obtain ⟨others, left, rest'⟩ := ih opening modifier closing further
    refine ⟨used ++ others, ?_, .next first rest'⟩
    calc _ = .identifier name :: .parensOpen :: opening.rest :=
          congrArg _ (expectFront (by simp) opened)
      _ = used ++ closing.rest := split
      _ = used ++ (others ++ more.rest) := congrArg _ left
      _ = used ++ others ++ more.rest := (List.append_assoc ..).symm
  | case2 ts other =>
    rw [readModifiers] at ok
    · cases ok
      exact ⟨[], rfl, .none⟩
    · exact other

theorem priorityRead {ts : List Token} {p : Optional ts Nat} (ok : readPriority ts = .ok p) :
    ∃ used, ts = used ++ p.rest ∧ Ranks p.value used := by
  unfold readPriority at ok
  split at ok
  · split at ok
    · rename_i known
      cases ok
      exact ⟨_, rfl, .named known⟩
    · cases ok
  · split at ok
    · rename_i whole
      cases ok
      exact ⟨_, rfl, .number whole⟩
    · cases ok
  · cases ok
  · cases ok
    exact ⟨[], rfl, .required⟩

theorem clauseRead {ts : List Token} {p : Parsed ts Clause} (ok : readClause ts = .ok p) :
    ∃ used, ts = used ++ p.rest ∧ p.value.Spelled used := by
  obtain ⟨condition, found₁, ok⟩ := Result.bindOk.mp ok
  obtain ⟨relation, found₂, ok⟩ := Result.bindOk.mp ok
  obtain ⟨target, found₄, ok⟩ := Result.bindOk.mp ok
  obtain ⟨modifiers, found₅, ok⟩ := Result.bindOk.mp ok
  obtain ⟨priority, found₆, ok⟩ := Result.bindOk.mp ok
  cases ok
  obtain ⟨guard, split₁, guards⟩ := conditionRead found₁
  obtain ⟨comparison, split₂, relates⟩ := relationRead found₂
  obtain ⟨name, split₃, holds⟩ := fieldRead relation.rest
  obtain ⟨aim, split₄, aims⟩ := targetRead found₄
  obtain ⟨changes, split₅, modifies⟩ := modifiersRead found₅
  obtain ⟨rank, split₆, ranks⟩ := priorityRead found₆
  refine ⟨_, ?_, .parts guards relates holds aims modifies ranks⟩
  calc ts = guard ++ condition.rest := split₁
    _ = guard ++ (comparison ++ relation.rest) := congrArg _ split₂
    _ = guard ++ (comparison ++ (name ++ (readField relation.rest).rest)) := by rw [← split₃]
    _ = guard ++ (comparison ++ (name ++ (aim ++ target.rest))) := by rw [← split₄]
    _ = guard ++ (comparison ++ (name ++ (aim ++ (changes ++ modifiers.rest)))) := by rw [← split₅]
    _ = guard ++ (comparison ++ (name ++ (aim ++ (changes ++ (rank ++ priority.rest))))) := by
      rw [← split₆]
    _ = _ := by simp only [List.append_assoc]

/- What is written in front is read, if nothing behind it can be taken for a part of it. -/
theorem conditionFound {condition : Option Condition} {used rest : List Token}
    (guards : Guards condition used) (other : ∀ more, rest ≠ .bracketsOpen :: more) :
    ∃ bounded, readCondition (used ++ rest) = .ok ⟨condition, rest, bounded⟩ := by
  cases guards with
  | always =>
    cases rest with
    | nil => exact ⟨_, rfl⟩
    | cons t more =>
      cases t with
      | bracketsOpen => exact absurd rfl (other more)
      | _ => exact ⟨_, rfl⟩
  | @given ts c derives =>
    have ends : Condition.Ends .or (.bracketsClose :: rest) := by
      rintro _ ⟨⟩
      simp [Condition.Level.Continues, Condition.OrWord, Condition.AndWord]
    obtain ⟨_, found⟩ := Condition.derivesFinds derives ends
    rw [List.append_assoc, List.cons_append]
    exact ⟨_, Result.bindOk.mpr ⟨_, found, rfl⟩⟩

theorem relationFound {r : Relation} {used rest : List Token} (relates : Relates r used)
    (other : ∀ more, rest ≠ .colon :: more) :
    ∃ bounded, readRelation (used ++ rest) = .ok ⟨r, rest, bounded⟩ := by
  cases relates with
  | equal =>
    cases rest with
    | nil => exact ⟨_, rfl⟩
    | cons t more =>
      cases t with
      | colon => exact absurd rfl (other more)
      | _ => exact ⟨_, rfl⟩
  | @named name _ known =>
    refine ⟨by simp; omega, Result.bindOk.mpr ⟨.front name, rfl, ?_⟩⟩
    simp only [Parsed.front, known]
    rfl

theorem fieldFound {field : Option String} {used rest : List Token} (holds : Holds field used)
    (other : ∀ name more, rest ≠ .identifier name :: .operator "=" :: more) :
    (readField (used ++ rest)).value = field ∧ (readField (used ++ rest)).rest = rest := by
  cases holds with
  | nowhere =>
    rw [List.nil_append]
    unfold readField
    split
    · split
      · rename_i same
        subst same
        exact absurd rfl (other _ _)
      · exact ⟨rfl, rfl⟩
    · exact ⟨rfl, rfl⟩
  | field name => exact ⟨rfl, rfl⟩

theorem targetFound {target : ConstraintTarget} {anchor : Option Anchor} {used rest : List Token}
    (aims : Aims target anchor used) (other : ∀ more, rest ≠ .period :: more) :
    ∃ shorter, readTarget (used ++ rest) = .ok ⟨(target, anchor), rest, shorter⟩ := by
  cases aims with
  | constant x => exact ⟨_, rfl⟩
  | whole name =>
    cases rest with
    | nil => exact ⟨_, rfl⟩
    | cons t more =>
      cases t with
      | period => exact absurd rfl (other more)
      | _ => exact ⟨_, rfl⟩
  | @anchored name word anchor known =>
    refine ⟨by simp; omega, Result.bindOk.mpr ⟨.front word, rfl, ?_⟩⟩
    simp only [Parsed.front, known]
    rfl

theorem modifierFound {m : ConstraintModifier} {used : List Token} (modifies : Modifies m used)
    (rest : List Token) : ∃ name more, used ++ rest = .identifier name :: .parensOpen :: more ∧
      ∃ shorter, readModifier name more = .ok ⟨m, .parensClose :: rest, shorter⟩ := by
  cases modifies with
  | offset x => exact ⟨_, _, rfl, _, rfl⟩
  | inset x => exact ⟨_, _, rfl, _, rfl⟩
  | multiplied x => exact ⟨_, _, rfl, _, rfl⟩
  | @divided x some =>
    refine ⟨_, _, rfl, by simp, Result.bindOk.mpr ⟨⟨x, .parensClose :: rest, by simp⟩, rfl, ?_⟩⟩
    simp only [some]
    rfl

theorem modifiersFound {ms : List ConstraintModifier} {used rest : List Token}
    (modifies : ModifiesAll ms used) (other : ∀ name more, rest ≠ .identifier name :: more) :
    ∃ bounded, readModifiers (used ++ rest) = .ok ⟨ms, rest, bounded⟩ := by
  induction modifies with
  | none =>
    rw [List.nil_append, readModifiers]
    · exact ⟨_, rfl⟩
    · exact other
  | @next m ms ts others first _ ih =>
    obtain ⟨_, further⟩ := ih
    rw [List.append_assoc]
    obtain ⟨name, more, split, _, found⟩ := modifierFound first (others ++ rest)
    rw [split, readModifiers]
    exact ⟨_, Result.bindOk.mpr ⟨.front (), rfl, Result.bindOk.mpr ⟨_, found,
      Result.bindOk.mpr ⟨.front (), rfl, Result.bindOk.mpr ⟨_, further, rfl⟩⟩⟩⟩⟩

theorem priorityFound {p : Nat} {used rest : List Token} (ranks : Ranks p used)
    (other : ∀ more, rest ≠ .atSign :: more) :
    ∃ bounded, readPriority (used ++ rest) = .ok ⟨p, rest, bounded⟩ := by
  cases ranks with
  | required =>
    cases rest with
    | nil => exact ⟨_, rfl⟩
    | cons t more =>
      cases t with
      | atSign => exact absurd rfl (other more)
      | _ => exact ⟨_, rfl⟩
  | named known =>
    refine ⟨by simp; omega, ?_⟩
    simp only [List.cons_append, List.nil_append, readPriority, known]
    rfl
  | number whole =>
    refine ⟨by simp; omega, ?_⟩
    simp only [List.cons_append, List.nil_append, readPriority, whole]
    rfl

theorem headOf {P : Token → Prop} {used rest : List Token} (own : ∀ t ∈ used.head?, P t)
    (later : ∀ t ∈ rest.head?, P t) : ∀ t ∈ (used ++ rest).head?, P t := by
  cases used with
  | nil => exact later
  | cons t more => exact own

theorem headOther {P : Token → Prop} {ts more : List Token} {t : Token}
    (heads : ∀ s ∈ ts.head?, P s) (other : ¬ P t) : ts ≠ t :: more := by
  rintro rfl
  exact other (heads t rfl)

/- Tokens with which something behind the target of a clause can begin. -/
inductive Trails : Token → Prop where
  | word (name : String) : Trails (.identifier name)
  | rank : Trails .atSign
  | separator : Trails .semicolon

/- Tokens with which the field or the target of a clause can begin. -/
inductive Leads : Token → Prop where
  | word (name : String) : Leads (.identifier name)
  | constant (x : Float) : Leads (.number x)

theorem ranksHead {p : Nat} {used : List Token} (ranks : Ranks p used) :
    ∀ t ∈ used.head?, t = .atSign := by
  cases ranks <;> simp

theorem modifiesHead {ms : List ConstraintModifier} {used : List Token}
    (modifies : ModifiesAll ms used) : ∀ t ∈ used.head?, Trails t := by
  cases modifies with
  | none => simp
  | next first _ => cases first <;> rintro _ ⟨⟩ <;> exact .word _

theorem aimsHead {target : ConstraintTarget} {anchor : Option Anchor} {used : List Token}
    (aims : Aims target anchor used) (rest : List Token) :
    ∀ t ∈ (used ++ rest).head?, Leads t := by
  cases aims <;> rintro _ ⟨⟩ <;> constructor

theorem holdsHead {field : Option String} {used : List Token} (holds : Holds field used) :
    ∀ t ∈ used.head?, Leads t := by
  cases holds with
  | nowhere => simp
  | field name =>
    rintro _ ⟨⟩
    exact .word name

theorem relatesHead {r : Relation} {used : List Token} (relates : Relates r used) :
    ∀ t ∈ used.head?, t = .colon := by
  cases relates <;> simp

theorem aimsNoField {target : ConstraintTarget} {anchor : Option Anchor} {used rest : List Token}
    (aims : Aims target anchor used) (trails : ∀ t ∈ rest.head?, Trails t) (name : String)
    (more : List Token) : used ++ rest ≠ .identifier name :: .operator "=" :: more := by
  have other : rest ≠ .operator "=" :: more := headOther trails nofun
  cases aims <;> simp [other]

theorem clauseFound {c : Clause} {used : List Token} (spelled : c.Spelled used)
    (rest : List Token) (ends : ∀ t ∈ rest.head?, t = .semicolon) :
    ∃ shorter, readClause (used ++ rest) = .ok ⟨c, rest, shorter⟩ := by
  obtain ⟨guards, relates, holds, aims, modifies, ranks⟩ := spelled
  rename_i guard relation field target modifiers priority
  have behind : ∀ t ∈ (priority ++ rest).head?, t = .atSign ∨ t = .semicolon :=
    headOf (fun t first => .inl (ranksHead ranks t first)) fun t first => .inr (ends t first)
  have trails : ∀ t ∈ (modifiers ++ (priority ++ rest)).head?, Trails t := by
    refine headOf (modifiesHead modifies) fun t first => ?_
    rcases behind t first with rfl | rfl
    · exact .rank
    · exact .separator
  have leads := headOf (holdsHead holds) (aimsHead aims (modifiers ++ (priority ++ rest)))
  have begins : ∀ t ∈ (relation ++ (field ++ (target ++ (modifiers ++ (priority ++ rest))))).head?,
      t = .colon ∨ Leads t :=
    headOf (fun t first => .inl (relatesHead relates t first)) fun t first => .inr (leads t first)
  obtain ⟨bound₁, found₁⟩ := conditionFound guards fun more =>
    headOther begins (by rintro (same | same) <;> cases same)
  obtain ⟨bound₂, found₂⟩ := relationFound relates fun more => headOther leads nofun
  obtain ⟨held, left⟩ := fieldFound holds (aimsNoField aims trails)
  have bound₃ := (readField (field ++ (target ++ (modifiers ++ (priority ++ rest))))).bounded
  have aimed := targetFound aims fun more => headOther trails nofun
  rw [← left] at aimed
  obtain ⟨bound₄, found₄⟩ := aimed
  obtain ⟨bound₅, found₅⟩ := modifiersFound modifies fun name more => headOther behind (by simp)
  obtain ⟨bound₆, found₆⟩ := priorityFound ranks fun more => headOther ends (by simp)
  have whole : guard ++ (relation ++ (field ++ (target ++ (modifiers ++ priority)))) ++ rest =
      guard ++ (relation ++ (field ++ (target ++ (modifiers ++ (priority ++ rest))))) := by
    simp only [List.append_assoc]
  rw [whole]
  refine ⟨by omega, Result.bindOk.mpr ⟨_, found₁, Result.bindOk.mpr ⟨_, found₂, ?_⟩⟩⟩
  refine Result.bindOk.mpr ⟨_, found₄, Result.bindOk.mpr ⟨_, found₅, Result.bindOk.mpr
    ⟨_, found₆, ?_⟩⟩⟩
  simp only [held]
  rfl

/- Tokens that clauses have: neither the mark between them nor texts. -/
def Clausal (t : Token) : Prop := t ≠ .semicolon ∧ ∀ text, t ≠ .string text

theorem atomClausal {ts : List Token} {c : Condition} (atom : Condition.Atom ts c) :
    ∀ t ∈ ts, Clausal t := by
  cases atom <;> simp [Clausal]

theorem derivesClausal {level : Condition.Level} {ts : List Token} {c : Condition}
    (derives : Condition.Derives level ts c) : ∀ t ∈ ts, Clausal t := by
  induction derives with
  | conjunction _ only | operand _ only | primary _ only => exact only
  | or _ word _ left right | and _ word _ left right =>
    refine List.forall_mem_append.mpr ⟨left, List.forall_mem_cons.mpr ⟨?_, right⟩⟩
    rcases word with rfl | rfl <;> simp [Clausal]
  | not word _ inner =>
    refine List.forall_mem_cons.mpr ⟨?_, inner⟩
    rcases word with rfl | rfl <;> simp [Clausal]
  | group _ inner =>
    refine List.forall_mem_append.mpr ⟨List.forall_mem_cons.mpr ⟨by simp [Clausal], inner⟩, ?_⟩
    simp [Clausal]
  | atom atom => exact atomClausal atom

theorem guardsClausal {condition : Option Condition} {used : List Token}
    (guards : Guards condition used) : ∀ t ∈ used, Clausal t := by
  cases guards with
  | always => simp
  | given derives =>
    have inner := derivesClausal derives
    refine List.forall_mem_append.mpr ⟨List.forall_mem_cons.mpr ⟨by simp [Clausal], inner⟩, ?_⟩
    simp [Clausal]

theorem modifiesClausal {ms : List ConstraintModifier} {used : List Token}
    (modifies : ModifiesAll ms used) : ∀ t ∈ used, Clausal t := by
  induction modifies with
  | none => simp
  | next first _ ih =>
    refine List.forall_mem_append.mpr ⟨?_, ih⟩
    cases first <;> simp [Clausal]

theorem spelledClausal {c : Clause} {used : List Token} (spelled : c.Spelled used) :
    ∀ t ∈ used, Clausal t := by
  cases c
  obtain ⟨guards, relates, holds, aims, modifies, ranks⟩ := spelled
  simp only [List.forall_mem_append]
  refine ⟨guardsClausal guards, ?_, ?_, ?_, modifiesClausal modifies, ?_⟩
  · cases relates <;> simp [Clausal]
  · cases holds <;> simp [Clausal]
  · cases aims <;> simp [Clausal]
  · cases ranks <;> simp [Clausal]

end ViewForge.Constraint
