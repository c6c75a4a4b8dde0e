import ViewForge.Proofs.Layout.Clause
import ViewForge.Proofs.Token.Separated

/-! Layout attributes as a whole. The value of an attribute is its clauses with semicolons between
them; each clause gives one constraint for each anchor of the attribute. -/
namespace ViewForge
namespace Constraint
open ParseError (Reason)
open Token (Parsed)

variable {anchors : List (Anchor × Anchor)} {ts us : List Token} {cs : List Constraint}

theorem separatedOnce {xs xs' ys ys' : List Token} (left : .semicolon ∉ xs)
    (right : .semicolon ∉ xs') (same : xs ++ .semicolon :: ys = xs' ++ .semicolon :: ys') :
    xs = xs' ∧ ys = ys' := by
  have pieces := congrArg (List.splitOn Token.semicolon) same
  rw [List.splitOn_append_cons_self_of_not_mem left,
    List.splitOn_append_cons_self_of_not_mem right] at pieces
  obtain rfl := List.head_eq_of_cons_eq pieces
  exact ⟨rfl, (List.cons.inj (List.append_cancel_left same)).2⟩

theorem spelledAlone {c : Clause} (spelled : c.Spelled ts) : .semicolon ∉ ts :=
  fun inside => (spelledClausal spelled _ inside).1 rfl

theorem clausesLast (alone : .semicolon ∉ ts) : readClauses anchors ts = .ok cs ↔
    ∃ c : Clause, c.Spelled ts ∧ anchors.mapM c.bind = .ok cs := by
  rw [readClauses]
  constructor
  · intro ok
    obtain ⟨clause, found, ok⟩ := Result.bindOk.mp ok
    obtain ⟨block, bound, ok⟩ := Result.bindOk.mp ok
    obtain ⟨used, split, spelled⟩ := clauseRead found
    split at ok
    · rename_i done
      cases ok
      rw [List.isEmpty_iff.mp done, List.append_nil] at split
      exact ⟨clause.value, split ▸ spelled, bound⟩
    · obtain ⟨mark, marked, _⟩ := Result.bindOk.mp ok
      have behind := split.trans (congrArg (used ++ ·) (expectFront (by simp) marked))
      exact absurd (behind ▸ List.mem_append_right _ List.mem_cons_self) alone
  · rintro ⟨c, spelled, bound⟩
    have begun := clauseFound spelled [] (by simp)
    rw [List.append_nil] at begun
    obtain ⟨_, found⟩ := begun
    exact Result.bindOk.mpr ⟨_, found, Result.bindOk.mpr ⟨cs, bound, rfl⟩⟩

theorem clausesNext (alone : .semicolon ∉ ts) :
    readClauses anchors (ts ++ .semicolon :: us) = .ok cs ↔ ∃ (c : Clause) (block others : _),
      c.Spelled ts ∧ anchors.mapM c.bind = .ok block ∧ readClauses anchors us = .ok others ∧
        cs = block ++ others := by
  rw [readClauses]
  constructor
  · intro ok
    obtain ⟨clause, found, ok⟩ := Result.bindOk.mp ok
    obtain ⟨block, bound, ok⟩ := Result.bindOk.mp ok
    obtain ⟨used, split, spelled⟩ := clauseRead found
    split at ok
    · rename_i done
      rw [List.isEmpty_iff.mp done, List.append_nil] at split
      exact absurd (split ▸ List.mem_append_right _ List.mem_cons_self) (spelledAlone spelled)
    · obtain ⟨mark, marked, ok⟩ := Result.bindOk.mp ok
      obtain ⟨others, further, last⟩ := Result.bindOk.mp ok
      cases last
      have behind := split.trans (congrArg (used ++ ·) (expectFront (by simp) marked))
      obtain ⟨rfl, left⟩ := separatedOnce alone (spelledAlone spelled) behind
      exact ⟨clause.value, block, others, spelled, bound, left ▸ further, rfl⟩
  · rintro ⟨c, block, others, spelled, bound, further, rfl⟩
    obtain ⟨_, found⟩ := clauseFound spelled (.semicolon :: us) (by simp)
    refine Result.bindOk.mpr ⟨_, found, Result.bindOk.mpr ⟨block, bound, ?_⟩⟩
    exact Result.bindOk.mpr ⟨.front (), rfl, Result.bindOk.mpr ⟨others, further, rfl⟩⟩

/- The clauses of an attribute are what stands between its semicolons. The induction takes the first
of them off. -/
theorem clausesBetween : readClauses anchors ts = .ok cs ↔ ∃ clauses blocks,
    List.Forall₂ Clause.Spelled clauses (ts.splitOn .semicolon) ∧
      List.Forall₂ (fun c block => anchors.mapM c.bind = .ok block) clauses blocks ∧
      cs = blocks.flatten := by
  induction size : ts.length using Nat.strongRecOn generalizing ts cs with
  | ind size ih =>
    subst size
    by_cases mark : Token.semicolon ∈ ts
    · obtain ⟨first, us, rfl, alone⟩ := List.eq_append_cons_of_mem mark
      have shorter : us.length < (first ++ Token.semicolon :: us).length := by simp; omega
      rw [clausesNext alone, List.splitOn_append_cons_self_of_not_mem alone]
      constructor
      · rintro ⟨c, block, others, spelled, bound, further, rfl⟩
        obtain ⟨clauses, blocks, each, binds, rfl⟩ := (ih _ shorter rfl).mp further
        exact ⟨c :: clauses, block :: blocks, .cons spelled each, .cons bound binds, rfl⟩
      · rintro ⟨_, _, _ | ⟨spelled, each⟩, _ | ⟨bound, binds⟩, rfl⟩
        exact ⟨_, _, _, spelled, bound, (ih _ shorter rfl).mpr ⟨_, _, each, binds, rfl⟩, rfl⟩
    · rw [clausesLast mark, List.splitOn_eq_singleton mark]
      constructor
      · rintro ⟨c, spelled, bound⟩
        exact ⟨[c], [cs], .cons spelled .nil, .cons bound .nil, by simp⟩
      · rintro ⟨_, _, _ | ⟨spelled, ⟨⟩⟩, _ | ⟨bound, ⟨⟩⟩, rfl⟩
        exact ⟨_, spelled, by simpa using bound⟩

theorem clausesJoined : readClauses anchors (ts ++ .semicolon :: us) = .ok cs ↔
    ∃ xs ys, readClauses anchors ts = .ok xs ∧ readClauses anchors us = .ok ys ∧ cs = xs ++ ys := by
  simp only [clausesBetween, List.splitOn_append_cons_self]
  constructor
  · rintro ⟨clauses, blocks, each, binds, rfl⟩
    have left := List.forall₂_take_append _ _ _ each
    have right := List.forall₂_drop_append _ _ _ each
    generalize (ts.splitOn Token.semicolon).length = n at left right
    refine ⟨_, _, ⟨_, _, left, List.forall₂_take n binds, rfl⟩,
      ⟨_, _, right, List.forall₂_drop n binds, rfl⟩, ?_⟩
    rw [← List.flatten_append, List.take_append_drop]
  · rintro ⟨_, _, ⟨clauses, blocks, each, binds, rfl⟩, ⟨others, further, each', binds', rfl⟩, rfl⟩
    exact ⟨clauses ++ others, blocks ++ further, List.rel_append each each',
      List.rel_append binds binds', List.flatten_append.symm⟩

theorem insidePiece {t : Token} (other : t ≠ .semicolon) (inside : t ∈ ts) :
    ∃ piece ∈ ts.splitOn .semicolon, t ∈ piece := by
  induction ts with
  | nil => simp at inside
  | cons s ts ih =>
    obtain ⟨head, tail, pieces⟩ := List.exists_cons_of_ne_nil (List.splitOn_ne_nil .semicolon ts)
    rw [List.splitOn_cons_eq_if_modifyHead]
    rw [pieces] at ih ⊢
    split
    · rename_i mark
      have later : t ∈ ts := by
        refine (List.mem_cons.mp inside).resolve_left fun same => other ?_
        rw [same, eq_of_beq mark]
      obtain ⟨piece, member, own⟩ := ih later
      exact ⟨piece, List.mem_cons_of_mem _ member, own⟩
    · rw [List.modifyHead_cons]
      rcases List.mem_cons.mp inside with rfl | later
      · exact ⟨_, List.mem_cons_self, List.mem_cons_self⟩
      · obtain ⟨piece, member, own⟩ := ih later
        rcases List.mem_cons.mp member with rfl | further
        · exact ⟨_, List.mem_cons_self, List.mem_cons_of_mem _ own⟩
        · exact ⟨piece, List.mem_cons_of_mem _ further, own⟩

/- No string can stand in an attribute, so that no semicolon between two attributes is in one. -/
theorem clausesPlain (ok : readClauses anchors ts = .ok cs) (text : String) :
    .string text ∉ ts := by
  intro inside
  obtain ⟨clauses, blocks, each, -, -⟩ := clausesBetween.mp ok
  obtain ⟨piece, member, own⟩ := insidePiece (by simp) inside
  obtain ⟨c, -, spelled⟩ := forallRight each member
  exact (spelledClausal spelled _ own).2 text rfl

theorem attributeRead {name value : String} : parseAll name value = .ok cs ↔
    ∃ pairs ts, anchors? name = some pairs ∧ Token.scan false value.toList = .ok ts ∧
      readClauses pairs ts = .ok cs ∧ (1 < pairs.length → ∀ c ∈ cs, c.field = none) := by
  unfold parseAll Token.tokenize
  cases anchors? name with
  | none => simp
  | some pairs =>
    simp only [Result.bindOk, readingOk, Option.some.injEq, exists_eq_left', exists_and_left]
    refine exists_congr fun ts => and_congr_right fun _ => ?_
    constructor
    · rintro ⟨constraints, read, ok⟩
      split at ok
      · cases ok
      · rename_i single
        cases ok
        exact ⟨read, by simpa using single⟩
    · rintro ⟨read, single⟩
      exact ⟨cs, read, by rw [if_neg (by simpa using single)]; rfl⟩

/- A semicolon between two values only separates their constraints. -/
theorem parsedJoined (name a b : String) (cs : List Constraint) :
    parseAll name (a ++ ";" ++ b) = .ok cs ↔
      ∃ xs ys, parseAll name a = .ok xs ∧ parseAll name b = .ok ys ∧ cs = xs ++ ys := by
  have chars : (a ++ ";" ++ b).toList = a.toList ++ ';' :: b.toList := by simp
  have mark : Token.punctuation? ';' = some .semicolon := rfl
  simp only [attributeRead, chars]
  constructor
  · rintro ⟨pairs, ts, expands, scanned, read, single⟩
    cases left : Token.scan false a.toList with
    | error e =>
      -- Only an open string in front can be closed behind the semicolon.
      obtain ⟨text, inside⟩ := Token.scanOpen mark left scanned
      exact absurd inside (clausesPlain read text)
    | ok us =>
      rw [Token.scanBefore mark left] at scanned
      obtain ⟨vs, right, rfl⟩ := Result.mapOk.mp scanned
      obtain ⟨xs, ys, first, second, rfl⟩ := clausesJoined.mp read
      refine ⟨xs, ys, ⟨pairs, us, expands, rfl, first, fun several => ?_⟩,
        ⟨pairs, vs, expands, right, second, fun several => ?_⟩, rfl⟩
      · exact (List.forall_mem_append.mp (single several)).1
      · exact (List.forall_mem_append.mp (single several)).2
  · rintro ⟨xs, ys, ⟨pairs, us, expands, left, first, single⟩,
      ⟨pairs', vs, again, right, second, single'⟩, rfl⟩
    obtain rfl := Option.some.inj (expands.symm.trans again)
    refine ⟨pairs, us ++ .semicolon :: vs, expands, ?_, clausesJoined.mpr ⟨xs, ys, first, second, rfl⟩,
      fun several => List.forall_mem_append.mpr ⟨single several, single' several⟩⟩
    rw [Token.scanBefore mark left, right]
    rfl

/-- What a clause gives for one of the anchors of its attribute: a constraint of its own anchor and
target anchor that is the clause in everything else. -/
structure Clause.Gives (clause : Clause) (pair : Anchor × Anchor) (c : Constraint) : Prop where
  anchor : c.anchor = pair.1
  shared : c.relation = clause.relation ∧ c.target = clause.target ∧
    c.modifiers = clause.modifiers ∧ c.priority = clause.priority ∧ c.field = clause.field ∧
    c.condition = clause.condition
  named : ∀ a, clause.targetAnchor = some a → c.targetAnchor = some a
  filled : clause.targetAnchor = none → c.targetAnchor =
    if pair.2 ≠ pair.1 ∧ c.target.isConstant = false then some pair.2 else none
  constant : c.target.isConstant = true →
    (c.anchor = .width ∨ c.anchor = .height) ∧ c.targetAnchor = none

structure Clause.Block (pairs : List (Anchor × Anchor)) (clause : Clause)
    (block : List Constraint) : Prop where
  each : List.Forall₂ clause.Gives pairs block
  single : clause.field.isSome = true → pairs.length = 1

theorem dimensionAnchor {a : Anchor} : a.isDimension = true ↔ a = .width ∨ a = .height := by
  cases a <;> decide

theorem nameVaries (name : String) : (ConstraintTarget.ofName name).isConstant = false := by
  unfold ConstraintTarget.ofName
  split <;> rfl

theorem aimsFreely {target : ConstraintTarget} {anchor : Option Anchor}
    (aims : Aims target anchor ts) (constant : target.isConstant = true) : anchor = none := by
  cases aims with
  | constant x => rfl
  | whole name => rfl
  | anchored name known =>
    rw [nameVaries] at constant
    cases constant

theorem clauseGives {clause : Clause} (spelled : clause.Spelled ts) {pair : Anchor × Anchor}
    {c : Constraint} : clause.bind pair = .ok c ↔ clause.Gives pair c := by
  obtain ⟨_, _, _, aims, _, _⟩ := spelled
  have free := aimsFreely aims
  unfold Clause.bind
  constructor
  · intro ok
    dsimp only at ok
    split at ok
    · rename_i constant
      split at ok
      · rename_i sized
        cases ok
        exact ⟨rfl, ⟨rfl, rfl, rfl, rfl, rfl, rfl⟩, fun a same => same,
          fun absent => by rw [if_neg (by simp [constant])]; exact absent,
          fun _ => ⟨dimensionAnchor.mp sized, free constant⟩⟩
      · cases ok
    · rename_i varies
      cases ok
      refine ⟨rfl, ⟨rfl, rfl, rfl, rfl, rfl, rfl⟩, fun a same => ?_, fun absent => ?_,
        fun constant => absurd constant varies⟩
      · simp [same]
      · simp [absent, varies]
  · intro given
    obtain ⟨a, r, target, targetAnchor, ms, p, field, condition⟩ := c
    obtain ⟨rfl, ⟨rfl, rfl, rfl, rfl, rfl, rfl⟩, named, filled, fixed⟩ := given
    dsimp only at named filled fixed ⊢
    by_cases constant : clause.target.isConstant = true
    · obtain ⟨sized, rfl⟩ := fixed constant
      rw [if_pos constant, if_pos (dimensionAnchor.mpr sized), free constant]
    · rw [if_neg constant]
      cases own : clause.targetAnchor with
      | some b => simp [named b own]
      | none => simp [filled own, constant]

theorem attributeBinds {name : String} {pairs : List (Anchor × Anchor)}
    (expands : anchors? name = some pairs) : pairs ≠ [] := by
  unfold anchors? at expands
  split at expands
  case h_12 =>
    obtain ⟨a, -, rfl⟩ := Option.map_eq_some_iff.mp expands
    exact List.cons_ne_nil _ _
  all_goals
    cases expands
    exact List.cons_ne_nil _ _

theorem blockGives {clause : Clause} (spelled : clause.Spelled ts) {block : List Constraint} :
    anchors.mapM clause.bind = .ok block ↔ List.Forall₂ clause.Gives anchors block :=
  ⟨fun ok => (Result.mapMOk ok).imp fun _ _ => (clauseGives spelled).mp,
    fun each => Result.mapMEach (each.imp fun _ _ => (clauseGives spelled).mpr)⟩

/- A field is in all constraints of a clause, and every clause has one. -/
theorem fieldsSingle {clauses : List Clause} {blocks : List (List Constraint)}
    (some : anchors ≠ [])
    (each : List.Forall₂ (fun clause => List.Forall₂ clause.Gives anchors) clauses blocks) :
    (1 < anchors.length → ∀ c ∈ blocks.flatten, c.field = none) ↔
      ∀ clause ∈ clauses, clause.field.isSome = true → anchors.length = 1 := by
  constructor
  · intro none clause member held
    obtain ⟨block, inside, gives⟩ := forallLeft each member
    obtain ⟨pair, first⟩ := List.exists_mem_of_ne_nil _ some
    obtain ⟨c, own, given⟩ := forallLeft gives first
    by_contra other
    have several : 1 < anchors.length := by
      have := List.length_pos_iff.mpr some
      omega
    have absent := none several c (List.mem_flatten.mpr ⟨block, inside, own⟩)
    obtain ⟨-, -, -, -, field, -⟩ := given.shared
    rw [← field, absent] at held
    cases held
  · intro single several c inside
    obtain ⟨block, member, own⟩ := List.mem_flatten.mp inside
    obtain ⟨clause, listed, gives⟩ := forallRight each member
    obtain ⟨pair, -, given⟩ := forallRight gives own
    obtain ⟨-, -, -, -, field, -⟩ := given.shared
    rw [field]
    by_contra held
    have alone := single clause listed (Option.isSome_iff_ne_none.mpr held)
    omega

/- The constraints of an attribute come in blocks, one for each of its clauses and in their order;
a block has a constraint for each anchor of the attribute, and a field can only name a constraint
that is alone in its block. -/
theorem parsedBlocks (name value : String) (cs : List Constraint) :
    parseAll name value = .ok cs ↔ ∃ pairs ts clauses blocks, anchors? name = some pairs ∧
      Token.tokenize value = .ok ts ∧
      List.Forall₂ Clause.Spelled clauses (ts.splitOn .semicolon) ∧
      List.Forall₂ (Clause.Block pairs) clauses blocks ∧ cs = blocks.flatten := by
  simp only [attributeRead, Token.tokenize, readingOk]
  constructor
  · rintro ⟨pairs, ts, expands, scanned, read, single⟩
    obtain ⟨clauses, blocks, spelled, bound, rfl⟩ := clausesBetween.mp read
    have gives : List.Forall₂ (fun c => List.Forall₂ c.Gives pairs) clauses blocks := by
      refine ((List.forall₂_and_left _ _).mpr ⟨fun c member => forallLeft spelled member, bound⟩).imp ?_
      rintro c block ⟨⟨piece, -, own⟩, ok⟩
      exact (blockGives own).mp ok
    have alone := (fieldsSingle (attributeBinds expands) gives).mp single
    refine ⟨pairs, ts, clauses, blocks, expands, scanned, spelled, ?_, rfl⟩
    exact ((List.forall₂_and_left _ _).mpr ⟨alone, gives⟩).imp fun c block both => ⟨both.2, both.1⟩
  · rintro ⟨pairs, ts, clauses, blocks, expands, scanned, spelled, given, rfl⟩
    have gives := given.imp fun _ _ block => block.each
    have bound : List.Forall₂ (fun c block => pairs.mapM c.bind = .ok block) clauses blocks := by
      refine ((List.forall₂_and_left _ _).mpr ⟨fun c member => forallLeft spelled member, gives⟩).imp ?_
      rintro c block ⟨⟨piece, -, own⟩, each⟩
      exact (blockGives own).mpr each
    refine ⟨pairs, ts, expands, scanned, clausesBetween.mpr ⟨clauses, blocks, spelled, bound, rfl⟩,
      (fieldsSingle (attributeBinds expands) gives).mpr fun c member => ?_⟩
    obtain ⟨block, -, own⟩ := forallLeft given member
    exact own.single

end Constraint
end ViewForge
