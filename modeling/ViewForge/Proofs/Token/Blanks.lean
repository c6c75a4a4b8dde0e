import Mathlib.Data.List.Chain
import ViewForge.Proofs.Token.Separated

/-! Blanks that are kept and blanks that are not. A run of blanks is one token or none, and no other
token depends on it; a text may be cut wherever it has a blank between tokens. -/
namespace ViewForge.Token
open ParseError (Reason)
open Text (isBlank)

theorem markVisible {c : Char} {t : Token} (mark : punctuation? c = some t) :
    t.isWhitespace = false := by
  unfold punctuation? at mark
  split at mark <;> cases mark <;> rfl

theorem operatorVisible {c : Char} {rest tail : List Char} {t : Token}
    (gives : readOperator c rest = .ok (t, tail)) : t.isWhitespace = false := by
  unfold readOperator at gives
  split at gives <;> cases gives <;> rfl

theorem lexemeVisible {c : Char} {rest tail : List Char} {t : Token}
    (gives : lexeme c rest = .ok (t, tail)) : t.isWhitespace = false := by
  unfold lexeme at gives
  split at gives
  · rename_i mark
    cases gives
    exact markVisible mark
  · split_ifs at gives
    · cases gives
      rfl
    · split at gives <;> cases gives
      rfl
    · split at gives <;> cases gives
      rfl
    · split at gives <;> cases gives
      rfl
    · split at gives <;> cases gives
      rfl
    · cases gives
      rfl
    · exact operatorVisible gives

/- The two scans stop at the same places: after a blank, both go on behind the run it begins. -/
theorem scanDrops (cs : List Char) :
    scan false cs = (scan true cs).map (·.filter fun t => !t.isWhitespace) := by
  induction cs using scan.induct true with
  | case1 =>
    rw [scan, scan]
    rfl
  | case2 c rest blank _ ih =>
    rw [scanBlanks blank, scanBlanks blank, ih, mapAgain, mapAgain]
    rfl
  | case3 c rest blank dropped => exact absurd rfl dropped
  | case4 c rest visible e failed =>
    have clear : isBlank c = false := by simpa using visible
    rw [scanError clear failed, scanError clear failed]
    rfl
  | case5 c rest visible t tail given ih =>
    have clear : isBlank c = false := by simpa using visible
    have kept : (!t.isWhitespace) = true := by rw [lexemeVisible given]; rfl
    rw [scanToken clear given, scanToken clear given, ih, mapAgain, mapAgain]
    simp [kept]

def Apart (s t : Token) : Prop := ¬ (s.isWhitespace = true ∧ t.isWhitespace = true)

instance : DecidableRel Apart := fun _ _ => inferInstanceAs (Decidable (¬ _))

theorem headVisible {cs : List Char} (visible : ∀ c ∈ cs.head?, isBlank c = false)
    {ts : List Token} (scanned : scan true cs = .ok ts) :
    ∀ t ∈ ts.head?, t.isWhitespace = false := by
  cases cs with
  | nil =>
    rw [scan] at scanned
    cases scanned
    simp
  | cons c rest =>
    have clear := visible c rfl
    cases given : lexeme c rest with
    | error e =>
      rw [scanError clear given] at scanned
      cases scanned
    | ok p =>
      rw [scanToken clear given] at scanned
      obtain ⟨others, _, rfl⟩ := Result.mapOk.mp scanned
      rintro t ⟨⟩
      exact lexemeVisible given

theorem scanApart {cs : List Char} {ts : List Token} (scanned : scan true cs = .ok ts) :
    ts.IsChain Apart := by
  induction cs using scan.induct true generalizing ts with
  | case1 =>
    rw [scan] at scanned
    cases scanned
    exact List.isChain_nil
  | case2 c rest blank _ ih =>
    rw [scanBlanks blank] at scanned
    obtain ⟨others, tail, rfl⟩ := Result.mapOk.mp scanned
    have stops : ∀ d ∈ (rest.dropWhile isBlank).head?, isBlank d = false := by
      intro d first
      simpa [Option.mem_def.mp first] using List.head?_dropWhile_not isBlank rest
    have visible := headVisible stops tail
    refine List.isChain_cons.mpr ⟨fun t first both => ?_, ih tail⟩
    rw [visible t first] at both
    cases both.2
  | case3 c rest blank dropped => exact absurd rfl dropped
  | case4 c rest visible e failed =>
    rw [scanError (by simpa using visible) failed] at scanned
    cases scanned
  | case5 c rest visible t tail given ih =>
    rw [scanToken (by simpa using visible) given] at scanned
    obtain ⟨others, after, rfl⟩ := Result.mapOk.mp scanned
    refine List.isChain_cons.mpr ⟨fun next _ both => ?_, ih after⟩
    rw [lexemeVisible given] at both
    cases both.1

theorem scanBehind {blanks : List Char} (blank : ∀ c ∈ blanks, isBlank c = true)
    (rest : List Char) : scan false (blanks ++ rest) = scan false rest := by
  induction blanks with
  | nil => rfl
  | cons c more ih =>
    obtain ⟨here, others⟩ := List.forall_mem_cons.mp blank
    rw [List.cons_append, scanBlank here, ih others]

/- Blanks at the end of the first text and those that follow it make one run, so that the induction
is on the text without them. -/
theorem scanAround {cs : List Char} {ts : List Token} (scanned : scan false cs = .ok ts)
    {m : Char} (blank : isBlank m = true) (more : List Char) :
    scan false (cs ++ m :: more) = (scan false more).map (ts ++ ·) := by
  induction cs using scan.induct false generalizing ts with
  | case1 =>
    rw [scan] at scanned
    cases scanned
    rw [List.nil_append, scanBlank blank]
    cases scan false more <;> rfl
  | case2 c rest _ kept => cases kept
  | case3 c rest start _ ih =>
    have run : ∀ d ∈ c :: rest.takeWhile isBlank, isBlank d = true :=
      List.forall_mem_cons.mpr ⟨start, fun d member => List.mem_takeWhile_imp member⟩
    have split : c :: rest = (c :: rest.takeWhile isBlank) ++ rest.dropWhile isBlank := by
      rw [List.cons_append, List.takeWhile_append_dropWhile]
    rw [split, scanBehind run] at scanned
    rw [split, List.append_assoc, scanBehind run, ih scanned]
  | case4 c rest visible e failed =>
    rw [scanError (by simpa using visible) failed] at scanned
    cases scanned
  | case5 c rest visible t tail given ih =>
    have clear : isBlank c = false := by simpa using visible
    rw [scanToken clear given] at scanned
    obtain ⟨others, later, rfl⟩ := Result.mapOk.mp scanned
    have whole := lexemeKept (blankDivides blank) given more
    rw [List.cons_append, scanToken clear whole, ih later, mapAgain]
    rfl

/- With blanks kept and without, a text has tokens or none for the same reason, and the tokens are
the same but for the blanks, no two of which follow each other. Between two texts, blanks change the
tokens of neither. -/
theorem blanksInvisible :
    (∀ value : String,
      (∃ ts, tokenizeKeepingBlanks value = .ok ts ∧ ts.IsChain Apart ∧
        tokenize value = .ok (ts.filter fun t => !t.isWhitespace)) ∨
      ∃ e, tokenizeKeepingBlanks value = .error e ∧ tokenize value = .error e) ∧
    ∀ (a b blanks : String) (ta tb : List Token), tokenize a = .ok ta → tokenize b = .ok tb →
      blanks ≠ "" → (∀ c ∈ blanks.toList, isBlank c = true) →
        tokenize (a ++ blanks ++ b) = .ok (ta ++ tb) := by
  refine ⟨fun value => ?_, fun a b blanks ta tb left right some blank => ?_⟩
  · unfold tokenize tokenizeKeepingBlanks
    rw [scanDrops]
    cases scanned : scan true value.toList with
    | ok ts => exact .inl ⟨ts, rfl, scanApart scanned, rfl⟩
    | error reason => exact .inr ⟨⟨reason, value⟩, rfl, rfl⟩
  · unfold tokenize at left right ⊢
    rw [readingOk] at left right ⊢
    cases run : blanks.toList with
    | nil => exact absurd (String.toList_inj.mp run) some
    | cons m more =>
      rw [run] at blank
      obtain ⟨here, others⟩ := List.forall_mem_cons.mp blank
      rw [String.toList_append, String.toList_append, run, List.append_assoc, List.cons_append,
        scanAround left here, scanBehind others, right]
      rfl

/- Without the blanks the two texts together would be read in another way. -/
theorem equalsApart :
    (tokenize "top =" = .ok [identifier "top", operator "="] ∧
      tokenize "= 'safe area'" = .ok [operator "=", string "safe area"] ∧
      tokenize ("top =" ++ "= 'safe area'") =
        .ok [identifier "top", operator "==", string "safe area"]) ∧
    tokenize ("top =" ++ "\t\n" ++ "= 'safe area'") =
      .ok ([identifier "top", operator "="] ++ [operator "=", string "safe area"]) := by
  have left : tokenize "top =" = .ok [identifier "top", operator "="] := by decide +kernel
  have right : tokenize "= 'safe area'" = .ok [operator "=", string "safe area"] := by
    decide +kernel
  have joined : tokenize ("top =" ++ "= 'safe area'") =
      .ok [identifier "top", operator "==", string "safe area"] := by decide +kernel
  have blank : ∀ c ∈ "\t\n".toList, isBlank c = true := by simp [isBlank]
  exact ⟨⟨left, right, joined⟩, blanksInvisible.2 _ _ "\t\n" _ _ left right (by decide) blank⟩

end ViewForge.Token
