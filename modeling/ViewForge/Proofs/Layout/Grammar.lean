import ViewForge.Layout.Condition
import ViewForge.Proofs.Task

/-! The grammar of conditions, and the reader against it. Alternatives and conjunctions lean to the
left, so that each list of tokens has one tree at most; the reader finds it, and what it leaves is
what no longer belongs to the expression. -/
namespace ViewForge

def Axis.name : Axis → String
  | horizontal => "horizontal"
  | vertical => "vertical"

namespace Condition
open ParseError (Reason)
open Token (Parsed Optional)

def words : List (String × Condition) := [
  ("true", bool true), ("false", bool false),
  ("phone", idiom .phone), ("iphone", idiom .phone), ("pad", idiom .pad), ("ipad", idiom .pad),
  ("tv", idiom .tv), ("carPlay", idiom .carPlay), ("mac", idiom .mac),
  ("landscape", orientation .landscape), ("portrait", orientation .portrait),
  ("dark", style .dark), ("light", style .light)]

inductive Atom : List Token → Condition → Prop where
  | word {name : String} {c : Condition} (listed : (name, c) ∈ words) :
      Atom [.identifier name] c
  | sizeClass (axis : Axis) (equal : Bool) (c : SizeClass) :
      Atom [.identifier axis.name, .operator (if equal then "==" else "!="), .identifier c.name]
        (.sizeClass axis equal c)
  | rootSize (extent : Extent) (comparison : Comparison) (x : Float) :
      Atom [.identifier extent.name, .operator comparison.symbol, .number x]
        (.rootSize extent comparison x)

inductive Level where
  | or
  | and
  | unary
  | primary
  deriving DecidableEq, Repr

def OrWord (t : Token) : Prop := t = .identifier "or" ∨ t = .operator "||"
def AndWord (t : Token) : Prop := t = .identifier "and" ∨ t = .operator "&&"
def NotWord (t : Token) : Prop := t = .identifier "not" ∨ t = .operator "!"

/- The tree of a list of tokens at a level of the grammar. -/
inductive Derives : Level → List Token → Condition → Prop where
  | conjunction {ts : List Token} {c : Condition} (only : Derives .and ts c) : Derives .or ts c
  | or {ts us : List Token} {t : Token} {c d : Condition} (lhs : Derives .or ts c)
      (word : OrWord t) (rhs : Derives .and us d) : Derives .or (ts ++ t :: us) (.or c d)
  | operand {ts : List Token} {c : Condition} (only : Derives .unary ts c) : Derives .and ts c
  | and {ts us : List Token} {t : Token} {c d : Condition} (lhs : Derives .and ts c)
      (word : AndWord t) (rhs : Derives .unary us d) : Derives .and (ts ++ t :: us) (.and c d)
  | not {ts : List Token} {t : Token} {c : Condition} (word : NotWord t)
      (inner : Derives .unary ts c) : Derives .unary (t :: ts) (.not c)
  | primary {ts : List Token} {c : Condition} (only : Derives .primary ts c) : Derives .unary ts c
  | group {ts : List Token} {c : Condition} (inner : Derives .or ts c) :
      Derives .primary (.parensOpen :: ts ++ [.parensClose]) c
  | atom {ts : List Token} {c : Condition} (atom : Atom ts c) : Derives .primary ts c

theorem isOrIff {t : Token} : isOr t = true ↔ OrWord t := by simp [isOr, OrWord]
theorem isAndIff {t : Token} : isAnd t = true ↔ AndWord t := by simp [isAnd, AndWord]
theorem isNotIff {t : Token} : isNot t = true ↔ NotWord t := by simp [isNot, NotWord]

theorem keywordListed {name : String} {c : Condition} :
    keyword? name = some c ↔ (name, c) ∈ words := by
  constructor
  · intro known
    unfold keyword? at known
    split at known <;> cases known <;> simp [words]
  · intro listed
    have all : ∀ w ∈ words, keyword? w.1 = some w.2 := by simp [words, keyword?]
    exact all _ listed

theorem axisNamed {name : String} {axis : Axis} : axis? name = some axis ↔ name = axis.name := by
  constructor
  · intro known
    unfold axis? at known
    split at known <;> cases known <;> rfl
  · rintro rfl
    cases axis <;> rfl

theorem extentNamed {name : String} {extent : Extent} :
    extent? name = some extent ↔ name = extent.name := by
  constructor
  · intro known
    unfold extent? at known
    split at known <;> cases known <;> rfl
  · rintro rfl
    cases extent <;> rfl

theorem classNamed {name : String} {c : SizeClass} :
    SizeClass.ofName? name = some c ↔ name = c.name := by
  constructor
  · intro known
    unfold SizeClass.ofName? at known
    split at known <;> cases known <;> rfl
  · rintro rfl
    cases c <;> rfl

theorem comparisonNamed {symbol : String} {comparison : Comparison} :
    Comparison.ofSymbol? symbol = some comparison ↔ symbol = comparison.symbol := by
  constructor
  · intro known
    unfold Comparison.ofSymbol? at known
    split at known <;> cases known <;> rfl
  · rintro rfl
    cases comparison <;> rfl

theorem readSizeClassGives {axis : Axis} {ts : List Token} {p : Parsed ts Condition}
    (ok : readSizeClass axis ts = .ok p) : ∃ equal c, p.value = .sizeClass axis equal c ∧
      ts = .operator (if equal then "==" else "!=") :: .identifier c.name :: p.rest := by
  unfold readSizeClass at ok
  split at ok
  · rename_i symbol rest
    split at ok
    · rename_i known
      obtain ⟨name, found, ok⟩ := Result.bindOk.mp ok
      split at ok
      · rename_i c named
        cases ok
        unfold Token.expectIdentifier at found
        split at found
        · cases found
          cases classNamed.mp named
          rcases known with rfl | rfl
          · exact ⟨true, c, rfl, rfl⟩
          · exact ⟨false, c, rfl, rfl⟩
        · cases found
      · cases ok
    · cases ok
  · cases ok

theorem readRootSizeGives {extent : Extent} {ts : List Token} {p : Parsed ts Condition}
    (ok : readRootSize extent ts = .ok p) : ∃ comparison x,
      p.value = .rootSize extent comparison x ∧
      ts = .operator comparison.symbol :: .number x :: p.rest := by
  unfold readRootSize at ok
  split at ok
  · split at ok
    · rename_i comparison named
      obtain ⟨number, found, ok⟩ := Result.bindOk.mp ok
      cases ok
      unfold Token.expectNumber at found
      split at found
      · cases found
        cases comparisonNamed.mp named
        exact ⟨comparison, _, rfl, rfl⟩
      · cases found
    · cases ok
  · cases ok

theorem readAtomGives {ts : List Token} {p : Parsed ts Condition} (ok : readAtom ts = .ok p) :
    ∃ used, ts = used ++ p.rest ∧ Atom used p.value := by
  unfold readAtom at ok
  obtain ⟨name, found, ok⟩ := Result.bindOk.mp ok
  unfold Token.expectIdentifier at found
  split at found
  · cases found
    simp only [Parsed.front] at ok
    split at ok
    · rename_i known
      cases ok
      exact ⟨_, rfl, .word (keywordListed.mp known)⟩
    · rename_i known
      obtain ⟨q, compared, ok⟩ := Result.bindOk.mp ok
      cases ok
      obtain ⟨equal, c, value, rest⟩ := readSizeClassGives compared
      cases axisNamed.mp known
      simp only [Parsed.andThen]
      rw [value]
      exact ⟨_, congrArg _ rest, .sizeClass _ equal c⟩
    · rename_i known
      obtain ⟨q, compared, ok⟩ := Result.bindOk.mp ok
      cases ok
      obtain ⟨comparison, x, value, rest⟩ := readRootSizeGives compared
      cases extentNamed.mp known
      simp only [Parsed.andThen]
      rw [value]
      exact ⟨_, congrArg _ rest, .rootSize _ comparison x⟩
    · cases ok
  · cases found

def Finds {ts : List Token} (outcome : Except Reason (Parsed ts Condition)) (c : Condition)
    (rest : List Token) : Prop :=
  ∃ shorter, outcome = .ok ⟨c, rest, shorter⟩

theorem readAtomFinds {ts : List Token} {c : Condition} (atom : Atom ts c) (rest : List Token) :
    Finds (readAtom (ts ++ rest)) c rest := by
  cases atom with
  | @word name _ listed =>
    have known := keywordListed.mpr listed
    have found : readAtom ([.identifier name] ++ rest) = .ok (.front c) := by
      apply Result.bindOk.mpr ⟨Parsed.front name, rfl, _⟩
      simp only [Parsed.front, known]
      rfl
    exact ⟨_, found⟩
  | sizeClass axis equal c => cases axis <;> cases equal <;> cases c <;> exact ⟨_, rfl⟩
  | rootSize extent comparison x => cases extent <;> cases comparison <;> exact ⟨_, rfl⟩

/- Tokens that would take an expression further at its level. -/
def Level.Continues : Level → Token → Prop
  | .or, t => OrWord t ∨ AndWord t
  | .and, t => AndWord t
  | .unary, _ | .primary, _ => False

def Ends (level : Level) (rest : List Token) : Prop := ∀ t ∈ rest.head?, ¬ level.Continues t

def Reads (level : Level) {ts : List Token} (outcome : Except Reason (Parsed ts Condition)) :
    Prop :=
  ∀ p, outcome = .ok p → ∃ used, ts = used ++ p.rest ∧ Derives level used p.value ∧
    Ends level p.rest

/- A loop goes on from an expression that stands before its tokens. -/
def ReadsOn (level inner : Level) (lhs : Condition) (ts : List Token)
    (outcome : Except Reason (Optional ts Condition)) : Prop :=
  ∀ p, outcome = .ok p → ∀ before, Derives level before lhs → Ends inner ts →
    ∃ used, ts = used ++ p.rest ∧ Derives level (before ++ used) p.value ∧ Ends level p.rest

/- Both loops begin with an expression of the inner level and go on behind it. -/
theorem sequenceReads {level inner : Level} {ts : List Token}
    {first : Except Reason (Parsed ts Condition)}
    {tail : Condition → (rest : List Token) → Except Reason (Optional rest Condition)}
    (alone : ∀ {used c}, Derives inner used c → Derives level used c) (begins : Reads inner first)
    (goesOn : ∀ lhs : Parsed ts Condition,
      ReadsOn level inner lhs.value lhs.rest (tail lhs.value lhs.rest)) :
    Reads level (do
      let lhs ← first
      let c ← tail lhs.value lhs.rest
      return lhs.andThenOptional c) := by
  intro p ok
  obtain ⟨lhs, begun, ok⟩ := Result.bindOk.mp ok
  obtain ⟨more, ended, ok⟩ := Result.bindOk.mp ok
  cases ok
  obtain ⟨used, split, derives, ends⟩ := begins lhs begun
  obtain ⟨others, left, whole, stops⟩ := goesOn lhs more ended used (alone derives) ends
  have all : ts = used ++ others ++ more.rest := by
    calc ts = used ++ lhs.rest := split
      _ = used ++ (others ++ more.rest) := congrArg _ left
      _ = used ++ others ++ more.rest := (List.append_assoc ..).symm
  exact ⟨used ++ others, all, whole, stops⟩

theorem loopReads {level inner : Level} {lhs : Condition} {t : Token} {more : List Token}
    {first : Except Reason (Parsed more Condition)}
    {tail : Condition → (rest : List Token) → Except Reason (Optional rest Condition)}
    {join : Condition → Condition → Condition}
    (joined : ∀ {before used c d}, Derives level before c → Derives inner used d →
      Derives level (before ++ t :: used) (join c d))
    (begins : Reads inner first)
    (goesOn : ∀ rhs : Parsed more Condition,
      ReadsOn level inner (join lhs rhs.value) rhs.rest (tail (join lhs rhs.value) rhs.rest)) :
    ReadsOn level inner lhs (t :: more) (do
      let rhs ← first
      let c ← tail (join lhs rhs.value) rhs.rest
      return (rhs.andThenOptional c).behind.toOptional) := by
  intro p ok before derives _
  obtain ⟨rhs, begun, ok⟩ := Result.bindOk.mp ok
  obtain ⟨rest, ended, ok⟩ := Result.bindOk.mp ok
  cases ok
  obtain ⟨used, split, second, ends⟩ := begins rhs begun
  obtain ⟨others, left, whole, stops⟩ := goesOn rhs rest ended _ (joined derives second) ends
  have all : t :: more = t :: used ++ others ++ rest.rest := by
    calc t :: more = t :: used ++ rhs.rest := congrArg _ split
      _ = t :: used ++ (others ++ rest.rest) := congrArg _ left
      _ = t :: used ++ others ++ rest.rest := (List.append_assoc ..).symm
  rw [List.append_assoc] at whole
  exact ⟨t :: used ++ others, all, whole, stops⟩

theorem stopReads {level inner : Level} {lhs : Condition} {ts : List Token}
    (stops : Ends inner ts → Ends level ts) :
    ReadsOn level inner lhs ts (.ok (.unread lhs)) := by
  intro p ok before derives ends
  cases ok
  exact ⟨[], rfl, by rwa [List.append_nil], stops ends⟩

theorem readUnaryNot {t : Token} {more : List Token} (other : t ≠ .parensOpen) (word : NotWord t)
    (inner : Reads .unary (readUnary more)) : Reads .unary (readUnary (t :: more)) := by
  intro p ok
  rw [readUnary, if_pos (isNotIff.mpr word)] at ok
  · obtain ⟨q, begun, ok⟩ := Result.bindOk.mp ok
    cases ok
    obtain ⟨used, split, derives, ends⟩ := inner q begun
    exact ⟨t :: used, congrArg _ split, .not word derives, ends⟩
  · exact other

theorem expectGives {ts : List Token} {p : Parsed ts Unit}
    (ok : Token.expect .parensClose ts = .ok p) : ts = .parensClose :: p.rest := by
  unfold Token.expect at ok
  split at ok
  · split at ok
    · rename_i t rest agrees
      cases ok
      have same : t = .parensClose := by cases t <;> simp_all [Token.agrees]
      rw [same]
      rfl
    · cases ok
  · cases ok

theorem readUnaryGroup {more : List Token} (inner : Reads .or (readOr more)) :
    Reads .unary (readUnary (.parensOpen :: more)) := by
  intro p ok
  rw [readUnary] at ok
  obtain ⟨q, begun, ok⟩ := Result.bindOk.mp ok
  obtain ⟨closing, closed, ok⟩ := Result.bindOk.mp ok
  cases ok
  obtain ⟨used, split, derives, _⟩ := inner q begun
  have all : Token.parensOpen :: more =
      .parensOpen :: used ++ [.parensClose] ++ closing.rest := by
    calc Token.parensOpen :: more = .parensOpen :: (used ++ q.rest) := congrArg _ split
      _ = .parensOpen :: (used ++ .parensClose :: closing.rest) :=
        congrArg (.parensOpen :: used ++ ·) (expectGives closed)
      _ = .parensOpen :: used ++ [.parensClose] ++ closing.rest := by simp
  exact ⟨_, all, .primary (.group derives), fun _ _ => id⟩

theorem readAtomReads (ts : List Token) : Reads .unary (readAtom ts) := by
  intro p ok
  obtain ⟨used, split, atom⟩ := readAtomGives ok
  exact ⟨used, split, .primary (.atom atom), fun _ _ => id⟩

theorem readersRead : (∀ ts, Reads .or (readOr ts)) ∧
    (∀ lhs ts, ReadsOn .or .and lhs ts (readOrTail lhs ts)) ∧ (∀ ts, Reads .and (readAnd ts)) ∧
    (∀ lhs ts, ReadsOn .and .unary lhs ts (readAndTail lhs ts)) ∧
    (∀ ts, Reads .unary (readUnary ts)) := by
  apply readOr.mutual_induct
  case case1 =>
    intro ts first tail
    rw [readOr]
    exact sequenceReads .conjunction first tail
  case case2 =>
    intro lhs
    rw [readOrTail]
    exact stopReads fun _ _ none => nomatch none
  case case3 =>
    intro lhs t more word first tail
    rw [readOrTail, if_pos word]
    exact loopReads (.or · (isOrIff.mp word) ·) first tail
  case case4 =>
    intro lhs t more other
    rw [readOrTail, if_neg other]
    apply stopReads
    rintro ends _ ⟨⟩ (word | word)
    · exact other (isOrIff.mpr word)
    · exact ends t rfl word
  case case5 =>
    intro ts first tail
    rw [readAnd]
    exact sequenceReads .operand first tail
  case case6 =>
    intro lhs
    rw [readAndTail]
    exact stopReads fun _ _ none => nomatch none
  case case7 =>
    intro lhs t more word first tail
    rw [readAndTail, if_pos word]
    exact loopReads (.and · (isAndIff.mp word) ·) first tail
  case case8 =>
    intro lhs t more other
    rw [readAndTail, if_neg other]
    apply stopReads
    rintro _ _ ⟨⟩ word
    exact other (isAndIff.mpr word)
  case case9 => exact fun more => readUnaryGroup
  case case10 =>
    rw [readUnary]
    exact readAtomReads []
  case case11 => exact fun t more other word inner => readUnaryNot other (isNotIff.mp word) inner
  case case12 =>
    intro t more other word
    rw [readUnary, if_neg word]
    · exact readAtomReads (t :: more)
    · exact other

/- What a loop makes of the tokens behind an expression is what the reader makes of the whole. -/
def Goes {ts rest : List Token} (outcome : Except Reason (Parsed ts Condition))
    (tail : Except Reason (Optional rest Condition)) : Prop :=
  ∀ c left bounded, tail = .ok ⟨c, left, bounded⟩ → Finds outcome c left

def Level.Complete : Level → List Token → Condition → Prop
  | .or, ts, c => ∀ rest, Ends .and rest → Goes (readOr (ts ++ rest)) (readOrTail c rest)
  | .and, ts, c => ∀ rest, Goes (readAnd (ts ++ rest)) (readAndTail c rest)
  | .unary, ts, c | .primary, ts, c => ∀ rest, Finds (readUnary (ts ++ rest)) c rest

theorem readOrTailStops {c : Condition} {rest : List Token} (ends : Ends .or rest) :
    readOrTail c rest = .ok (.unread c) := by
  cases rest with
  | nil => rw [readOrTail]
  | cons t more =>
    rw [readOrTail, if_neg fun word => ends t rfl (.inl (isOrIff.mp word))]

theorem readAndTailStops {c : Condition} {rest : List Token} (ends : Ends .and rest) :
    readAndTail c rest = .ok (.unread c) := by
  cases rest with
  | nil => rw [readAndTail]
  | cons t more =>
    rw [readAndTail, if_neg fun word => ends t rfl (isAndIff.mp word)]

theorem readAndAlone {ts rest : List Token} {c : Condition} (whole : Level.and.Complete ts c)
    (ends : Ends .and rest) : Finds (readAnd (ts ++ rest)) c rest :=
  whole rest _ _ _ (readAndTailStops ends)

theorem orWordEnds {t : Token} (word : OrWord t) (more : List Token) : Ends .and (t :: more) := by
  rintro _ ⟨⟩ other
  rcases word with rfl | rfl <;> simp [Level.Continues, AndWord] at other

theorem closeEnds (level : Level) (more : List Token) : Ends level (.parensClose :: more) := by
  rintro _ ⟨⟩ other
  cases level <;> simp [Level.Continues, OrWord, AndWord] at other

theorem conjunctionComplete {ts : List Token} {c : Condition} (whole : Level.and.Complete ts c) :
    Level.or.Complete ts c := by
  intro rest ends _ _ _ tail
  obtain ⟨_, found⟩ := readAndAlone whole ends
  rw [readOr]
  exact ⟨_, Result.bindOk.mpr ⟨_, found, Result.bindOk.mpr ⟨_, tail, rfl⟩⟩⟩

theorem orComplete {ts us : List Token} {t : Token} {c d : Condition}
    (left : Level.or.Complete ts c) (word : OrWord t) (right : Level.and.Complete us d) :
    Level.or.Complete (ts ++ t :: us) (.or c d) := by
  intro rest ends e last _ tail
  obtain ⟨_, found⟩ := readAndAlone right ends
  have further : ∃ bounded, readOrTail c (t :: us ++ rest) = .ok ⟨e, last, bounded⟩ := by
    rw [List.cons_append, readOrTail, if_pos (isOrIff.mpr word)]
    exact ⟨_, Result.bindOk.mpr ⟨_, found, Result.bindOk.mpr ⟨_, tail, rfl⟩⟩⟩
  rw [List.append_assoc]
  exact left _ (orWordEnds word _) _ _ _ further.choose_spec

theorem operandComplete {ts : List Token} {c : Condition} (whole : Level.unary.Complete ts c) :
    Level.and.Complete ts c := by
  intro rest _ _ _ tail
  obtain ⟨_, found⟩ := whole rest
  rw [readAnd]
  exact ⟨_, Result.bindOk.mpr ⟨_, found, Result.bindOk.mpr ⟨_, tail, rfl⟩⟩⟩

theorem andComplete {ts us : List Token} {t : Token} {c d : Condition}
    (left : Level.and.Complete ts c) (word : AndWord t) (right : Level.unary.Complete us d) :
    Level.and.Complete (ts ++ t :: us) (.and c d) := by
  intro rest e last _ tail
  obtain ⟨_, found⟩ := right rest
  have further : ∃ bounded, readAndTail c (t :: us ++ rest) = .ok ⟨e, last, bounded⟩ := by
    rw [List.cons_append, readAndTail, if_pos (isAndIff.mpr word)]
    exact ⟨_, Result.bindOk.mpr ⟨_, found, Result.bindOk.mpr ⟨_, tail, rfl⟩⟩⟩
  rw [List.append_assoc]
  exact left _ _ _ _ further.choose_spec

theorem notComplete {ts : List Token} {t : Token} {c : Condition} (word : NotWord t)
    (inner : Level.unary.Complete ts c) : Level.unary.Complete (t :: ts) (.not c) := by
  intro rest
  obtain ⟨_, found⟩ := inner rest
  rw [List.cons_append, readUnary, if_pos (isNotIff.mpr word)]
  · exact ⟨_, Result.bindOk.mpr ⟨_, found, rfl⟩⟩
  · rintro rfl
    simp [NotWord] at word

theorem groupComplete {ts : List Token} {c : Condition} (inner : Level.or.Complete ts c) :
    Level.primary.Complete (.parensOpen :: ts ++ [.parensClose]) c := by
  intro rest
  obtain ⟨_, found⟩ := inner (.parensClose :: rest) (closeEnds .and rest) _ _ _
    (readOrTailStops (closeEnds .or rest))
  rw [List.append_assoc, List.cons_append, readUnary]
  exact ⟨_, Result.bindOk.mpr ⟨_, found, rfl⟩⟩

theorem atomBegins {ts : List Token} {c : Condition} (atom : Atom ts c) :
    ∃ name more, ts = .identifier name :: more ∧ name ≠ "not" := by
  cases atom with
  | @word name _ listed =>
    have other : ∀ w ∈ words, w.1 ≠ "not" := by decide
    exact ⟨name, [], rfl, other _ listed⟩
  | sizeClass axis => exact ⟨_, _, rfl, by cases axis <;> decide⟩
  | rootSize extent => exact ⟨_, _, rfl, by cases extent <;> decide⟩

theorem atomComplete {ts : List Token} {c : Condition} (atom : Atom ts c) :
    Level.primary.Complete ts c := by
  intro rest
  have found := readAtomFinds atom rest
  obtain ⟨name, more, rfl, other⟩ := atomBegins atom
  rw [List.cons_append, readUnary, if_neg]
  · exact found
  · simpa [isNot] using other
  · simp

theorem derivesComplete {level : Level} {ts : List Token} {c : Condition}
    (derives : Derives level ts c) : level.Complete ts c := by
  induction derives with
  | conjunction _ only => exact conjunctionComplete only
  | or _ word _ left right => exact orComplete left word right
  | operand _ only => exact operandComplete only
  | and _ word _ left right => exact andComplete left word right
  | not word _ inner => exact notComplete word inner
  | primary _ only => exact only
  | group _ inner => exact groupComplete inner
  | atom atom => exact atomComplete atom

theorem derivesFinds {ts rest : List Token} {c : Condition} (derives : Derives .or ts c)
    (ends : Ends .or rest) : Finds (readOr (ts ++ rest)) c rest :=
  derivesComplete derives rest (fun t first word => ends t first (.inr word)) _ _ _
    (readOrTailStops ends)

theorem endsNil (level : Level) : Ends level [] := fun _ none => nomatch none

theorem readIff {ts : List Token} {c : Condition} : read ts = .ok c ↔ Derives .or ts c := by
  constructor
  · intro ok
    obtain ⟨p, found, ok⟩ := Result.bindOk.mp ok
    obtain ⟨_, ended, ok⟩ := Result.bindOk.mp ok
    cases ok
    obtain ⟨used, split, derives, _⟩ := readersRead.1 ts p found
    have none : p.rest = [] := by
      cases left : p.rest with
      | nil => rfl
      | cons t more => rw [left] at ended; cases ended
    rw [none, List.append_nil] at split
    exact split.symm ▸ derives
  · intro derives
    have found := derivesFinds derives (endsNil .or)
    rw [List.append_nil] at found
    obtain ⟨_, found⟩ := found
    exact Result.bindOk.mpr ⟨_, found, rfl⟩

theorem derivesOnce {ts : List Token} {c d : Condition} (one : Derives .or ts c)
    (other : Derives .or ts d) : c = d := by
  have found := readIff.mpr one
  rw [readIff.mpr other] at found
  cases found
  rfl

/- The tokens before `rest` are an expression, and no longer one begins with them and the next. -/
def Longest (ts : List Token) (c : Condition) (rest : List Token) : Prop :=
  ∃ used, ts = used ++ rest ∧ Derives .or used c ∧
    ∀ t ∈ rest.head?, ∀ more d, ¬ Derives .or (used ++ t :: more) d

theorem derivesStops {used more : List Token} {t : Token} {c d : Condition}
    (derives : Derives .or used c) (ends : ¬ Level.or.Continues t) :
    ¬ Derives .or (used ++ t :: more) d := by
  intro longer
  have whole := derivesFinds longer (endsNil .or)
  have begun : Finds (readOr (used ++ t :: more)) c (t :: more) :=
    derivesFinds derives (by rintro _ ⟨⟩; exact ends)
  rw [List.append_nil] at whole
  obtain ⟨_, whole⟩ := whole
  obtain ⟨_, begun⟩ := begun
  rw [whole] at begun
  cases begun

theorem derivesFurther {used : List Token} {t : Token} {c : Condition}
    (derives : Derives .or used c) (goesOn : Level.or.Continues t) :
    ∃ more d, Derives .or (used ++ t :: more) d := by
  have one : Derives .unary [.identifier "true"] (.bool true) :=
    .primary (.atom (.word (by decide)))
  rcases goesOn with word | word
  · exact ⟨_, _, .or derives word (.operand one)⟩
  · cases derives with
    | conjunction only => exact ⟨_, _, .conjunction (.and only word one)⟩
    | or lhs orWord rhs =>
      have longer := Derives.or lhs orWord (.and rhs word one)
      rw [← List.cons_append, ← List.append_assoc] at longer
      exact ⟨_, _, longer⟩

theorem readOrIff {ts rest : List Token} {c : Condition} :
    Finds (readOr ts) c rest ↔ Longest ts c rest := by
  constructor
  · rintro ⟨shorter, found⟩
    obtain ⟨used, split, derives, ends⟩ := readersRead.1 ts _ found
    exact ⟨used, split, derives, fun t first _ _ => derivesStops derives (ends t first)⟩
  · rintro ⟨used, rfl, derives, stops⟩
    apply derivesFinds derives
    intro t first goesOn
    obtain ⟨more, d, longer⟩ := derivesFurther derives goesOn
    exact stops t first more d longer

/- The reader accepts the lists of the grammar, with their only trees, and what it takes of any
other list is the longest expression in front. -/
theorem readsGrammar (ts : List Token) :
    (∀ c, read ts = .ok c ↔ Derives .or ts c) ∧
    ((∃ c, read ts = .ok c) ↔ ∃! c, Derives .or ts c) ∧
    (∀ c rest, Finds (readOr ts) c rest ↔ Longest ts c rest) := by
  have once : (∃ c, read ts = .ok c) ↔ ∃! c, Derives .or ts c := by
    constructor
    · rintro ⟨c, ok⟩
      exact ⟨c, readIff.mp ok, fun d derives => derivesOnce derives (readIff.mp ok)⟩
    · rintro ⟨c, derives, _⟩
      exact ⟨c, readIff.mpr derives⟩
  exact ⟨fun c => readIff, once, fun c rest => readOrIff⟩

end Condition
end ViewForge
