import ViewForge.Proofs.Source.Layout

/-! Printed conditions are read in one way only. A blank outside of all parentheses stands beside an
operator, and the operands of an operator have none, so that the text of an expression gives the
expression back. -/
namespace ViewForge
namespace Code

/- The number of open parentheses behind a text, unless it closes more than are open or has a blank
where none is open. -/
def open? : Nat → List Char → Option Nat
  | depth, [] => some depth
  | depth, c :: rest =>
    if c = '(' then open? (depth + 1) rest
    else if c = ')' then if depth = 0 then none else open? (depth - 1) rest
    else if c = ' ' ∧ depth = 0 then none
    else open? depth rest

def Whole (cs : List Char) : Prop := open? 0 cs = some 0

instance (cs : List Char) : Decidable (Whole cs) := inferInstanceAs (Decidable (_ = _))

theorem openAppend (depth : Nat) (xs ys : List Char) :
    open? depth (xs ++ ys) = (open? depth xs).bind (open? · ys) := by
  fun_induction open? depth xs with
  | case1 => rfl
  | case2 depth rest ih => simpa [open?] using ih
  | case3 rest => simp [open?]
  | case4 depth rest positive _ ih => simpa [open?, positive] using ih
  | case5 rest => simp [open?, *]
  | case6 depth c rest opens closes blank ih => simpa [open?, opens, closes, blank] using ih

theorem openDeeper {depth last : Nat} {cs : List Char} (gives : open? depth cs = some last) :
    open? (depth + 1) cs = some (last + 1) := by
  fun_induction open? depth cs with
  | case1 => cases gives; rfl
  | case2 depth rest ih => simpa [open?] using ih gives
  | case3 => cases gives
  | case4 depth rest _ _ ih =>
    have same : depth - 1 + 1 = depth := by omega
    simpa [open?, same] using ih gives
  | case5 => cases gives
  | case6 depth c rest opens closes _ ih => simpa [open?, opens, closes] using ih gives

theorem openPlain {cs : List Char} (plain : ∀ c ∈ cs, c ≠ '(' ∧ c ≠ ')' ∧ c ≠ ' ') (depth : Nat) :
    open? depth cs = some depth := by
  induction cs with
  | nil => rfl
  | cons c rest ih =>
    obtain ⟨⟨opens, closes, blank⟩, plain⟩ := List.forall_mem_cons.mp plain
    simp [open?, opens, closes, blank, ih plain]

theorem wholeLonger {xs ws ys vs : List Char} (left : Whole xs) (right : Whole (xs ++ ws))
    (same : ' ' :: ys = ws ++ ' ' :: vs) : ws = [] := by
  cases ws with
  | nil => rfl
  | cons w ws =>
    cases same
    unfold Whole at left right
    rw [openAppend, left] at right
    cases right

/- The first outer blank of a text has one place. -/
theorem wholeSplit {xs ys us vs : List Char} (left : Whole xs) (right : Whole us)
    (same : xs ++ ' ' :: ys = us ++ ' ' :: vs) : xs = us ∧ ys = vs := by
  rcases List.append_eq_append_iff.mp same with ⟨ws, rfl, rest⟩ | ⟨ws, rfl, rest⟩
  · cases wholeLonger left right rest
    cases rest
    exact ⟨(List.append_nil xs).symm, rfl⟩
  · cases wholeLonger right left rest
    cases rest
    exact ⟨List.append_nil us, rfl⟩

section
variable {level : Nat}

def Expr.letters (level : Nat) (e : Expr) : List Char := (e.render level).toList
def Expr.operand (level : Nat) (e : Expr) : List Char := (asOperand e (e.render level)).toList

theorem lettersBinary (lhs rhs : Expr) (operator : String) :
    (Expr.binary lhs operator rhs).letters level =
      lhs.operand level ++ ' ' :: (operator.toList ++ ' ' :: rhs.operand level) := by
  simp [Expr.letters, Expr.operand, Expr.render]

theorem operandBinary (lhs rhs : Expr) (operator : String) :
    (Expr.binary lhs operator rhs).operand level =
      '(' :: ((Expr.binary lhs operator rhs).letters level ++ [')']) := by
  simp [Expr.letters, Expr.operand, asOperand]

theorem lettersNot (inner : Expr) :
    (Expr.not inner).letters level = '!' :: '(' :: (inner.letters level ++ [')']) := by
  simp [Expr.letters, Expr.render]

theorem operandNot (inner : Expr) :
    (Expr.not inner).operand level = (Expr.not inner).letters level := rfl

/- An expression that prints as one word. -/
structure Expr.Word (level : Nat) (e : Expr) : Prop where
  bare : e.operand level = e.letters level
  whole : Whole (e.letters level)
  opens : (e.letters level).head? ≠ some '('
  negates : (e.letters level).head? ≠ some '!'

/- An expression made of the given words. -/
inductive Expr.Of (word : Expr → Prop) : Expr → Prop where
  | word {e : Expr} (one : word e) : Of word e
  | not {inner : Expr} (one : Of word inner) : Of word (.not inner)
  | binary {lhs rhs : Expr} {operator : String} (left : Of word lhs) (whole : Whole operator.toList)
      (right : Of word rhs) : Of word (.binary lhs operator rhs)

/- Words that are told apart by their texts. -/
structure Told (level : Nat) (word : Expr → Prop) : Prop where
  words : ∀ e, word e → e.Word level
  apart : ∀ e f, word e → word f → e.letters level = f.letters level → e = f

theorem openInside {xs : List Char} (inside : open? 1 xs = some 1) :
    Whole ('(' :: (xs ++ [')'])) := by
  change open? 1 (xs ++ [')']) = some 0
  rw [openAppend, inside]
  rfl

theorem openBinary {xs ys zs : List Char} (first : Whole xs) (second : Whole ys)
    (third : Whole zs) : open? 1 (xs ++ ' ' :: (ys ++ ' ' :: zs)) = some 1 := by
  have blank (rest : List Char) : open? 1 (' ' :: rest) = open? 1 rest := rfl
  rw [openAppend, openDeeper first, Option.bind_some, blank, openAppend, openDeeper second,
    Option.bind_some, blank, openDeeper third]

variable {word : Expr → Prop}

theorem ofOpens (told : Told level word) {e : Expr} (made : Expr.Of word e) :
    open? 1 (e.letters level) = some 1 ∧ Whole (e.operand level) := by
  induction made with
  | word one =>
    have known := told.words _ one
    rw [known.bare]
    exact ⟨openDeeper known.whole, known.whole⟩
  | not _ ih =>
    have whole := openInside ih.1
    rw [operandNot, lettersNot]
    exact ⟨openDeeper whole, whole⟩
  | binary _ whole _ left right =>
    have inside := openBinary left.2 whole right.2
    rw [← lettersBinary] at inside
    rw [operandBinary]
    exact ⟨inside, openInside inside⟩

theorem binaryParts {lhs rhs lhs' rhs' : Expr} {operator operator' : String}
    (left : Whole (lhs.operand level)) (left' : Whole (lhs'.operand level))
    (whole : Whole operator.toList) (whole' : Whole operator'.toList)
    (same : (Expr.binary lhs operator rhs).letters level =
      (Expr.binary lhs' operator' rhs').letters level) :
    lhs.operand level = lhs'.operand level ∧ operator = operator' ∧
      rhs.operand level = rhs'.operand level := by
  rw [lettersBinary, lettersBinary] at same
  obtain ⟨first, rest⟩ := wholeSplit left left' same
  obtain ⟨second, third⟩ := wholeSplit whole whole' rest
  exact ⟨first, String.toList_inj.mp second, third⟩

theorem binaryNotWhole {lhs rhs : Expr} {operator : String} (left : Whole (lhs.operand level)) :
    ¬ Whole ((Expr.binary lhs operator rhs).letters level) := by
  intro whole
  unfold Whole at left whole
  rw [lettersBinary, openAppend, left] at whole
  cases whole

theorem ofOperand (told : Told level word) {e : Expr} (made : Expr.Of word e) :
    e.operand level = '(' :: (e.letters level ++ [')']) ∨
      e.operand level = e.letters level ∧ (e.letters level).head? ≠ some '(' := by
  cases made with
  | word one =>
    have known := told.words _ one
    exact .inr ⟨known.bare, known.opens⟩
  | not =>
    rw [operandNot, lettersNot]
    exact .inr ⟨rfl, by simp⟩
  | binary => exact .inl (operandBinary ..)

theorem operandLetters (told : Told level word) {e f : Expr} (made : Expr.Of word e)
    (other : Expr.Of word f) (same : e.operand level = f.operand level) :
    e.letters level = f.letters level := by
  rcases ofOperand told made with left | ⟨left, first⟩ <;>
    rcases ofOperand told other with right | ⟨right, second⟩
  · rw [left, right] at same
    exact List.append_cancel_right (List.cons.inj same).2
  · rw [← right, ← same, left] at second
    exact absurd rfl second
  · rw [← left, same, right] at first
    exact absurd rfl first
  · exact left.symm.trans (same.trans right)

theorem wordNotNot (told : Told level word) {e inner : Expr} (one : word e)
    (same : e.letters level = (Expr.not inner).letters level) : False := by
  have other := (told.words _ one).negates
  rw [same, lettersNot] at other
  exact other rfl

theorem binaryApart (told : Told level word) {e lhs rhs : Expr} {operator : String}
    (whole : Whole (e.letters level)) (left : Expr.Of word lhs)
    (same : e.letters level = (Expr.binary lhs operator rhs).letters level) : False :=
  binaryNotWhole (ofOpens told left).2 (same ▸ whole)

theorem notWhole (told : Told level word) {inner : Expr} (made : Expr.Of word inner) :
    Whole ((Expr.not inner).letters level) :=
  (ofOpens told (.not made)).2

/- The text of an expression gives it back. -/
theorem lettersApart (told : Told level word) {e f : Expr} (made : Expr.Of word e)
    (other : Expr.Of word f) (same : e.letters level = f.letters level) : e = f := by
  induction made generalizing f with
  | word one =>
    cases other with
    | word another => exact told.apart _ _ one another same
    | not => exact (wordNotNot told one same).elim
    | binary left => exact (binaryApart told (told.words _ one).whole left same).elim
  | not made ih =>
    cases other with
    | word another => exact (wordNotNot told another same.symm).elim
    | not made' =>
      rw [lettersNot, lettersNot] at same
      simp only [List.cons.injEq, true_and, List.append_cancel_right_eq] at same
      rw [ih made' same]
    | binary left => exact (binaryApart told (notWhole told made) left same).elim
  | binary left whole right first second =>
    cases other with
    | word another =>
      exact (binaryApart told (told.words _ another).whole left same.symm).elim
    | not made' => exact (binaryApart told (notWhole told made') left same.symm).elim
    | binary left' whole' right' =>
      obtain ⟨one, two, three⟩ := binaryParts (ofOpens told left).2 (ofOpens told left').2
        whole whole' same
      rw [first left' (operandLetters told left left' one), two,
        second right' (operandLetters told right right' three)]

end

end Code

namespace Condition
open Code (Expr)

/- What a condition asks of the helper, and what it compares the answers with. -/
def questions : List Expr :=
  let traits := Expr.identifier "traits"
  let ask := fun (method : String) (names : List String) =>
    names.map fun name => traits.invoke method [(none, .implicitMember name)]
  ask "device" ["phone", "pad", "tv", "carPlay", "mac"] ++
    ask "orientation" ["landscape", "portrait"] ++ ask "viewRootSize" ["width", "height"] ++
    ["userInterfaceStyle", "horizontalSizeClass", "verticalSizeClass"].map traits.member ++
    ["light", "dark", "compact", "regular", "unspecified"].map Expr.implicitMember

inductive Word : Expr → Prop where
  | question {e : Expr} (listed : e ∈ questions) : Word e
  | constant (text : String) (known : text = "true" ∨ text = "false" ∨
      ∃ x, text = Number.literal x) : Word (.constant text)

def plainText : List Char := ['.', '+', '-', 'i', 'n', 'f', 'N', 'a']

theorem decimalPlain {cs : List Char} {q : ℚ} (reads : Number.decimal? cs = some q) :
    ∀ c ∈ cs, Text.isAsciiDigit c = true ∨ c = '.' := by
  have whole : ∀ c ∈ cs.takeWhile Text.isAsciiDigit, Text.isAsciiDigit c = true :=
    fun _ member => List.mem_takeWhile_imp member
  have rest : ∀ c ∈ cs.dropWhile Text.isAsciiDigit, Text.isAsciiDigit c = true ∨ c = '.' := by
    unfold Number.decimal? at reads
    split at reads
    · rename_i ends
      simp [ends]
    · rename_i fraction points
      simp only at reads
      split at reads
      · cases reads
      · rename_i digits
        have all : ∀ c ∈ fraction, Text.isAsciiDigit c = true := by simp_all
        rw [points]
        exact List.forall_mem_cons.mpr ⟨.inr rfl, fun c member => .inl (all c member)⟩
    · cases reads
  intro c member
  rw [← List.takeWhile_append_dropWhile (p := Text.isAsciiDigit) (l := cs)] at member
  rcases List.mem_append.mp member with first | second
  · exact .inl (whole c first)
  · exact rest c second

/- A numeral has digits, a point and a sign, or is one of two names. -/
theorem numeralPlain {text : String} {x : Float} (reads : Number.numeral? text = some x) :
    ∀ c ∈ text.toList, Text.isAsciiDigit c = true ∨ c ∈ plainText := by
  unfold Number.numeral? at reads
  have body : ∀ c ∈ (Number.sign? text.toList).2, Text.isAsciiDigit c = true ∨ c ∈ plainText := by
    have names : ∀ c ∈ "inf".toList ++ "NaN".toList, c ∈ plainText := by simp [plainText]
    simp only at reads
    split at reads
    · rename_i same
      rw [same]
      exact fun c member => .inr (names c (List.mem_append_left _ member))
    · split at reads
      · rename_i same
        rw [same]
        exact fun c member => .inr (names c (List.mem_append_right _ member))
      · obtain ⟨rounded, found, _⟩ := Option.map_eq_some_iff.mp reads
        obtain ⟨q, decimal, _⟩ := Option.bind_eq_some_iff.mp found
        intro c member
        rcases decimalPlain decimal c member with digit | rfl
        · exact .inl digit
        · exact .inr (by decide)
  unfold Number.sign? at body
  split at body
  · rename_i rest signed
    rw [signed]
    exact List.forall_mem_cons.mpr ⟨.inr (by decide), body⟩
  · rename_i rest signed
    rw [signed]
    exact List.forall_mem_cons.mpr ⟨.inr (by decide), body⟩
  · exact body

theorem numeralOuter {text : String} {x : Float} (reads : Number.numeral? text = some x) :
    ∀ c ∈ text.toList, c ≠ '(' ∧ c ≠ ')' ∧ c ≠ ' ' ∧ c ≠ '!' := by
  intro c member
  rcases numeralPlain reads c member with digit | listed
  · refine ⟨?_, ?_, ?_, ?_⟩ <;> rintro rfl <;> cases digit
  · have outer : ∀ c ∈ plainText, c ≠ '(' ∧ c ≠ ')' ∧ c ≠ ' ' ∧ c ≠ '!' := by
      simp [plainText]
    exact outer c listed

theorem constantWord {text : String} (known : text = "true" ∨ text = "false" ∨
    ∃ x, text = Number.literal x) : (Expr.constant text).Word 0 := by
  have outer : ∀ c ∈ text.toList, c ≠ '(' ∧ c ≠ ')' ∧ c ≠ ' ' ∧ c ≠ '!' := by
    rcases known with rfl | rfl | ⟨x, rfl⟩
    · simp
    · simp
    · exact numeralOuter (Number.numeralLiteral x)
  constructor
  · rfl
  · exact Code.openPlain (fun c member => (outer c member).imp id (And.imp id And.left)) 0
  · exact fun first => (outer _ (List.mem_of_mem_head? first)).1 rfl
  · exact fun first => (outer _ (List.mem_of_mem_head? first)).2.2.2 rfl

theorem questionWord {e : Expr} (listed : e ∈ questions) : e.Word 0 := by
  have bare : ∀ e ∈ questions, e.operand 0 = e.letters 0 := by
    simp [questions, Expr.operand, Expr.letters, Expr.invoke, Expr.apply, Code.asOperand]
  have words : ∀ cs ∈ questions.map (Expr.letters 0),
      Code.Whole cs ∧ cs.head? ≠ some '(' ∧ cs.head? ≠ some '!' := by
    decide +kernel
  obtain ⟨whole, opens, negates⟩ := words _ (List.mem_map_of_mem listed)
  exact ⟨bare e listed, whole, opens, negates⟩

theorem questionConstant {e : Expr} (listed : e ∈ questions) {text : String}
    (known : text = "true" ∨ text = "false" ∨ ∃ x, text = Number.literal x) :
    e.letters 0 ≠ text.toList := by
  have others : ∀ cs ∈ questions.map (Expr.letters 0), cs ≠ "true".toList ∧ cs ≠ "false".toList ∧
      Number.numeral? (String.ofList cs) = none := by
    decide +kernel
  obtain ⟨positive, negative, numeral⟩ := others _ (List.mem_map_of_mem listed)
  rintro same
  rcases known with rfl | rfl | ⟨x, rfl⟩
  · exact positive same
  · exact negative same
  · rw [same, String.ofList_toList, Number.numeralLiteral] at numeral
    cases numeral

theorem wordsTold : Code.Told 0 Word := by
  constructor
  · rintro e (listed | ⟨text, known⟩)
    · exact questionWord listed
    · exact constantWord known
  · rintro e f (listed | ⟨text, known⟩) (other | ⟨text', known'⟩) same
    · have distinct : (questions.map (Expr.letters 0)).Nodup := by decide +kernel
      exact List.inj_on_of_nodup_map distinct listed other same
    · exact absurd same (questionConstant listed known')
    · exact absurd same.symm (questionConstant other known)
    · exact congrArg Expr.constant (String.toList_inj.mp same)

theorem codeOf (c : Condition) : (c.code "traits").Of Word := by
  induction c with
  | bool value => cases value <;> exact .word (.constant _ (by simp))
  | idiom i => cases i <;> exact .word (.question (by simp [questions, code, Idiom.name]))
  | orientation o =>
    cases o <;> exact .word (.question (by simp [questions, code, Orientation.name]))
  | style s =>
    have name : Word (.implicitMember s.name) := by
      cases s <;> exact .question (by simp [questions, InterfaceStyle.name])
    exact .binary (.word (.question (by simp [questions]))) (by decide +kernel) (.word name)
  | sizeClass axis equal c =>
    have name : Word (.implicitMember c.name) := by
      cases c <;> exact .question (by simp [questions, SizeClass.name])
    have whole : Code.Whole (if equal then "==" else "!=").toList := by
      cases equal <;> decide +kernel
    cases axis <;> exact .binary (.word (.question (by simp [questions]))) whole (.word name)
  | rootSize extent comparison x =>
    have whole : Code.Whole comparison.symbol.toList := by cases comparison <;> decide +kernel
    have number : Word (.number x) := .constant _ (.inr (.inr ⟨x, rfl⟩))
    cases extent <;>
      exact .binary (.word (.question (by simp [questions, Extent.name]))) whole (.word number)
  | not inner ih => exact .not ih
  | and lhs rhs left right => exact .binary left (by decide +kernel) right
  | or lhs rhs left right => exact .binary left (by decide +kernel) right

/- The text of a condition says when it holds. -/
theorem printedMeans {c d : Condition}
    (same : (c.code "traits").render 0 = (d.code "traits").render 0) (traits : Traits) :
    c.evaluate traits = d.evaluate traits := by
  have code := Code.lettersApart wordsTold (codeOf c) (codeOf d) (congrArg String.toList same)
  have answers := codeAnswer traits c
  rw [code, codeAnswer] at answers
  simpa using answers.symm

/- Zeros of both signs print alike. -/
theorem printedZeros :
    ((not (.and (.rootSize .width .less 0.0) (.style .dark))).code "traits").render 0 =
      ((not (.and (.rootSize .width .less (-0.0)) (.style .dark))).code "traits").render 0 ∧
    ∀ traits, (not (.and (.rootSize .width .less 0.0) (.style .dark))).evaluate traits =
      (not (.and (.rootSize .width .less (-0.0)) (.style .dark))).evaluate traits :=
  have same : ((not (.and (.rootSize .width .less 0.0) (.style .dark))).code "traits").render 0 =
      ((not (.and (.rootSize .width .less (-0.0)) (.style .dark))).code "traits").render 0 := by
    decide +kernel
  ⟨same, printedMeans same⟩

end Condition
end ViewForge
