import ViewForge.Proofs.Number.Shortest

/-! Numbers in generated code: the numeral that is written for a number stands for this number, but
for the sign of zero. -/
namespace ViewForge.Number

theorem natOfDigitsRead (digits : List Char) :
    natOfDigits digits = Nat.ofDigitChars 10 digits 0 := by
  unfold natOfDigits Nat.ofDigitChars digitValue
  congr 1
  funext n c
  rw [Nat.mul_comm]

theorem natOfDigitsAppend (xs ys : List Char) :
    natOfDigits (xs ++ ys) = natOfDigits xs * 10 ^ ys.length + natOfDigits ys := by
  simp only [natOfDigitsRead, Nat.ofDigitChars_append]
  rw [Nat.ofDigitChars_eq_ofDigitChars_zero, Nat.mul_comm]

theorem natOfDigitsZeros (n : Nat) : natOfDigits (zeros n) = 0 := by
  rw [natOfDigitsRead, zeros, Nat.ofDigitChars_replicate_zero, Nat.mul_zero]

theorem natOfDigitsWritten (n : Nat) : natOfDigits (Nat.toDigits 10 n) = n := by
  rw [natOfDigitsRead, Nat.ofDigitChars_toDigits (by norm_num) (by norm_num)]

def decimal? (cs : List Char) : Option ℚ :=
  let whole := cs.takeWhile Text.isAsciiDigit
  match cs.dropWhile Text.isAsciiDigit with
  | [] => if whole.isEmpty then none else some (natOfDigits whole)
  | '.' :: fraction =>
    if whole.isEmpty || fraction.isEmpty || !fraction.all Text.isAsciiDigit then none
    else some (natOfDigits (whole ++ fraction) / 10 ^ fraction.length)
  | _ => none

def Digits (cs : List Char) : Prop := ∀ c ∈ cs, Text.isAsciiDigit c = true

theorem digitsAppend {xs ys : List Char} (left : Digits xs) (right : Digits ys) :
    Digits (xs ++ ys) :=
  List.forall_mem_append.mpr ⟨left, right⟩

theorem digitsZeros (n : Nat) : Digits (zeros n) := by
  intro c member
  rw [List.eq_of_mem_replicate member]
  rfl

theorem digitsWritten (n : Nat) : Digits (Nat.toDigits 10 n) := by
  intro c member
  have digit := Nat.isDigit_of_mem_toDigits (by norm_num) (by norm_num) member
  simpa [Char.isDigit, Text.isAsciiDigit, Char.le_def] using digit

theorem decimalWhole {cs : List Char} (digits : Digits cs) (nonempty : cs ≠ []) :
    decimal? cs = some (natOfDigits cs : ℚ) := by
  unfold decimal?
  rw [List.takeWhile_eq_self_iff.mpr digits, List.dropWhile_eq_nil_iff.mpr digits]
  simp [nonempty]

theorem decimalPoint {xs ys : List Char} (left : Digits xs) (right : Digits ys) (first : xs ≠ [])
    (second : ys ≠ []) :
    decimal? (xs ++ '.' :: ys) = some (natOfDigits (xs ++ ys) / 10 ^ ys.length : ℚ) := by
  have taken : (xs ++ '.' :: ys).takeWhile Text.isAsciiDigit = xs := by
    rw [List.takeWhile_append_of_pos left, List.takeWhile_cons_of_neg (by decide), List.append_nil]
  have dropped : (xs ++ '.' :: ys).dropWhile Text.isAsciiDigit = '.' :: ys := by
    rw [List.dropWhile_append_of_pos left, List.dropWhile_cons_of_neg (by decide)]
  unfold decimal?
  rw [taken, dropped]
  have all : ys.all Text.isAsciiDigit = true := List.all_eq_true.mpr right
  simp [first, second, all]

theorem positionalReads {d : Decimal} (digits : Digits d.digits) (nonempty : d.digits ≠ []) :
    decimal? d.positional =
      some (natOfDigits d.digits * 10 ^ (d.point - d.digits.length) : ℚ) := by
  obtain ⟨cs, point⟩ := d
  simp only at digits nonempty ⊢
  unfold Decimal.positional
  simp only
  split
  · rename_i left
    obtain ⟨k, same⟩ := Int.eq_ofNat_of_zero_le (show 0 ≤ -point by omega)
    obtain rfl : point = -(k : Int) := by omega
    rw [neg_neg, Int.toNat_natCast, List.append_assoc, List.cons_append, List.singleton_append,
      ← List.singleton_append, decimalPoint (by simp [Digits, Text.isAsciiDigit])
        (digitsAppend (digitsZeros k) digits) (by simp) (by simp [nonempty])]
    have leading : natOfDigits (['0'] ++ (zeros k ++ cs)) = natOfDigits cs := by
      rw [← List.append_assoc, natOfDigitsAppend, show ['0'] ++ zeros k = zeros (k + 1) from rfl,
        natOfDigitsZeros, Nat.zero_mul, Nat.zero_add]
    rw [leading, List.length_append, zeros, List.length_replicate,
      show -(k : Int) - cs.length = -((k + cs.length : Nat) : Int) by omega, zpow_neg,
      zpow_natCast, div_eq_mul_inv]
  · rename_i right
    obtain ⟨k, rfl⟩ := Int.eq_ofNat_of_zero_le (show 0 ≤ point by omega)
    rw [Int.toNat_natCast]
    split
    · rename_i long
      rw [decimalWhole (digitsAppend digits (digitsZeros _)) (by simp [nonempty]),
        natOfDigitsAppend, natOfDigitsZeros, zeros, List.length_replicate, Nat.add_zero,
        show (k : Int) - cs.length = ((k - cs.length : Nat) : Int) by omega, zpow_natCast]
      push_cast
      rfl
    · rename_i short
      have taken : Digits (cs.take k) := fun c member => digits c (List.mem_of_mem_take member)
      have dropped : Digits (cs.drop k) := fun c member => digits c (List.mem_of_mem_drop member)
      have some : cs.take k ≠ [] := by
        simp only [Ne, List.take_eq_nil_iff, nonempty, or_false]
        omega
      have more : cs.drop k ≠ [] := by
        rw [Ne, List.drop_eq_nil_iff]
        exact short
      rw [List.append_assoc, List.singleton_append, decimalPoint taken dropped some more,
        List.take_append_drop, List.length_drop,
        show (k : Int) - cs.length = -((cs.length - k : Nat) : Int) by omega, zpow_neg,
        zpow_natCast, div_eq_mul_inv]

theorem trailingZeros (cs : List Char) :
    ∃ k, cs = (cs.reverse.dropWhile (· == '0')).reverse ++ zeros k := by
  have split := List.takeWhile_append_dropWhile (p := (· == '0')) (l := cs.reverse)
  refine ⟨(cs.reverse.takeWhile (· == '0')).length, ?_⟩
  have same : zeros (cs.reverse.takeWhile (· == '0')).length =
      (cs.reverse.takeWhile (· == '0')).reverse := by
    rw [zeros, eq_comm, List.eq_replicate_iff]
    refine ⟨List.length_reverse, fun c member => ?_⟩
    simpa using List.mem_takeWhile_imp (List.mem_reverse.mp member)
  rw [same, ← List.reverse_append, split, List.reverse_reverse]

/- The zeros at the end of the digits stand for as many powers of ten. -/
theorem decimalOfReads {n : Nat} (positive : 0 < n) (tens : Int) :
    decimal? (decimalOf n tens).positional = some (n * 10 ^ tens : ℚ) := by
  obtain ⟨k, split⟩ := trailingZeros (Nat.toDigits 10 n)
  have written := natOfDigitsWritten n
  have digits := digitsWritten n
  have length := congrArg List.length split
  rw [List.length_append, zeros, List.length_replicate] at length
  rw [split, natOfDigitsAppend, natOfDigitsZeros, zeros, List.length_replicate,
    Nat.add_zero] at written
  have some : ((Nat.toDigits 10 n).reverse.dropWhile (· == '0')).reverse ≠ [] := by
    intro none
    rw [none] at written
    rw [← written, natOfDigits, List.foldl_nil, Nat.zero_mul] at positive
    exact Nat.lt_irrefl 0 positive
  have kept : Digits ((Nat.toDigits 10 n).reverse.dropWhile (· == '0')).reverse :=
    fun c member => digits c (split ▸ List.mem_append_left _ member)
  rw [positionalReads kept some]
  unfold decimalOf
  simp only
  generalize ((Nat.toDigits 10 n).reverse.dropWhile (· == '0')).reverse = cs at *
  rw [length, ← written]
  push_cast
  rw [mul_assoc, ← zpow_natCast, ← zpow_add₀ (by norm_num)]
  congr 3
  ring

def plain (x : Float) : Float := if x = -0.0 then 0.0 else x

/-- The number that a numeral stands for: the double nearest to a decimal text, and an infinity or
what is not a number by its name. -/
def numeral? (text : String) : Option Float :=
  let (negative, body) := sign? text.toList
  if body = "inf".toList then some (if negative then -(1.0 / 0.0) else 1.0 / 0.0)
  else if body = "NaN".toList then some (0.0 / 0.0)
  else ((decimal? body).bind nearest?).map fun (mantissa, exponent) =>
    Dyadic.toFloat ⟨negative, mantissa, exponent⟩

theorem decimalHead {cs : List Char} {q : ℚ} (reads : decimal? cs = some q) :
    ∃ c rest, cs = c :: rest ∧ Text.isAsciiDigit c = true := by
  cases cs with
  | nil => simp [decimal?] at reads
  | cons c rest =>
    refine ⟨c, rest, rfl, ?_⟩
    by_contra other
    unfold decimal? at reads
    rw [List.takeWhile_cons_of_neg other, List.dropWhile_cons_of_neg other] at reads
    split at reads
    · cases reads
    · cases reads
    · cases reads

def signed (negative : Bool) (cs : List Char) : List Char := if negative then '-' :: cs else cs

theorem numeralDecimal {cs : List Char} {q : ℚ} (reads : decimal? cs = some q) {mantissa : Nat}
    {exponent : Int} (rounds : nearest? q = some (mantissa, exponent)) (negative : Bool) :
    numeral? (String.ofList (signed negative cs)) =
      some (Dyadic.toFloat ⟨negative, mantissa, exponent⟩) := by
  obtain ⟨c, rest, rfl, digit⟩ := decimalHead reads
  have sign : sign? (signed negative (c :: rest)) = (negative, c :: rest) := by
    cases negative with
    | true => rfl
    | false =>
      unfold sign?
      simp only [signed, Bool.false_eq_true, if_false]
      split <;> simp_all [Text.isAsciiDigit]
  have infinite : c :: rest ≠ "inf".toList := by
    rintro ⟨⟩
    cases digit
  have strange : c :: rest ≠ "NaN".toList := by
    rintro ⟨⟩
    cases digit
  unfold numeral?
  rw [String.toList_ofList, sign]
  simp only [infinite, strange, if_false, reads, Option.bind_some, rounds, Option.map_some]

/- A whole number is the part before its point. -/
theorem wholeValue {d : Dyadic} (whole : d.split.2.1 = 0) :
    ((d.split.1 : Nat) : ℚ) = d.mantissa * 2 ^ d.exponent := by
  unfold Dyadic.split at whole ⊢
  split
  · rename_i positive
    obtain ⟨n, same⟩ := Int.eq_ofNat_of_zero_le positive
    simp [same]
  · rename_i negative
    obtain ⟨n, same⟩ := Int.eq_ofNat_of_zero_le (show 0 ≤ -d.exponent by omega)
    have exponent : d.exponent = -(n : Int) := by omega
    rw [if_neg negative] at whole
    simp only [Nat.pow_eq, same, Int.toNat_natCast] at whole ⊢
    rw [Nat.cast_div (Nat.dvd_of_mod_eq_zero whole) (by positivity), exponent, zpow_neg,
      zpow_natCast, div_eq_mul_inv]
    push_cast
    rfl

theorem signedString (d : Dyadic) {n : Nat} (positive : 0 < n) :
    toString (d.signed n) = String.ofList (signed d.negative (Nat.toDigits 10 n)) := by
  unfold Dyadic.signed signed
  cases d.negative with
  | false =>
    simp [toString, Int.repr, Nat.repr_eq_ofList_toDigits]
  | true =>
    obtain ⟨m, rfl⟩ : ∃ m, n = m + 1 := ⟨n - 1, by omega⟩
    change "-" ++ Nat.repr (m + 1) = String.ofList ('-' :: Nat.toDigits 10 (m + 1))
    rw [Nat.repr_eq_ofList_toDigits]
    exact String.toList_injective (by simp)

theorem zeroCases {x : Float} {d : Dyadic} (finite : classify x = .finite d)
    (zero : d.mantissa = 0) : x = 0.0 ∨ x = -0.0 := by
  obtain ⟨negative, mantissa, exponent⟩ := d
  have lowest := (classifyCanonical finite).filled
  simp only at zero lowest
  subst zero
  obtain rfl : exponent = -1074 := by omega
  rw [← classifyToFloat finite]
  cases negative with
  | false => left; decide +kernel
  | true => right; decide +kernel

theorem zeroLiteral : literal 0.0 = "0" ∧ literal (-0.0) = "0" := by
  constructor <;> decide +kernel

theorem zeroNumeral : numeral? "0" = some 0.0 := by
  have reads : decimal? ['0'] = some 0 := by
    rw [decimalWhole (by simp [Digits, Text.isAsciiDigit]) (by simp)]
    simp [natOfDigits, digitValue]
  have rounds : nearest? 0 = some (0, -1074) := by
    refine insideNearest ⟨by norm_num, by norm_num, by norm_num, .inr rfl⟩ le_rfl ?_
    simpa using valueInside 0 (-1074)
  have given := numeralDecimal reads rounds false
  have zero : Dyadic.toFloat ⟨false, 0, -1074⟩ = 0.0 := by decide +kernel
  rw [zero] at given
  exact given

/- Numbers other than zero are read back with their sign. -/
theorem numeralSpelled {x : Float} {d : Dyadic} (finite : classify x = .finite d) {cs : List Char}
    {q : ℚ} (reads : decimal? cs = some q) (positive : 0 ≤ q)
    (inside : Inside d.mantissa d.exponent q) :
    numeral? (String.ofList (signed d.negative cs)) = some x := by
  have rounds := insideNearest (classifyCanonical finite) positive inside
  rw [numeralDecimal reads rounds, classifyToFloat finite]

theorem plainOther {x : Float} {d : Dyadic} (finite : classify x = .finite d)
    (positive : 0 < d.mantissa) : plain x = x := by
  refine if_neg ?_
  rintro rfl
  have zero : classify (-0.0) = .finite ⟨true, 0, -1074⟩ := by decide +kernel
  cases finite.symm.trans zero
  exact absurd positive (Nat.lt_irrefl 0)

theorem numeralWhole {x : Float} {d : Dyadic} (finite : classify x = .finite d)
    (positive : 0 < d.mantissa) (whole : isWhole x = true) :
    numeral? (toString (truncate x)) = some x := by
  have exact : d.split.2.1 = 0 := by simpa [isWhole, finite] using whole
  have value := wholeValue exact
  have counted : 0 < d.split.1 := by
    have : (0 : ℚ) < (d.split.1 : Nat) := by rw [value]; positivity
    exact_mod_cast this
  have reads : decimal? (Nat.toDigits 10 d.split.1) = some (d.split.1 : ℚ) := by
    rw [decimalWhole (digitsWritten _) Nat.toDigits_ne_nil, natOfDigitsWritten]
  rw [truncate, finite, signedString d counted]
  rw [value] at reads
  exact numeralSpelled finite reads (by positivity) (valueInside _ _)

theorem numeralText {x : Float} {d : Dyadic} (finite : classify x = .finite d)
    (positive : 0 < d.mantissa) : numeral? (text x) = some x := by
  obtain ⟨n, tens, same, spelling⟩ := shortestGives (classifyCanonical finite) positive
  have written : text x = String.ofList
      (signed d.negative (shortest d.mantissa d.exponent).positional) := by
    rw [text, finite]
    simp only [positive.ne', if_false]
    cases d.negative with
    | false => rfl
    | true => exact String.toList_injective (by simp [signed])
  rw [written, same]
  exact numeralSpelled finite (decimalOfReads spelling.positive tens) (by positivity)
    spelling.inside

theorem numeralLiteral (x : Float) : numeral? (literal x) = some (plain x) := by
  cases kind : classify x with
  | notANumber =>
    cases classifyNotANumber kind
    decide +kernel
  | infinite negative =>
    have same := classifyInfinite kind
    cases negative with
    | false =>
      cases same
      decide +kernel
    | true =>
      cases same
      decide +kernel
  | finite d =>
    rcases Nat.eq_zero_or_pos d.mantissa with zero | positive
    · rcases zeroCases kind zero with rfl | rfl
      · rw [zeroLiteral.1, zeroNumeral]
        decide +kernel
      · rw [zeroLiteral.2, zeroNumeral]
        decide +kernel
    · rw [plainOther kind positive]
      unfold literal
      split
      · rename_i whole
        exact numeralWhole kind positive (Bool.and_eq_true_iff.mp whole).1
      · exact numeralText kind positive

theorem readNatWritten (n : Nat) : readNat? (toString n) = some n := by
  have digits := digitsWritten n
  have value := natOfDigitsWritten n
  have nonempty : Nat.toDigits 10 n ≠ [] := Nat.toDigits_ne_nil
  have written : (toString n).toList = Nat.toDigits 10 n := by
    rw [Nat.toString_eq_ofList_toDigits, String.toList_ofList]
  unfold readNat?
  rw [written]
  split
  · rename_i rest signed
    rw [signed] at digits
    exact absurd (digits '+' List.mem_cons_self) (by decide)
  · have all : (Nat.toDigits 10 n).all Text.isAsciiDigit = true := List.all_eq_true.mpr digits
    simp [nonempty, all, value]

section
open Float.Model

theorem compareZero (u : UnpackedFloat) (s t : UnpackedFloat.Sign) :
    u.compare (.zero s) = u.compare (.zero t) := by
  cases u with
  | infinity sign => cases sign <;> rfl
  | notANumber => rfl
  | zero sign => rfl
  | finite sign _ _ _ => cases sign <;> rfl

theorem zeroCompare (u : UnpackedFloat) (s t : UnpackedFloat.Sign) :
    (UnpackedFloat.zero s).compare u = (UnpackedFloat.zero t).compare u := by
  cases u with
  | infinity sign => cases sign <;> rfl
  | notANumber => rfl
  | zero sign => rfl
  | finite sign _ _ _ => cases sign <;> rfl

/- No comparison sees the sign of zero. -/
theorem comparePlain (x y : Float) :
    x.toModel.unpack.compare (plain y).toModel.unpack =
      x.toModel.unpack.compare y.toModel.unpack ∧
    (plain y).toModel.unpack.compare x.toModel.unpack =
      y.toModel.unpack.compare x.toModel.unpack := by
  unfold plain
  split
  · rename_i zero
    subst zero
    exact ⟨compareZero x.toModel.unpack .positive .negative,
      zeroCompare x.toModel.unpack .positive .negative⟩
  · exact ⟨rfl, rfl⟩

theorem ltCompare (x y : Float) :
    x < y ↔ (x.toModel.unpack.compare y.toModel.unpack == some .lt) = true := by
  change decide (x.toModel < y.toModel) = true ↔ _
  rw [decide_eq_true_iff]
  rfl

theorem leCompare (x y : Float) :
    x ≤ y ↔ (x.toModel.unpack.compare y.toModel.unpack).any (·.isLE) = true := by
  change decide (x.toModel ≤ y.toModel) = true ↔ _
  rw [decide_eq_true_iff]
  rfl

end

end ViewForge.Number
