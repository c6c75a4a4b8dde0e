import ViewForge.Number.Decimal
import ViewForge.Proofs.Number.Rounding

/-! The shortest digits of a double: the search over the number of digits finds a decimal that
rounds to the double, since seventeen digits always do. -/
namespace ViewForge.Number

namespace Fraction

def value (f : Fraction) : ℚ := f.numerator / f.denominator

theorem ofDyadicValue (mantissa : Nat) (exponent : Int) :
    (ofDyadic mantissa exponent).value = mantissa * 2 ^ exponent := by
  unfold ofDyadic value
  split
  · rename_i positive
    obtain ⟨n, rfl⟩ := Int.eq_ofNat_of_zero_le positive
    simp
  · rename_i negative
    obtain ⟨n, same⟩ := Int.eq_ofNat_of_zero_le (show 0 ≤ -exponent by omega)
    obtain rfl : exponent = -(n : Int) := by omega
    simp [div_eq_mul_inv]

theorem ofDyadicProper (mantissa : Nat) (exponent : Int) :
    0 < (ofDyadic mantissa exponent).denominator := by
  unfold ofDyadic
  split
  · exact Nat.one_pos
  · exact Nat.pow_pos (by norm_num)

theorem scaleValue (f : Fraction) (tens : Int) : (f.scale tens).value = f.value * 10 ^ tens := by
  unfold scale value
  split
  · rename_i positive
    obtain ⟨n, rfl⟩ := Int.eq_ofNat_of_zero_le positive
    simp [div_mul_eq_mul_div]
  · rename_i negative
    obtain ⟨n, same⟩ := Int.eq_ofNat_of_zero_le (show 0 ≤ -tens by omega)
    obtain rfl : tens = -(n : Int) := by omega
    simp only [Nat.pow_eq, neg_neg, Int.toNat_natCast, Nat.cast_mul,
      Nat.cast_pow, Nat.cast_ofNat, zpow_neg, zpow_natCast]
    rw [div_mul_eq_div_div, div_eq_mul_inv (_ / _)]

theorem scaleProper {f : Fraction} (proper : 0 < f.denominator) (tens : Int) :
    0 < (f.scale tens).denominator := by
  unfold scale
  split
  · exact proper
  · exact Nat.mul_pos proper (Nat.pow_pos (by norm_num))

theorem leIff {a b : Fraction} (left : 0 < a.denominator) (right : 0 < b.denominator) :
    a.le b = true ↔ a.value ≤ b.value := by
  have first : (0 : ℚ) < a.denominator := by exact_mod_cast left
  have second : (0 : ℚ) < b.denominator := by exact_mod_cast right
  rw [le, decide_eq_true_iff, value, value, div_le_div_iff₀ first second]
  norm_cast

theorem ltIff {a b : Fraction} (left : 0 < a.denominator) (right : 0 < b.denominator) :
    a.lt b = true ↔ a.value < b.value := by
  have first : (0 : ℚ) < a.denominator := by exact_mod_cast left
  have second : (0 : ℚ) < b.denominator := by exact_mod_cast right
  rw [lt, decide_eq_true_iff, value, value, div_lt_div_iff₀ first second]
  norm_cast

end Fraction

def reach (mantissa : Nat) (exponent : Int) : ℚ :=
  if mantissa = 2 ^ 52 ∧ -1074 < exponent then 1 / 4 else 1 / 2

theorem intervalProper (mantissa : Nat) (exponent : Int) :
    0 < (roundingInterval mantissa exponent).low.denominator ∧
      0 < (roundingInterval mantissa exponent).high.denominator := by
  unfold roundingInterval
  refine ⟨?_, Fraction.ofDyadicProper _ _⟩
  simp only
  split <;> exact Fraction.ofDyadicProper _ _

theorem intervalValues {mantissa : Nat} (positive : 0 < mantissa) (exponent : Int) :
    (roundingInterval mantissa exponent).low.value =
        (mantissa - reach mantissa exponent) * 2 ^ exponent ∧
      (roundingInterval mantissa exponent).high.value = (mantissa + 1 / 2) * 2 ^ exponent := by
  unfold roundingInterval reach
  constructor
  · simp only [Nat.pow_eq]
    split
    · rw [Fraction.ofDyadicValue, Nat.cast_sub (by omega), zpow_sub₀ (by norm_num)]
      push_cast
      ring
    · rw [Fraction.ofDyadicValue, Nat.cast_sub (by omega), zpow_sub₀ (by norm_num)]
      push_cast
      ring
  · rw [Fraction.ofDyadicValue, zpow_sub₀ (by norm_num)]
    push_cast
    ring

theorem holdsIff {mantissa : Nat} {exponent : Int} (positive : 0 < mantissa) {f : Fraction}
    (proper : 0 < f.denominator) : (roundingInterval mantissa exponent).holds f = true ↔
      if mantissa % 2 = 0 then
        (mantissa - reach mantissa exponent) * 2 ^ exponent ≤ f.value ∧
          f.value ≤ (mantissa + 1 / 2) * 2 ^ exponent
      else (mantissa - reach mantissa exponent) * 2 ^ exponent < f.value ∧
          f.value < (mantissa + 1 / 2) * 2 ^ exponent := by
  obtain ⟨low, high⟩ := intervalValues positive exponent
  obtain ⟨lowProper, highProper⟩ := intervalProper mantissa exponent
  rw [Interval.holds, ← low, ← high]
  have closed : (roundingInterval mantissa exponent).closed = (mantissa % 2 == 0) := rfl
  rw [closed]
  by_cases even : mantissa % 2 = 0
  · simp [even, Fraction.leIff lowProper proper, Fraction.leIff proper highProper]
  · simp [even, Fraction.ltIff lowProper proper, Fraction.ltIff proper highProper]

theorem reachBounds (mantissa : Nat) (exponent : Int) :
    1 / 4 ≤ reach mantissa exponent ∧ reach mantissa exponent ≤ 1 / 2 := by
  unfold reach
  split <;> norm_num

theorem holdsInside {mantissa : Nat} {exponent : Int} (positive : 0 < mantissa) {f : Fraction}
    (proper : 0 < f.denominator) (holds : (roundingInterval mantissa exponent).holds f = true) :
    Inside mantissa exponent f.value := by
  have unit : (0 : ℚ) < 2 ^ exponent := by positivity
  have wide : ((mantissa : ℚ) - 1 / 2) * 2 ^ exponent ≤
      (mantissa - reach mantissa exponent) * 2 ^ exponent :=
    mul_le_mul_of_nonneg_right (by linarith [(reachBounds mantissa exponent).2]) unit.le
  have narrow : mantissa = 2 ^ 52 → -1074 < exponent → reach mantissa exponent = 1 / 4 :=
    fun power above => if_pos ⟨power, above⟩
  have bounds := (holdsIff positive proper).mp holds
  split at bounds
  · rename_i even
    refine ⟨wide.trans bounds.1, bounds.2, .inl even, fun power above => ?_⟩
    rw [← narrow power above]
    exact bounds.1
  · refine ⟨wide.trans bounds.1.le, bounds.2.le, .inr ⟨wide.trans_lt bounds.1, bounds.2⟩,
      fun power above => ?_⟩
    rw [← narrow power above]
    exact bounds.1.le

/- A double has 53 bits, so its neighbours are further away than seventeen digits can tell. -/
theorem nearHolds {mantissa : Nat} {exponent : Int} (canonical : Canonical mantissa exponent)
    (positive : 0 < mantissa) {f : Fraction} (proper : 0 < f.denominator)
    (near : |f.value - mantissa * 2 ^ exponent| * (2 * 10 ^ 16) ≤ mantissa * 2 ^ exponent) :
    (roundingInterval mantissa exponent).holds f = true := by
  have unit : (0 : ℚ) < 2 ^ exponent := by positivity
  have fits : (mantissa : ℚ) < 2 ^ 53 := by exact_mod_cast canonical.fits
  have enough : (mantissa : ℚ) < 2 * 10 ^ 16 * reach mantissa exponent := by
    unfold reach
    split
    · rename_i power
      rw [power.1]
      norm_num
    · norm_num at fits ⊢
      linarith
  have close : |f.value - mantissa * 2 ^ exponent| < reach mantissa exponent * 2 ^ exponent := by
    nlinarith
  obtain ⟨low, high⟩ := abs_lt.mp close
  have most := mul_le_mul_of_nonneg_right (reachBounds mantissa exponent).2 unit.le
  have below : (mantissa - reach mantissa exponent) * 2 ^ exponent < f.value := by
    rw [sub_mul]
    linarith
  have above : f.value < (mantissa + 1 / 2) * 2 ^ exponent := by
    rw [add_mul]
    linarith
  rw [holdsIff positive proper]
  split
  · exact ⟨below.le, above.le⟩
  · exact ⟨below, above⟩

/- The point is not too far to the left. -/
theorem leadingZerosReach {f : Fraction} (proper : 0 < f.denominator) {steps : Nat}
    (least : (10 : ℚ) ^ (-(steps : Int)) ≤ f.value) :
    (10 : ℚ) ^ (-(leadingZeros f steps : Int) - 1) ≤ f.value := by
  induction steps generalizing f with
  | zero =>
    refine le_trans ?_ least
    norm_num [leadingZeros]
  | succ steps ih =>
    have denominator : (0 : ℚ) < (f.scale 1).denominator := by
      exact_mod_cast Fraction.scaleProper proper 1
    have grown : (f.scale 1).value = f.value * 10 := by simpa using f.scaleValue 1
    rw [leadingZeros]
    split
    · rename_i large
      have : 1 ≤ (f.scale 1).value := (one_le_div denominator).mpr (by exact_mod_cast large)
      rw [grown] at this
      norm_num
      linarith
    · have next : (10 : ℚ) ^ (-(steps : Int)) ≤ (f.scale 1).value := by
        rw [grown]
        refine le_trans (le_of_eq ?_) (mul_le_mul_of_nonneg_right least (by norm_num))
        rw [← zpow_add_one₀ (by norm_num)]
        congr 1
        push_cast
        ring
      have found := ih (Fraction.scaleProper proper 1) next
      rw [grown] at found
      have split : (-((leadingZeros (f.scale 1) steps + 1 : Nat) : Int) - 1) + 1 =
        -(leadingZeros (f.scale 1) steps : Int) - 1 := by push_cast; ring
      rw [← split, zpow_add_one₀ (by norm_num)] at found
      linarith

theorem pointReach {f : Fraction} (proper : 0 < f.denominator)
    (least : (10 : ℚ) ^ (-((400 : Nat) : Int)) ≤ f.value) :
    (10 : ℚ) ^ (pointOf f - 1) ≤ f.value := by
  unfold pointOf
  simp only
  split
  · exact leadingZerosReach proper least
  · rename_i whole
    have denominator : (0 : ℚ) < f.denominator := by exact_mod_cast proper
    have floor : ((f.numerator / f.denominator : Nat) : ℚ) ≤ f.value := Nat.cast_div_le
    refine le_trans ?_ floor
    generalize f.numerator / f.denominator = n at whole
    have positive : 0 < digitCount n := Nat.length_toDigits_pos
    have digits : (10 : Nat) ^ (digitCount n - 1) ≤ n := by
      rcases Nat.eq_zero_or_pos (digitCount n - 1) with none | some
      · rw [none]
        exact Nat.pos_of_ne_zero whole
      · by_contra small
        have short := (Nat.length_toDigits_le_iff (by norm_num) some).mpr (Nat.not_le.mp small)
        unfold digitCount at *
        omega
    have same : ((digitCount n : Int) - 1) = ((digitCount n - 1 : Nat) : Int) := by omega
    rw [same, zpow_natCast]
    exact_mod_cast digits

theorem onGridGives {value : Fraction} {interval : Interval} {point : Int} {count : Nat}
    {d : Decimal} (found : onGrid value interval point count = some d) :
    ∃ n, interval.holds (Fraction.scale ⟨n, 1⟩ (point - count)) = true ∧
      d = decimalOf n (point - count) ∧ 0 < n := by
  unfold onGrid at found
  simp only at found
  split at found
  · rename_i below above
    obtain ⟨positive, below⟩ := (Bool.and_eq_true_iff).mp below
    cases found
    split
    · exact ⟨_, above, rfl, Nat.succ_pos _⟩
    · exact ⟨_, below, rfl, of_decide_eq_true positive⟩
  · rename_i below _
    obtain ⟨positive, below⟩ := (Bool.and_eq_true_iff).mp below
    cases found
    exact ⟨_, below, rfl, of_decide_eq_true positive⟩
  · rename_i above
    cases found
    exact ⟨_, above, rfl, Nat.succ_pos _⟩
  · cases found

theorem gridValue (n : Nat) (tens : Int) : (Fraction.scale ⟨n, 1⟩ tens).value = n * 10 ^ tens := by
  rw [Fraction.scaleValue]
  simp [Fraction.value]

theorem floorBounds {f : Fraction} (proper : 0 < f.denominator) :
    ((f.numerator / f.denominator : Nat) : ℚ) ≤ f.value ∧
      f.value < (f.numerator / f.denominator : Nat) + 1 := by
  have denominator : (0 : ℚ) < f.denominator := by exact_mod_cast proper
  refine ⟨Nat.cast_div_le, (div_lt_iff₀ denominator).mpr ?_⟩
  have next := Nat.lt_mul_div_succ f.numerator proper
  rw [mul_comm] at next
  exact_mod_cast next

theorem nearerNeighbour {unit q : ℚ} {below : Nat} (positive : 0 < unit) (low : (below : ℚ) ≤ q)
    (high : q < below + 1) : |(below : ℚ) * unit - q * unit| * 2 ≤ unit ∨
      |((below + 1 : Nat) : ℚ) * unit - q * unit| * 2 ≤ unit := by
  rcases le_total (q - below) (1 / 2) with nearer | nearer
  · left
    rw [← sub_mul, abs_mul, abs_of_pos positive, abs_of_nonpos (by linarith)]
    nlinarith
  · right
    push_cast
    rw [← sub_mul, abs_mul, abs_of_pos positive, abs_of_nonneg (by linarith)]
    nlinarith

/- Of the two neighbours on a grid of seventeen digits, the nearer one rounds to the double. -/
theorem seventeenDigits {mantissa : Nat} {exponent : Int} (canonical : Canonical mantissa exponent)
    (positive : 0 < mantissa) {point : Int}
    (reached : (10 : ℚ) ^ (point - 1) ≤ mantissa * 2 ^ exponent) :
    (onGrid (.ofDyadic mantissa exponent) (roundingInterval mantissa exponent) point
      17).isSome := by
  unfold onGrid
  simp only
  have step : (10 : ℚ) ^ (point - 1) = 10 ^ (point - (17 : Nat)) * 10 ^ 16 := by
    rw [← zpow_natCast (10 : ℚ) 16, ← zpow_add₀ (by norm_num)]
    congr 1
    push_cast
    ring
  rw [step] at reached
  generalize point - ((17 : Nat) : Int) = tens at reached ⊢
  have unit : (0 : ℚ) < 10 ^ tens := by positivity
  have scaled : ((Fraction.ofDyadic mantissa exponent).scale (-tens)).value * 10 ^ tens =
      mantissa * 2 ^ exponent := by
    rw [Fraction.scaleValue, Fraction.ofDyadicValue, zpow_neg, mul_assoc,
      inv_mul_cancel₀ unit.ne', mul_one]
  have holds : ∀ n : Nat, |(n : ℚ) * 10 ^ tens - mantissa * 2 ^ exponent| * 2 ≤ 10 ^ tens →
      (roundingInterval mantissa exponent).holds (Fraction.scale ⟨n, 1⟩ tens) = true := by
    intro n near
    refine nearHolds canonical positive (Fraction.scaleProper Nat.one_pos _) ?_
    rw [gridValue]
    nlinarith
  obtain ⟨low, high⟩ := floorBounds
    (Fraction.scaleProper (Fraction.ofDyadicProper mantissa exponent) (-tens))
  have large : (1 : ℚ) < ((Fraction.ofDyadic mantissa exponent).scale (-tens)).value := by
    rw [← scaled, mul_comm] at reached
    exact lt_of_lt_of_le (by norm_num) (le_of_mul_le_mul_right reached unit)
  have counted := Nat.cast_pos.mp (show (0 : ℚ) < _ by linarith)
  rw [← scaled] at holds
  rcases nearerNeighbour unit low high with nearer | nearer
  · rw [holds _ nearer, decide_eq_true counted]
    cases (roundingInterval mantissa exponent).holds _ <;> rfl
  · rw [holds _ nearer]
    split
    · rfl
    · contradiction
    · rfl
    · contradiction

structure Spelling (mantissa : Nat) (exponent : Int) (n : Nat) (tens : Int) : Prop where
  positive : 0 < n
  inside : Inside mantissa exponent (n * 10 ^ tens)

theorem tensBelow {tens twos : Nat} (few : twos ≤ 3 * tens) :
    (10 : ℚ) ^ (-(tens : Int)) ≤ 2 ^ (-(twos : Int)) := by
  have large : 2 ^ twos ≤ 10 ^ tens := calc
    2 ^ twos ≤ 2 ^ (3 * tens) := Nat.pow_le_pow_right (by norm_num) few
    _ = 8 ^ tens := Nat.pow_mul 2 3 tens
    _ ≤ 10 ^ tens := Nat.pow_le_pow_left (by norm_num) tens
  rw [zpow_neg, zpow_neg, zpow_natCast, zpow_natCast]
  exact inv_anti₀ (by positivity) (by exact_mod_cast large)

theorem shortestGives {mantissa : Nat} {exponent : Int} (canonical : Canonical mantissa exponent)
    (positive : 0 < mantissa) : ∃ n tens, shortest mantissa exponent = decimalOf n tens ∧
      Spelling mantissa exponent n tens := by
  have proper := Fraction.ofDyadicProper mantissa exponent
  have least : (10 : ℚ) ^ (-((400 : Nat) : Int)) ≤ (Fraction.ofDyadic mantissa exponent).value := by
    have grows : (2 : ℚ) ^ (-((1074 : Nat) : Int)) ≤ 2 ^ exponent :=
      zpow_le_zpow_right₀ (by norm_num) canonical.least
    have one : (1 : ℚ) ≤ mantissa := by exact_mod_cast positive
    rw [Fraction.ofDyadicValue]
    exact ((tensBelow (by norm_num)).trans grows).trans (le_mul_of_one_le_left (by positivity) one)
  have reached := pointReach proper least
  rw [Fraction.ofDyadicValue] at reached
  have last := seventeenDigits canonical positive reached
  have found : ((List.range 17).findSome? fun i => onGrid (.ofDyadic mantissa exponent)
      (roundingInterval mantissa exponent) (pointOf (.ofDyadic mantissa exponent))
      (i + 1)).isSome :=
    List.findSome?_isSome_iff.mpr ⟨16, by simp, last⟩
  obtain ⟨d, given⟩ := Option.isSome_iff_exists.mp found
  obtain ⟨i, _, made⟩ := List.exists_of_findSome?_eq_some given
  obtain ⟨n, holds, rfl, counted⟩ := onGridGives made
  refine ⟨n, pointOf (.ofDyadic mantissa exponent) - (i + 1 : Nat), ?_, counted, ?_⟩
  · unfold shortest
    simp only [given, Option.getD_some]
  · rw [← gridValue]
    exact holdsInside positive (Fraction.scaleProper Nat.one_pos _) holds

end ViewForge.Number
