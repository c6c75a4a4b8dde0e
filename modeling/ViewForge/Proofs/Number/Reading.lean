import ViewForge.Proofs.Number.Literal

/-! Decimal texts are read as the double nearest to them. Products and quotients of doubles keep,
beside the mantissa, one bit for the half and one for what is smaller, and are rounded once. -/
namespace ViewForge.Number
open Float.Model
open Float.Model.UnpackedFloat

def Reckons (em : ExtendedMantissa) (q : ℚ) : Prop :=
  if em.roundBit then
    if em.stickyBit then (em.mantissa : ℚ) + 1 / 2 < q ∧ q < em.mantissa + 1
    else q = em.mantissa + 1 / 2
  else
    if em.stickyBit then (em.mantissa : ℚ) < q ∧ q < em.mantissa + 1 / 2
    else q = em.mantissa

theorem reckonsExact (n : Nat) : Reckons (.ofMantissaAndAccuracy n .exact) n := by
  simp [Reckons, ExtendedMantissa.ofMantissaAndAccuracy]

theorem reckonsFloor {em : ExtendedMantissa} {q : ℚ} (reckons : Reckons em q) :
    (em.mantissa : ℚ) ≤ q ∧ q < em.mantissa + 1 := by
  unfold Reckons at reckons
  split_ifs at reckons
  · exact ⟨by linarith [reckons.1], reckons.2⟩
  · rw [reckons]
    exact ⟨by linarith, by linarith⟩
  · exact ⟨reckons.1.le, by linarith [reckons.2]⟩
  · rw [reckons]
    exact ⟨le_rfl, by linarith⟩

theorem reckonsRounded {em : ExtendedMantissa} {q : ℚ} (reckons : Reckons em q) :
    em.roundedMantissa = nearestEven q := by
  obtain ⟨low, high⟩ := reckonsFloor reckons
  have whole : ⌊q⌋₊ = em.mantissa :=
    (Nat.floor_eq_iff (le_trans (Nat.cast_nonneg _) low)).mpr ⟨low, high⟩
  obtain ⟨mantissa, round, sticky⟩ := em
  unfold nearestEven
  simp only at whole
  simp only [whole]
  cases round <;> cases sticky <;>
    simp only [Reckons, Bool.false_eq_true, if_false, if_true] at reckons <;>
    simp only [ExtendedMantissa.roundedMantissa, ExtendedMantissa.accuracy,
      Accuracy.roundToNearestEven]
  · rw [if_pos (by rw [reckons]; norm_num)]
  · rw [if_pos (by linarith [reckons.2])]
  · rw [if_neg (by rw [reckons]; norm_num), if_neg (by rw [reckons]; norm_num)]
  · rw [if_neg (by linarith [reckons.1]), if_pos (by linarith [reckons.1])]

/- The half becomes a part of what is smaller than the new half. -/
theorem reckonsHalved {em : ExtendedMantissa} {q : ℚ} (reckons : Reckons em q) :
    Reckons em.shiftRightOne (q / 2) := by
  obtain ⟨mantissa, round, sticky⟩ := em
  have whole : ((mantissa % 2 : Nat) : ℚ) + 2 * (mantissa / 2 : Nat) = mantissa := by
    exact_mod_cast Nat.mod_add_div mantissa 2
  rcases Nat.mod_two_eq_zero_or_one mantissa with even | odd
  · rw [even] at whole
    cases round <;> cases sticky <;>
      simp only [Reckons, ExtendedMantissa.shiftRightOne, even, Bool.false_eq_true, if_false, if_true,
        bne_self_eq_false, Bool.or_false, Bool.or_true, Bool.or_self] at reckons ⊢ <;>
      push_cast at whole
    · linarith
    · exact ⟨by linarith [reckons.1], by linarith [reckons.2]⟩
    · exact ⟨by linarith, by linarith⟩
    · exact ⟨by linarith [reckons.1], by linarith [reckons.2]⟩
  · rw [odd] at whole
    cases round <;> cases sticky <;>
      simp only [Reckons, ExtendedMantissa.shiftRightOne, odd, Bool.false_eq_true, if_false, if_true,
        Bool.or_false, Bool.or_true, Bool.or_self, show ((1 : Nat) != 0) = true from rfl] at reckons ⊢ <;>
      push_cast at whole
    · linarith
    · exact ⟨by linarith [reckons.1], by linarith [reckons.2]⟩
    · exact ⟨by linarith, by linarith⟩
    · exact ⟨by linarith [reckons.1], by linarith [reckons.2]⟩

theorem reckonsShifted {em : ExtendedMantissa} {q : ℚ} (reckons : Reckons em q) (n : Nat) :
    Reckons (em >>> n) (q / 2 ^ n) := by
  change Reckons (n.repeat ExtendedMantissa.shiftRightOne em) _
  induction n with
  | zero => simpa [Nat.repeat] using reckons
  | succ n ih =>
    rw [Nat.repeat, pow_succ, ← div_div]
    exact reckonsHalved ih

/- Shifting goes no further down than the exponent that is given. -/
theorem reckonsTarget {mantissa : Nat} {accuracy : Accuracy} {exponent : Int} {q : ℚ}
    (reckons : Reckons (.ofMantissaAndAccuracy mantissa accuracy) (q / 2 ^ exponent))
    (target : Int) :
    (shiftToExponent mantissa exponent accuracy target).2 = max exponent target ∧
      Reckons (shiftToExponent mantissa exponent accuracy target).1
        (q / 2 ^ max exponent target) := by
  have reached : exponent + ((target - exponent).toNat : Int) = max exponent target := by omega
  refine ⟨reached, ?_⟩
  rw [← reached, zpow_add₀ (by norm_num), ← div_div, zpow_natCast]
  exact reckonsShifted reckons _

theorem shiftSettled {mantissa : Nat} {accuracy : Accuracy} {exponent target : Int}
    (settled : target ≤ exponent) : shiftToExponent mantissa exponent accuracy target =
      (.ofMantissaAndAccuracy mantissa accuracy, exponent) := by
  have none : (target - exponent).toNat = 0 := by omega
  unfold shiftToExponent
  simp only [none, Nat.cast_zero, Int.add_zero]
  rfl

theorem targetDouble (total : Int) :
    Format.binary64.targetExponent total = max (total - 53) (-1074) := rfl

/- Rounded one exponent too low, a double can only be the power of two above. -/
theorem roundedBelow {mantissa : Nat} {exponent : Int} {q : ℚ}
    (canonical : Canonical mantissa exponent) (inside : Inside mantissa exponent q) (zero : 0 ≤ q)
    {first : Int} (least : -1074 ≤ first) (below : first < exponent) (small : q < 2 ^ (53 + first)) :
    first + 1 = exponent ∧ mantissa = 2 ^ 52 ∧ nearestEven (q / 2 ^ first) = 2 ^ 53 := by
  have most : ∀ bits : Nat, 0 < bits → ∀ e : Int, q < 2 ^ (bits + e) →
      nearestEven (q / 2 ^ e) ≤ 2 ^ bits := by
    intro bits some e bound
    have unit : (0 : ℚ) < 2 ^ e := by positivity
    have fits : q / 2 ^ e < 2 ^ bits := by
      rw [div_lt_iff₀ unit, ← zpow_natCast, ← zpow_add₀ (by norm_num)]
      exact bound
    refine nearestEvenMost (by positivity) ?_ (.inl (by simp [Nat.pow_mod, some.ne']))
    push_cast
    linarith
  have next : first + 1 = exponent := by
    by_contra further
    have more := insideOverflows canonical inside (show -1074 ≤ first + 1 by omega) (by omega)
    have fits := most 52 (by norm_num) (first + 1) (by rwa [show ((52 : Nat) : Int) + (first + 1) =
      53 + first by push_cast; ring])
    exact absurd (le_trans more fits) (by norm_num)
  refine ⟨next, Nat.le_antisymm ?_ ?_, Nat.le_antisymm ?_ ?_⟩
  · rw [← insideRounds zero inside]
    refine most 52 (by norm_num) exponent ?_
    rwa [← next, show ((52 : Nat) : Int) + (first + 1) = 53 + first by push_cast; ring]
  · rcases canonical.filled with filled | lowest
    · exact filled
    · omega
  · exact most 53 (by norm_num) first small
  · exact insideOverflows canonical inside least below

theorem insideHigh {mantissa : Nat} {exponent : Int} {q : ℚ}
    (canonical : Canonical mantissa exponent) (inside : Inside mantissa exponent q) :
    q < 2 ^ (53 + exponent) := by
  have fits : (mantissa : ℚ) + 1 ≤ 2 ^ 53 := by exact_mod_cast canonical.fits
  have unit : (0 : ℚ) < 2 ^ exponent := by positivity
  rw [zpow_add₀ (by norm_num)]
  refine lt_of_le_of_lt inside.high (mul_lt_mul_of_pos_right ?_ unit)
  norm_num at fits ⊢
  linarith

theorem reckonsBounds {n : Nat} {accuracy : Accuracy} {e : Int} {q : ℚ}
    (reckons : Reckons (.ofMantissaAndAccuracy n accuracy) (q / 2 ^ e)) :
    (n : ℚ) * 2 ^ e ≤ q ∧ q < (n + 1) * 2 ^ e := by
  have unit : (0 : ℚ) < 2 ^ e := by positivity
  have same : (ExtendedMantissa.ofMantissaAndAccuracy n accuracy).mantissa = n := by
    cases accuracy with
    | exact => rfl
    | inexact order => cases order <;> rfl
  obtain ⟨low, high⟩ := reckonsFloor reckons
  rw [same] at low high
  exact ⟨(le_div_iff₀ unit).mp low, (div_lt_iff₀ unit).mp high⟩

theorem powerBelow {n : Nat} (positive : 0 < n) (e : Int) :
    (2 : ℚ) ^ ((n.log2 : Int) + e) ≤ n * 2 ^ e := by
  rw [zpow_add₀ (by norm_num), zpow_natCast]
  refine mul_le_mul_of_nonneg_right ?_ (by positivity)
  exact_mod_cast Nat.log2_self_le positive.ne'

theorem powerAbove (n : Nat) (e : Int) : ((n : ℚ) + 1) * 2 ^ e ≤ 2 ^ ((n.log2 : Int) + 1 + e) := by
  rw [zpow_add₀ (by norm_num)]
  refine mul_le_mul_of_nonneg_right ?_ (by positivity)
  exact_mod_cast Nat.succ_le_of_lt (Nat.lt_log2_self (n := n))

/- A number that is cut off no higher than the exponent of its double is rounded to this double. -/
theorem roundedOnce {mantissa : Nat} {exponent : Int} {q : ℚ}
    (canonical : Canonical mantissa exponent) (positive : 0 < mantissa)
    (inside : Inside mantissa exponent q) {n : Nat} {accuracy : Accuracy} {e : Int}
    (reckons : Reckons (.ofMantissaAndAccuracy n accuracy) (q / 2 ^ e)) (low : e ≤ exponent) :
    roundWithAccuracy .binary64 .positive n e accuracy =
      .finite .positive mantissa exponent positive := by
  obtain ⟨above, below⟩ := reckonsBounds reckons
  have zero : 0 ≤ q := le_trans (by positivity) above
  have reached : (n.log2 : Int) + 1 + e - 53 ≤ exponent := by
    rcases Nat.eq_zero_or_pos n with rfl | some
    · rw [show Nat.log2 0 = 0 from rfl]
      push_cast
      omega
    · have power := ((powerBelow some e).trans above).trans_lt (insideHigh canonical inside)
      have := (zpow_lt_zpow_iff_right₀ (by norm_num)).mp power
      omega
  obtain ⟨stopped, kept⟩ := reckonsTarget reckons
    (Format.binary64.targetExponent (totalExponent n e))
  generalize cut : shiftToExponent n e accuracy
    (Format.binary64.targetExponent (totalExponent n e)) = shifted at stopped kept
  obtain ⟨em, first⟩ := shifted
  rw [targetDouble, totalExponent] at stopped kept
  simp only at stopped kept
  rw [← stopped] at kept
  have rounds := reckonsRounded kept
  have least := canonical.least
  unfold roundWithAccuracy shiftToTargetExponent
  simp only [cut, rounds]
  rcases Int.lt_or_eq_of_le (show first ≤ exponent by omega) with smaller | rfl
  · have small : q < 2 ^ (53 + first) := (below.trans_le (powerAbove n e)).trans_le
      (zpow_le_zpow_right₀ (by norm_num) (by omega))
    obtain ⟨rfl, rfl, power⟩ := roundedBelow canonical inside zero (by omega) smaller small
    have target : Format.binary64.targetExponent (totalExponent (2 ^ 53) first) = first + 1 := by
      rw [targetDouble, totalExponent, Nat.log2_two_pow]
      push_cast
      omega
    have once : shiftToExponent (2 ^ 53) first .exact (first + 1) =
        (⟨2 ^ 52, false, false⟩, first + 1) := by
      have single : (first + 1 - first).toNat = 1 := by omega
      unfold shiftToExponent
      simp only [single]
      rfl
    simp only [power, target, once]
    rfl
  · have log : mantissa.log2 < 53 := (Nat.log2_lt positive.ne').mpr canonical.fits
    have settled : shiftToExponent mantissa first .exact
        (Format.binary64.targetExponent (totalExponent mantissa first)) =
        (⟨mantissa, false, false⟩, first) := by
      refine shiftSettled ?_
      rw [targetDouble, totalExponent]
      omega
    simp only [insideRounds zero inside, settled, positive.ne', dite_false]

theorem reckonsQuotient (m : Nat) {n : Nat} (positive : 0 < n) :
    Reckons (.ofMantissaAndAccuracy (m / n) (accuracyOfFraction (m % n) n)) (m / n : ℚ) := by
  have some : (0 : ℚ) < n := by exact_mod_cast positive
  have split : (n : ℚ) * (m / n : Nat) + (m % n : Nat) = m := by exact_mod_cast Nat.div_add_mod m n
  have value : (m / n : ℚ) = (m / n : Nat) + (m % n : Nat) / n := by
    rw [div_eq_iff some.ne', add_mul, div_mul_cancel₀ _ some.ne', mul_comm, split]
  have rest : ((m % n : Nat) : ℚ) < n := by exact_mod_cast Nat.mod_lt m positive
  rw [value]
  unfold accuracyOfFraction
  split
  · rename_i none
    rw [none]
    simp [Reckons, ExtendedMantissa.ofMantissaAndAccuracy]
  · rename_i more
    have proper : (0 : ℚ) < (m % n : Nat) := by exact_mod_cast Nat.pos_of_ne_zero more
    rcases order : compare (2 * (m % n)) n with _ | _ | _
    · have half : 2 * ((m % n : Nat) : ℚ) < n := by exact_mod_cast compare_lt_iff_lt.mp order
      have less : ((m % n : Nat) : ℚ) / n < 1 / 2 := by
        rw [div_lt_div_iff₀ some two_pos]
        linarith
      simp only [Reckons, ExtendedMantissa.ofMantissaAndAccuracy, Bool.false_eq_true, if_false,
        if_true]
      exact ⟨by linarith [div_pos proper some], by linarith⟩
    · have half : 2 * ((m % n : Nat) : ℚ) = n := by exact_mod_cast compare_eq_iff_eq.mp order
      simp only [Reckons, ExtendedMantissa.ofMantissaAndAccuracy, Bool.false_eq_true, if_false,
        if_true]
      rw [add_right_inj, div_eq_div_iff some.ne' two_ne_zero]
      linarith
    · have half : (n : ℚ) < 2 * ((m % n : Nat) : ℚ) := by exact_mod_cast compare_gt_iff_gt.mp order
      have more : 1 / 2 < ((m % n : Nat) : ℚ) / n := by
        rw [div_lt_div_iff₀ two_pos some]
        linarith
      simp only [Reckons, ExtendedMantissa.ofMantissaAndAccuracy, if_true]
      exact ⟨by linarith, by linarith [(div_lt_one some).mpr rest]⟩

section
variable {mantissa : Nat} {exponent : Int} (canonical : Canonical mantissa exponent)
  (positive : 0 < mantissa) {m n : Nat} (left : 0 < m) (right : 0 < n) {d e : Int}
include canonical

theorem productRounds (inside : Inside mantissa exponent (m * 2 ^ d * (n * 2 ^ e)))
    (low : d + e ≤ exponent) :
    mul .binary64 (.finite .positive m d left) (.finite .positive n e right) =
      .finite .positive mantissa exponent positive := by
  have value : (m * 2 ^ d * (n * 2 ^ e) : ℚ) / 2 ^ (d + e) = (m * n : Nat) := by
    rw [zpow_add₀ (by norm_num)]
    push_cast
    field_simp
  have exact := reckonsExact (m * n)
  rw [← value] at exact
  exact roundedOnce canonical positive inside exact low

theorem quotientRounds (inside : Inside mantissa exponent (m * 2 ^ d / (n * 2 ^ e))) :
    div .binary64 (.finite .positive m d left) (.finite .positive n e right) =
      .finite .positive mantissa exponent positive := by
  have some : (0 : ℚ) < n := by exact_mod_cast right
  obtain ⟨target, same⟩ : ∃ target, min (d - e) (Format.binary64.targetExponent
    (totalExponent m d - totalExponent n e)) = target := ⟨_, rfl⟩
  have low : target ≤ exponent := by
    have power : (2 : ℚ) ^ ((m.log2 : Int) + d - (n.log2 + 1 + e)) < 2 ^ (53 + exponent) := by
      rw [zpow_sub₀ (by norm_num)]
      refine lt_of_le_of_lt ?_ (insideHigh canonical inside)
      refine div_le_div₀ (by positivity) (powerBelow left d) (by positivity) ?_
      refine le_trans (mul_le_mul_of_nonneg_right ?_ (by positivity)) (powerAbove n e)
      linarith
    have := (zpow_lt_zpow_iff_right₀ (by norm_num)).mp power
    have := canonical.least
    rw [targetDouble, totalExponent, totalExponent] at same
    omega
  have given : div .binary64 (.finite .positive m d left) (.finite .positive n e right) =
      roundWithAccuracy .binary64 .positive ((m <<< (d - e - target).toNat) / n) target
        (accuracyOfFraction ((m <<< (d - e - target).toNat) % n) n) := by
    rw [← same]
    rfl
  rw [given]
  refine roundedOnce canonical positive inside ?_ low
  obtain ⟨shift, amount⟩ := Int.eq_ofNat_of_zero_le (show 0 ≤ d - e - target by omega)
  have value : (m * 2 ^ d / (n * 2 ^ e) : ℚ) / 2 ^ target =
      ((m <<< (d - e - target).toNat : Nat) : ℚ) / n := by
    rw [amount, Int.toNat_natCast, Nat.shiftLeft_eq, show d = shift + target + e by omega,
      zpow_add₀ (by norm_num), zpow_add₀ (by norm_num), zpow_natCast]
    push_cast
    field_simp
  rw [value]
  exact reckonsQuotient _ right

end

def signOf (negative : Bool) : Sign := if negative then .negative else .positive

theorem componentsBits (negative : Bool) (biased : BitVec 11) (fraction : BitVec 52) :
    (packComponents .binary64 (signOf negative) biased fraction).toNat =
      (if negative then 2 ^ 63 else 0) + biased.toNat * 2 ^ 52 + fraction.toNat := by
  have sign : (signOf negative).toBitVec.toNat = if negative then 1 else 0 := by
    cases negative <;> rfl
  unfold packComponents
  rw [BitVec.toNat_append, ← Nat.shiftLeft_add_eq_or_of_lt fraction.isLt, BitVec.toNat_append,
    ← Nat.shiftLeft_add_eq_or_of_lt biased.isLt, sign, Nat.shiftLeft_eq, Nat.shiftLeft_eq]
  cases negative <;> simp
  omega

theorem signKept (sign : Sign) (biased : BitVec 11) (fraction : BitVec 52) :
    Sign.ofBitVec (unpackSign (packComponents .binary64 sign biased fraction)) = sign := by
  simp only [unpackSign, packComponents, BitVec.extractLsb]
  rw [BitVec.extractLsb'_append_eq_of_le (by omega), BitVec.extractLsb'_append_eq_of_le (by omega)]
  cases sign <;> rfl

structure Stored (mantissa : Nat) (exponent : Int) (biased fraction : Nat) : Prop where
  fits : fraction < 2 ^ 52
  most : biased < 2047
  cases : (biased = 0 ∧ mantissa = fraction ∧ exponent = -1074) ∨
    (0 < biased ∧ mantissa = fraction + 2 ^ 52 ∧ exponent = biased - 1075)

section
variable {mantissa : Nat} {exponent : Int} (canonical : Canonical mantissa exponent)
  (positive : 0 < mantissa)
include canonical

theorem packedComponents (sign : Sign) : ∃ biased fraction,
    Stored mantissa exponent biased fraction ∧
      UnpackedFloat.pack .binary64 (.finite sign mantissa exponent positive) =
        packComponents .binary64 sign (BitVec.ofNat 11 biased) (BitVec.ofNat 52 fraction) := by
  have fits := canonical.fits
  have most := canonical.most
  have least := canonical.least
  have bias : (exponent + Format.binary64.exponentBias +
      Format.binary64.mantissaBitsWithoutImplicit).toNat = (exponent + 1075).toNat := by
    change (exponent + (1023 : Nat) + (52 : Nat)).toNat = _
    omega
  have bits : Format.binary64.mantissaBits = 53 := rfl
  unfold UnpackedFloat.pack
  simp only [bias, bits]
  rw [if_neg (by omega)]
  split
  · rename_i full
    have filled := (Nat.le_log2 positive.ne').mp (show 52 ≤ mantissa.log2 by omega)
    have implicit : BitVec.ofNat 52 mantissa = BitVec.ofNat 52 (mantissa - 2 ^ 52) := by
      refine BitVec.eq_of_toNat_eq ?_
      rw [BitVec.toNat_ofNat, BitVec.toNat_ofNat]
      omega
    rw [implicit]
    exact ⟨_, _, ⟨by omega, by omega, .inr ⟨by omega, by omega, by omega⟩⟩, rfl⟩
  · rename_i short
    have below := (Nat.log2_lt positive.ne').mpr fits
    have small := (Nat.log2_lt positive.ne').mp (show mantissa.log2 < 52 by omega)
    have lowest : exponent = -1074 := by
      rcases canonical.filled with filled | lowest
      · omega
      · exact lowest
    exact ⟨0, mantissa, ⟨small, by norm_num, .inl ⟨rfl, rfl, lowest⟩⟩, rfl⟩

theorem packedFloat (negative : Bool) :
    Float.ofModel (.pack (.finite (signOf negative) mantissa exponent positive)) =
      Dyadic.toFloat ⟨negative, mantissa, exponent⟩ := by
  obtain ⟨biased, fraction, ⟨fits, most, cases⟩, packed⟩ :=
    packedComponents canonical positive (signOf negative)
  have bits : (Float.ofModel (.pack
      (.finite (signOf negative) mantissa exponent positive))).toBits.toNat =
        (if negative then 2 ^ 63 else 0) + biased * 2 ^ 52 + fraction := by
    change (UnpackedFloat.pack .binary64 _).toNat = _
    rw [packed, componentsBits, BitVec.toNat_ofNat, BitVec.toNat_ofNat,
      Nat.mod_eq_of_lt (by omega), Nat.mod_eq_of_lt fits]
  have sign : ((if negative then 2 ^ 63 else 0) + biased * 2 ^ 52 + fraction) / 2 ^ 63 =
      if negative then 1 else 0 := by
    cases negative <;> simp only [Bool.false_eq_true, if_false, if_true] <;> omega
  have middle : ((if negative then 2 ^ 63 else 0) + biased * 2 ^ 52 + fraction) / 2 ^ 52 % 2 ^ 11 =
      biased := by
    cases negative <;> simp only [Bool.false_eq_true, if_false, if_true] <;> omega
  have last : ((if negative then 2 ^ 63 else 0) + biased * 2 ^ 52 + fraction) % 2 ^ 52 =
      fraction := by
    cases negative <;> simp only [Bool.false_eq_true, if_false, if_true] <;> omega
  have same : ((if negative then 1 else 0 : Nat) == 1) = negative := by cases negative <;> rfl
  refine (classifyToFloat ?_).symm
  unfold classify
  simp only [Nat.pow_eq, bits, sign, middle, last, same]
  rw [if_neg (by omega)]
  rcases cases with ⟨rfl, rfl, rfl⟩ | ⟨some, rfl, rfl⟩
  · rw [if_pos rfl]
  · rw [if_neg some.ne']

theorem unpackPacked (sign : Sign) :
    UnpackedFloat.unpack .binary64
      (UnpackedFloat.pack .binary64 (.finite sign mantissa exponent positive)) =
        .finite sign mantissa exponent positive := by
  obtain ⟨biased, fraction, ⟨fits, most, cases⟩, packed⟩ := packedComponents canonical positive sign
  have bias : ((Format.binary64.exponentBias : Nat) : Int) = 1023 := rfl
  have top : BitVec.ofNat 11 biased ≠ -1#11 := by
    intro same
    have := congrArg BitVec.toNat same
    rw [BitVec.toNat_ofNat, Nat.mod_eq_of_lt (by omega)] at this
    exact absurd this (by simp; omega)
  rw [packed]
  unfold UnpackedFloat.unpack
  simp only [unpackMantissa_packComponents, unpackExponent_packComponents, signKept, bias]
  rw [if_neg top]
  rcases cases with ⟨rfl, rfl, rfl⟩ | ⟨some, rfl, rfl⟩
  · have some : BitVec.ofNat 52 mantissa ≠ 0#52 := by
      intro none
      have := congrArg BitVec.toNat none
      rw [BitVec.toNat_ofNat, Nat.mod_eq_of_lt fits] at this
      exact positive.ne' this
    rw [if_pos rfl, dif_neg some]
    congr 1
    exact Nat.mod_eq_of_lt fits
  · have more : BitVec.ofNat 11 biased ≠ 0#11 := by
      intro none
      have := congrArg BitVec.toNat none
      rw [BitVec.toNat_ofNat, Nat.mod_eq_of_lt (by omega)] at this
      exact some.ne' this
    have implicit : (1#1 ++ BitVec.ofNat 52 fraction).toNat = fraction + 2 ^ 52 := by
      have value : (BitVec.ofNat 52 fraction).toNat = fraction := Nat.mod_eq_of_lt fits
      rw [BitVec.toNat_append, ← Nat.shiftLeft_add_eq_or_of_lt (BitVec.ofNat 52 fraction).isLt,
        value, Nat.add_comm]
      rfl
    have kept : (BitVec.ofNat 11 biased).toNat = biased := Nat.mod_eq_of_lt (by omega)
    rw [if_neg more]
    congr 1
    rw [kept]
    omega

include positive in
theorem negated : -Dyadic.toFloat ⟨false, mantissa, exponent⟩ =
    Dyadic.toFloat ⟨true, mantissa, exponent⟩ := by
  rw [← packedFloat canonical positive false, ← packedFloat canonical positive true]
  change Float.ofModel (.pack (UnpackedFloat.unpack .binary64
    (UnpackedFloat.pack .binary64 (.finite .positive mantissa exponent positive))).neg) = _
  rw [unpackPacked canonical]
  rfl

theorem scientificRounds {n : Nat} {tens : Int} (some : 0 < n)
    (inside : Inside mantissa exponent (n * 10 ^ tens)) (most : tens ≤ 2048)
    (least : -(2048 + (n.log2 : Int)) ≤ tens) :
    UnpackedFloat.ofScientific .binary64 n tens =
      .finite .positive mantissa exponent positive := by
  have width : (2 : Int) ^ Format.binary64.exponentBits = 2048 := rfl
  have bits : Format.binary64.mantissaBits = 53 := rfl
  unfold UnpackedFloat.ofScientific
  rw [dif_neg some.ne', width, if_neg (by omega), if_neg (by omega)]
  split
  · rename_i whole
    obtain ⟨k, rfl⟩ := Int.eq_ofNat_of_zero_le whole
    have value : ((n <<< 53 : Nat) : ℚ) * 2 ^ (-53 : Int) * ((10 ^ k : Nat) * 2 ^ (0 : Int)) =
        n * 10 ^ (k : Int) := by
      rw [Nat.shiftLeft_eq]
      rw [zpow_natCast, zpow_neg]
      push_cast
      norm_num
      ring
    have large : (2 : ℚ) ^ (0 : Int) < 2 ^ (53 + exponent) := by
      refine lt_of_le_of_lt ?_ (insideHigh canonical inside)
      rw [zpow_zero, zpow_natCast]
      exact one_le_mul_of_one_le_of_one_le (by exact_mod_cast some) (one_le_pow₀ (by norm_num))
    have low := (zpow_lt_zpow_iff_right₀ (by norm_num)).mp large
    rw [← value] at inside
    exact productRounds canonical positive _ _ inside (by rw [bits]; omega)
  · rename_i fraction
    obtain ⟨k, same⟩ := Int.eq_ofNat_of_zero_le (show 0 ≤ -tens by omega)
    obtain rfl : tens = -(k : Int) := by omega
    have value : (n : ℚ) * 2 ^ (0 : Int) / ((10 ^ k : Nat) * 2 ^ (0 : Int)) =
        n * 10 ^ (-(k : Int)) := by
      rw [zpow_zero, mul_one, mul_one, zpow_neg, zpow_natCast, div_eq_mul_inv]
      push_cast
      rfl
    rw [← value] at inside
    simp only [neg_neg, Int.toNat_natCast]
    exact quotientRounds canonical positive _ _ inside

end

/- Whole numbers of up to 53 bits are doubles as they are. -/
theorem wholeRounds {n : Nat} (some : 0 < n) (few : n < 2 ^ 53) :
    Canonical (n <<< (52 - n.log2)) (-(52 - n.log2 : Nat)) ∧ 2 ^ 52 ≤ n <<< (52 - n.log2) ∧
      ((n <<< (52 - n.log2) : Nat) : ℚ) * 2 ^ (-((52 - n.log2 : Nat) : Int)) = n ∧
      ∃ positive, UnpackedFloat.ofNat .binary64 n =
        .finite .positive (n <<< (52 - n.log2)) (-(52 - n.log2 : Nat)) positive := by
  have log : n.log2 < 53 := (Nat.log2_lt some.ne').mpr few
  obtain ⟨shift, amount⟩ : ∃ shift, 52 - n.log2 = shift := ⟨_, rfl⟩
  have least : 2 ^ 52 ≤ n * 2 ^ shift := calc
    2 ^ 52 = 2 ^ n.log2 * 2 ^ shift := by rw [← Nat.pow_add]; congr 1; omega
    _ ≤ n * 2 ^ shift := Nat.mul_le_mul_right _ (Nat.log2_self_le some.ne')
  have most : n * 2 ^ shift < 2 ^ 53 := calc
    n * 2 ^ shift < 2 ^ (n.log2 + 1) * 2 ^ shift :=
      Nat.mul_lt_mul_of_pos_right Nat.lt_log2_self (Nat.two_pow_pos _)
    _ = 2 ^ 53 := by rw [← Nat.pow_add]; congr 1; omega
  rw [amount, Nat.shiftLeft_eq]
  have canonical : Canonical (n * 2 ^ shift) (-(shift : Int)) :=
    ⟨most, by omega, by omega, .inl least⟩
  have positive : 0 < n * 2 ^ shift := Nat.mul_pos some (Nat.two_pow_pos _)
  have value : ((n * 2 ^ shift : Nat) : ℚ) * 2 ^ (-(shift : Int)) = n := by
    rw [zpow_neg, zpow_natCast]
    push_cast
    field_simp
  refine ⟨canonical, least, value, positive, ?_⟩
  have target : Format.binary64.targetExponent (totalExponent n 0) = -(shift : Int) := by
    rw [targetDouble, totalExponent]
    omega
  have given : UnpackedFloat.ofNat .binary64 n =
      roundWithAccuracy .binary64 .positive (n * 2 ^ shift) (-(shift : Int)) .exact := by
    have order : compare (n : Int) 0 = .gt := compare_gt_iff_gt.mpr (by omega)
    unfold UnpackedFloat.ofNat UnpackedFloat.ofInt UnpackedFloat.normalize UnpackedFloat.round
      decreaseExponent
    simp only [order, Int.toNat_natCast, target]
    rw [show (0 - -(shift : Int)).toNat = shift by omega, Nat.shiftLeft_eq, Int.zero_sub]
  rw [given]
  refine roundedOnce canonical positive (valueInside _ _) ?_ le_rfl
  rw [mul_div_cancel_right₀ _ (by positivity)]
  exact reckonsExact _

def isPower (e : Nat) : UnpackedFloat → Bool
  | .finite .positive n d _ => 2 ^ 52 ≤ n ∧ n * 2 ^ d.toNat = 10 ^ e * 2 ^ (-d).toNat
  | _ => false

theorem powersTabulated : ∀ e : Fin Float.exactlyRepresentablePowersOfTen.size,
    isPower e Float.exactlyRepresentablePowersOfTen[e].toModel.unpack = true := by
  decide +kernel

theorem powerValue {e : Nat} {u : UnpackedFloat} (power : isPower e u = true) :
    ∃ n d, ∃ positive : 0 < n, u = .finite .positive n d positive ∧ 2 ^ 52 ≤ n ∧
      (n : ℚ) * 2 ^ d = 10 ^ e := by
  unfold isPower at power
  split at power
  · rename_i n d positive
    obtain ⟨large, same⟩ := of_decide_eq_true power
    have exact : (n : ℚ) * 2 ^ d.toNat = 10 ^ e * 2 ^ (-d).toNat := by exact_mod_cast same
    refine ⟨n, d, positive, rfl, large, ?_⟩
    have split : (d : Int) = (d.toNat : Int) - ((-d).toNat : Int) := by omega
    rw [split, zpow_sub₀ (by norm_num), zpow_natCast, zpow_natCast, ← mul_div_assoc, exact,
      mul_div_cancel_right₀ _ (by positivity)]
  · cases power

theorem digitCountBounds {n : Nat} (some : 0 < n) :
    (10 : ℚ) ^ ((digitCount n : Int) - 1) ≤ n ∧ (n : ℚ) < 10 ^ (digitCount n : Int) ∧
      digitCount n ≤ n.log2 + 1 := by
  have counted : 0 < digitCount n := Nat.length_toDigits_pos
  have above : n < 10 ^ digitCount n :=
    (Nat.length_toDigits_le_iff (by norm_num) counted).mp le_rfl
  have leading : 10 ^ (digitCount n - 1) ≤ n := by
    rcases Nat.eq_zero_or_pos (digitCount n - 1) with none | more
    · rw [none]
      exact some
    · by_contra small
      have short := (Nat.length_toDigits_le_iff (by norm_num) more).mpr (Nat.not_le.mp small)
      unfold digitCount at *
      omega
  have bits : 2 ^ (digitCount n - 1) < 2 ^ (n.log2 + 1) := calc
    2 ^ (digitCount n - 1) ≤ 10 ^ (digitCount n - 1) := Nat.pow_le_pow_left (by norm_num) _
    _ ≤ n := leading
    _ < 2 ^ (n.log2 + 1) := Nat.lt_log2_self
  have fewer := (Nat.pow_lt_pow_iff_right (by norm_num)).mp bits
  refine ⟨?_, ?_, by omega⟩
  · rw [show ((digitCount n : Int) - 1) = ((digitCount n - 1 : Nat) : Int) by omega, zpow_natCast]
    exact_mod_cast leading
  · rw [zpow_natCast]
    exact_mod_cast above

section
variable {mantissa : Nat} {exponent : Int} (canonical : Canonical mantissa exponent)
  (positive : 0 < mantissa)
include canonical positive

omit positive in
/- Two numbers with all their bits have a product far above the least bit of its double. -/
theorem productLow {m n : Nat} {d e : Int}
    (inside : Inside mantissa exponent (m * 2 ^ d * (n * 2 ^ e))) (left : 2 ^ 52 ≤ m)
    (right : 2 ^ 52 ≤ n) : d + e ≤ exponent := by
  have first : (2 : ℚ) ^ 52 ≤ m := by exact_mod_cast left
  have second : (2 : ℚ) ^ 52 ≤ n := by exact_mod_cast right
  have power : (2 : ℚ) ^ (104 + (d + e)) < 2 ^ (53 + exponent) := by
    refine lt_of_le_of_lt ?_ (insideHigh canonical inside)
    rw [zpow_add₀ (by norm_num), zpow_add₀ (by norm_num)]
    calc (2 : ℚ) ^ (104 : Int) * (2 ^ d * 2 ^ e) = 2 ^ 52 * 2 ^ d * (2 ^ 52 * 2 ^ e) := by
          norm_num
          ring
      _ ≤ m * 2 ^ d * (n * 2 ^ e) := by gcongr
  have := (zpow_lt_zpow_iff_right₀ (by norm_num)).mp power
  omega

/- Both ways of reading the digits round once. -/
theorem digitsRound {n : Nat} (some : 0 < n) (below : Bool) {tens : Nat}
    (inside : Inside mantissa exponent
      (n * 10 ^ (if below then -(tens : Int) else (tens : Int))))
    (most : below = false → tens ≤ 2048) (least : below = true → tens ≤ 2048 + n.log2) :
    Float.ofScientific n below tens = Dyadic.toFloat ⟨false, mantissa, exponent⟩ := by
  rw [← packedFloat canonical positive false]
  unfold Float.ofScientific
  split
  · rename_i small
    obtain ⟨whole, large, value, left, given⟩ := wholeRounds some small.1
    have counted : n.toUInt64.toNat = n := Nat.mod_eq_of_lt (by omega)
    have unpacked : n.toUInt64.toFloat.toModel.unpack = .finite .positive (n <<< (52 - n.log2))
        (-(52 - n.log2 : Nat)) left := by
      change UnpackedFloat.unpack .binary64 (UnpackedFloat.pack .binary64
        (UnpackedFloat.ofNat .binary64 n.toUInt64.toNat)) = _
      rw [counted, given, unpackPacked whole]
    have listed : tens < Float.exactlyRepresentablePowersOfTen.size := by
      simp [Float.exactlyRepresentablePowersOfTen]
      omega
    obtain ⟨m, d, right, tabulated, wide, power⟩ := powerValue (powersTabulated ⟨tens, listed⟩)
    simp only [Fin.getElem_fin] at tabulated
    split
    · rename_i divided
      change Float.ofModel (.pack (UnpackedFloat.div .binary64 n.toUInt64.toFloat.toModel.unpack
        Float.exactlyRepresentablePowersOfTen[tens].toModel.unpack)) = _
      rw [unpacked, tabulated, quotientRounds canonical positive]
      · rfl
      · rw [value, power]
        rw [divided, if_pos rfl, zpow_neg, zpow_natCast, ← div_eq_mul_inv] at inside
        exact inside
    · rename_i multiplied
      change Float.ofModel (.pack (UnpackedFloat.mul .binary64 n.toUInt64.toFloat.toModel.unpack
        Float.exactlyRepresentablePowersOfTen[tens].toModel.unpack)) = _
      rw [if_neg multiplied, zpow_natCast, ← value, ← power] at inside
      rw [unpacked, tabulated, productRounds canonical positive _ _ inside]
      · rfl
      · exact productLow canonical inside large wide
  · have exact : Float.Model.ofScientific n (if below then -(tens : Int) else (tens : Int)) =
        .pack (.finite .positive mantissa exponent positive) := by
      refine congrArg Float.Model.pack (scientificRounds canonical positive some inside ?_ ?_)
      · cases below with
        | true =>
          rw [if_pos rfl]
          omega
        | false =>
          have := most rfl
          rw [if_neg Bool.false_ne_true]
          omega
      · cases below with
        | true =>
          have := least rfl
          rw [if_pos rfl]
          omega
        | false =>
          rw [if_neg Bool.false_ne_true]
          omega
    have same : (if below then Int.negOfNat tens else Int.ofNat tens) =
        if below then -(tens : Int) else (tens : Int) := by
      rw [Int.negOfNat_eq]
      rfl
    rw [same]
    exact congrArg Float.ofModel exact

theorem nearestRounds {n : Nat} {tens : Int} (some : 0 < n)
    (inside : Inside mantissa exponent (n * 10 ^ tens)) :
    nearest n tens = Dyadic.toFloat ⟨false, mantissa, exponent⟩ := by
  obtain ⟨leading, above, bits⟩ := digitCountBounds some
  have power : (0 : ℚ) < 10 ^ tens := by positivity
  have least := canonical.least
  have most := canonical.most
  have far : ¬ (digitCount n : Int) + tens < -400 := by
    intro small
    have high : (n : ℚ) * 10 ^ tens < 10 ^ (-((400 : Nat) : Int)) := calc
      (n : ℚ) * 10 ^ tens < 10 ^ (digitCount n : Int) * 10 ^ tens :=
        mul_lt_mul_of_pos_right above power
      _ = 10 ^ ((digitCount n : Int) + tens) := (zpow_add₀ (by norm_num) _ _).symm
      _ ≤ 10 ^ (-((400 : Nat) : Int)) := zpow_le_zpow_right₀ (by norm_num) (by push_cast; omega)
    have half : (2 : ℚ) ^ (-((1075 : Nat) : Int)) ≤ (mantissa - 1 / 2) * 2 ^ exponent := by
      have one : (1 : ℚ) ≤ mantissa := by exact_mod_cast positive
      have lowest : (2 : ℚ) ^ (-1074 : Int) ≤ 2 ^ exponent :=
        zpow_le_zpow_right₀ (by norm_num) least
      rw [show (-((1075 : Nat) : Int)) = -1 + -1074 by norm_num, zpow_add₀ (by norm_num)]
      refine mul_le_mul ?_ lowest (by positivity) (by linarith)
      norm_num
      linarith
    exact absurd (((tensBelow (by norm_num)).trans half).trans inside.low) (not_le.mpr high)
  have near : ¬ 400 < (digitCount n : Int) + tens := by
    intro large
    have low : (10 : ℚ) ^ 400 ≤ n * 10 ^ tens := calc
      (10 : ℚ) ^ 400 = 10 ^ ((400 : Nat) : Int) := (zpow_natCast _ _).symm
      _ ≤ 10 ^ ((digitCount n : Int) - 1 + tens) :=
        zpow_le_zpow_right₀ (by norm_num) (by push_cast; omega)
      _ = 10 ^ ((digitCount n : Int) - 1) * 10 ^ tens := zpow_add₀ (by norm_num) _ _
      _ ≤ n * 10 ^ tens := mul_le_mul_of_nonneg_right leading power.le
    have high : (n : ℚ) * 10 ^ tens < 10 ^ 400 := calc
      (n : ℚ) * 10 ^ tens < 2 ^ (53 + exponent) := insideHigh canonical inside
      _ ≤ 2 ^ ((1024 : Nat) : Int) := zpow_le_zpow_right₀ (by norm_num) (by push_cast; omega)
      _ ≤ 10 ^ ((400 : Nat) : Int) := by
        have small := tensBelow (show 1024 ≤ 3 * 400 by norm_num)
        rw [zpow_neg, zpow_neg] at small
        exact (inv_le_inv₀ (by positivity) (by positivity)).mp small
      _ = 10 ^ 400 := zpow_natCast _ _
    exact absurd low (not_le.mpr high)
  unfold nearest
  simp only
  rw [if_neg (by omega), if_neg near]
  split
  · rename_i whole
    obtain ⟨k, rfl⟩ := Int.eq_ofNat_of_zero_le whole
    exact digitsRound canonical positive some false inside (by omega) (by simp)
  · rename_i fraction
    obtain ⟨k, same⟩ := Int.eq_ofNat_of_zero_le (show 0 ≤ -tens by omega)
    obtain rfl : tens = -(k : Int) := by omega
    rw [neg_neg, Int.toNat_natCast]
    exact digitsRound canonical positive some true inside (by simp) (by omega)

end

/- Digits with or without a point, and nothing after them. -/
theorem decimalParts {cs : List Char} {q : ℚ} (reads : decimal? cs = some q) :
    ∃ whole fraction, Digits whole ∧ Digits fraction ∧ whole ≠ [] ∧
      q = natOfDigits (whole ++ fraction) * 10 ^ (-(fraction.length : Int)) ∧
      (fraction = [] ∧ cs = whole ∨ fraction ≠ [] ∧ cs = whole ++ '.' :: fraction) := by
  have parts := List.takeWhile_append_dropWhile (p := Text.isAsciiDigit) (l := cs)
  have digits : Digits (cs.takeWhile Text.isAsciiDigit) := fun c => List.mem_takeWhile_imp
  unfold decimal? at reads
  simp only at reads
  split at reads
  · rename_i ends
    split at reads
    · cases reads
    · rename_i nonempty
      cases reads
      rw [ends, List.append_nil] at parts
      exact ⟨_, [], digits, by simp [Digits], by simpa using nonempty, by simp, .inl ⟨rfl, parts.symm⟩⟩
  · rename_i fraction point
    split at reads
    · cases reads
    · rename_i proper
      cases reads
      rw [point] at parts
      simp only [Bool.or_eq_true, List.isEmpty_iff, Bool.not_eq_true', not_or,
        Bool.not_eq_false, List.all_eq_true] at proper
      refine ⟨_, fraction, digits, proper.2, proper.1.1, ?_, .inr ⟨proper.1.2, parts.symm⟩⟩
      rw [zpow_neg, zpow_natCast, div_eq_mul_inv]
  · cases reads

theorem wholeTaken {whole : List Char} (digits : Digits whole) {rest : List Char}
    (ends : ∀ c more, rest = c :: more → Text.isAsciiDigit c = false) :
    (whole ++ rest).takeWhile Text.isAsciiDigit = whole ∧
      (whole ++ rest).dropWhile Text.isAsciiDigit = rest := by
  rw [List.takeWhile_append_of_pos digits, List.dropWhile_append_of_pos digits]
  cases rest with
  | nil => simp
  | cons c more =>
    rw [List.takeWhile_cons_of_neg (by simp [ends c more rfl]),
      List.dropWhile_cons_of_neg (by simp [ends c more rfl]), List.append_nil]
    exact ⟨rfl, rfl⟩

theorem unsignedRounds {cs : List Char} {q : ℚ} (reads : decimal? cs = some q) {mantissa : Nat}
    {exponent : Int} (canonical : Canonical mantissa exponent) (positive : 0 < mantissa)
    (inside : Inside mantissa exponent q) :
    unsigned? cs = some (Dyadic.toFloat ⟨false, mantissa, exponent⟩) := by
  obtain ⟨whole, fraction, left, right, nonempty, rfl, written⟩ := decimalParts reads
  have counted : 0 < natOfDigits (whole ++ fraction) := by
    refine Nat.pos_of_ne_zero fun none => ?_
    have one : (1 : ℚ) ≤ mantissa := by exact_mod_cast positive
    have unit : (0 : ℚ) < 2 ^ exponent := by positivity
    have low := inside.low
    rw [none, Nat.cast_zero, zero_mul] at low
    nlinarith
  have rounds := nearestRounds canonical positive counted inside
  rcases written with ⟨rfl, rfl⟩ | ⟨some, rfl⟩
  · obtain ⟨taken, dropped⟩ := wholeTaken left (show ∀ c more, [] = c :: more → _ by simp)
    rw [List.append_nil] at taken dropped
    unfold unsigned?
    simp only [taken, dropped]
    simpa [nonempty, exponent?] using rounds
  · obtain ⟨taken, dropped⟩ := wholeTaken left (show ∀ c more, '.' :: fraction = c :: more → _ by
      rintro c more ⟨⟩
      rfl)
    obtain ⟨inner, ends⟩ := wholeTaken right (show ∀ c more, [] = c :: more → _ by simp)
    rw [List.append_nil] at inner ends
    unfold unsigned?
    simp only [taken, dropped, inner, ends]
    simpa [nonempty, exponent?] using rounds

theorem digitLower {c : Char} (digit : Text.isAsciiDigit c = true) : c.toLower = c := by
  unfold Text.isAsciiDigit at digit
  simp only [Bool.and_eq_true, decide_eq_true_eq, Char.le_def] at digit
  have lower : ¬ (c.val ≥ 'A'.val ∧ c.val ≤ 'Z'.val) := by
    intro upper
    have most := digit.2
    have least := upper.1
    simp only [UInt32.le_iff_toNat_le, ge_iff_le] at most least
    simp at most least
    omega
  exact dif_neg lower

/- No name of a number starts with a digit. -/
theorem nameOther {c : Char} {rest : List Char} (digit : Text.isAsciiDigit c = true)
    (name : String) (letter : name.toList.head?.any Text.isAsciiDigit = false) :
    String.ofList ((c :: rest).map Char.toLower) ≠ name := by
  rintro rfl
  rw [String.toList_ofList, List.map_cons, digitLower digit] at letter
  exact absurd digit (by simpa using letter)

theorem readRounds {cs : List Char} {q : ℚ} (reads : decimal? cs = some q) {mantissa : Nat}
    {exponent : Int} (canonical : Canonical mantissa exponent) (positive : 0 < mantissa)
    (inside : Inside mantissa exponent q) :
    read? (String.ofList cs) = some (Dyadic.toFloat ⟨false, mantissa, exponent⟩) := by
  have rounds := unsignedRounds reads canonical positive inside
  obtain ⟨c, rest, rfl, digit⟩ := decimalHead reads
  have sign : sign? (c :: rest) = (false, c :: rest) := by
    unfold sign?
    split <;> simp_all [Text.isAsciiDigit]
  unfold read?
  rw [String.toList_ofList, sign]
  simp only [Bool.false_eq_true, if_false]
  split
  · rename_i same
    exact absurd same (nameOther digit "inf" rfl)
  · rename_i same
    exact absurd same (nameOther digit "infinity" rfl)
  · rename_i same
    exact absurd same (nameOther digit "nan" rfl)
  · rw [rounds]
    rfl

structure Spells (negative : Bool) (cs : List Char) (x : Float) : Prop where
  decimal : ∃ q, decimal? cs = some q
  magnitude : ∃ y, read? (String.ofList cs) = some y ∧ (if negative then -y else y) = x

section
variable {x : Float} {d : Dyadic} (finite : classify x = .finite d) (positive : 0 < d.mantissa)
include finite positive

theorem insideSpells {cs : List Char} {q : ℚ} (reads : decimal? cs = some q)
    (inside : Inside d.mantissa d.exponent q) : Spells d.negative cs x := by
  have canonical := classifyCanonical finite
  refine ⟨⟨q, reads⟩, _, readRounds reads canonical positive inside, ?_⟩
  rw [← classifyToFloat finite]
  obtain ⟨negative, mantissa, exponent⟩ := d
  cases negative with
  | true => exact negated canonical positive
  | false => rfl

theorem textSpells : ∃ cs, text x = String.ofList (signed d.negative cs) ∧
    Spells d.negative cs x := by
  obtain ⟨n, tens, same, spelling⟩ := shortestGives (classifyCanonical finite) positive
  refine ⟨(decimalOf n tens).positional, ?_,
    insideSpells finite positive (decimalOfReads spelling.positive tens) spelling.inside⟩
  rw [text, finite]
  simp only [positive.ne', if_false, same]
  cases d.negative with
  | false => rfl
  | true => exact String.toList_injective (by simp [signed])

theorem wholeSpells (whole : isWhole x = true) :
    ∃ cs, toString (truncate x) = String.ofList (signed d.negative cs) ∧
      Spells d.negative cs x := by
  have exact : d.split.2.1 = 0 := by simpa [isWhole, finite] using whole
  have value := wholeValue exact
  have counted : 0 < d.split.1 := by
    have : (0 : ℚ) < (d.split.1 : Nat) := by rw [value]; positivity
    exact_mod_cast this
  have reads : decimal? (Nat.toDigits 10 d.split.1) = some (d.split.1 : ℚ) := by
    rw [decimalWhole (digitsWritten _) Nat.toDigits_ne_nil, natOfDigitsWritten]
  rw [value] at reads
  refine ⟨_, ?_, insideSpells finite positive reads (valueInside _ _)⟩
  rw [truncate, finite, signedString d counted]

end

theorem zeroSpells : Spells false ['0'] 0.0 := by
  refine ⟨⟨_, decimalWhole (by simp [Digits, Text.isAsciiDigit]) (by simp)⟩, 0.0, ?_, rfl⟩
  decide +kernel

end ViewForge.Number
