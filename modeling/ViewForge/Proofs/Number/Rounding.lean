import Mathlib
import ViewForge.Number.Dyadic

/-! The double that a rational rounds to. What lies between the halfway points to the neighbours of
a double is rounded to it, and a double is determined by its sign, mantissa and exponent. -/
namespace ViewForge.Number

def nearestEven (q : ℚ) : Nat :=
  let whole := ⌊q⌋₊
  let rest := q - whole
  if rest < 1 / 2 then whole else if 1 / 2 < rest then whole + 1 else whole + whole % 2

theorem nearestEvenLeast {q : ℚ} {n : Nat} (low : (n : ℚ) - 1 / 2 ≤ q)
    (even : n % 2 = 0 ∨ (n : ℚ) - 1 / 2 < q) : n ≤ nearestEven q := by
  have above := Nat.lt_floor_add_one q
  have next : n ≤ ⌊q⌋₊ + 1 := by
    have : (n : ℚ) < (⌊q⌋₊ + 1 : Nat) + 1 := by push_cast; linarith
    exact Nat.lt_succ_iff.mp (by exact_mod_cast this)
  unfold nearestEven
  simp only
  rcases Nat.lt_or_eq_of_le next with below | same
  · split_ifs <;> omega
  · have half : (n : ℚ) - 1 = ⌊q⌋₊ := by rw [same]; push_cast; ring
    have enough : ¬ q - (⌊q⌋₊ : ℚ) < 1 / 2 := by rw [← half]; linarith
    rw [if_neg enough]
    split_ifs with more
    · exact next
    · rcases even with even | strict
      · omega
      · exact absurd (by rw [← half]; linarith) more

theorem nearestEvenMost {q : ℚ} {n : Nat} (positive : 0 ≤ q) (high : q ≤ n + 1 / 2)
    (even : n % 2 = 0 ∨ q < n + 1 / 2) : nearestEven q ≤ n := by
  have below := Nat.floor_le positive
  have whole : ⌊q⌋₊ ≤ n := by
    have : (⌊q⌋₊ : ℚ) < n + 1 := by linarith
    exact Nat.lt_succ_iff.mp (by exact_mod_cast this)
  unfold nearestEven
  simp only
  rcases Nat.lt_or_eq_of_le whole with less | same
  · split_ifs <;> omega
  · simp only [same]
    split_ifs with first second
    · exact Nat.le_refl n
    · linarith
    · rcases even with even | strict
      · omega
      · exact absurd (by linarith) first

/-- The mantissa with at most 53 bits and the least exponent, from the given one on, at which a
rational is rounded to such a mantissa; `steps` bounds the search. -/
def nearestFrom (q : ℚ) (exponent : Int) : Nat → Option (Nat × Int)
  | 0 => none
  | steps + 1 =>
    let mantissa := nearestEven (q / 2 ^ exponent)
    if mantissa < 2 ^ 53 then some (mantissa, exponent) else nearestFrom q (exponent + 1) steps

def nearest? (q : ℚ) : Option (Nat × Int) := nearestFrom q (-1074) 2046

theorem nearestFromGives {q : ℚ} {mantissa : Nat} {exponent : Int}
    (rounds : nearestEven (q / 2 ^ exponent) = mantissa) (fits : mantissa < 2 ^ 53)
    {first : Int} {steps : Nat} (reached : first ≤ exponent) (enough : exponent < first + steps)
    (before : ∀ e, first ≤ e → e < exponent → 2 ^ 53 ≤ nearestEven (q / 2 ^ e)) :
    nearestFrom q first steps = some (mantissa, exponent) := by
  induction steps generalizing first with
  | zero => omega
  | succ steps ih =>
    rw [nearestFrom]
    rcases Int.lt_or_eq_of_le reached with later | rfl
    · rw [if_neg (Nat.not_lt.mpr (before first (Int.le_refl _) later))]
      refine ih (by omega) (by push_cast at enough; omega) fun e low high => ?_
      exact before e (by omega) high
    · rw [rounds]
      exact if_pos fits

structure Canonical (mantissa : Nat) (exponent : Int) : Prop where
  fits : mantissa < 2 ^ 53
  least : -1074 ≤ exponent
  most : exponent ≤ 971
  filled : 2 ^ 52 ≤ mantissa ∨ exponent = -1074

/-- The rationals between the halfway points to the neighbours of a double. Below a power of two the
neighbour is only half as far away. -/
structure Inside (mantissa : Nat) (exponent : Int) (q : ℚ) : Prop where
  low : ((mantissa : ℚ) - 1 / 2) * 2 ^ exponent ≤ q
  high : q ≤ ((mantissa : ℚ) + 1 / 2) * 2 ^ exponent
  ends : mantissa % 2 = 0 ∨
    (((mantissa : ℚ) - 1 / 2) * 2 ^ exponent < q ∧ q < ((mantissa : ℚ) + 1 / 2) * 2 ^ exponent)
  narrow : mantissa = 2 ^ 52 → -1074 < exponent →
    ((mantissa : ℚ) - 1 / 4) * 2 ^ exponent ≤ q

theorem insideRounds {mantissa : Nat} {exponent : Int} {q : ℚ} (positive : 0 ≤ q)
    (inside : Inside mantissa exponent q) : nearestEven (q / 2 ^ exponent) = mantissa := by
  have unit : (0 : ℚ) < 2 ^ exponent := by positivity
  refine Nat.le_antisymm (nearestEvenMost (by positivity) ?_ ?_) (nearestEvenLeast ?_ ?_)
  · exact (div_le_iff₀ unit).mpr inside.high
  · exact inside.ends.imp id fun ends => (div_lt_iff₀ unit).mpr ends.2
  · exact (le_div_iff₀ unit).mpr inside.low
  · exact inside.ends.imp id fun ends => (lt_div_iff₀ unit).mpr ends.1

/- At an exponent below its own, a double with all 53 bits would need more of them. -/
theorem insideOverflows {mantissa : Nat} {exponent : Int} {q : ℚ}
    (canonical : Canonical mantissa exponent) (inside : Inside mantissa exponent q)
    {smaller : Int} (least : -1074 ≤ smaller) (below : smaller < exponent) :
    2 ^ 53 ≤ nearestEven (q / 2 ^ smaller) := by
  have filled : 2 ^ 52 ≤ mantissa := by
    rcases canonical.filled with filled | lowest
    · exact filled
    · omega
  have bound : ((2 : ℚ) ^ 52 - 1 / 4) * 2 ^ exponent ≤ q := by
    rcases Nat.eq_or_lt_of_le filled with same | more
    · have narrow := inside.narrow same.symm (by omega)
      rw [← same] at narrow
      exact_mod_cast narrow
    · have next : ((2 : ℚ) ^ 52 + 1) ≤ mantissa := by exact_mod_cast more
      have unit : (0 : ℚ) < 2 ^ exponent := by positivity
      nlinarith [inside.low]
  have double : (2 : ℚ) ^ exponent = 2 ^ (exponent - smaller) * 2 ^ smaller := by
    rw [← zpow_add₀ (by norm_num), Int.sub_add_cancel]
  have factor : (2 : ℚ) ≤ 2 ^ (exponent - smaller) := by
    have := zpow_le_zpow_right₀ (a := (2 : ℚ)) (by norm_num) (show 1 ≤ exponent - smaller by omega)
    simpa using this
  have unit : (0 : ℚ) < 2 ^ smaller := by positivity
  refine nearestEvenLeast ?_ (.inl (by norm_num))
  rw [le_div_iff₀ unit]
  rw [double, ← mul_assoc] at bound
  refine le_trans ?_ bound
  refine mul_le_mul_of_nonneg_right ?_ unit.le
  push_cast
  nlinarith

theorem insideNearest {mantissa : Nat} {exponent : Int} {q : ℚ}
    (canonical : Canonical mantissa exponent) (positive : 0 ≤ q)
    (inside : Inside mantissa exponent q) : nearest? q = some (mantissa, exponent) :=
  nearestFromGives (insideRounds positive inside) canonical.fits canonical.least
    (by have := canonical.most; omega)
    fun _ least below => insideOverflows canonical inside least below

theorem valueInside (mantissa : Nat) (exponent : Int) :
    Inside mantissa exponent (mantissa * 2 ^ exponent) := by
  have unit : (0 : ℚ) < 2 ^ exponent := by positivity
  constructor
  · nlinarith
  · nlinarith
  · exact .inr ⟨by nlinarith, by nlinarith⟩
  · intros
    nlinarith

/- The sign, the exponent and the fraction of a double are the digits of its bits. -/
theorem bitsSplit (x : Float) : x.toBits.toNat =
    (if x.toBits.toNat / 2 ^ 63 = 1 then 2 ^ 63 else 0) +
      (x.toBits.toNat / 2 ^ 52 % 2 ^ 11) * 2 ^ 52 + x.toBits.toNat % 2 ^ 52 := by
  have bound := x.toBits.toNat_lt
  simp only [Nat.reducePow] at bound ⊢
  split_ifs <;> omega

theorem classifyFinite {x : Float} {d : Dyadic} (finite : classify x = .finite d) :
    ∃ biased fraction : Nat,
      x.toBits.toNat = (if d.negative = true then 2 ^ 63 else 0) + biased * 2 ^ 52 + fraction ∧
      fraction < 2 ^ 52 ∧ biased < 2047 ∧
      ((biased = 0 ∧ d.mantissa = fraction ∧ d.exponent = -1074) ∨
        (0 < biased ∧ d.mantissa = fraction + 2 ^ 52 ∧ d.exponent = biased - 1075)) := by
  have split := bitsSplit x
  have small : x.toBits.toNat / 2 ^ 52 % 2 ^ 11 < 2048 := Nat.mod_lt _ (by norm_num)
  refine ⟨x.toBits.toNat / 2 ^ 52 % 2 ^ 11, x.toBits.toNat % 2 ^ 52, ?_,
    Nat.mod_lt _ (by norm_num), ?_⟩
  all_goals
    unfold classify at finite
    simp only [Nat.pow_eq] at finite
    split_ifs at finite with special empty subnormal
  · cases finite
    simpa using split
  · cases finite
    simpa using split
  · cases finite
    exact ⟨by omega, .inl ⟨subnormal, rfl, rfl⟩⟩
  · cases finite
    exact ⟨by omega, .inr ⟨Nat.pos_of_ne_zero subnormal, rfl, rfl⟩⟩

theorem classifyCanonical {x : Float} {d : Dyadic} (finite : classify x = .finite d) :
    Canonical d.mantissa d.exponent := by
  obtain ⟨biased, fraction, _, fits, small, cases⟩ := classifyFinite finite
  constructor <;> omega

theorem canonicalSettled {d : Dyadic} (canonical : Canonical d.mantissa d.exponent) (steps : Nat) :
    d.normalize steps = d := by
  have fits := canonical.fits
  have filled := canonical.filled
  cases steps with
  | zero => rfl
  | succ steps =>
    rw [Dyadic.normalize, if_neg, if_neg]
    · simp only [Nat.pow_eq]
      omega
    · simp only [Nat.pow_eq]
      omega

theorem classifyToFloat {x : Float} {d : Dyadic} (finite : classify x = .finite d) :
    d.toFloat = x := by
  unfold Dyadic.toFloat
  rw [canonicalSettled (classifyCanonical finite)]
  obtain ⟨biased, fraction, bits, fits, small, cases⟩ := classifyFinite finite
  have bound := x.toBits.toNat_lt
  rw [← Float.ofBits_toBits x]
  refine congrArg Float.ofBits (UInt64.toNat_inj.mp ?_)
  rw [UInt64.toNat_ofNat', Nat.mod_eq_of_lt]
  all_goals
    simp only [Nat.pow_eq]
    split_ifs at bits ⊢ <;> omega

theorem floatOfBits {x y : Float} (same : x.toBits.toNat = y.toBits.toNat) : x = y :=
  Float.toBits_inj.mp (UInt64.toNat_inj.mp same)

theorem classifyInfinite {x : Float} {negative : Bool}
    (infinite : classify x = .infinite negative) :
    x = if negative then -(1.0 / 0.0) else 1.0 / 0.0 := by
  have positive : (1.0 / 0.0 : Float).toBits.toNat = 2047 * 2 ^ 52 := by decide +kernel
  have opposite : (-(1.0 / 0.0) : Float).toBits.toNat = 2 ^ 63 + 2047 * 2 ^ 52 := by
    decide +kernel
  have split := bitsSplit x
  unfold classify at infinite
  simp only [Nat.pow_eq] at infinite
  split_ifs at infinite with special empty
  cases infinite
  rw [special, empty] at split
  refine floatOfBits ?_
  simp only [beq_iff_eq]
  split_ifs at split ⊢
  · rw [opposite, split, Nat.add_zero]
  · rw [positive, split, Nat.zero_add, Nat.add_zero]

open Float.Model in
theorem classifyNotANumber {x : Float} (strange : classify x = .notANumber) : x = 0.0 / 0.0 := by
  have canonical : (0.0 / 0.0 : Float).toModel.toBits.toBitVec =
      UnpackedFloat.packedNaN Format.binary64 := by
    decide +kernel
  unfold classify at strange
  simp only [Nat.pow_eq] at strange
  split_ifs at strange with special empty
  have packed := x.toModel.valid.eq_packedNaN ?_ ?_
  · refine Float.toBits_inj.mp (UInt64.toBitVec_inj.mp ?_)
    exact packed.trans canonical.symm
  · refine BitVec.eq_of_toNat_eq ?_
    rw [UnpackedFloat.unpackExponent, BitVec.toNat_cast, BitVec.extractLsb_toNat,
      Nat.shiftRight_eq_div_pow]
    exact special
  · intro none
    refine empty ?_
    have zero := congrArg BitVec.toNat none
    rw [UnpackedFloat.unpackMantissa, BitVec.toNat_cast, BitVec.extractLsb_toNat,
      Nat.shiftRight_eq_div_pow, Nat.pow_zero, Nat.div_one] at zero
    exact zero

end ViewForge.Number
