/-! Finite doubles as whole numbers times powers of two, where every question about a number is
answered in exact arithmetic. -/
namespace ViewForge.Number

/-- The number `mantissa * 2 ^ exponent` with its sign; zero keeps its sign too. -/
structure Dyadic where
  negative : Bool
  mantissa : Nat
  exponent : Int
  deriving DecidableEq, Repr

inductive Class where
  | notANumber
  | infinite (negative : Bool)
  | finite (value : Dyadic)
  deriving DecidableEq, Repr

def classify (x : Float) : Class :=
  let bits := x.toBits.toNat
  let negative := bits / Nat.pow 2 63 == 1
  let biased : Nat := bits / Nat.pow 2 52 % Nat.pow 2 11
  let fraction := bits % Nat.pow 2 52
  if biased = 2047 then
    if fraction = 0 then .infinite negative else .notANumber
  else if biased = 0 then .finite ⟨negative, fraction, -1074⟩
  else .finite ⟨negative, fraction + Nat.pow 2 52, biased - 1075⟩

/-- Moves factors of two from the mantissa to the exponent or back until the mantissa fills its
53 bits or the exponent is the least one; `steps` bounds the number of moves. -/
def Dyadic.normalize (d : Dyadic) : Nat → Dyadic
  | 0 => d
  | steps + 1 =>
    if Nat.pow 2 53 ≤ d.mantissa then
      Dyadic.normalize ⟨d.negative, d.mantissa / 2, d.exponent + 1⟩ steps
    else if d.mantissa < Nat.pow 2 52 ∧ -1074 < d.exponent then
      Dyadic.normalize ⟨d.negative, d.mantissa * 2, d.exponent - 1⟩ steps
    else d

def Dyadic.toFloat (d : Dyadic) : Float :=
  let n := d.normalize 2200
  let sign := if n.negative then Nat.pow 2 63 else 0
  let bits :=
    if n.mantissa = 0 then 0
    else if n.mantissa < Nat.pow 2 52 then n.mantissa
    else (n.exponent + 1075).toNat * Nat.pow 2 52 + (n.mantissa - Nat.pow 2 52)
  Float.ofBits (UInt64.ofNat (sign + bits))

def Dyadic.split (d : Dyadic) : Nat × Nat × Nat :=
  if 0 ≤ d.exponent then (d.mantissa * Nat.pow 2 d.exponent.toNat, 0, 1)
  else
    let divisor := Nat.pow 2 (-d.exponent).toNat
    (d.mantissa / divisor, d.mantissa % divisor, divisor)

def Dyadic.signed (d : Dyadic) (magnitude : Nat) : Int :=
  if d.negative then -(magnitude : Int) else magnitude

def isWhole (x : Float) : Bool :=
  match classify x with
  | .finite d => d.split.2.1 == 0
  | _ => false

def isFinite (x : Float) : Bool :=
  match classify x with
  | .finite _ => true
  | _ => false

def truncate (x : Float) : Int :=
  match classify x with
  | .finite d => d.signed d.split.1
  | _ => 0

/-- The nearest whole number; a half goes away from zero. -/
def round (x : Float) : Float :=
  match classify x with
  | .finite d =>
    let (whole, rest, divisor) := d.split
    Dyadic.toFloat ⟨d.negative, if divisor ≤ 2 * rest then whole + 1 else whole, 0⟩
  | _ => x

def remainder (x : Float) (divisor : Nat) : Float :=
  match classify x with
  | .finite d =>
    if 0 ≤ d.exponent then
      Dyadic.toFloat ⟨d.negative, d.mantissa * Nat.pow 2 d.exponent.toNat % divisor, 0⟩
    else
      let scaled := divisor * Nat.pow 2 (-d.exponent).toNat
      Dyadic.toFloat ⟨d.negative, d.mantissa % scaled, d.exponent⟩
  | _ => 0.0 / 0.0

def cyclic (x : Float) (divisor : Nat) : Float :=
  let r := remainder x divisor
  if r < 0.0 then r + divisor.toFloat else r

def abs (x : Float) : Float := if x < 0.0 then -x else if x == 0.0 then 0.0 else x

end ViewForge.Number
