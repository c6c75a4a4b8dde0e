import ViewForge.Number.Dyadic
import ViewForge.Text.Basic
/-! Numbers as decimal text: the fewest digits that read back as the same double, always written
positionally, and the reader for decimal texts. -/
namespace ViewForge.Number

/-- The number `0.d₁d₂… * 10 ^ point`. -/
structure Decimal where
  digits : List Char
  point : Int
  deriving DecidableEq, Repr

structure Fraction where
  numerator : Nat
  denominator : Nat
  deriving DecidableEq, Repr

def Fraction.ofDyadic (mantissa : Nat) (exponent : Int) : Fraction :=
  if 0 ≤ exponent then ⟨mantissa * Nat.pow 2 exponent.toNat, 1⟩
  else ⟨mantissa, Nat.pow 2 (-exponent).toNat⟩

def Fraction.scale (f : Fraction) (tens : Int) : Fraction :=
  if 0 ≤ tens then ⟨f.numerator * Nat.pow 10 tens.toNat, f.denominator⟩
  else ⟨f.numerator, f.denominator * Nat.pow 10 (-tens).toNat⟩

def Fraction.le (a b : Fraction) : Bool := a.numerator * b.denominator ≤ b.numerator * a.denominator

def Fraction.lt (a b : Fraction) : Bool := a.numerator * b.denominator < b.numerator * a.denominator

def digitCount (n : Nat) : Nat := (Nat.toDigits 10 n).length

def leadingZeros (f : Fraction) : Nat → Nat
  | 0 => 0
  | steps + 1 =>
    let next := f.scale 1
    if next.denominator ≤ next.numerator then 0 else leadingZeros next steps + 1

/-- The place of the decimal point: the fraction lies below `10 ^ point` and not a power lower. -/
def pointOf (f : Fraction) : Int :=
  let whole := f.numerator / f.denominator
  if whole = 0 then -(leadingZeros f 400 : Nat) else digitCount whole

/-- The reals that round to one double; the ends belong to it when its mantissa is even. -/
structure Interval where
  low : Fraction
  high : Fraction
  closed : Bool
  deriving DecidableEq, Repr

def Interval.holds (i : Interval) (f : Fraction) : Bool :=
  if i.closed then i.low.le f && f.le i.high else i.low.lt f && f.lt i.high

def roundingInterval (mantissa : Nat) (exponent : Int) : Interval :=
  let low :=
    if mantissa = Nat.pow 2 52 ∧ -1074 < exponent then
      Fraction.ofDyadic (4 * mantissa - 1) (exponent - 2)
    else Fraction.ofDyadic (2 * mantissa - 1) (exponent - 1)
  ⟨low, Fraction.ofDyadic (2 * mantissa + 1) (exponent - 1), mantissa % 2 == 0⟩

def decimalOf (n : Nat) (tens : Int) : Decimal :=
  let digits := Nat.toDigits 10 n
  ⟨(digits.reverse.dropWhile (· == '0')).reverse, digits.length + tens⟩

/-- The value's two neighbours on the grid of `count` digits, tried against the interval: the only
hit wins, of two the nearer, and the upper one when they are equally near. -/
def onGrid (value : Fraction) (interval : Interval) (point : Int) (count : Nat) : Option Decimal :=
  let tens : Int := point - count
  let scaled := value.scale (-tens)
  let below := scaled.numerator / scaled.denominator
  let rest := scaled.numerator % scaled.denominator
  let hits := fun n : Nat => interval.holds (Fraction.scale ⟨n, 1⟩ tens)
  match decide (0 < below) && hits below, hits (below + 1) with
  | true, true => some (decimalOf (if scaled.denominator ≤ 2 * rest then below + 1 else below) tens)
  | true, false => some (decimalOf below tens)
  | false, true => some (decimalOf (below + 1) tens)
  | false, false => none

/-- The fewest digits that lie in the rounding interval; seventeen always do. -/
def shortest (mantissa : Nat) (exponent : Int) : Decimal :=
  let value := Fraction.ofDyadic mantissa exponent
  let interval := roundingInterval mantissa exponent
  let point := pointOf value
  ((List.range 17).findSome? fun i => onGrid value interval point (i + 1)).getD ⟨['0'], 1⟩

def zeros (n : Nat) : List Char := List.replicate n '0'

def Decimal.positional (d : Decimal) : List Char :=
  if d.point ≤ 0 then ['0', '.'] ++ zeros (-d.point).toNat ++ d.digits
  else
    let whole := d.point.toNat
    if d.digits.length ≤ whole then d.digits ++ zeros (whole - d.digits.length)
    else d.digits.take whole ++ ['.'] ++ d.digits.drop whole

def text (x : Float) : String :=
  match classify x with
  | .notANumber => "NaN"
  | .infinite negative => if negative then "-inf" else "inf"
  | .finite d =>
    let magnitude :=
      if d.mantissa = 0 then "0" else String.ofList (shortest d.mantissa d.exponent).positional
    if d.negative then "-" ++ magnitude else magnitude

def literal (x : Float) : String :=
  if isWhole x && abs x < 1e15 then toString (truncate x) else text x

def digitValue (c : Char) : Nat := c.toNat - '0'.toNat

def natOfDigits (digits : List Char) : Nat := digits.foldl (fun n c => n * 10 + digitValue c) 0

/-- The double nearest to `mantissa * 10 ^ tens`. Beyond four hundred places the answer is zero or
infinity whatever the digits are. -/
def nearest (mantissa : Nat) (tens : Int) : Float :=
  let point := digitCount mantissa + tens
  if mantissa = 0 ∨ point < -400 then 0.0
  else if 400 < point then 1.0 / 0.0
  else if 0 ≤ tens then Float.ofScientific mantissa false tens.toNat
  else Float.ofScientific mantissa true (-tens).toNat

def sign? : List Char → Bool × List Char
  | '-' :: rest => (true, rest)
  | '+' :: rest => (false, rest)
  | cs => (false, cs)

def exponent? : List Char → Option Int
  | [] => some 0
  | mark :: rest =>
    let (negative, digits) := sign? rest
    if (mark == 'e' || mark == 'E') && !digits.isEmpty && digits.all Text.isAsciiDigit then
      some (if negative then -(natOfDigits digits : Int) else natOfDigits digits)
    else none

def unsigned? (cs : List Char) : Option Float :=
  let whole := cs.takeWhile Text.isAsciiDigit
  let rest := cs.dropWhile Text.isAsciiDigit
  let (fraction, tail) := match rest with
    | '.' :: more => (more.takeWhile Text.isAsciiDigit, more.dropWhile Text.isAsciiDigit)
    | _ => ([], rest)
  if whole.isEmpty && fraction.isEmpty then none
  else (exponent? tail).map fun e => nearest (natOfDigits (whole ++ fraction)) (e - fraction.length)

/-- Reads a decimal number: an optional sign, digits with an optional point, an optional exponent;
or an infinity or not-a-number by its English name, in any case. -/
def read? (s : String) : Option Float :=
  let (negative, body) := sign? s.toList
  let magnitude := match String.ofList (body.map Char.toLower) with
    | "inf" => some (1.0 / 0.0)
    | "infinity" => some (1.0 / 0.0)
    | "nan" => some (0.0 / 0.0)
    | _ => unsigned? body
  magnitude.map fun x => if negative then -x else x

def readNat? (s : String) : Option Nat :=
  let digits := match s.toList with
    | '+' :: rest => rest
    | cs => cs
  if digits.isEmpty || !digits.all Text.isAsciiDigit then none else some (natOfDigits digits)

def readInt? (s : String) : Option Int :=
  let (negative, digits) := sign? s.toList
  if digits.isEmpty || !digits.all Text.isAsciiDigit then none
  else
    let n : Int := if negative then -(natOfDigits digits : Int) else natOfDigits digits
    if -9223372036854775808 ≤ n && n < 9223372036854775808 then some n else none

end ViewForge.Number
