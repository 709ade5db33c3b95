/-!
# The shortest decimal

The text of a floating-point number is the shortest decimal that reads back as it. A number
`m * 2 ^ q` is what all reals in an interval around it round to; the ends belong to the
interval when `m` is even. For one digit, two digits, and so on, `shortest` asks whether one of
the two neighbours of the number on that decimal grid lies in the interval, and takes the first
grid on which one does, of two the nearer, of two equally near the even one.
-/

namespace CellCode.Decimal

-- Powers are those of the standard library, whatever else is in scope.
attribute [local instance (high)] instPowNat

/-- A fraction of natural numbers. -/
structure Fraction where
  num : Nat
  den : Nat

namespace Fraction

/-- The fraction `m * base ^ e`. -/
def scaled (m base : Nat) (e : Int) : Fraction :=
  if 0 ≤ e then ⟨m * base ^ e.toNat, 1⟩ else ⟨m, base ^ e.natAbs⟩

/-- Whether one fraction is less than another. -/
def lt (a b : Fraction) : Bool := a.num * b.den < b.num * a.den

/-- Whether one fraction is at most another. -/
def le (a b : Fraction) : Bool := a.num * b.den ≤ b.num * a.den

/-- How often one fraction goes into another. -/
def floorDiv (a b : Fraction) : Nat := (a.num * b.den) / (a.den * b.num)

/-- How the number stands to the middle of `low` and `high`. -/
def compareMiddle (a low high : Fraction) : Ordering :=
  -- twice the number against the sum of both
  compare (2 * a.num * low.den * high.den) ((low.num * high.den + high.num * low.den) * a.den)

end Fraction

/-- The bits of a floating-point number that hold its fraction. -/
def fractionBits : Nat := 52

/-- The bits of a floating-point number that hold its exponent. -/
def exponentBits : Nat := 11

/-- A finite binary number that is not zero, with the interval that rounds to it. -/
structure Binary where
  value : Fraction
  low : Fraction
  high : Fraction
  /-- Whether the ends of the interval round to the number too. -/
  closed : Bool

/-- The number `m * 2 ^ q`. The gap below a power of two is half as wide, unless the number is
    among the smallest. -/
def Binary.of (m : Nat) (q : Int) (smallest : Bool) : Binary :=
  let below := if m = 2 ^ fractionBits ∧ !smallest then 1 else 2
  { value := .scaled m 2 q
    low := .scaled (4 * m - below) 2 (q - 2)
    high := .scaled (4 * m + 2) 2 (q - 2)
    closed := m % 2 = 0 }

/-- Whether a decimal rounds to the number. -/
def Binary.contains (b : Binary) (x : Fraction) : Bool :=
  if b.closed then b.low.le x && x.le b.high else b.low.lt x && x.lt b.high

/-- The least `k` from `start` on, among `fuel` of them, with `1 ≤ x * 10 ^ k`. -/
def leastShift (x : Fraction) (start : Nat) : (fuel : Nat) → Nat
  | 0 => start
  | fuel + 1 => if x.den ≤ x.num * 10 ^ start then start else leastShift x (start + 1) fuel

/-- The exponent of the first decimal digit. -/
def leadingExponent (x : Fraction) : Int :=
  if x.den ≤ x.num then (Nat.toDigits 10 (x.num / x.den)).length - 1
  else -(leastShift x 1 400 : Int)

/-- The neighbour of the number on the grid of multiples of `10 ^ k`, if one rounds to it. -/
def onGrid? (b : Binary) (k : Int) : Option Nat :=
  let d := b.value.floorDiv (.scaled 1 10 k)
  let low := Fraction.scaled d 10 k
  let high := Fraction.scaled (d + 1) 10 k
  match b.contains low, b.contains high with
  | true, true =>
    match b.value.compareMiddle low high with
    | .lt => some d
    | .gt => some (d + 1)
    | .eq => some (if d % 2 = 0 then d else d + 1)
  | true, false => some d
  | false, true => some (d + 1)
  | false, false => none

/-- Digits and exponent of the shortest decimal, tried from `count` digits on. -/
def shortestFrom (b : Binary) (lead : Int) (count : Nat) : (fuel : Nat) → Nat × Int
  | 0 => (b.value.floorDiv (.scaled 1 10 (lead - 16)), lead - 16)
  | fuel + 1 =>
    let k := lead - count + 1
    match onGrid? b k with
    | some d => (d, k)
    | none => shortestFrom b lead (count + 1) fuel

/-- The shortest decimal `d * 10 ^ k` that rounds to the number. -/
def shortest (b : Binary) : Nat × Int := shortestFrom b (leadingExponent b.value) 1 17

/-! ## Notation -/

/-- Digits without the zeros at their end. -/
def dropTrailingZeros (digits : List Char) : List Char :=
  (digits.reverse.dropWhile (· == '0')).reverse

/-- An exponent with its sign and at least two digits. -/
def exponentText (e : Int) : String :=
  let digits := toString e.natAbs
  (if e < 0 then "-" else "+") ++ (if digits.length < 2 then "0" ++ digits else digits)

/-- Numbers from `10 ^ -4` up to `10 ^ 16` are written with a point and at least one digit
    behind it, others with an exponent. -/
def numeral (d : Nat) (k : Int) : String :=
  let all := Nat.toDigits 10 d
  let digits := dropTrailingZeros all
  let point := k + all.length
  let text (cs : List Char) : String := String.ofList cs
  if -4 < point ∧ point ≤ 16 then
    if point ≤ 0 then "0." ++ text (List.replicate point.natAbs '0' ++ digits)
    else
      let p := point.toNat
      if digits.length ≤ p then text (digits ++ List.replicate (p - digits.length) '0') ++ ".0"
      else text (digits.take p) ++ "." ++ text (digits.drop p)
  else
    let mantissa := match digits with
      | [] => "0"
      | [c] => text [c]
      | c :: rest => text (c :: '.' :: rest)
    mantissa ++ "e" ++ exponentText (point - 1)

/-- The shortest text of a floating-point number. -/
def text (x : Float) : String :=
  let bits := x.toBits.toNat
  let fraction := bits % 2 ^ fractionBits
  let exponent : Nat := bits / 2 ^ fractionBits % 2 ^ exponentBits
  let sign := if bits / 2 ^ (fractionBits + exponentBits) = 1 then "-" else ""
  if exponent = 2 ^ exponentBits - 1 then if fraction = 0 then sign ++ "inf" else "nan"
  else if exponent = 0 ∧ fraction = 0 then sign ++ "0.0"
  else
    let b := if exponent = 0 then Binary.of fraction (-1074) true
      else Binary.of (2 ^ fractionBits + fraction) ((exponent : Int) - 1075) (exponent = 1)
    let (d, k) := shortest b
    sign ++ numeral d k

end CellCode.Decimal
