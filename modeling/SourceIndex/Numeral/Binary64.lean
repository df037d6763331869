/-
  Double-precision numbers as exact fractions.

  * `Binary64.ofBits`: the parts of a double: sign, significand `m` and exponent
    `q`, which stand for `m · 2 ^ q`;
  * `nearestBits`: the double nearest to a positive fraction, a tie going to the
    even significand;
  * `Decimal`, `Decimal.toFloat`: a number written in base 10, and the double
    nearest to it.
-/
namespace SourceIndex.Numeral

/-- A power of two. -/
def twoTo (n : Nat) : Nat := Nat.pow 2 n

/-- A power of ten. -/
def tenTo (n : Nat) : Nat := Nat.pow 10 n

/-- What a double stands for. -/
inductive Binary64 where
  | nan
  | infinite (negative : Bool)
  /-- `significand · 2 ^ exponent`, with a sign -/
  | finite (negative : Bool) (significand : Nat) (exponent : Int)

/-- The parts of a double. -/
def Binary64.ofBits (bits : Nat) : Binary64 :=
  let negative : Bool := bits / twoTo 63 == 1
  let biased : Nat := bits / twoTo 52 % twoTo 11
  let fraction : Nat := bits % twoTo 52
  if biased = 2047 then
    if fraction = 0 then .infinite negative else .nan
  else if biased = 0 then .finite negative fraction (-1074)
  else .finite negative (fraction + twoTo 52) ((biased : Int) - 1075)

/-- The parts of a double. -/
def Binary64.ofFloat (x : Float) : Binary64 :=
  ofBits x.toBits.toNat

/-- The quotient rounded to the nearest number, a tie to the even one. -/
def roundDiv (num den : Nat) : Nat :=
  let quotient := num / den
  let rest := num % den
  if den < 2 * rest ∨ (den = 2 * rest ∧ quotient % 2 = 1) then quotient + 1 else quotient

/-- The fraction `num / den` in units of `2 ^ exponent`, rounded. -/
def inUnits (num den : Nat) (exponent : Int) : Nat :=
  roundDiv (num * twoTo (-exponent).toNat) (den * twoTo exponent.toNat)

/-- The bits of positive infinity. -/
def infinityBits : Nat := 2047 * twoTo 52

/-- The bits of the double nearest to `num / den`, for positive `den`.

    The unit of the last place is the power of two that leaves fifty-three bits,
    or the smallest one; with the unit `2 ^ q` and the rounded count `m` of
    units, the bits are `(q + 1074) · 2 ^ 52 + m`, whether `m` has all its bits
    or not. -/
def nearestBits (num den : Nat) : Nat :=
  if num = 0 then 0
  else
    let guess : Int := (num.log2 : Int) - den.log2 - 52
    let wide := num * twoTo (-guess).toNat / (den * twoTo guess.toNat)
    let exponent := max (if wide < twoTo 52 then guess - 1 else guess) (-1074)
    min ((exponent + 1074).toNat * twoTo 52 + inUnits num den exponent) infinityBits

/-- A number in base 10: `digits · 10 ^ exponent`, with a sign. -/
structure Decimal where
  negative : Bool
  digits : Nat
  exponent : Int
  deriving DecidableEq, Inhabited

/-- The number of digits of a number in base 10; zero has none. -/
def digitCount (n : Nat) : Nat :=
  if n = 0 then 0 else (Nat.toDigits 10 n).length

/-- The bits of the double nearest to the size of a decimal.  A decimal far
    outside the range of doubles is not worked out. -/
def Decimal.magnitudeBits (d : Decimal) : Nat :=
  let top := d.exponent + digitCount d.digits
  if d.digits = 0 ∨ top < -400 then 0
  else if 400 < top then infinityBits
  else nearestBits (d.digits * tenTo d.exponent.toNat) (tenTo (-d.exponent).toNat)

/-- The double nearest to a decimal; one that is too large gives an infinity. -/
def Decimal.toFloat (d : Decimal) : Float :=
  Float.ofBits (UInt64.ofNat (d.magnitudeBits + if d.negative then twoTo 63 else 0))

/-- The double nearest to an integer. -/
def ofInt (n : Int) : Float :=
  Decimal.toFloat ⟨n < 0, n.natAbs, 0⟩

end SourceIndex.Numeral
