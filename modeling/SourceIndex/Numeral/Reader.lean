/-
  Numbers read from text.

  * `digitsValue`: a run of digits as a number;
  * `unsigned?`: a whole number with an optional plus sign, up to a limit;
  * `Decimal.ofChars?`: a number with an optional sign, point and exponent;
  * `float?`: such a number, an infinity or a NaN, as a double.
-/
import SourceIndex.Numeral.Binary64

namespace SourceIndex.Numeral

/-- The value of a digit in bases up to 16. -/
def digitValue? (c : Char) : Option Nat :=
  if c.isDigit then some (c.toNat - '0'.toNat)
  else if 'a' ≤ c ∧ c ≤ 'f' then some (c.toNat - 'a'.toNat + 10)
  else if 'A' ≤ c ∧ c ≤ 'F' then some (c.toNat - 'A'.toNat + 10)
  else none

/-- The value of a run of digits in a base; a character that is no digit counts
    as zero. -/
def digitsValue (base : Nat) (cs : List Char) : Nat :=
  cs.foldl (fun n c => n * base + (digitValue? c).getD 0) 0

/-- The largest number that fits in 64 bits. -/
def max64 : Nat := 18446744073709551615

/-- The largest number that fits in 32 bits. -/
def max32 : Nat := 4294967295

/-- A whole number with an optional plus sign, up to `limit`. -/
def unsigned? (limit : Nat) (text : String) : Option Nat :=
  let cs := match text.toList with
    | '+' :: rest => rest
    | cs => cs
  let value := digitsValue 10 cs
  if !cs.isEmpty && cs.all Char.isDigit && value ≤ limit then some value else none

/-- A sign in front of the characters, if there is one. -/
def takeSign : List Char → Bool × List Char
  | '-' :: rest => (true, rest)
  | '+' :: rest => (false, rest)
  | cs => (false, cs)

/-- The exponent that ends a number: nothing, or `e` and a signed whole number. -/
def exponent? : List Char → Option Int
  | [] => some 0
  | c :: rest =>
    if c = 'e' ∨ c = 'E' then
      let (negative, ds) := takeSign rest
      if !ds.isEmpty && ds.all Char.isDigit then
        let value : Int := digitsValue 10 ds
        some (if negative then -value else value)
      else none
    else none

/-- A number with an optional sign, point and exponent.  At least one digit
    stands before the exponent. -/
def Decimal.ofChars? (text : List Char) : Option Decimal :=
  let (negative, cs) := takeSign text
  let whole := cs.takeWhile Char.isDigit
  let rest := cs.dropWhile Char.isDigit
  let (places, rest) := match rest with
    | '.' :: after => (after.takeWhile Char.isDigit, after.dropWhile Char.isDigit)
    | _ => ([], rest)
  if whole.isEmpty && places.isEmpty then none
  else (exponent? rest).map fun e => ⟨negative, digitsValue 10 (whole ++ places), e - places.length⟩

/-- A number, an infinity or a NaN as a double.  The words may be in any letter
    case and may have a sign. -/
def float? (text : String) : Option Float :=
  match Decimal.ofChars? text.toList with
  | some d => some d.toFloat
  | none =>
    let (negative, cs) := takeSign text.toList
    let word := String.ofList (cs.map Char.toLower)
    if word = "inf" ∨ word = "infinity" then
      some (Float.ofBits (UInt64.ofNat (infinityBits + if negative then twoTo 63 else 0)))
    else if word = "nan" then some (Float.ofBits (UInt64.ofNat (infinityBits + twoTo 51)))
    else none

end SourceIndex.Numeral
