/-
  Doubles as text.

  * `plain`: the shortest digits that read back, written out without an exponent;
  * `withPoint`: the same, where a whole number ends in `.0`.
-/
import SourceIndex.Numeral.Shortest

namespace SourceIndex.Numeral

/-- The number `digits · 10 ^ exponent` written out. -/
def positional (digits : Nat) (exponent : Int) : String :=
  let ds := Nat.toDigits 10 digits
  let places := (-exponent).toNat
  if 0 ≤ exponent then String.ofList (ds ++ List.replicate exponent.toNat '0')
  else
    let all := List.replicate (places + 1 - ds.length) '0' ++ ds
    let fraction := ((all.drop (all.length - places)).reverse.dropWhile (· = '0')).reverse
    let whole := all.take (all.length - places)
    String.ofList (if fraction.isEmpty then whole else whole ++ '.' :: fraction)

/-- A double written out: the fewest digits that read back, no exponent, a minus
    sign also before zero, and words for what is not a number. -/
def plain (x : Float) : String :=
  match Binary64.ofFloat x with
  | .nan => "NaN"
  | .infinite negative => if negative then "-inf" else "inf"
  | .finite negative m q =>
    let sign := if negative then "-" else ""
    let decimal := if m = 0 then (0, 0) else shortest m q
    sign ++ positional decimal.1 decimal.2

/-- A double written out, where a whole number keeps one place. -/
def withPoint (x : Float) : String :=
  let text := plain x
  if text.toList.all fun c => c.isDigit || c = '-' then text ++ ".0" else text

end SourceIndex.Numeral
