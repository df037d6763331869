/-
  Numbers of a document.

  Digits may be grouped by underscores, each between two digits.  Whole numbers
  are written in base 10, or without a sign in base 16, 8 or 2; they fit in 128
  bits.  A double has a point or an exponent, and is not too large.
-/
import SourceIndex.Datum

namespace SourceIndex.Toml

/-- The digits of a run, without the underscores between them. -/
def digits? (isDigit : Char → Bool) : List Char → Option (List Char)
  | [] => none
  | [c] => if isDigit c then some [c] else none
  | c :: '_' :: rest => if isDigit c then (digits? isDigit rest).map (c :: ·) else none
  | c :: rest => if isDigit c then (digits? isDigit rest).map (c :: ·) else none

/-- Is a character a digit in a base? -/
def isDigitIn (base : Nat) (c : Char) : Bool :=
  match Numeral.digitValue? c with
  | some n => n < base
  | none => false

/-- The digits of a run in base 10 without needless zeros. -/
def whole? (cs : List Char) : Option (List Char) :=
  match digits? Char.isDigit cs with
  | some ('0' :: _ :: _) => none
  | ds => ds

/-- A whole number, if it fits in 128 bits. -/
def fitting? (n : Int) : Option Int :=
  if -(Numeral.twoTo 127 : Int) ≤ n ∧ n < Numeral.twoTo 128 then some n else none

/-- A whole number. -/
def integer? (cs : List Char) : Option Int :=
  let inBase := fun base ds =>
    (digits? (isDigitIn base) ds).bind fun ds => fitting? (Numeral.digitsValue base ds)
  match cs with
  | '0' :: 'x' :: ds => inBase 16 ds
  | '0' :: 'o' :: ds => inBase 8 ds
  | '0' :: 'b' :: ds => inBase 2 ds
  | _ =>
    let (negative, ds) := Numeral.takeSign cs
    (whole? ds).bind fun ds =>
      let size : Int := Numeral.digitsValue 10 ds
      fitting? (if negative then -size else size)

/-- The digits after the point, if there is one, and the rest. -/
def places? : List Char → Option (List Char × List Char)
  | '.' :: rest =>
    let run := fun c => c.isDigit || c = '_'
    (digits? Char.isDigit (rest.takeWhile run)).map fun ds => (ds, rest.dropWhile run)
  | cs => some ([], cs)

/-- The exponent, if there is one. -/
def power? : List Char → Option Int
  | [] => some 0
  | c :: rest =>
    if c = 'e' ∨ c = 'E' then
      let (negative, ds) := Numeral.takeSign rest
      (digits? Char.isDigit ds).map fun ds =>
        let size : Int := Numeral.digitsValue 10 ds
        if negative then -size else size
    else none

/-- A double, with a point or an exponent.  One that is too large is no number. -/
def real? (cs : List Char) : Option Float := do
  let (negative, rest) := Numeral.takeSign cs
  let run := fun c => c.isDigit || c = '_'
  if rest = ['i', 'n', 'f'] then Numeral.float? (if negative then "-inf" else "inf")
  else if rest = ['n', 'a', 'n'] then Numeral.float? "nan"
  else if rest.all run then none
  else
    let whole ← whole? (rest.takeWhile run)
    let (places, rest) ← places? (rest.dropWhile run)
    let power ← power? rest
    let decimal : Numeral.Decimal :=
      ⟨negative, Numeral.digitsValue 10 (whole ++ places), power - places.length⟩
    if decimal.magnitudeBits = Numeral.infinityBits then none else some decimal.toFloat

/-- A number. -/
def number? (cs : List Char) : Option Datum :=
  match integer? cs with
  | some n => some (.int n)
  | none => (real? cs).map .real

end SourceIndex.Toml
