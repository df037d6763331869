/-
  Dates and times.

  A moment is a date, a time of day, or both with a distance to universal time or
  without one.
-/
import SourceIndex.Numeral.Reader

namespace SourceIndex.Toml

/-- A number of two digits up to a limit. -/
def twoDigits? (least most : Nat) (a b : Char) : Bool :=
  let n := Numeral.digitsValue 10 [a, b]
  a.isDigit && b.isDigit && least ≤ n && n ≤ most

/-- The number of days of a month. -/
def daysOfMonth (year month : Nat) : Nat :=
  if month = 2 then
    if year % 4 = 0 ∧ (year % 100 ≠ 0 ∨ year % 400 = 0) then 29 else 28
  else if month = 4 ∨ month = 6 ∨ month = 9 ∨ month = 11 then 30
  else 31

/-- What follows a date. -/
def afterDate? : List Char → Option (List Char)
  | a :: b :: c :: d :: '-' :: m :: n :: '-' :: x :: y :: rest =>
    let year := Numeral.digitsValue 10 [a, b, c, d]
    let month := Numeral.digitsValue 10 [m, n]
    if [a, b, c, d].all Char.isDigit && twoDigits? 1 12 m n &&
        twoDigits? 1 (daysOfMonth year month) x y then some rest
    else none
  | _ => none

/-- What follows a fraction of a second, if there is one. -/
def afterFraction? : List Char → Option (List Char)
  | '.' :: c :: rest => if c.isDigit then some (rest.dropWhile Char.isDigit) else none
  | '.' :: [] => none
  | cs => some cs

/-- What follows a time of day; a minute may have a leap second. -/
def afterTime? : List Char → Option (List Char)
  | h :: i :: ':' :: m :: n :: ':' :: s :: t :: rest =>
    if twoDigits? 0 23 h i && twoDigits? 0 59 m n && twoDigits? 0 60 s t then afterFraction? rest
    else none
  | _ => none

/-- A distance to universal time, or nothing. -/
def isOffset : List Char → Bool
  | [] => true
  | ['Z'] => true
  | ['z'] => true
  | [sign, h, i, ':', m, n] =>
    (sign = '+' || sign = '-') && twoDigits? 0 23 h i && twoDigits? 0 59 m n
  | _ => false

/-- Is this a moment? -/
def isMoment (cs : List Char) : Bool :=
  match afterDate? cs with
  | some [] => true
  | some (c :: rest) =>
    (c = 'T' || c = 't' || c = ' ') && (afterTime? rest).any isOffset
  | none => afterTime? cs = some []

/-- Is this a date, after which a time may follow behind a space? -/
def isDate (cs : List Char) : Bool :=
  afterDate? cs = some []

end SourceIndex.Toml
