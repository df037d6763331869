/-
  The shortest decimal that reads back as a given double.

  The reals that round to `m · 2 ^ q` form an interval around it, which holds its
  ends if `m` is even.  Among the decimals with the fewest digits in that
  interval the nearest one is taken, and of two equally near ones the larger.

  * `Interval`: that interval, in quarters of the unit `2 ^ q`;
  * `shortest`: digits and exponent of the decimal.
-/
import SourceIndex.Numeral.Binary64

namespace SourceIndex.Numeral

/-- The reals that round to a double, counted in units of `2 ^ exponent`. -/
structure Interval where
  low : Nat
  value : Nat
  high : Nat
  closed : Bool
  exponent : Int

/-- The interval of `m · 2 ^ q`, for positive `m`, in quarters of `2 ^ q`.  Below
    a power of two the doubles lie twice as close. -/
def Interval.around (m : Nat) (q : Int) : Interval :=
  let low := if m = twoTo 52 ∧ -1074 < q then 4 * m - 1 else 4 * m - 2
  ⟨low, 4 * m, 4 * m + 2, m % 2 == 0, q - 2⟩

/-- The comparison of `a · 10 ^ s` with `b · 2 ^ t`. -/
def compareScaled (a : Nat) (s : Int) (b : Nat) (t : Int) : Ordering :=
  compare (a * tenTo s.toNat * twoTo (-t).toNat) (b * twoTo t.toNat * tenTo (-s).toNat)

/-- Does `digits · 10 ^ s` lie in the interval? -/
def Interval.holds (i : Interval) (digits : Nat) (s : Int) : Bool :=
  let above := compareScaled digits s i.low i.exponent
  let below := compareScaled digits s i.high i.exponent
  (above == .gt || (i.closed && above == .eq)) && (below == .lt || (i.closed && below == .eq))

/-- The largest `c` with `c · 10 ^ s` not above the value. -/
def Interval.floor (i : Interval) (s : Int) : Nat :=
  i.value * twoTo i.exponent.toNat * tenTo (-s).toNat /
    (tenTo s.toNat * twoTo (-i.exponent).toNat)

/-- The point of the grid `10 ^ s` in the interval that is nearest to the value,
    the larger one on a tie. -/
def Interval.onGrid? (i : Interval) (s : Int) : Option Nat :=
  let c := i.floor s
  let lower := i.holds c s
  let upper := i.holds (c + 1) s
  if lower && upper then
    -- the middle of the two points against the value
    if compareScaled (2 * c + 1) s (2 * i.value) i.exponent == .gt then some c else some (c + 1)
  else if lower then some c
  else if upper then some (c + 1)
  else none

/-- The first grid, from `10 ^ s` to ever finer ones, with a point in the
    interval. -/
def Interval.search (i : Interval) : Nat → Int → Nat × Int
  | 0, s => (i.floor s, s)
  | n + 1, s =>
    match i.onGrid? s with
    | some c => (c, s)
    | none => i.search n (s - 1)

/-- The least `n` with the value below `10 ^ n`. -/
def Interval.magnitude (i : Interval) : Int :=
  let guess : Int := (i.exponent + i.value.log2) * 30103 / 100000
  if compareScaled 1 guess i.value i.exponent == .gt then guess
  else if compareScaled 1 (guess + 1) i.value i.exponent == .gt then guess + 1
  else guess + 2

/-- The shortest decimal that reads back as `m · 2 ^ q`, for positive `m`: its
    digits and its exponent.  Seventeen digits always suffice. -/
def shortest (m : Nat) (q : Int) : Nat × Int :=
  let i := Interval.around m q
  i.search 17 (i.magnitude - 1)

end SourceIndex.Numeral
