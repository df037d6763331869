/-
  Lower-casing of text.

  * `lowerChar`: the lower-case form of one character, outside any word;
  * `lowerCase`: the lower-case form of a text.  A capital sigma at the end of a
    word becomes the final form, anywhere else the plain one; a dotted capital I
    becomes an i followed by a combining dot; every other character goes by
    itself.
-/
import SourceIndex.Text.Casing.Table

namespace SourceIndex.Text

/-- Does the code point lie in one of the closed ranges? -/
def inRanges (ranges : List (Nat × Nat)) (code : Nat) : Bool :=
  ranges.any fun range => range.1 ≤ code && code ≤ range.2

/-- Is the character upper, lower or title case? -/
def isCased (c : Char) : Bool :=
  inRanges casedRanges c.toNat

/-- Is the character passed over when the place of a letter in its word is judged? -/
def isCaseIgnorable (c : Char) : Bool :=
  inRanges ignorableRanges c.toNat

/-- The run covers the code point. -/
def LowerRun.covers (run : LowerRun) (code : Nat) : Bool :=
  run.first ≤ code && code ≤ run.last && (code - run.first) % run.step == 0

/-- The lower-case form of a character, as far as it does not depend on its
    neighbours. -/
def lowerChar (c : Char) : List Char :=
  if c = 'İ' then ['i', '\u0307']
  else match lowerRuns.find? (·.covers c.toNat) with
    | some run => [Char.ofNat (run.target + (c.toNat - run.first))]
    | none => [c]

/-- Behind the ignorable characters stands a letter with case. -/
def meetsCased (cs : List Char) : Bool :=
  match cs.dropWhile isCaseIgnorable with
  | c :: _ => isCased c
  | [] => false

/-- Lower-case `cs`, where `before` holds the characters in front of it, nearest
    first. -/
def lowerFrom (before : List Char) : List Char → List Char
  | [] => []
  | c :: cs =>
    if c = 'Σ' then
      (if meetsCased before && !meetsCased cs then 'ς' else 'σ') :: lowerFrom (c :: before) cs
    else lowerChar c ++ lowerFrom (c :: before) cs

/-- The lower-case form of a text. -/
def lowerCase (text : String) : String :=
  String.ofList (lowerFrom [] text.toList)

end SourceIndex.Text
