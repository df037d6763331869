/-
  Texts in quotes.

  Double quotes hold a text with escapes, single quotes one that is taken as it
  is.  Three quotes open a text of many lines, whose first line break does not
  count.  No control character but the tab may stand in a text.

  * `basic`, `literal`: the texts of one line, after their opening quote;
  * `multiBasic`, `multiLiteral`: the texts of many lines, after their opening
    quotes.
-/
import SourceIndex.Numeral.Reader

namespace SourceIndex.Toml

/-- A reader takes what it reads from the front of the characters. -/
abbrev Reader (α : Type) := List Char → Option (α × List Char)

/-- Blank space within a line. -/
def isBlank (c : Char) : Bool := c = ' ' || c = '\t'

/-- Characters that may stand in a text or a comment as they are. -/
def isPlain (c : Char) : Bool := c = '\t' || (' ' ≤ c && c ≠ '\x7f')

/-- The character with a number in base 16, if there is one. -/
def codePoint? (digits : List Char) : Option Char :=
  let n := Numeral.digitsValue 16 digits
  if digits.all (fun c => (Numeral.digitValue? c).isSome) && n.isValidChar then some (Char.ofNat n)
  else none

/-- The character that an escape stands for, and the number of characters that it
    takes after the backslash. -/
def escape? : List Char → Option (Char × Nat)
  | 'b' :: _ => some ('\x08', 1)
  | 't' :: _ => some ('\t', 1)
  | 'n' :: _ => some ('\n', 1)
  | 'f' :: _ => some ('\x0c', 1)
  | 'r' :: _ => some ('\r', 1)
  | '"' :: _ => some ('"', 1)
  | '\\' :: _ => some ('\\', 1)
  | 'u' :: rest =>
    if rest.length < 4 then none else (codePoint? (rest.take 4)).map fun c => (c, 5)
  | 'U' :: rest =>
    if rest.length < 8 then none else (codePoint? (rest.take 8)).map fun c => (c, 9)
  | _ => none

/-- A character more in front of a text. -/
def before (c : Char) (r : List Char × List Char) : List Char × List Char :=
  (c :: r.1, r.2)

/-- A text of one line with escapes, where the first `skip` characters are the
    rest of an escape. -/
def basicFrom (skip : Nat) : Reader (List Char)
  | [] => none
  | c :: rest =>
    match skip with
    | n + 1 => basicFrom n rest
    | 0 =>
      if c = '"' then some ([], rest)
      else if c = '\\' then
        match escape? rest with
        | some (e, n) => (basicFrom n rest).map (before e)
        | none => none
      else if isPlain c then (basicFrom 0 rest).map (before c)
      else none

/-- A text of one line with escapes. -/
def basic : Reader (List Char) := basicFrom 0

/-- A text of one line without escapes. -/
def literal : Reader (List Char) := fun cs =>
  let body := cs.takeWhile (· ≠ '\'')
  match cs.dropWhile (· ≠ '\'') with
  | _ :: rest => if body.all isPlain then some (body, rest) else none
  | [] => none

/-- Three quotes that end a text of many lines.  Up to two more quotes before them
    belong to the text. -/
def closing? (quote : Char) : Reader (List Char)
  | a :: b :: c :: rest =>
    if a = quote ∧ b = quote ∧ c = quote then
      let extra := (rest.takeWhile (· = quote)).take 2
      some (extra, rest.drop extra.length)
    else none
  | _ => none

/-- Do the characters begin with a line break? -/
def startsLine : List Char → Bool
  | '\n' :: _ => true
  | '\r' :: '\n' :: _ => true
  | _ => false

/-- A text of many lines with escapes, where the first `skip` characters are the
    rest of an escape.  A backslash at the end of a line takes all blank space and
    line breaks after it away; `trim` says that this is going on. -/
def multiBasicFrom (skip : Nat) (trim : Bool) : Reader (List Char)
  | [] => none
  | c :: rest =>
    match skip with
    | n + 1 => multiBasicFrom n false rest
    | 0 =>
      if c = '"' then
        match closing? '"' (c :: rest) with
        | some found => some found
        | none => (multiBasicFrom 0 false rest).map (before c)
      else if c = '\\' then
        if startsLine (rest.dropWhile isBlank) then multiBasicFrom 0 true rest
        else
          match escape? rest with
          | some (e, n) => (multiBasicFrom n false rest).map (before e)
          | none => none
      else if c = '\r' then
        if startsLine (c :: rest) then multiBasicFrom 0 trim rest else none
      else if trim && (isBlank c || c = '\n') then multiBasicFrom 0 true rest
      else if isPlain c || c = '\n' then (multiBasicFrom 0 false rest).map (before c)
      else none

/-- A text of many lines without escapes. -/
def multiLiteralBody : Reader (List Char)
  | [] => none
  | c :: rest =>
    if c = '\'' then
      match closing? '\'' (c :: rest) with
      | some found => some found
      | none => (multiLiteralBody rest).map (before c)
    else if c = '\r' then
      if startsLine (c :: rest) then multiLiteralBody rest else none
    else if isPlain c || c = '\n' then (multiLiteralBody rest).map (before c)
    else none

/-- The characters without a line break in front. -/
def dropLineBreak : List Char → List Char
  | '\n' :: rest => rest
  | '\r' :: '\n' :: rest => rest
  | cs => cs

/-- A text of many lines with escapes. -/
def multiBasic : Reader (List Char) := fun cs => multiBasicFrom 0 false (dropLineBreak cs)

/-- A text of many lines without escapes. -/
def multiLiteral : Reader (List Char) := fun cs => multiLiteralBody (dropLineBreak cs)

/-- A text in quotes of any kind. -/
def quoted : Reader String := fun cs =>
  let read := match cs with
    | '"' :: '"' :: '"' :: rest => multiBasic rest
    | '"' :: rest => basic rest
    | '\'' :: '\'' :: '\'' :: rest => multiLiteral rest
    | '\'' :: rest => literal rest
    | _ => none
  read.map fun r => (String.ofList r.1, r.2)

end SourceIndex.Toml
