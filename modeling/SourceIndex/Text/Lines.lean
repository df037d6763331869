/-
  Lines of a text.

  * `lines`: the lines of a text.  A line ends at a line feed, and a carriage
    return just before that line feed belongs to the ending; what follows the
    last line feed is a line if it is not empty;
  * `joinLines`: lines put together with a line feed between them;
  * `slice`: the lines `start, …, stop`, counted from 1.
-/
namespace SourceIndex.Text

/-- A line whose line feed has been found, without a carriage return at its end.
    The characters come last first. -/
def closeLine : List Char → String
  | '\r' :: rest => String.ofList rest.reverse
  | cs => String.ofList cs.reverse

/-- The lines of the characters, after `held` (last first) on the current line. -/
def linesFrom (held : List Char) : List Char → List String
  | [] => if held.isEmpty then [] else [String.ofList held.reverse]
  | c :: cs => if c = '\n' then closeLine held :: linesFrom [] cs else linesFrom (c :: held) cs

/-- The lines of a text. -/
def lines (text : String) : List String :=
  linesFrom [] text.toList

/-- The lines put together, with a line feed between them. -/
def joinLines (ls : List String) : String :=
  String.intercalate "\n" ls

/-- The lines from number `start` to number `stop`, counted from 1. -/
def slice (ls : List String) (start stop : Nat) : List String :=
  (ls.take stop).drop (start - 1)

end SourceIndex.Text
