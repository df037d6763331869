/-
  The text that a symbol covers.

  * `cutSpan`: lines with the head of the first and the tail of the last cut off;
  * `spanText`: the text of a symbol, if its lines lie in the file.
-/
import SourceIndex.Symbol
import SourceIndex.Text.Lines

namespace SourceIndex

/-- The characters of a line from column `start` up to column `stop`. -/
def columns (line : String) (start stop : Nat) : String :=
  String.ofList ((line.toList.drop start).take (stop - start))

/-- The lines, of which the last ends before column `stop`. -/
def cutTail (stop : Nat) : List String → List String
  | [] => []
  | [line] => [columns line 0 stop]
  | line :: rest => line :: cutTail stop rest

/-- The lines, of which the first starts at column `start` and the last ends
    before column `stop`. -/
def cutSpan (start stop : Nat) : List String → List String
  | [] => []
  | [line] => [columns line start stop]
  | line :: rest => String.ofList (line.toList.drop start) :: cutTail stop rest

/-- The text that a symbol covers; nothing if it does not lie in the lines. -/
def spanText (ls : List String) (s : Symbol) : Option String :=
  if s.startLine = 0 ∨ s.endLine < s.startLine ∨ ls.length < s.endLine then none
  else some (Text.joinLines
    (cutSpan s.startColumn s.endColumn (Text.slice ls s.startLine s.endLine)))

end SourceIndex
