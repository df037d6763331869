/-
  What a parse of one file yields.

  * `ParseResult`: the symbols found, and how long it took;
  * `ParserError`: why a file could not be parsed, with its wording.
-/
import SourceIndex.Symbol

namespace SourceIndex

/-- The symbols that a parse found in one revision of a file. -/
structure ParseResult where
  symbols : List Symbol
  parseTimeMs : Nat
  deriving DecidableEq, Inhabited

/-- Why a parser rejected a file. -/
inductive ParserError where
  /-- no parser knows files with this extension -/
  | unsupported (path extension : String)
  /-- the text of the file is not well formed -/
  | malformed (path message : String)
  /-- any other reason -/
  | other (message : String)
  deriving DecidableEq, Inhabited

/-- The wording of a parser's rejection. -/
def ParserError.message : ParserError → String
  | unsupported path extension => s!"No parser registered for extension '{extension}' ({path})"
  | malformed path message => s!"Syntax error in {path}: {message}"
  | other message => message

end SourceIndex
