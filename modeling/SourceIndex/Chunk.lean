/-
  Chunks: the pieces of a file that are stored for search.

  * `pieces`: a range of lines cut into pieces of bounded length;
  * `Symbol.tile?`: the lines of a file that a symbol covers;
  * `runs`: the maximal runs of marked lines;
  * `chunkFile`: the chunks of a file, first those of each symbol in turn, then
    those of the lines that are not blank and belong to no symbol.
-/
import SourceIndex.Symbol
import SourceIndex.Text.Blank
import SourceIndex.Text.Lines

namespace SourceIndex

/-- A piece of a file.  `symbolIndex` is the place of its symbol in the list that
    was handed to the chunker; a piece without one lies outside every symbol. -/
structure Chunk where
  symbolIndex : Option Nat
  startLine : Nat
  endLine : Nat
  content : String
  deriving DecidableEq, Inhabited

/-- A way to cut a file with given symbols into chunks. -/
abbrev Chunker := String → List Symbol → List Chunk

/-- The lines `start, …, stop` in pieces of `extra + 1` lines, the last one
    possibly shorter. -/
def pieces (extra start stop : Nat) : List (Nat × Nat) :=
  if start ≤ stop then
    (start, min (start + extra) stop) :: pieces extra (min (start + extra) stop + 1) stop
  else []
termination_by stop + 1 - start

/-- The lines that a symbol covers in a file of `total` lines; nothing if it does
    not start in the file.  It covers its first line at least and ends with the
    file at the latest. -/
def Symbol.tile? (total : Nat) (s : Symbol) : Option (Nat × Nat) :=
  if s.startLine = 0 ∨ total < s.startLine then none
  else some (s.startLine, min (max s.endLine s.startLine) total)

/-- The maximal runs of marked lines, as first and last line.  `line` is the
    number of the next line, `start` the first line of the run that is open. -/
def runsFrom (line : Nat) (start : Option Nat) : List Bool → List (Nat × Nat)
  | [] =>
    match start with
    | some first => [(first, line - 1)]
    | none => []
  | true :: marks => runsFrom (line + 1) (some (start.getD line)) marks
  | false :: marks =>
    match start with
    | some first => (first, line - 1) :: runsFrom (line + 1) none marks
    | none => runsFrom (line + 1) none marks

/-- The maximal runs of marked lines, numbered from 1. -/
def runs (marks : List Bool) : List (Nat × Nat) :=
  runsFrom 1 none marks

/-- The chunks of the lines `range`, in pieces of `extra + 1` lines. -/
def chunksOf (ls : List String) (extra : Nat) (owner : Option Nat) (range : Nat × Nat) :
    List Chunk :=
  (pieces extra range.1 range.2).map fun piece =>
    ⟨owner, piece.1, piece.2, Text.joinLines (Text.slice ls piece.1 piece.2)⟩

/-- Is the line, numbered from 1, in one of the ranges? -/
def covered (ranges : List (Nat × Nat)) (line : Nat) : Bool :=
  ranges.any fun range => range.1 ≤ line && line ≤ range.2

/-- For each line, whether it is outside the ranges and not blank. -/
def topLevelMarks (ls : List String) (ranges : List (Nat × Nat)) : List Bool :=
  ls.zipIdx.map fun entry => !covered ranges (entry.2 + 1) && !Text.isBlank entry.1

/-- The chunks of a file, of at most `max 1 maxLines` lines each. -/
def chunkFile (maxLines : Nat) : Chunker := fun content symbols =>
  let ls := Text.lines content
  let extra := maxLines - 1
  let ofSymbol := fun (entry : Symbol × Nat) =>
    match entry.1.tile? ls.length with
    | some range => chunksOf ls extra (some entry.2) range
    | none => []
  let tiles := symbols.filterMap (·.tile? ls.length)
  symbols.zipIdx.flatMap ofSymbol ++
    (runs (topLevelMarks ls tiles)).flatMap (chunksOf ls extra none)

end SourceIndex
