/-
  The rows of the store: files, symbols and chunks.

  * `FileRecord`, `StoredChunk` (and `SymbolRecord`): the rows;
  * `Rows`: all rows, the paths of the files, and the numbers handed out last;
  * `Rows.file?`, `Rows.symbolsOf`, `Rows.chunksOf`: what is stored for a path or
    a file;
  * `Rows.upsertFile`, `Rows.insertSymbols`, …: the changes to rows.
-/
import SourceIndex.Chunk
import SourceIndex.Diff
import SourceIndex.Table

namespace SourceIndex

/-- The number of a stored chunk, counted from 1. -/
abbrev ChunkId := Nat

/-- A stored file. -/
structure FileRecord where
  id : FileId
  path : String
  content : String
  contentHash : ContentHash
  deriving DecidableEq, Inhabited

/-- A stored chunk and the stored symbol it belongs to, if any. -/
structure StoredChunk where
  id : ChunkId
  fileId : FileId
  symbolId : Option SymbolId
  chunk : Chunk
  deriving DecidableEq, Inhabited

/-- All rows of a store.  A number that was handed out is never handed out again
    in the same history. -/
structure Rows where
  files : Table FileId FileRecord := {}
  paths : Table String FileId := {}
  symbols : Table SymbolId SymbolRecord := {}
  chunks : Table ChunkId StoredChunk := {}
  lastFile : FileId := 0
  lastSymbol : SymbolId := 0
  lastChunk : ChunkId := 0
  deriving DecidableEq, Inhabited

namespace Rows

/-! ## What is stored -/

/-- The file stored for a path. -/
def file? (rows : Rows) (path : String) : Option FileRecord :=
  (rows.paths.get? path).bind rows.files.get?

/-- Stored symbols are listed by first line, first column and number. -/
def symbolBefore (a b : SymbolRecord) : Bool :=
  if a.symbol.startLine ≠ b.symbol.startLine then a.symbol.startLine < b.symbol.startLine
  else if a.symbol.startColumn ≠ b.symbol.startColumn then
    a.symbol.startColumn < b.symbol.startColumn
  else a.id ≤ b.id

/-- The records, which are in order, with one more in its place. -/
def placeSymbol (r : SymbolRecord) : List SymbolRecord → List SymbolRecord
  | [] => [r]
  | x :: xs => if symbolBefore r x then r :: x :: xs else x :: placeSymbol r xs

/-- The symbols stored for a file. -/
def symbolsOf (rows : Rows) (file : FileId) : List SymbolRecord :=
  (rows.symbols.values.filter (·.fileId = file)).foldr placeSymbol []

/-- The chunks stored for a file, by number. -/
def chunksOf (rows : Rows) (file : FileId) : List StoredChunk :=
  rows.chunks.values.filter (·.fileId = file)

/-- The symbols stored for a path. -/
def symbolsAt (rows : Rows) (path : String) : List SymbolRecord :=
  match rows.paths.get? path with
  | some file => rows.symbolsOf file
  | none => []

/-- The chunks stored for a path. -/
def chunksAt (rows : Rows) (path : String) : List StoredChunk :=
  match rows.paths.get? path with
  | some file => rows.chunksOf file
  | none => []

/-! ## Changes -/

/-- Store a content for a path; the number of the file.  A path that is stored
    keeps its number. -/
def upsertFile (rows : Rows) (path content : String) : FileId × Rows :=
  let record := fun id => FileRecord.mk id path content (ContentHash.ofText content)
  match rows.paths.get? path with
  | some id => (id, { rows with files := rows.files.put id (record id) })
  | none =>
    let id := rows.lastFile + 1
    (id,
      { rows with
        files := rows.files.put id (record id)
        paths := rows.paths.put path id
        lastFile := id })

/-- Store a symbol for a file. -/
def insertSymbol (rows : Rows) (file : FileId) (symbol : Symbol) : Rows :=
  let id := rows.lastSymbol + 1
  { rows with symbols := rows.symbols.put id ⟨id, file, symbol⟩, lastSymbol := id }

/-- Store symbols for a file; their numbers. -/
def insertSymbols (rows : Rows) (file : FileId) (symbols : List Symbol) : List SymbolId × Rows :=
  ((List.range symbols.length).map (rows.lastSymbol + 1 + ·),
    symbols.foldl (insertSymbol · file) rows)

/-- Store a chunk for a file and a symbol. -/
def insertChunk (rows : Rows) (file : FileId) (chunk : Chunk) (owner : Option SymbolId) : Rows :=
  let id := rows.lastChunk + 1
  { rows with chunks := rows.chunks.put id ⟨id, file, owner, chunk⟩, lastChunk := id }

/-- Store chunks for a file, each with its symbol. -/
def insertChunks (rows : Rows) (file : FileId) (owned : List (Chunk × Option SymbolId)) : Rows :=
  owned.foldl (fun rows entry => rows.insertChunk file entry.1 entry.2) rows

/-- Drop a symbol. -/
def deleteSymbol (rows : Rows) (symbol : SymbolId) : Rows :=
  { rows with symbols := rows.symbols.erase symbol }

/-- Drop the chunks of a symbol. -/
def deleteChunks (rows : Rows) (symbol : SymbolId) : Rows :=
  { rows with chunks := rows.chunks.keep (·.symbolId ≠ some symbol) }

/-- Drop the symbols and chunks of a file. -/
def deleteContents (rows : Rows) (file : FileId) : Rows :=
  { rows with
    symbols := rows.symbols.keep (·.fileId ≠ file)
    chunks := rows.chunks.keep (·.fileId ≠ file) }

/-- Drop the chunks of a file that belong to no symbol. -/
def deleteFileLevel (rows : Rows) (file : FileId) : Rows :=
  { rows with chunks := rows.chunks.keep fun c => c.fileId ≠ file || c.symbolId.isSome }

end Rows

end SourceIndex
