/-
  Files that are ready to be written, and how they are written.

  * `Prepared`: a file that was parsed and compared with what is stored;
  * `Prepared.mode`, `Prepared.report`: how it is written, and the report on it;
  * `Prepared.write`: the calls that write it inside a transaction.
-/
import SourceIndex.Coordinator.Report
import SourceIndex.Store.Backend

namespace SourceIndex

/-- What is stored for a path before it is indexed. -/
structure Prior where
  previous : Option FileRecord
  symbols : List SymbolRecord
  deriving DecidableEq, Inhabited

/-- What a difference is taken to. -/
def Prior.revision (p : Prior) : Option (String × List SymbolRecord) :=
  p.previous.map fun file => (file.content, p.symbols)

/-- A file that was parsed and compared with what is stored. -/
structure Prepared where
  path : String
  content : String
  hash : ContentHash
  previous : Option FileRecord
  oldSymbolCount : Nat
  parsed : ParseResult
  diff : Diff
  cacheHit : Bool
  attempts : Nat
  deriving DecidableEq, Inhabited

namespace Prepared

/-- How the file is written. -/
def mode (f : Prepared) : WriteMode :=
  if f.diff.needsFull || f.previous.isNone then .full else .incremental

/-- The report on the file once it is written.  A full write replaces every
    stored row. -/
def report (f : Prepared) (chunksWritten : Nat) : FileReport :=
  let whole := f.mode = .full
  { path := f.path
    mode := f.mode
    cacheHit := f.cacheHit
    parseAttempts := f.attempts
    added := if whole then f.parsed.symbols.length else f.diff.added.length
    removed := if whole then f.oldSymbolCount else f.diff.removed.length
    modified := if whole then 0 else f.diff.modified.length
    unchanged := if whole then 0 else f.diff.unchanged.length
    chunksWritten
    fullReason := f.diff.reason }

/-- The failure to write the file. -/
def writeFailure (f : Prepared) (source : Fault) : IndexError :=
  .storageWriteFailure f.path f.mode source

section
variable {σ τ : Type} (b : Backend σ τ) (chunker : Chunker)

/-- Write symbols and their chunks, with the chunks outside every symbol or
    without; the number of chunks. -/
def writeSymbols (file : FileId) (content : String) (symbols : List Symbol) (topLevel : Bool) :
    Writing σ τ Nat := do
  if symbols.isEmpty && !topLevel then
    return 0
  let ids ← b.insertSymbols file symbols
  let chunks := (chunker content symbols).filter fun c => topLevel || c.symbolIndex.isSome
  let owners := chunks.map fun c => c.symbolIndex.bind fun i => ids[i]?
  b.insertChunks file chunks owners
  return chunks.length

/-- Write the chunks outside every symbol anew; the number of chunks.  They can
    change while every symbol stays as it is. -/
def refreshFileLevel (file : FileId) (content : String) (symbols : List Symbol) :
    Writing σ τ Nat := do
  b.deleteFileLevel file
  let chunks := (chunker content symbols).filter (·.symbolIndex.isNone)
  if chunks.isEmpty then
    return 0
  b.insertChunks file chunks (chunks.map fun _ => none)
  return chunks.length

/-- Drop symbols and their chunks. -/
def dropSymbols : List SymbolId → Writing σ τ Unit
  | [] => return
  | id :: ids => do
    b.deleteChunks id
    b.deleteSymbol id
    dropSymbols ids

/-- Write the rows of changed symbols; the number of chunks. -/
def writeIncremental (f : Prepared) (previous : FileRecord) : Writing σ τ Nat := do
  dropSymbols b (f.diff.affectedIds ++ f.diff.replacedIds)
  let owned ← writeSymbols b chunker previous.id f.content (f.diff.added ++ f.diff.modified) false
  let loose ← refreshFileLevel b chunker previous.id f.content f.parsed.symbols
  let _ ← b.upsertFile f.path f.content
  return owned + loose

/-- Write all rows anew; the number of chunks. -/
def writeFull (f : Prepared) : Writing σ τ Nat := do
  let file ← b.upsertFile f.path f.content
  b.deleteContents file
  writeSymbols b chunker file f.content f.parsed.symbols true

/-- Write the file; the number of chunks. -/
def write (f : Prepared) : Writing σ τ Nat :=
  match f.mode, f.previous with
  | .incremental, some previous => f.writeIncremental b chunker previous
  | _, _ => f.writeFull b chunker

end

end Prepared

end SourceIndex
