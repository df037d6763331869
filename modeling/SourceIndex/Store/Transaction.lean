/-
  Transactions: changes to a working copy of the rows.

  * `Transaction`: the working copy and the savepoints made so far;
  * `TransactionOp`, `TransactionOp.run`: the operations, each of which either
    succeeds or leaves the transaction as it was.  A write to a path that is set
    to be rejected fails.
-/
import SourceIndex.Fault
import SourceIndex.Store.Rows

namespace SourceIndex

/-- A working copy of the rows, and the savepoints made so far, latest last. -/
structure Transaction where
  working : Rows
  savepoints : List (String × Rows) := []
  deriving DecidableEq, Inhabited

/-- What a store lets a transaction do. -/
structure WriteRules where
  /-- paths whose rows cannot be written -/
  rejected : List String := []
  /-- are there savepoints? -/
  savepoints : Bool := true
  deriving DecidableEq, Inhabited

/-- An operation of a transaction. -/
inductive TransactionOp where
  | upsertFile (path content : String)
  | insertSymbols (file : FileId) (symbols : List Symbol)
  | deleteSymbol (symbol : SymbolId)
  | deleteChunks (symbol : SymbolId)
  | deleteContents (file : FileId)
  | deleteFileLevel (file : FileId)
  | insertChunks (file : FileId) (chunks : List Chunk) (owners : List (Option SymbolId))
  | savepoint (name : String)
  | rollbackTo (name : String)
  deriving DecidableEq

/-- What an operation of a transaction answers. -/
inductive TransactionReply where
  | done
  | file (id : FileId)
  | symbols (ids : List SymbolId)
  | supported (yes : Bool)
  deriving DecidableEq, Inhabited

namespace Transaction

/-- Fails if rows of the path cannot be written. -/
def checkPath (rules : WriteRules) (path : String) : Except Fault Unit :=
  if rules.rejected.contains path then .error (.storage s!"write rejected for {path}")
  else .ok ()

/-- Fails if there is no such file, or its rows cannot be written. -/
def checkFile (rules : WriteRules) (tx : Transaction) (file : FileId) : Except Fault Unit :=
  match tx.working.files.get? file with
  | none => .error (.storage s!"unknown file id {file}")
  | some record => checkPath rules record.path

/-- The savepoints up to the latest one with the name, which comes last; nothing
    if there is none. -/
def upTo? (name : String) (savepoints : List (String × Rows)) : Option (List (String × Rows)) :=
  match savepoints.reverse.dropWhile (·.1 ≠ name) with
  | [] => none
  | found => some found.reverse

variable (rules : WriteRules) (tx : Transaction)

/-- Store a content for a path. -/
def upsertFile (path content : String) : Except Fault (FileId × Transaction) := do
  checkPath rules path
  let (id, working) := tx.working.upsertFile path content
  return (id, { tx with working })

/-- Store symbols for a file. -/
def insertSymbols (file : FileId) (symbols : List Symbol) :
    Except Fault (List SymbolId × Transaction) := do
  checkFile rules tx file
  let (ids, working) := tx.working.insertSymbols file symbols
  return (ids, { tx with working })

/-- Drop a symbol. -/
def deleteSymbol (symbol : SymbolId) : Transaction :=
  { tx with working := tx.working.deleteSymbol symbol }

/-- Drop the chunks of a symbol. -/
def deleteChunks (symbol : SymbolId) : Transaction :=
  { tx with working := tx.working.deleteChunks symbol }

/-- Drop the symbols and chunks of a file. -/
def deleteContents (file : FileId) : Except Fault Transaction := do
  checkFile rules tx file
  return { tx with working := tx.working.deleteContents file }

/-- Drop the chunks of a file that belong to no symbol. -/
def deleteFileLevel (file : FileId) : Except Fault Transaction := do
  checkFile rules tx file
  return { tx with working := tx.working.deleteFileLevel file }

/-- Store chunks for a file, each with its symbol. -/
def insertChunks (file : FileId) (chunks : List Chunk) (owners : List (Option SymbolId)) :
    Except Fault Transaction := do
  checkFile rules tx file
  let given := chunks.length
  let owned := owners.length
  if given ≠ owned then
    throw (.invalidOperation s!"{given} chunks but {owned} owner ids")
  return { tx with working := tx.working.insertChunks file (chunks.zip owners) }

/-- Remember the working copy under a name; whether the store can do that. -/
def savepoint (name : String) : Bool × Transaction :=
  if rules.savepoints then (true, { tx with savepoints := tx.savepoints ++ [(name, tx.working)] })
  else (false, tx)

/-- Return to the latest savepoint with a name, which stays. -/
def rollbackTo (name : String) : Except Fault Transaction :=
  match upTo? name tx.savepoints with
  | none => .error (.invalidOperation s!"No savepoint named {name}")
  | some savepoints =>
    match savepoints.getLast? with
    | none => .error (.invalidOperation s!"No savepoint named {name}")
    | some (_, working) => .ok { working, savepoints }

end Transaction

/-- Carry out an operation; if it fails the transaction stays as it is. -/
def TransactionOp.run (rules : WriteRules) (tx : Transaction) :
    TransactionOp → Except Fault (TransactionReply × Transaction)
  | upsertFile path content => do
    let (id, tx) ← tx.upsertFile rules path content
    return (.file id, tx)
  | insertSymbols file symbols => do
    let (ids, tx) ← tx.insertSymbols rules file symbols
    return (.symbols ids, tx)
  | deleteSymbol symbol => return (.done, tx.deleteSymbol symbol)
  | deleteChunks symbol => return (.done, tx.deleteChunks symbol)
  | deleteContents file => do
    let tx ← tx.deleteContents rules file
    return (.done, tx)
  | deleteFileLevel file => do
    let tx ← tx.deleteFileLevel rules file
    return (.done, tx)
  | insertChunks file chunks owners => do
    let tx ← tx.insertChunks rules file chunks owners
    return (.done, tx)
  | savepoint name =>
    let (supported, tx) := tx.savepoint rules name
    return (.supported supported, tx)
  | rollbackTo name => do
    let tx ← tx.rollbackTo name
    return (.done, tx)

end SourceIndex
