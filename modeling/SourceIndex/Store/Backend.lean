/-
  What the coordinator asks of a store.

  * `Backend σ τ`: the calls of a store with states `σ` and transactions `τ`.
    Nothing is assumed of them: each call may succeed or fail and may change the
    state;
  * `FaultyStore`: the store in memory, with faults that make chosen calls fail;
  * `FaultyStore.backend`: its calls.
-/
import SourceIndex.Store.Memory

namespace SourceIndex

/-- A computation inside an open transaction. -/
abbrev Writing (σ τ : Type) := ExceptT Fault (StateM (τ × σ))

/-- The calls of a store with states `σ` and transactions `τ`. -/
structure Backend (σ τ : Type) where
  findFile : String → σ → Except Fault (Option FileRecord) × σ
  findSymbols : FileId → σ → Except Fault (List SymbolRecord) × σ
  /-- can a transaction be opened without waiting for another one? -/
  free : σ → Bool
  openTransaction : σ → Except Fault τ × σ
  upsertFile : String → String → Writing σ τ FileId
  insertSymbols : FileId → List Symbol → Writing σ τ (List SymbolId)
  deleteSymbol : SymbolId → Writing σ τ Unit
  deleteChunks : SymbolId → Writing σ τ Unit
  deleteContents : FileId → Writing σ τ Unit
  deleteFileLevel : FileId → Writing σ τ Unit
  insertChunks : FileId → List Chunk → List (Option SymbolId) → Writing σ τ Unit
  /-- remember the state of the transaction; whether the store can do that -/
  savepoint : String → Writing σ τ Bool
  rollbackTo : String → Writing σ τ Unit
  commit : τ → σ → Except Fault Unit × σ
  rollback : τ → σ → Except Fault Unit × σ

/-! ## Faults -/

/-- The calls that a fault can make fail. -/
inductive StoreCall where
  | findFile
  | findSymbols
  | openTransaction
  | upsertFile
  | insertSymbols
  | deleteSymbol
  | deleteChunks
  | deleteContents
  | deleteFileLevel
  | insertChunks
  | savepoint
  | rollbackTo
  | commit
  | rollback
  deriving DecidableEq, Inhabited

/-- Lets `skip` calls go through and makes the next `times` ones fail. -/
structure StoreFault where
  call : StoreCall
  message : String
  skip : Nat := 0
  times : Nat := 1
  deriving DecidableEq, Inhabited

/-- What the faults say to a call: the message of its failure, if it fails, and
    the faults after it.  The first fault for the call that is not used up
    decides. -/
def StoreFault.trip (call : StoreCall) : List StoreFault → Option String × List StoreFault
  | [] => (none, [])
  | fault :: faults =>
    if fault.call = call ∧ 0 < fault.times then
      if 0 < fault.skip then (none, { fault with skip := fault.skip - 1 } :: faults)
      else (some fault.message, { fault with times := fault.times - 1 } :: faults)
    else
      let (message, faults) := trip call faults
      (message, fault :: faults)

/-- The store in memory with faults. -/
structure FaultyStore where
  store : Store := {}
  faults : List StoreFault := []
  deriving DecidableEq, Inhabited

namespace FaultyStore

/-- The failure of a call, if a fault makes it fail, and the store after it. -/
def trip (s : FaultyStore) (call : StoreCall) : Option Fault × FaultyStore :=
  let (message, faults) := StoreFault.trip call s.faults
  (message.map .storage, { s with faults })

/-- A read, unless a fault makes it fail. -/
def reading {α : Type} (call : StoreCall) (read : Store → α) (s : FaultyStore) :
    Except Fault α × FaultyStore :=
  match s.trip call with
  | (some fault, s) => (.error fault, s)
  | (none, s) => (.ok (read s.store), s)

/-- An operation of a transaction, unless a fault makes it fail. -/
def within {α : Type} (call : StoreCall)
    (op : WriteRules → Transaction → Except Fault (α × Transaction)) :
    Writing FaultyStore Transaction α := fun (tx, s) =>
  match s.trip call with
  | (some fault, s) => (.error fault, (tx, s))
  | (none, s) =>
    match op s.store.rules tx with
    | .error fault => (.error fault, (tx, s))
    | .ok (value, tx) => (.ok value, (tx, s))

/-- The end of a transaction; a fault that makes it fail leaves no trace of the
    transaction. -/
def ending (call : StoreCall) (close : Store → Store) (s : FaultyStore) :
    Except Fault Unit × FaultyStore :=
  match s.trip call with
  | (some fault, s) => (.error fault, { s with store := s.store.abandon })
  | (none, s) => (.ok (), { s with store := close s.store })

/-- The opening of a transaction, unless a fault makes it fail. -/
def opening (s : FaultyStore) : Except Fault Transaction × FaultyStore :=
  match s.trip .openTransaction with
  | (some fault, s) => (.error fault, s)
  | (none, s) =>
    let (tx, store) := s.store.openTransaction
    (.ok tx, { s with store })

/-- An operation without a value. -/
def unit (tx : Except Fault Transaction) : Except Fault (Unit × Transaction) :=
  tx.map fun tx => ((), tx)

/-- The calls of the store in memory with faults. -/
def backend : Backend FaultyStore Transaction where
  findFile path := reading .findFile (·.committed.file? path)
  findSymbols file := reading .findSymbols (·.committed.symbolsOf file)
  free s := !s.store.busy
  openTransaction := opening
  upsertFile path content := within .upsertFile fun rules tx => tx.upsertFile rules path content
  insertSymbols file symbols :=
    within .insertSymbols fun rules tx => tx.insertSymbols rules file symbols
  deleteSymbol symbol := within .deleteSymbol fun _ tx => .ok ((), tx.deleteSymbol symbol)
  deleteChunks symbol := within .deleteChunks fun _ tx => .ok ((), tx.deleteChunks symbol)
  deleteContents file := within .deleteContents fun rules tx => unit (tx.deleteContents rules file)
  deleteFileLevel file :=
    within .deleteFileLevel fun rules tx => unit (tx.deleteFileLevel rules file)
  insertChunks file chunks owners :=
    within .insertChunks fun rules tx => unit (tx.insertChunks rules file chunks owners)
  savepoint name := within .savepoint fun rules tx => .ok (tx.savepoint rules name)
  rollbackTo name := within .rollbackTo fun _ tx => unit (tx.rollbackTo name)
  commit tx := ending .commit (·.commit tx)
  rollback _ := ending .rollback (·.abandon)

/-- Write a file and its symbols, without chunks, past the faults. -/
def seed (s : FaultyStore) (path content : String) (symbols : List Symbol) :
    Except Fault FaultyStore := do
  let (tx, store) := s.store.openTransaction
  let (file, tx) ← tx.upsertFile store.rules path content
  let (_, tx) ← tx.insertSymbols store.rules file symbols
  return { s with store := store.commit tx }

end FaultyStore

end SourceIndex
