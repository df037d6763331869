/-
  The store: committed rows, one writer at a time.

  Reads see the committed rows.  A transaction works on a copy of them; a commit
  puts the copy in their place, and a transaction that ends otherwise leaves no
  trace.

  * `Store`: committed rows, rules for writes, whether a transaction is open;
  * `StoreOp`, `StoreOp.run`: a session with at most one open transaction.
-/
import SourceIndex.Store.Transaction

namespace SourceIndex

/-- A store.  `busy` tells whether a transaction holds the right to write. -/
structure Store where
  committed : Rows := {}
  rules : WriteRules := {}
  busy : Bool := false
  commits : Nat := 0
  deriving DecidableEq, Inhabited

namespace Store

/-- Let every write to a path fail. -/
def failWrites (s : Store) (path : String) : Store :=
  if s.rules.rejected.contains path then s
  else { s with rules := { s.rules with rejected := s.rules.rejected ++ [path] } }

/-- Let writes succeed again. -/
def clearFailures (s : Store) : Store :=
  { s with rules := { s.rules with rejected := [] } }

/-- Open a transaction on a copy of the committed rows. -/
def openTransaction (s : Store) : Transaction × Store :=
  ({ working := s.committed }, { s with busy := true })

/-- Put the working copy in the place of the committed rows. -/
def commit (s : Store) (tx : Transaction) : Store :=
  { s with committed := tx.working, busy := false, commits := s.commits + 1 }

/-- End a transaction without a trace. -/
def abandon (s : Store) : Store :=
  { s with busy := false }

/-- The difference of new symbols to what is stored for a path. -/
def analyze (s : Store) (policy : DiffPolicy) (path content : String) (symbols : List Symbol) :
    Diff :=
  match s.committed.file? path with
  | none => .full .noPreviousVersion
  | some file =>
    .between policy (some (file.content, s.committed.symbolsOf file.id)) content symbols

end Store

/-! ## Sessions -/

/-- What is stored for a path. -/
structure StoreDump where
  file : Option FileRecord
  symbols : List SymbolRecord
  chunks : List StoredChunk
  deriving DecidableEq

/-- What is stored for a path. -/
def Store.dump (s : Store) (path : String) : StoreDump :=
  ⟨s.committed.file? path, s.committed.symbolsAt path, s.committed.chunksAt path⟩

/-- An operation of a session on a store. -/
inductive StoreOp where
  | openTransaction
  | failWrites (path : String)
  | clearFailures
  | dump (path : String)
  | counts
  | findFile (path : String)
  | findSymbols (file : FileId)
  | analyze (policy : DiffPolicy) (path content : String) (symbols : List Symbol)
  | commit
  | rollback
  | drop
  | within (op : TransactionOp)

/-- What an operation of a session answers. -/
inductive StoreReply where
  | done
  /-- a transaction is open already -/
  | wouldBlock
  /-- no transaction is open -/
  | noTransaction
  | dump (found : StoreDump)
  | counts (files commits : Nat)
  | file (found : Option FileRecord)
  | symbols (found : List SymbolRecord)
  | diff (found : Diff)
  | within (reply : TransactionReply)
  | failed (fault : Fault)

/-- A store and its open transaction. -/
structure StoreSession where
  store : Store := {}
  open? : Option Transaction := none
  deriving DecidableEq, Inhabited

/-- Carry out an operation that needs a transaction. -/
def StoreSession.onTransaction (s : StoreSession)
    (act : Transaction → StoreReply × StoreSession) : StoreReply × StoreSession :=
  match s.open? with
  | none => (.noTransaction, s)
  | some tx => act tx

/-- Carry out an operation of a session. -/
def StoreOp.run (s : StoreSession) : StoreOp → StoreReply × StoreSession
  | openTransaction =>
    match s.open? with
    | some _ => (.wouldBlock, s)
    | none =>
      let (tx, store) := s.store.openTransaction
      (.done, { store, open? := some tx })
  | failWrites path => (.done, { s with store := s.store.failWrites path })
  | clearFailures => (.done, { s with store := s.store.clearFailures })
  | dump path => (.dump (s.store.dump path), s)
  | counts => (.counts s.store.committed.files.size s.store.commits, s)
  | findFile path => (.file (s.store.committed.file? path), s)
  | findSymbols file => (.symbols (s.store.committed.symbolsOf file), s)
  | analyze policy path content symbols =>
    (.diff (s.store.analyze policy path content symbols), s)
  | commit => s.onTransaction fun tx => (.done, { store := s.store.commit tx, open? := none })
  | rollback => s.onTransaction fun _ => (.done, { store := s.store.abandon, open? := none })
  | drop => s.onTransaction fun _ => (.done, { store := s.store.abandon, open? := none })
  | within op =>
    s.onTransaction fun tx =>
      match op.run s.store.rules tx with
      | .error fault => (.failed fault, s)
      | .ok (reply, tx) => (.within reply, { s with open? := some tx })

end SourceIndex
