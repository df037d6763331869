/-
  The coordinator: requests to index files, step by step.

  A request takes the lease of its path, reads what is stored, looks into the
  cache, has the file parsed if it must, compares, writes inside a transaction
  and gives the lease back.  A batch prepares its files side by side and writes
  them in one transaction, each behind a savepoint if the store has them.

  Every step is one `Turn` of one request, or one action of the pool, and other
  requests may step in between.

  * `Coordinator`: all requests and what they share;
  * `Coordinator.turn`: one step of one request, if it can move;
  * `Coordinator.act`: any action, of a request, of the pool or of a caller.
-/
import SourceIndex.Coordinator.Request
import SourceIndex.Pool.Basic

namespace SourceIndex

/-- The number of a request. -/
abbrev RequestId := Nat

/-- All requests and what they share. -/
structure Coordinator (σ τ : Type) where
  backend : Backend σ τ
  settings : Settings
  chunker : Chunker
  pool : Pool
  cache : Cache ParseResult
  store : σ
  /-- the paths that requests have leases of -/
  leases : List String := []
  tallies : Tallies := {}
  requests : Table RequestId (Request τ) := {}
  lastRequest : RequestId := 0

namespace Coordinator

variable {σ τ : Type}

/-- A coordinator without requests.  The settings are checked, then the workers
    are started. -/
def start (backend : Backend σ τ) (settings : Settings) (chunker : Option Chunker) (store : σ)
    (starts : StartPlan) : Except Fault (Coordinator σ τ) := do
  let settings ← settings.check
  match Pool.start settings.pool starts with
  | .error error =>
    let cause := error.message
    throw (.invalidOperation s!"Failed to start worker pool: {cause}")
  | .ok pool =>
    return {
      backend
      settings
      chunker := chunker.getD (chunkFile settings.chunking.maxChunkLines)
      pool
      cache := .ofSettings settings.cache
      store }

variable (c : Coordinator σ τ)

/-- The time. -/
def now : Nat := c.pool.now

/-- Counts of the coordinator and its parts. -/
def stats : CoordinatorStats :=
  ⟨c.cache.stats, c.pool.supervisor.stats, c.tallies⟩

/-- A file that is ready, compared with what is stored. -/
def prepared (path content : String) (prior : Prior) (parsed : ParseResult) (cacheHit : Bool)
    (attempts : Nat) : Prepared :=
  { path
    content
    hash := ContentHash.ofText content
    previous := prior.previous
    oldSymbolCount := prior.symbols.length
    parsed
    diff := .between c.settings.incremental prior.revision content parsed.symbols
    cacheHit
    attempts }

/-- One step in preparing a file, if it can move. -/
def prepare (path content : String) : Stage → Option (Stage × Coordinator σ τ)
  | .fresh =>
    let (found, store) := c.backend.findFile path c.store
    let c := { c with store }
    match found with
    | .error fault => some (.settled (.error (.storageRead path fault)), c)
    | .ok none => some (.loaded ⟨none, []⟩, c)
    | .ok (some file) => some (.located file, c)
  | .located file =>
    let (found, store) := c.backend.findSymbols file.id c.store
    let c := { c with store }
    match found with
    | .error fault => some (.settled (.error (.storageRead path fault)), c)
    | .ok symbols => some (.loaded ⟨some file, symbols⟩, c)
  | .loaded prior =>
    let key := CacheKey.ofContent path content
    if prior.previous.map (·.contentHash) = some key.hash then
      let report := FileReport.unchangedContent path prior.symbols.length
      some (.settled (.ok (.skipped report)), c)
    else
      match c.cache.get c.now key with
      | (some parsed, cache) =>
        let c := { c with cache }
        some (.settled (.ok (.ready (c.prepared path content prior parsed true 0))), c)
      | (none, cache) => some (.submitting prior 1, { c with cache })
  | .submitting prior attempt =>
    match c.pool.submit path content with
    | .error error => some (.settled (.error (.parseFailure path attempt error)), c)
    | .ok (ticket, pool) => some (.awaiting prior attempt ticket, { c with pool })
  | .awaiting prior attempt ticket =>
    match c.pool.outcome? ticket with
    | none => none
    | some outcome =>
      some (.afterAttempt path (c.settings.pool.maxRetries + 1) prior attempt outcome, c)
  | .parsed prior attempt result =>
    let c := { c with cache := c.cache.set c.now (.ofContent path content) result }
    some (.settled (.ok (.ready (c.prepared path content prior result false attempt))), c)
  | .settled _ => none

/-- Take the lease of a path, unless another request has it. -/
def lease? (path : String) : Option (Coordinator σ τ) :=
  if c.leases.contains path then none else some { c with leases := c.leases ++ [path] }

/-- Give leases back. -/
def release (paths : List String) : Coordinator σ τ :=
  { c with leases := c.leases.filter fun path => !paths.contains path }

/-- Drop the parse results of a file for other contents than the one written. -/
def trim (file : Prepared) : Coordinator σ τ :=
  { c with cache := (c.cache.invalidateStale file.path file.hash).2 }

/-- One step of the request to index one file, if it can move. -/
def turnFile (path content : String) : FilePhase τ → Option (FilePhase τ × Coordinator σ τ)
  | .arriving =>
    match c.lease? path with
    | none => some (.done (.error (.pathBusy path)), c)
    | some c => some (.preparing .fresh, c)
  | .preparing (.settled outcome) =>
    match outcome with
    | .error error => some (.closing (.error error), c)
    | .ok (.skipped report) => some (.closing (.ok report), c)
    | .ok (.ready file) => some (.opening file, c)
  | .preparing stage => (c.prepare path content stage).map fun r => (.preparing r.1, r.2)
  | .opening file =>
    if c.backend.free c.store then
      let (opened, store) := c.backend.openTransaction c.store
      let c := { c with store }
      match opened with
      | .error fault => some (.closing (.error (file.writeFailure fault)), c)
      | .ok tx => some (.writing file tx, c)
    else none
  | .writing file tx =>
    let (written, tx, store) := (file.write c.backend c.chunker).run (tx, c.store)
    let c := { c with store }
    match written with
    | .error fault => some (.undoing file tx fault, c)
    | .ok chunks => some (.committing file tx chunks, c)
  | .committing file tx chunks =>
    let (committed, store) := c.backend.commit tx c.store
    let c := { c with store }
    match committed with
    | .error fault => some (.closing (.error (file.writeFailure fault)), c)
    | .ok _ => some (.trimming file chunks, c)
  | .undoing file tx cause =>
    let (_, store) := c.backend.rollback tx c.store
    some (.closing (.error (file.writeFailure cause)), { c with store })
  | .trimming file chunks => some (.closing (.ok (file.report chunks)), c.trim file)
  | .closing outcome =>
    let tallies := match outcome with
      | .ok report => c.tallies.succeed report
      | .error _ => c.tallies.fail 1
    some (.done outcome, { c.release [path] with tallies })
  | .done _ => none

/-! ## Batches -/

/-- The file with a number and the files around it. -/
def pick (slots : List Slot) (place : Nat) : Option (List Slot × Slot × List Slot) :=
  match slots.drop place with
  | [] => none
  | slot :: rest => some (slots.take place, slot, rest)

/-- The name of the savepoint before file number `index`. -/
def savepointName (index : Nat) : String := s!"file_{index}"

/-- The report when a whole batch is undone because of one file: that file, those
    written before it, and those that were still to come. -/
def undone (report : BatchReport) (file : Prepared) (fault : Fault) (others : List Prepared) :
    BatchReport :=
  let path := file.path
  let cause := fault.message
  let reason := Fault.storage s!"batch rolled back after {path} failed: {cause}"
  { report with
    failed := report.failed ++ file.writeFailure fault :: others.map (·.writeFailure reason) }

/-- A savepoint before file number `index`, as long as the store made all earlier
    ones; whether there is one. -/
def markFile (savepoints : Bool) (index : Nat) (state : τ × σ) : Bool × (τ × σ) :=
  if savepoints then
    match (c.backend.savepoint (savepointName index)).run state with
    | (.ok supported, state) => (supported, state)
    | (.error _, state) => (false, state)
  else (false, state)

/-- Write file number `index` of a batch.  If that fails, only this file is undone
    where there is a savepoint, and the whole batch where there is none. -/
def writeNext (held : List String) (tx : τ) (file : Prepared) (rest : List Prepared) (index : Nat)
    (savepoints : Bool) (written : List (Prepared × Nat)) (report : BatchReport) :
    BatchPhase τ × Coordinator σ τ :=
  let (marked, state) := c.markFile savepoints index (tx, c.store)
  let (outcome, state) := (file.write c.backend c.chunker).run state
  match outcome with
  | .ok chunks =>
    (.writing held state.1 rest (index + 1) marked (written ++ [(file, chunks)]) report,
      { c with store := state.2 })
  | .error fault =>
    let (undoneHere, state) :=
      if marked then
        match (c.backend.rollbackTo (savepointName index)).run state with
        | (.ok _, state) => (true, state)
        | (.error _, state) => (false, state)
      else (false, state)
    if undoneHere then
      (.writing held state.1 rest (index + 1) marked written
          (report.fail (file.writeFailure fault)),
        { c with store := state.2 })
    else
      (.undoing held state.1 (undone report file fault (written.map (·.1) ++ rest)),
        { c with store := state.2 })

/-- One step of the request to index a batch, if it can move.  While files are
    prepared, `place` says which of them moves. -/
def turnBatch (place : Nat) : BatchPhase τ → Option (BatchPhase τ × Coordinator σ τ)
  | .arriving [] held report => some (.preparing (held.map (·.path)) held [] report, c)
  | .arriving ((path, content) :: todo) held report =>
    match c.lease? path with
    | none => some (.arriving todo held (report.fail (.pathBusy path)), c)
    | some c => some (.arriving todo (held ++ [{ path, content }]) report, c)
  | .preparing held [] ready report =>
    if ready.isEmpty then some (.closing held report, c) else some (.opening held ready report, c)
  | .preparing held slots ready report =>
    match pick slots place with
    | none => none
    | some (before, slot, after) =>
      match slot.stage with
      | .settled (.error error) =>
        some (.preparing held (before ++ after) ready (report.fail error), c)
      | .settled (.ok (.skipped file)) =>
        some (.preparing held (before ++ after) ready (report.succeed file), c)
      | .settled (.ok (.ready file)) =>
        some (.preparing held (before ++ after) (ready ++ [file]) report, c)
      | stage =>
        (c.prepare slot.path slot.content stage).map fun r =>
          (.preparing held (before ++ { slot with stage := r.1 } :: after) ready report, r.2)
  | .opening held ready report =>
    if c.backend.free c.store then
      let (opened, store) := c.backend.openTransaction c.store
      let c := { c with store }
      match opened with
      | .error fault =>
        let reason := Fault.storage fault.message
        let failed := report.failed ++ ready.map (·.writeFailure reason)
        some (.closing held { report with failed }, c)
      | .ok tx => some (.writing held tx ready 0 true [] report, c)
    else none
  | .writing held tx [] _ _ written report => some (.committing held tx written report, c)
  | .writing held tx (file :: rest) index savepoints written report =>
    some (c.writeNext held tx file rest index savepoints written report)
  | .undoing held tx report =>
    let (_, store) := c.backend.rollback tx c.store
    some (.closing held report, { c with store })
  | .committing held tx written report =>
    let (committed, store) := c.backend.commit tx c.store
    let c := { c with store }
    match committed with
    | .error fault =>
      let reason := Fault.storage fault.message
      let failed := report.failed ++ written.map (·.1.writeFailure reason)
      some (.closing held { report with failed }, c)
    | .ok _ => some (.trimming held written report, c)
  | .trimming held written report =>
    let reports := written.map fun w => w.1.report w.2
    some
      (.closing held { report with succeeded := report.succeeded ++ reports },
        written.foldl (fun c w => c.trim w.1) c)
  | .closing held report =>
    let tallies := report.succeeded.foldl Tallies.succeed c.tallies
    some
      (.done report,
        { c.release held with tallies := tallies.fail report.failed.length })
  | .done _ => none

/-! ## Turns -/

/-- A step of one request; for a batch also which of its files moves. -/
structure Turn where
  request : RequestId
  place : Nat := 0
  deriving DecidableEq, Inhabited

/-- One step of one request, if it can move. -/
def turn (t : Turn) : Option (Coordinator σ τ) :=
  match c.requests.get? t.request with
  | none => none
  | some (.file path content phase) =>
    (c.turnFile path content phase).map fun r =>
      { r.2 with requests := r.2.requests.put t.request (.file path content r.1) }
  | some (.batch phase) =>
    (c.turnBatch t.place phase).map fun r =>
      { r.2 with requests := r.2.requests.put t.request (.batch r.1) }

/-- Take in a request; its number. -/
def receive (request : Request τ) : RequestId × Coordinator σ τ :=
  let id := c.lastRequest + 1
  (id, { c with requests := c.requests.put id request, lastRequest := id })

/-- An action on a coordinator: of a caller, of a request or of the pool. -/
inductive Action where
  /-- a caller asks for one file -/
  | index (path content : String)
  /-- a caller asks for many files -/
  | batch (files : List (String × String))
  /-- a request moves -/
  | turn (t : Turn)
  /-- a party of the pool acts; only requests submit to it, and it is never
      dropped -/
  | pool (action : PoolAction)
  | invalidate (path : String)
  /-- the cache is cleared, once the pool has stopped -/
  | clearCache

/-- Carry out an action, if it is possible now. -/
def act : Action → Option (Coordinator σ τ)
  | .index path content => some (c.receive (.ofFile path content)).2
  | .batch files => some (c.receive (.ofFiles files)).2
  | .turn t => c.turn t
  | .pool (.submit _ _) => none
  | .pool .drop => none
  | .pool action => (c.pool.act action).map fun pool => { c with pool }
  | .invalidate path => some { c with cache := (c.cache.invalidate path).2 }
  | .clearCache => if c.pool.isShutDown then some { c with cache := c.cache.clear } else none

end Coordinator

end SourceIndex
