/-
  Sessions on a coordinator.

  A session owns a coordinator over the store in memory, with faults, and over a
  scripted parser.  After each operation everything is left to act until nothing
  can move; then the requests that are done are handed over.

  * `Coordinator.next?`: which request moves next, if any can;
  * `IndexOp`, `IndexReply`: the operations and what they answer;
  * `IndexSession.step`: carry out one operation.
-/
import SourceIndex.Coordinator.Basic
import SourceIndex.Script

namespace SourceIndex

/-! ## Which request moves next -/

/-- The submission that a file waits for. -/
def Stage.ticket? : Stage → Option TaskId
  | .awaiting _ _ ticket => some ticket
  | _ => none

/-- The places where a request can move, each with the submission it waits for. -/
def Request.places {τ : Type} : Request τ → List (Option TaskId)
  | .file _ _ (.preparing stage) => [stage.ticket?]
  | .file _ _ (.done _) => []
  | .file _ _ _ => [none]
  | .batch (.preparing _ [] _ _) => [none]
  | .batch (.preparing _ slots _ _) => slots.map (·.stage.ticket?)
  | .batch (.done _) => []
  | .batch _ => [none]

/-- The number of files of a request. -/
def Request.files {τ : Type} : Request τ → Nat
  | .file _ _ _ => 1
  | .batch (.arriving todo held _) => todo.length + held.length
  | .batch (.preparing held _ _ _) => held.length
  | .batch (.opening held _ _) => held.length
  | .batch (.writing held _ _ _ _ _ _) => held.length
  | .batch _ => 1

namespace Coordinator

variable {σ τ : Type} (c : Coordinator σ τ)

/-- The turns that requests may take, each with the submission it waits for. -/
def openTurns : List (Turn × Option TaskId) :=
  c.requests.pairs.flatMap fun entry =>
    entry.2.places.zipIdx.map fun place => (⟨entry.1, place.2⟩, place.1)

/-- The place of a submission among all answers of the pool. -/
def answerPlace (ticket : TaskId) : Nat :=
  c.pool.supervisor.answers.findIdx (·.1 = ticket)

/-- The step of the request that moves next.  Those that wait for no submission
    come first, the others follow in the order of the answers. -/
def next? : Option (Coordinator σ τ) :=
  let turns := c.openTurns
  let free := (turns.filter (·.2.isNone)).map (·.1)
  let waiting := turns.filterMap fun t => t.2.map fun ticket => (t.1, c.answerPlace ticket)
  let answered := (waiting.mergeSort fun a b => a.2 ≤ b.2).map (·.1)
  (free ++ answered).findSome? c.turn

/-- The number of files of all requests that are not done. -/
def openFiles : Nat :=
  c.requests.values.foldl (fun n r => n + r.files) 0

end Coordinator

/-! ## Operations -/

/-- A file to index; with symbols, the parser is told to find them. -/
structure SourceFile where
  path : String
  content : String
  symbols : Option (List Symbol) := none

/-- An operation of a session on a coordinator. -/
inductive IndexOp (ι : Type) where
  | script (path : String) (content : Option String) (lines : List ScriptLine)
  | release (path : String) (content : Option String)
  | calls
  | advance (ms : Nat)
  | plan (starts : StartPlan)
  | index (tag : ι) (file : SourceFile)
  /-- index many files; `look` are the paths that are looked up in the report -/
  | batch (tag : ι) (files : List SourceFile) (look : List String)
  | invalidate (path : String)
  | shutdown
  | failWrites (path : String)
  | clearFailures
  | fault (fault : StoreFault)
  | seed (path content : String) (symbols : List Symbol)
  | dump (path : String)
  | counts
  | settings

/-- What an operation of a session answers. -/
inductive IndexReply where
  | done
  | released (yes : Bool)
  | calls (paths : List String)
  | dropped (count : Nat)
  | failed (fault : Fault)
  | dump (rows : StoreDump)
  | counts (files commits : Nat)
  | settings (settings : Settings)

/-- A request of a session that is not done. -/
structure Ticket (ι : Type) where
  tag : ι
  request : RequestId
  look : List String := []

/-- A request of a session that is done. -/
structure Finished (ι : Type) where
  tag : ι
  outcome : RequestOutcome
  look : List String

/-- A coordinator, its parser, and the open requests in order of their start. -/
structure IndexSession (ι : Type) where
  coordinator : Coordinator FaultyStore Transaction
  parser : ScriptedParser := {}
  tickets : List (Ticket ι) := []

/-- What shows after an operation. -/
structure IndexView (ι : Type) where
  reply : IndexReply
  finished : List (Finished ι)
  blocked : List String
  stats : CoordinatorStats

namespace IndexSession

variable {ι : Type}

/-- A session on a new coordinator with an empty store. -/
def start (settings : Settings) (savepoints : Bool) (chunker : Option Chunker)
    (starts : StartPlan) : Except Fault (IndexSession ι) := do
  let store : FaultyStore := { store := { rules := { savepoints } } }
  let coordinator ← Coordinator.start FaultyStore.backend settings chunker store starts
  return { coordinator }

variable (s : IndexSession ι)

/-- The pool with its parser. -/
def bench : Bench :=
  { s.parser with pool := s.coordinator.pool }

/-- The session with another state of the pool and its parser. -/
def withBench (b : Bench) : IndexSession ι :=
  { s with parser := b.toScriptedParser, coordinator := { s.coordinator with pool := b.pool } }

/-- The session with another state of the store. -/
def withStore (store : FaultyStore) : IndexSession ι :=
  { s with coordinator := { s.coordinator with store } }

/-- The session with an action carried out, if it is possible. -/
def act (action : Coordinator.Action) : IndexSession ι :=
  { s with coordinator := (s.coordinator.act action).getD s.coordinator }

/-- The next action of some party, if any can move: timers that are due, then
    requests, then the pool. -/
def step? : Option (IndexSession ι) :=
  match s.bench.fireDue? with
  | some b => some (s.withBench b)
  | none =>
    match s.coordinator.next? with
    | some coordinator => some { s with coordinator }
    | none => s.bench.next?.map s.withBench

/-- A bound on the number of actions until nothing can move: each file is read,
    parsed as often as retries allow, and written. -/
def bound : Nat :=
  let retries := s.coordinator.settings.pool.maxRetries
  16 * (s.coordinator.openFiles + 1) * (retries + 2) + s.bench.bound +
    16 * s.coordinator.requests.size

/-- Let all parties act until nothing can move, `n` actions at most. -/
def run : Nat → IndexSession ι → IndexSession ι
  | 0, s => s
  | n + 1, s =>
    match s.step? with
    | some s => run n s
    | none => s

/-- Let all parties act until nothing can move. -/
def settle : IndexSession ι :=
  run s.bound s

/-- The session where the parser finds the symbols that a file is given with. -/
def expect (file : SourceFile) : IndexSession ι :=
  match file.symbols with
  | none => s
  | some symbols =>
    let lines := [{ outcome := .ok symbols 0 }]
    { s with parser := s.parser.setScript file.path (some file.content) lines }

/-- The session with a request more. -/
def request (tag : ι) (look : List String) (r : Request Transaction) : IndexSession ι :=
  let (id, coordinator) := s.coordinator.receive r
  { s with coordinator, tickets := s.tickets ++ [{ tag, request := id, look }] }

/-- Carry out an operation and let everything act. -/
def apply : IndexOp ι → IndexReply × IndexSession ι
  | .script path content lines =>
    (.done, { s with parser := s.parser.setScript path content lines }.settle)
  | .release path content =>
    let (yes, parser) := s.parser.release path content
    (.released yes, { s with parser }.settle)
  | .calls => (.calls s.parser.log, s)
  | .advance ms => (.done, (s.act (.pool (.advance ms))).settle)
  | .plan starts => (.done, (s.act (.pool (.plan starts))).settle)
  | .index tag file =>
    (.done, ((s.expect file).request tag [] (.ofFile file.path file.content)).settle)
  | .batch tag files look =>
    let files' := files.map fun file => (file.path, file.content)
    (.done, ((files.foldl expect s).request tag look (.ofFiles files')).settle)
  | .invalidate path =>
    (.dropped (s.coordinator.cache.invalidate path).1, (s.act (.invalidate path)).settle)
  | .shutdown =>
    let s := ((s.act (.pool .requestShutdown)).act (.pool (.plan {}))).settle
    (.done, s.act .clearCache)
  | .failWrites path =>
    let store := s.coordinator.store
    (.done, s.withStore { store with store := store.store.failWrites path })
  | .clearFailures =>
    (.done, s.withStore { store := s.coordinator.store.store.clearFailures, faults := [] })
  | .fault fault =>
    let store := s.coordinator.store
    (.done, s.withStore { store with faults := store.faults ++ [fault] })
  | .seed path content symbols =>
    match s.coordinator.store.seed path content symbols with
    | .error fault => (.failed fault, s)
    | .ok store => (.done, s.withStore store)
  | .dump path => (.dump (s.coordinator.store.store.dump path), s)
  | .counts =>
    let store := s.coordinator.store.store
    (.counts store.committed.files.size store.commits, s)
  | .settings => (.settings s.coordinator.settings, s)

/-- The outcome of a request that is done.  A report lists cancelled files in
    order of their paths. -/
def outcome? (id : RequestId) : Option RequestOutcome :=
  match (s.coordinator.requests.get? id).bind Request.outcome? with
  | some (.batch report) => some (.batch report.listed)
  | outcome => outcome

/-- Hand over the requests that are done. -/
def collect : List (Finished ι) × IndexSession ι :=
  (s.tickets.filterMap fun t =>
      (s.outcome? t.request).map fun outcome => ⟨t.tag, outcome, t.look⟩,
    { s with tickets := s.tickets.filter fun t => (s.outcome? t.request).isNone })

/-- Carry out an operation, let everything act, and show what came of it. -/
def step (op : IndexOp ι) : IndexView ι × IndexSession ι :=
  let (reply, s) := s.apply op
  let (finished, s) := s.collect
  ({ reply
     finished
     blocked := s.parser.blocked
     stats := s.coordinator.stats }, s)

end IndexSession

end SourceIndex
