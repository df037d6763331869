/-
  What the indexing of files comes to.

  * `WriteMode`: how the rows of a file were written;
  * `IndexError`: why a file was not indexed, with its wording, its kind and
    whether another attempt may succeed;
  * `FileReport`, `BatchReport`: the outcome for a file and for many files;
  * `Tallies`: counts over all files.
-/
import SourceIndex.Cache
import SourceIndex.Pool.Supervisor
import SourceIndex.Diff

namespace SourceIndex

/-- How the rows of a file were written. -/
inductive WriteMode where
  /-- all rows anew -/
  | full
  /-- only the rows of changed symbols -/
  | incremental
  /-- not at all, since the content is stored already -/
  | skipped
  deriving DecidableEq, Inhabited

/-- The name of a mode. -/
def WriteMode.text : WriteMode → String
  | full => "full"
  | incremental => "incremental"
  | skipped => "skipped"

/-- The kinds of failures. -/
inductive ErrorKind where
  | parseFailure
  | workerTimeout
  | workerCrashed
  | poolShutdown
  | storageWriteFailure
  | storageRead
  | pathBusy
  deriving DecidableEq, Inhabited

/-- Why a file was not indexed. -/
inductive IndexError where
  | parseFailure (path : String) (attempts : Nat) (source : PoolError)
  | storageWriteFailure (path : String) (mode : WriteMode) (source : Fault)
  | storageRead (path : String) (source : Fault)
  /-- another request has the path -/
  | pathBusy (path : String)
  deriving DecidableEq, Inhabited

namespace IndexError

/-- The file that was not indexed. -/
def path : IndexError → String
  | parseFailure path _ _ => path
  | storageWriteFailure path _ _ => path
  | storageRead path _ => path
  | pathBusy path => path

/-- The kind of a failure. -/
def kind : IndexError → ErrorKind
  | parseFailure _ _ .timeout => .workerTimeout
  | parseFailure _ _ (.workerCrashed _) => .workerCrashed
  | parseFailure _ _ .shutDown => .poolShutdown
  | parseFailure _ _ (.parse _) => .parseFailure
  | parseFailure _ _ (.workerStart _) => .parseFailure
  | storageWriteFailure _ _ _ => .storageWriteFailure
  | storageRead _ _ => .storageRead
  | pathBusy _ => .pathBusy

/-- May the same content be indexed on another attempt?  A parser that rejected it
    will reject it again, and a pool that was shut down stays so. -/
def isRetryable : IndexError → Bool
  | parseFailure _ _ (.parse _) => false
  | parseFailure _ _ .shutDown => false
  | _ => true

/-- The wording of a failure. -/
def message : IndexError → String
  | parseFailure path attempts source =>
    let cause := source.message
    s!"Failed to parse {path} after {attempts} attempt(s): {cause}"
  | storageWriteFailure path mode source =>
    let how := mode.text
    let cause := source.message
    s!"Failed to write {path} ({how} mode): {cause}"
  | storageRead path source =>
    let cause := source.message
    s!"Failed to read stored state of {path}: {cause}"
  | pathBusy path => s!"{path} is already being indexed"

end IndexError

/-- The outcome for a file that was indexed. -/
structure FileReport where
  path : String
  mode : WriteMode
  cacheHit : Bool
  parseAttempts : Nat
  added : Nat
  removed : Nat
  modified : Nat
  unchanged : Nat
  chunksWritten : Nat
  fullReason : Option Reason
  deriving DecidableEq, Inhabited

/-- The outcome for many files. -/
structure BatchReport where
  succeeded : List FileReport := []
  failed : List IndexError := []
  deriving DecidableEq, Inhabited

namespace BatchReport

/-- The number of files. -/
def total (r : BatchReport) : Nat :=
  r.succeeded.length + r.failed.length

/-- Did no file fail? -/
def isComplete (r : BatchReport) : Bool :=
  r.failed.isEmpty

/-- The failure of a file. -/
def failure? (r : BatchReport) (path : String) : Option IndexError :=
  r.failed.find? (·.path = path)

/-- The report on a file. -/
def report? (r : BatchReport) (path : String) : Option FileReport :=
  r.succeeded.find? (·.path = path)

/-- The report with a success more. -/
def succeed (r : BatchReport) (report : FileReport) : BatchReport :=
  { r with succeeded := r.succeeded ++ [report] }

/-- The report with a failure more. -/
def fail (r : BatchReport) (error : IndexError) : BatchReport :=
  { r with failed := r.failed ++ [error] }

/-- The failures where those that pass the test are taken from a list, in turn. -/
def refill (test : IndexError → Bool) : List IndexError → List IndexError → List IndexError
  | [], _ => []
  | e :: es, [] => e :: refill test es []
  | e :: es, x :: xs => if test e then x :: refill test es xs else e :: refill test es (x :: xs)

/-- The report with the cancelled files in order of their paths, among the places
    they hold: a shutdown cancels everything at once. -/
def listed (r : BatchReport) : BatchReport :=
  let test := fun (e : IndexError) => e.kind = .poolShutdown
  let cancelled := (r.failed.filter test).mergeSort fun a b => !(b.path < a.path)
  { r with failed := refill test r.failed cancelled }

end BatchReport

/-- Counts over all files of a coordinator. -/
structure Tallies where
  filesIndexed : Nat := 0
  filesFailed : Nat := 0
  fullWrites : Nat := 0
  incrementalWrites : Nat := 0
  skipped : Nat := 0
  deriving DecidableEq, Inhabited

namespace Tallies

/-- The counts with a file more that was indexed. -/
def succeed (t : Tallies) (report : FileReport) : Tallies :=
  let t := { t with filesIndexed := t.filesIndexed + 1 }
  match report.mode with
  | .full => { t with fullWrites := t.fullWrites + 1 }
  | .incremental => { t with incrementalWrites := t.incrementalWrites + 1 }
  | .skipped => { t with skipped := t.skipped + 1 }

/-- The counts with `n` files more that were not. -/
def fail (t : Tallies) (n : Nat) : Tallies :=
  { t with filesFailed := t.filesFailed + n }

end Tallies

/-- Counts of a coordinator and its parts. -/
structure CoordinatorStats where
  cache : CacheStats
  pool : PoolStats
  tallies : Tallies

end SourceIndex
