/-
  Parse tasks and their outcomes.

  * `Task`: a file revision to be parsed, and the key by which equal work is
    recognised;
  * `TaskResult`: how a task ended;
  * `PoolError`: why it gave no parse result, with its wording, and
    `TaskResult.toExcept`, which tells the two apart.
-/
import SourceIndex.ContentHash
import SourceIndex.Parse

namespace SourceIndex

/-- The number of a submission, which also names the task it starts. -/
abbrev TaskId := Nat

/-- What makes two tasks the same work. -/
structure TaskKey where
  path : String
  hash : ContentHash
  deriving DecidableEq

/-- A file revision to be parsed. -/
structure Task where
  id : TaskId
  path : String
  content : String
  hash : ContentHash
  timeoutMs : Nat
  deriving DecidableEq, Inhabited

namespace Task

/-- The task with a number for a revision. -/
def ofContent (id : TaskId) (path content : String) (timeoutMs : Nat) : Task :=
  ⟨id, path, content, ContentHash.ofText content, timeoutMs⟩

/-- The key of a task. -/
def key (t : Task) : TaskKey :=
  ⟨t.path, t.hash⟩

end Task

/-- How a task ended. -/
inductive TaskResult where
  | ok (result : ParseResult)
  /-- the parser rejected the file -/
  | rejected (error : ParserError)
  /-- the parser took too long -/
  | timedOut
  /-- the worker crashed -/
  | crashed (reason : String)
  /-- no worker could be started -/
  | unavailable (reason : String)
  /-- the pool was shut down before the task ended -/
  | cancelled
  deriving DecidableEq, Inhabited

/-- Why a task gave no parse result. -/
inductive PoolError where
  | timeout
  | workerCrashed (reason : String)
  | parse (source : ParserError)
  | workerStart (reason : String)
  | shutDown
  deriving DecidableEq, Inhabited

namespace PoolError

/-- The wording of an error. -/
def message : PoolError → String
  | timeout => "Parse task timed out"
  | workerCrashed reason => s!"Worker crashed while parsing: {reason}"
  | parse source => source.message
  | workerStart reason => s!"Failed to start parse worker: {reason}"
  | shutDown => "Worker pool is shut down"

/-- Timeouts and crashes say nothing about the file; another attempt may succeed. -/
def isTransient : PoolError → Bool
  | timeout => true
  | workerCrashed _ => true
  | _ => false

end PoolError

namespace TaskResult

/-- The parse result of a task, or why there is none. -/
def toExcept : TaskResult → Except PoolError ParseResult
  | ok result => .ok result
  | rejected error => .error (.parse error)
  | timedOut => .error .timeout
  | crashed reason => .error (.workerCrashed reason)
  | unavailable reason => .error (.workerStart reason)
  | cancelled => .error .shutDown

/-- Is there a parse result? -/
def isOk : TaskResult → Bool
  | ok _ => true
  | _ => false

end TaskResult

end SourceIndex
