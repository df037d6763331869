/-
  The books of the worker pool, and how every message changes them.

  Tasks wait in a queue, first in first out, and are handed to workers that are
  idle.  A submission of work that is under way joins it.  A task that takes too
  long, or whose worker crashes, is answered so and its worker is replaced.

  * `Supervisor`: workers, idle workers, queue, tasks with those who wait for
    them, timers and counters, and everything answered and handed out so far;
  * `Supervisor.submit`, `Supervisor.handle`, `Supervisor.stop`: the changes by a
    submission, by an event and by a shutdown; the first two end by handing out
    tasks as long as there are both tasks and idle workers.
-/
import SourceIndex.Pool.Task
import SourceIndex.Table

namespace SourceIndex

/-- The number of a worker; none is used twice. -/
abbrev WorkerId := Nat

/-- What a worker on the books does. -/
inductive WorkerState where
  | idle
  | busy (task : TaskId)
  deriving DecidableEq, Inhabited

/-- A task that is not answered yet, and the submissions that wait for it. -/
structure Pending where
  task : Task
  waiters : List TaskId
  deriving DecidableEq, Inhabited

/-- The limit on a task that a worker has: when it is due, and whether it has
    gone off. -/
structure Timer where
  worker : WorkerId
  due : Nat
  fired : Bool := false
  deriving DecidableEq, Inhabited

/-- What the system will say to the next worker starts: the first `skip` succeed,
    the next `refuse` fail for the reason given, and all later ones succeed. -/
structure StartPlan where
  skip : Nat := 0
  refuse : Nat := 0
  reason : String := "Resource temporarily unavailable (os error 11)"
  deriving DecidableEq, Inhabited

/-- The answer to the next worker start, whether it succeeds, and the plan after
    it. -/
def StartPlan.next (p : StartPlan) : Bool × StartPlan :=
  if 0 < p.refuse then
    if 0 < p.skip then (true, { p with skip := p.skip - 1 })
    else (false, { p with refuse := p.refuse - 1 })
  else (true, p)

/-- Counts of what the pool holds and has done. -/
structure PoolStats where
  workers : Nat := 0
  queued : Nat := 0
  active : Nat := 0
  completed : Nat := 0
  failed : Nat := 0
  timedOut : Nat := 0
  crashed : Nat := 0
  deduplicated : Nat := 0
  cancelled : Nat := 0
  deriving DecidableEq, Inhabited

/-- A message from a worker or a timer. -/
inductive PoolEvent where
  | finished (worker : WorkerId) (task : TaskId) (result : Except ParserError ParseResult)
  | crashed (worker : WorkerId) (task : TaskId) (reason : String)
  | timedOut (worker : WorkerId) (task : TaskId)

/-- The books of the pool. -/
structure Supervisor where
  workers : Table WorkerId WorkerState := {}
  idle : List WorkerId := []
  queue : List TaskId := []
  tasks : Table TaskId Pending := {}
  inFlight : Table TaskKey TaskId := {}
  timers : Table TaskId Timer := {}
  nextWorker : WorkerId := 0
  stats : PoolStats := {}
  starts : StartPlan := {}
  /-- every answer sent, to which submission, in order -/
  answers : List (TaskId × TaskResult) := []
  /-- every task handed to a worker, in order -/
  handed : List (WorkerId × Task) := []
  deriving Inhabited

namespace Supervisor

/-! ## Workers -/

/-- Start a worker, which is idle then; whether that succeeded. -/
def startWorker (s : Supervisor) : Bool × Supervisor :=
  let (started, starts) := s.starts.next
  let s := { s with starts, nextWorker := s.nextWorker + 1 }
  if started then
    let id := s.nextWorker - 1
    let workers := s.workers.put id .idle
    (true,
      { s with
        workers
        idle := s.idle ++ [id]
        stats := { s.stats with workers := workers.size } })
  else (false, s)

/-- Start `n` workers, up to the first one that cannot be started; whether all
    could. -/
def startWorkers : Nat → Supervisor → Bool × Supervisor
  | 0, s => (true, s)
  | n + 1, s =>
    match s.startWorker with
    | (true, s) => startWorkers n s
    | (false, s) => (false, s)

/-- Does the worker have the task? -/
def owns (s : Supervisor) (worker : WorkerId) (task : TaskId) : Bool :=
  s.workers.get? worker == some (.busy task)

/-! ## Answers -/

/-- Answer a task: all who wait for it get the outcome, and it leaves the books. -/
def resolve (s : Supervisor) (task : TaskId) (outcome : TaskResult) : Supervisor :=
  match s.tasks.get? task with
  | none => s
  | some pending =>
    let key := pending.task.key
    { s with
      tasks := s.tasks.erase task
      inFlight := if s.inFlight.get? key = some task then s.inFlight.erase key else s.inFlight
      answers := s.answers ++ pending.waiters.map fun waiter => (waiter, outcome) }

/-- Answer a task that a worker had. -/
def finish (s : Supervisor) (task : TaskId) (outcome : TaskResult) : Supervisor :=
  { s with
    timers := s.timers.erase task
    stats := { s.stats with active := s.stats.active - 1 } }.resolve task outcome

/-- Answer tasks that no worker will ever take. -/
def refuseAll (reason : String) : List TaskId → Supervisor → Supervisor
  | [], s => s
  | task :: tasks, s =>
    refuseAll reason tasks
      ({ s with stats := { s.stats with failed := s.stats.failed + 1 } }.resolve task
        (.unavailable reason))

/-- Take a worker off the books and start another one in its place.  If that
    fails and no worker is left, the tasks in the queue are answered. -/
def retire (s : Supervisor) (worker : WorkerId) : Supervisor :=
  let s := { s with workers := s.workers.erase worker, idle := s.idle.filter (· ≠ worker) }
  match s.startWorker with
  | (true, s) => s
  | (false, s) =>
    let s := { s with stats := { s.stats with workers := s.workers.size } }
    if s.workers.isEmpty then refuseAll s.starts.reason s.queue { s with queue := [] } else s

/-! ## Handing out tasks -/

/-- Hand a task to an idle worker.  Its time counts from now. -/
def assign (s : Supervisor) (now : Nat) (worker : WorkerId) (task : Task) : Supervisor :=
  { s with
    workers := s.workers.put worker (.busy task.id)
    idle := s.idle.tail
    queue := s.queue.tail
    timers := s.timers.put task.id { worker, due := now + task.timeoutMs }
    stats := { s.stats with active := s.stats.active + 1 }
    handed := s.handed ++ [(worker, task)] }

/-- Hand out tasks, oldest first, to idle workers, longest idle first.  A worker
    that does not take its task is replaced. -/
def dispatchLoop (accepts : WorkerId → Bool) (now : Nat) : Nat → Supervisor → Supervisor
  | 0, s => s
  | n + 1, s =>
    match s.queue, s.idle with
    | task :: queue, worker :: idle =>
      match s.tasks.get? task with
      | none => dispatchLoop accepts now n { s with queue }
      | some pending =>
        match s.workers.get? worker with
        | none => dispatchLoop accepts now n { s with idle }
        | some _ =>
          if accepts worker then dispatchLoop accepts now n (s.assign now worker pending.task)
          else dispatchLoop accepts now n ({ s with idle }.retire worker)
    | _, _ => s

/-- Hand out tasks as long as there are both tasks and idle workers.  Each round
    takes a task off the queue, or a worker off the idle ones for good. -/
def dispatch (accepts : WorkerId → Bool) (now : Nat) (s : Supervisor) : Supervisor :=
  let s := dispatchLoop accepts now (s.queue.length + 2 * s.idle.length) s
  { s with stats := { s.stats with queued := s.queue.length } }

/-! ## Messages -/

/-- Put a task on the books: join work under way, or queue the task.  Without any
    worker one is started first. -/
def enqueue (s : Supervisor) (task : Task) : Supervisor :=
  let joined := (s.inFlight.get? task.key).bind fun id =>
    (s.tasks.get? id).map fun pending => (id, pending)
  match joined with
  | some (id, pending) =>
    { s with
      tasks := s.tasks.put id { pending with waiters := pending.waiters ++ [task.id] }
      stats := { s.stats with deduplicated := s.stats.deduplicated + 1 } }
  | none =>
    let (ready, s) := if s.workers.isEmpty then s.startWorker else (true, s)
    if ready then
      { s with
        inFlight := s.inFlight.put task.key task.id
        tasks := s.tasks.put task.id { task, waiters := [task.id] }
        queue := s.queue ++ [task.id] }
    else
      { s with
        answers := s.answers ++ [(task.id, .unavailable s.starts.reason)]
        stats := { s.stats with failed := s.stats.failed + 1 } }

/-- Take note of an event.  One that comes from a worker without that task is
    late and changes nothing. -/
def note (s : Supervisor) : PoolEvent → Supervisor
  | .finished worker task result =>
    if s.owns worker task then
      let s := { s with workers := s.workers.put worker .idle, idle := s.idle ++ [worker] }
      match result with
      | .ok parsed =>
        { s with stats := { s.stats with completed := s.stats.completed + 1 } }.finish task
          (.ok parsed)
      | .error error =>
        { s with stats := { s.stats with failed := s.stats.failed + 1 } }.finish task
          (.rejected error)
    else s
  | .crashed worker task reason =>
    if s.owns worker task then
      let s := { s with stats := { s.stats with crashed := s.stats.crashed + 1 } }
      (s.retire worker).finish task (.crashed reason)
    else s
  | .timedOut worker task =>
    if s.owns worker task then
      let s := { s with stats := { s.stats with timedOut := s.stats.timedOut + 1 } }
      (s.retire worker).finish task .timedOut
    else s

/-- What a submission does. -/
def submit (accepts : WorkerId → Bool) (now : Nat) (s : Supervisor) (task : Task) : Supervisor :=
  (s.enqueue task).dispatch accepts now

/-- What an event does. -/
def handle (accepts : WorkerId → Bool) (now : Nat) (s : Supervisor) (event : PoolEvent) :
    Supervisor :=
  (s.note event).dispatch accepts now

/-- Answer tasks that are cancelled. -/
def cancelAll : List TaskId → Supervisor → Supervisor
  | [], s => s
  | task :: tasks, s => cancelAll tasks (s.resolve task .cancelled)

/-- Cancel everything and let all workers go. -/
def stop (s : Supervisor) : Supervisor :=
  let outstanding := s.tasks.keys
  let s := cancelAll outstanding { s with timers := {} }
  { s with
    queue := []
    workers := {}
    idle := []
    stats :=
      { s.stats with
        cancelled := s.stats.cancelled + outstanding.length
        active := 0
        workers := 0
        queued := 0 } }

end Supervisor

end SourceIndex
