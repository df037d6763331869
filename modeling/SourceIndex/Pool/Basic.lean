/-
  The worker pool: the supervisor, its worker threads and the channels between
  them, under a clock.

  Each step of the pool is one action of one party: the supervisor takes a
  command or an event, a thread takes its job or ends its parse, a timer goes
  off.  The parties act in any order; the order that a session takes is chosen
  elsewhere.

  * `Thread`: what a worker thread does; retired ones stay until their parse ends;
  * `Pool`: all parties, the commands and events on their way, and the time;
  * `PoolAction`, `Pool.act`: the actions, each of which may be impossible now;
  * `Pool.outcome?`: the answer to a submission, as far as there is one.
-/
import SourceIndex.Pool.Supervisor
import SourceIndex.Settings

namespace SourceIndex

/-- What the call of a parser came to. -/
inductive ParseOutcome where
  | returned (result : Except ParserError ParseResult)
  | crashed (reason : String)

/-- What a worker thread is at. -/
inductive ThreadState where
  /-- on its way to its inbox, from its start or from its last report -/
  | coming
  /-- at its inbox, which was empty when it came -/
  | waiting
  | parsing (job : Task)
  | exited
  deriving DecidableEq, Inhabited

/-- Is the next thing that a thread does to take a job from its inbox? -/
def ThreadState.isFree : ThreadState → Bool
  | .coming | .waiting => true
  | .parsing _ | .exited => false

/-- A worker thread and its inbox, which holds one job at most. -/
structure Thread where
  state : ThreadState := .coming
  inbox : Option Task := none
  deriving DecidableEq, Inhabited

/-- Can a job be put into the inbox of a thread? -/
def Thread.accepts (t : Thread) : Bool :=
  t.inbox.isNone && t.state != .exited

/-- A message to the supervisor. -/
inductive PoolCommand where
  | submit (task : Task)
  | shutdown
  deriving DecidableEq

/-- Whether the supervisor runs. -/
inductive PoolStatus where
  | running
  /-- it was shut down -/
  | stopped
  /-- it was dropped with everything on its books -/
  | dropped
  deriving DecidableEq, Inhabited

/-- The pool with all its parties. -/
structure Pool where
  settings : PoolSettings
  supervisor : Supervisor := {}
  status : PoolStatus := .running
  commands : List PoolCommand := []
  events : List PoolEvent := []
  threads : Table WorkerId Thread := {}
  now : Nat := 0
  lastTask : TaskId := 0

/-- An action of one party of the pool, or of its surroundings. -/
inductive PoolAction where
  /-- a caller submits a revision -/
  | submit (path content : String)
  /-- a caller asks for a shutdown -/
  | requestShutdown
  /-- the owner drops the pool -/
  | drop
  /-- the supervisor takes the next command -/
  | takeCommand
  /-- the supervisor takes the next event -/
  | takeEvent
  /-- a thread comes to its inbox, finds it empty and waits -/
  | wait (worker : WorkerId)
  /-- a thread takes the job from its inbox -/
  | receive (worker : WorkerId)
  /-- the parse of a thread ends -/
  | finish (worker : WorkerId) (outcome : ParseOutcome)
  /-- a thread whose worker was retired ends -/
  | leave (worker : WorkerId)
  /-- the timer of a task goes off -/
  | fire (task : TaskId)
  /-- time passes -/
  | advance (ms : Nat)
  /-- the system changes its mind on worker starts -/
  | plan (starts : StartPlan)

namespace Pool

/-! ## Threads -/

/-- Does a worker take a job?  One that was started just now does. -/
def accepts (p : Pool) (worker : WorkerId) : Bool :=
  match p.threads.get? worker with
  | some thread => thread.accepts
  | none => true

/-- Put a job into the inbox of a thread. -/
def deliver (threads : Table WorkerId Thread) (job : WorkerId × Task) : Table WorkerId Thread :=
  threads.put job.1 { (threads.get? job.1).getD {} with inbox := some job.2 }

/-- The threads with one for each worker that has none yet. -/
def spawn (threads : Table WorkerId Thread) (workers : List WorkerId) : Table WorkerId Thread :=
  workers.foldl (fun ts w => if ts.contains w then ts else ts.put w {}) threads

/-- The pool with new books: threads for new workers, jobs into their inboxes. -/
def withBooks (p : Pool) (s : Supervisor) : Pool :=
  let fresh := s.handed.drop p.supervisor.handed.length
  { p with supervisor := s, threads := fresh.foldl deliver (spawn p.threads s.workers.keys) }

/-! ## Actions -/

/-- A pool with its workers started; at least one. -/
def start (settings : PoolSettings) (starts : StartPlan) : Except PoolError Pool :=
  let count := max settings.workerCount 1
  match Supervisor.startWorkers count { starts } with
  | (true, s) =>
    let p : Pool := { settings := { settings with workerCount := count } }
    .ok (p.withBooks s)
  | (false, _) => .error (.workerStart starts.reason)

/-- Submit a revision; the number of the submission. -/
def submit (p : Pool) (path content : String) : Except PoolError (TaskId × Pool) :=
  if p.status = .running then
    let id := p.lastTask + 1
    let task := Task.ofContent id path content p.settings.taskTimeoutMs
    .ok (id, { p with commands := p.commands ++ [.submit task], lastTask := id })
  else .error .shutDown

/-- Ask for a shutdown; nothing happens if the pool has stopped. -/
def requestShutdown (p : Pool) : Pool :=
  if p.status = .running then { p with commands := p.commands ++ [.shutdown] } else p

/-- The supervisor takes a command. -/
def obey (p : Pool) : PoolCommand → Pool
  | .submit task => p.withBooks (p.supervisor.submit p.accepts p.now task)
  | .shutdown =>
    { p with supervisor := p.supervisor.stop, status := .stopped, commands := [], events := [] }

/-- The supervisor takes an event. -/
def hear (p : Pool) (event : PoolEvent) : Pool :=
  p.withBooks (p.supervisor.handle p.accepts p.now event)

/-- A thread tells the supervisor how its parse ended, and has yet to get back to its
    inbox.  It exits if it crashed, or if nobody listens any more. -/
def report (p : Pool) (worker : WorkerId) (thread : Thread) (job : Task) (outcome : ParseOutcome) :
    Pool :=
  let after := fun state => p.threads.put worker { thread with state }
  if p.status = .running then
    match outcome with
    | .returned result =>
      { p with
        threads := after .coming
        events := p.events ++ [.finished worker job.id result] }
    | .crashed reason =>
      { p with
        threads := after .exited
        events := p.events ++ [.crashed worker job.id reason] }
  else { p with threads := after .exited }

/-- Carry out an action, if it is possible now. -/
def act (p : Pool) : PoolAction → Option Pool
  | .submit path content =>
    match p.submit path content with
    | .ok (_, p) => some p
    | .error _ => none
  | .requestShutdown => some p.requestShutdown
  | .drop => some { p with status := .dropped, commands := [], events := [] }
  | .takeCommand =>
    match p.status, p.commands with
    | .running, command :: commands => some ({ p with commands }.obey command)
    | _, _ => none
  | .takeEvent =>
    match p.status, p.events with
    | .running, event :: events => some ({ p with events }.hear event)
    | _, _ => none
  | .wait worker =>
    match p.threads.get? worker with
    | some ⟨.coming, none⟩ => some { p with threads := p.threads.put worker ⟨.waiting, none⟩ }
    | _ => none
  | .receive worker =>
    match p.threads.get? worker with
    | some ⟨state, some job⟩ =>
      if state.isFree then some { p with threads := p.threads.put worker ⟨.parsing job, none⟩ }
      else none
    | _ => none
  | .finish worker outcome =>
    match p.threads.get? worker with
    | some thread =>
      match thread.state with
      | .parsing job => some (p.report worker thread job outcome)
      | _ => none
    | none => none
  | .leave worker =>
    match p.threads.get? worker with
    | some ⟨state, none⟩ =>
      if state.isFree && !p.supervisor.workers.contains worker then
        some { p with threads := p.threads.put worker ⟨.exited, none⟩ }
      else none
    | _ => none
  | .fire task =>
    match p.status, p.supervisor.timers.get? task with
    | .running, some timer =>
      if !timer.fired && timer.due ≤ p.now then
        let timers := p.supervisor.timers.put task { timer with fired := true }
        some
          { p with
            supervisor := { p.supervisor with timers }
            events := p.events ++ [.timedOut timer.worker task] }
      else none
    | _, _ => none
  | .advance ms => some { p with now := p.now + ms }
  | .plan starts => some { p with supervisor := { p.supervisor with starts } }

/-! ## Answers -/

/-- The first answer sent to a submission. -/
def answer? (p : Pool) (id : TaskId) : Option TaskResult :=
  (p.supervisor.answers.find? (·.1 = id)).map (·.2)

/-- The outcome of a submission.  One that can no longer be answered is
    cancelled. -/
def outcome? (p : Pool) (id : TaskId) : Option TaskResult :=
  match p.answer? id with
  | some outcome => some outcome
  | none => if p.status = .running then none else some .cancelled

/-- Has the pool been shut down? -/
def isShutDown (p : Pool) : Bool :=
  p.status != .running

end Pool

end SourceIndex
