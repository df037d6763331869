/-
  A parser that follows a script.

  * `Outcome`: what a call comes to, and whether it waits for its release;
  * `Script`: outcomes in turn for a path, or for a path with one content; the
    last outcome repeats;
  * `ScriptedParser`: a script with the calls so far and those still open;
  * `Bench`: a pool whose threads call a scripted parser.  `Bench.step?` takes the
    next action of some party, and `Bench.settle` goes on until nothing can move.
-/
import SourceIndex.Pool.Basic

namespace SourceIndex

/-- What a call of the scripted parser comes to. -/
inductive Outcome where
  | ok (symbols : List Symbol) (parseTimeMs : Nat)
  | malformed (message : String)
  | unsupported (extension : String)
  | other (message : String)
  | crash (reason : String)

/-- The outcome of a call for a file. -/
def Outcome.onFile (path : String) : Outcome → ParseOutcome
  | ok symbols parseTimeMs => .returned (.ok ⟨symbols, parseTimeMs⟩)
  | malformed message => .returned (.error (.malformed path message))
  | unsupported extension => .returned (.error (.unsupported path extension))
  | other message => .returned (.error (.other message))
  | crash reason => .crashed reason

/-- An outcome, and whether the call waits until it is released. -/
structure ScriptLine where
  outcome : Outcome
  gated : Bool := false

/-- The outcomes left for a rule; the last one repeats. -/
abbrev Script := Table (String × Option String) (List ScriptLine)

namespace Script

/-- The outcomes that are left after a call. -/
def rest : List ScriptLine → List ScriptLine
  | [] => []
  | [line] => [line]
  | _ :: lines => lines

/-- The outcome of a call, and the script after it.  A rule for the content goes
    before one for the path alone; without a rule there are no symbols. -/
def call (s : Script) (path content : String) : ScriptLine × Script :=
  let key := if s.contains (path, some content) then (path, some content) else (path, none)
  match s.get? key with
  | some (line :: lines) => (line, s.put key (rest (line :: lines)))
  | _ => ({ outcome := .ok [] 0 }, s)

end Script

/-- A call of the parser that has not ended. -/
structure Call where
  worker : WorkerId
  path : String
  content : String
  outcome : ParseOutcome
  gated : Bool

/-- A scripted parser and the calls of it. -/
structure ScriptedParser where
  script : Script := {}
  /-- the paths of all calls so far -/
  log : List String := []
  /-- the calls that have not ended, oldest first -/
  calls : List Call := []

/-- A pool whose threads call a scripted parser. -/
structure Bench extends ScriptedParser where
  pool : Pool

/-- Set the outcomes of a rule anew. -/
def ScriptedParser.setScript (p : ScriptedParser) (path : String) (content : Option String)
    (lines : List ScriptLine) : ScriptedParser :=
  { p with script := p.script.put (path, content) lines }

/-- Release the oldest gated call for a path, or for a path and a content;
    whether there was one. -/
def ScriptedParser.release (p : ScriptedParser) (path : String) (content : Option String) :
    Bool × ScriptedParser :=
  let meant := fun (c : Call) =>
    c.gated && c.path = path && (content.isNone || content = some c.content)
  match p.calls.find? meant with
  | none => (false, p)
  | some call =>
    (true,
      { p with
        calls := p.calls.map fun c => if c.worker = call.worker then { c with gated := false } else c })

/-- The paths of the gated calls, in order. -/
def ScriptedParser.blocked (p : ScriptedParser) : List String :=
  ((p.calls.filter (·.gated)).map (·.path)).mergeSort fun a b => !(b < a)

namespace Bench

/-- The task of the first timer that is due and has not gone off. -/
def dueTask? (b : Bench) : Option TaskId :=
  (b.pool.supervisor.timers.pairs.find? fun entry =>
    !entry.2.fired && entry.2.due ≤ b.pool.now).map (·.1)

/-- The job that has waited longest in the inbox of a thread. -/
def waitingJob? (b : Bench) : Option (WorkerId × Task) :=
  b.pool.supervisor.handed.find? fun job =>
    match b.pool.threads.get? job.1 with
    | some ⟨state, some task⟩ => state.isFree && task.id = job.2.id
    | _ => false

/-- Carry out an action of the pool, if it is possible. -/
def act (b : Bench) (action : PoolAction) : Option Bench :=
  (b.pool.act action).map fun pool => { b with pool }

/-- A thread takes its job and calls the parser. -/
def startCall (b : Bench) (worker : WorkerId) (job : Task) : Option Bench :=
  let (line, script) := b.script.call job.path job.content
  (b.act (.receive worker)).map fun b =>
    { b with
      script
      log := b.log ++ [job.path]
      calls := b.calls ++ [⟨worker, job.path, job.content, line.outcome.onFile job.path, line.gated⟩] }

/-- The call of a worker ends. -/
def endCall (b : Bench) (call : Call) : Option Bench :=
  (b.act (.finish call.worker call.outcome)).map fun b =>
    { b with calls := b.calls.filter (·.worker ≠ call.worker) }

/-- The first timer that is due goes off. -/
def fireDue? (b : Bench) : Option Bench :=
  b.dueTask?.bind fun task => b.act (.fire task)

/-- The next action of some party, timers apart: commands first, then calls that
    are not gated, then jobs, then events. -/
def next? (b : Bench) : Option Bench :=
  match b.act .takeCommand with
  | some b => some b
  | none =>
    match b.calls.find? (!·.gated) with
    | some call => b.endCall call
    | none =>
      match b.waitingJob? with
      | some (worker, job) => b.startCall worker job
      | none => b.act .takeEvent

/-- The next action of some party, if any can move: timers that are due come
    first. -/
def step? (b : Bench) : Option Bench :=
  b.fireDue?.or b.next?

/-- A bound on the number of actions until nothing can move: every command and
    task is taken, handed out, called, ended and answered once. -/
def bound (b : Bench) : Nat :=
  8 * (b.pool.commands.length + b.pool.events.length + b.pool.supervisor.tasks.size +
    b.calls.length + b.pool.threads.size + 1)

/-- Let all parties act until nothing can move, `n` actions at most. -/
def run : Nat → Bench → Bench
  | 0, b => b
  | n + 1, b =>
    match b.step? with
    | some b => run n b
    | none => b

/-- Let all parties act until nothing can move. -/
def settle (b : Bench) : Bench :=
  run b.bound b

end Bench

end SourceIndex
