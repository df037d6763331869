/-
  Sessions on a worker pool.

  A session owns a pool with a scripted parser and the handles of its
  submissions, each under a tag.  After each operation the pool is left to act
  until nothing can move; then the submissions that are settled are handed over.

  * `PoolOp`, `PoolReply`: the operations and what they answer;
  * `PoolSession.step`: carry out one operation.
-/
import SourceIndex.Script

namespace SourceIndex

/-- An operation of a session on a pool. -/
inductive PoolOp (ι : Type) where
  | script (path : String) (content : Option String) (lines : List ScriptLine)
  | release (path : String) (content : Option String)
  | calls
  | advance (ms : Nat)
  | plan (starts : StartPlan)
  | submit (tag : ι) (path content : String)
  | shutdown
  | dropPool
  | dropHandle (tag : ι)

/-- What an operation of a session answers. -/
inductive PoolReply where
  | done
  | released (yes : Bool)
  | calls (paths : List String)
  | refused (error : PoolError)
  | noPool
  | dropped (count : Nat)

/-- A pool, and the open handles by tag, in order of submission. -/
structure PoolSession (ι : Type) where
  bench : Bench
  handles : List (ι × TaskId) := []

/-- What shows after an operation.  A dropped pool shows no counts. -/
structure PoolView (ι : Type) where
  reply : PoolReply
  settled : List (ι × TaskResult)
  blocked : List String
  stats : Option PoolStats
  shutDown : Option Bool

namespace PoolSession

variable {ι : Type}

/-- A session on a new pool. -/
def start (settings : PoolSettings) (starts : StartPlan) : Except PoolError (PoolSession ι) :=
  (Pool.start settings starts).map fun pool => { bench := { pool } }

/-- The session with an action of the pool carried out, if it is possible. -/
def act (s : PoolSession ι) (action : PoolAction) : PoolSession ι :=
  { s with bench := (s.bench.act action).getD s.bench }

/-- The session with another state of its parser. -/
def withParser (s : PoolSession ι) (parser : ScriptedParser) : PoolSession ι :=
  { s with bench := { s.bench with toScriptedParser := parser } }

/-- Was the pool dropped? -/
def isDropped (s : PoolSession ι) : Bool :=
  s.bench.pool.status = .dropped

/-- Carry out an operation, without letting the pool act. -/
def apply [BEq ι] (s : PoolSession ι) : PoolOp ι → PoolReply × PoolSession ι
  | .script path content lines => (.done, s.withParser (s.bench.setScript path content lines))
  | .release path content =>
    let (yes, parser) := s.bench.release path content
    (.released yes, s.withParser parser)
  | .calls => (.calls s.bench.log, s)
  | .advance ms => (.done, s.act (.advance ms))
  | .plan starts => (.done, s.act (.plan starts))
  | .submit tag path content =>
    if s.isDropped then (.noPool, s)
    else
      match s.bench.pool.submit path content with
      | .error error => (.refused error, s)
      | .ok (id, pool) =>
        (.done,
          { s with bench := { s.bench with pool }, handles := s.handles ++ [(tag, id)] })
  | .shutdown =>
    if s.isDropped then (.noPool, s)
    else (.done, (s.act .requestShutdown).act (.plan {}))
  | .dropPool => (.done, s.act .drop)
  | .dropHandle tag =>
    let kept := s.handles.filter (!·.1 == tag)
    (.dropped (s.handles.length - kept.length), { s with handles := kept })

/-- Hand over the submissions that are settled. -/
def collect (s : PoolSession ι) : List (ι × TaskResult) × PoolSession ι :=
  (s.handles.filterMap fun h => (s.bench.pool.outcome? h.2).map fun outcome => (h.1, outcome),
    { s with handles := s.handles.filter fun h => (s.bench.pool.outcome? h.2).isNone })

/-- Carry out an operation, let the pool act, and show what came of it. -/
def step [BEq ι] (s : PoolSession ι) (op : PoolOp ι) : PoolView ι × PoolSession ι :=
  let (reply, s) := s.apply op
  let (settled, s) := { s with bench := s.bench.settle }.collect
  let pool := s.bench.pool
  ({ reply
     settled
     blocked := s.bench.blocked
     stats := if s.isDropped then none else some pool.supervisor.stats
     shutDown := if s.isDropped then none else some pool.isShutDown }, s)

end PoolSession

end SourceIndex
