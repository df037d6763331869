/-
  What each operation on the books of the pool does, case by case.

  * `startWorker_cases`, `retire_cases`, `enqueue_cases`, `note_cases`: the results of an
    operation, with what led to each;
  * `PoolEvent.worker`, `PoolEvent.task`, `PoolEvent.outcome`: what an event is about;
  * `dispatchLoop_induction`, `dispatch_induction`: what skipping a task or a worker,
    handing out a task and replacing a worker each keep holds after tasks were handed
    out.
-/
import SourceIndex.Pool.Supervisor

namespace SourceIndex

theorem StartPlan.reason_next (p : StartPlan) : p.next.2.reason = p.reason := by
  unfold next
  split
  · split <;> rfl
  · rfl

namespace Supervisor

variable {s : Supervisor}

/-- The books with a worker more, which is idle. -/
def withWorker (s : Supervisor) (starts : StartPlan) : Supervisor :=
  { s with
    starts
    nextWorker := s.nextWorker + 1
    workers := s.workers.put s.nextWorker .idle
    idle := s.idle ++ [s.nextWorker]
    stats := { s.stats with workers := (s.workers.put s.nextWorker .idle).size } }

/-- The books after a worker start was refused. -/
def withoutWorker (s : Supervisor) (starts : StartPlan) : Supervisor :=
  { s with starts, nextWorker := s.nextWorker + 1 }

theorem startWorker_cases (s : Supervisor) :
    ∃ starts, s.startWorker = (true, s.withWorker starts) ∨
      s.startWorker = (false, s.withoutWorker starts) := by
  unfold startWorker
  rcases s.starts.next with ⟨started, starts⟩
  refine ⟨starts, ?_⟩
  cases started with
  | true => exact Or.inl rfl
  | false => exact Or.inr rfl

theorem reason_startWorker (s : Supervisor) :
    s.startWorker.2.starts.reason = s.starts.reason := by
  have hnext := s.starts.reason_next
  unfold startWorker
  rcases hstarts : s.starts.next with ⟨started, starts⟩
  rw [hstarts] at hnext
  cases started with
  | true => exact hnext
  | false => exact hnext

/-- The books without a worker. -/
def dismiss (s : Supervisor) (worker : WorkerId) : Supervisor :=
  { s with workers := s.workers.erase worker, idle := s.idle.filter (· ≠ worker) }

/-- The books with the count of the workers brought up to date. -/
def recount (s : Supervisor) : Supervisor :=
  { s with stats := { s.stats with workers := s.workers.size } }

theorem retire_eq (s : Supervisor) (worker : WorkerId) :
    s.retire worker =
      match (s.dismiss worker).startWorker with
      | (true, s') => s'
      | (false, s') =>
        if s'.workers.isEmpty then
          refuseAll s'.starts.reason s'.queue { s'.recount with queue := [] }
        else s'.recount := rfl

/-- A worker that goes is replaced, or not replaced, or it was the last one and the
    queue is given up. -/
theorem retire_cases (s : Supervisor) (worker : WorkerId) :
    ∃ starts, s.retire worker = (s.dismiss worker).withWorker starts ∨
      s.retire worker = ((s.dismiss worker).withoutWorker starts).recount ∨
      (s.dismiss worker).workers.isEmpty = true ∧
        s.retire worker = refuseAll s.starts.reason s.queue
          { ((s.dismiss worker).withoutWorker starts).recount with queue := [] } := by
  obtain ⟨starts, h | h⟩ := startWorker_cases (s.dismiss worker)
  · rw [retire_eq, h]
    exact ⟨starts, Or.inl rfl⟩
  · have hreason : starts.reason = s.starts.reason := by
      have hkept := reason_startWorker (s.dismiss worker)
      rwa [h] at hkept
    rw [retire_eq, h, ← hreason]
    by_cases he : (s.dismiss worker).workers.isEmpty = true
    · exact ⟨starts, Or.inr (Or.inr ⟨he, if_pos he⟩)⟩
    · exact ⟨starts, Or.inr (Or.inl (if_neg he))⟩

/-- The books with a task more, which waits in the queue. -/
def withTask (s : Supervisor) (task : Task) : Supervisor :=
  { s with
    inFlight := s.inFlight.put task.key task.id
    tasks := s.tasks.put task.id { task, waiters := [task.id] }
    queue := s.queue ++ [task.id] }

/-- A submission joins a task on the books, becomes a task itself, or is refused as
    there is no worker. -/
theorem enqueue_cases (s : Supervisor) (task : Task) :
    (∃ id p, s.inFlight.get? task.key = some id ∧ s.tasks.get? id = some p ∧
        s.enqueue task = { s with
          tasks := s.tasks.put id { p with waiters := p.waiters ++ [task.id] }
          stats := { s.stats with deduplicated := s.stats.deduplicated + 1 } }) ∨
      s.workers.isEmpty = false ∧ s.enqueue task = s.withTask task ∨
      s.workers.isEmpty = true ∧
        ∃ starts, s.enqueue task = (s.withWorker starts).withTask task ∨
          s.enqueue task = { s.withoutWorker starts with
            answers := s.answers ++ [(task.id, .unavailable s.starts.reason)]
            stats := { s.stats with failed := s.stats.failed + 1 } } := by
  unfold enqueue
  dsimp only
  split
  · rename_i id p hj
    obtain ⟨id', hk, hp⟩ := Option.bind_eq_some_iff.1 hj
    obtain ⟨p', hp, he⟩ := Option.map_eq_some_iff.1 hp
    cases he
    exact Or.inl ⟨id, p, hk, hp, rfl⟩
  · refine Or.inr ?_
    by_cases hw : s.workers.isEmpty = true
    · refine Or.inr ⟨hw, ?_⟩
      obtain ⟨starts, h | h⟩ := startWorker_cases s
      · rw [if_pos hw, h]
        exact ⟨starts, Or.inl rfl⟩
      · have hreason : starts.reason = s.starts.reason := by
          have hkept := reason_startWorker s
          rwa [h] at hkept
        rw [if_pos hw, h, ← hreason]
        exact ⟨starts, Or.inr rfl⟩
    · rw [if_neg hw]
      exact Or.inl ⟨Bool.eq_false_iff.2 hw, rfl⟩

end Supervisor

/-! ## Events -/

/-- What the parser said about the file of a task, if the task ended that way. -/
def TaskResult.said? : TaskResult → Option (Except ParserError ParseResult)
  | ok result => some (.ok result)
  | rejected error => some (.error error)
  | _ => none

namespace PoolEvent

/-- The worker that an event names. -/
def worker : PoolEvent → WorkerId
  | finished worker _ _ => worker
  | crashed worker _ _ => worker
  | timedOut worker _ => worker

/-- The task that an event names. -/
def task : PoolEvent → TaskId
  | finished _ task _ => task
  | crashed _ task _ => task
  | timedOut _ task => task

/-- What those are told who wait for the task of an event. -/
def outcome : PoolEvent → TaskResult
  | finished _ _ (.ok parsed) => .ok parsed
  | finished _ _ (.error error) => .rejected error
  | crashed _ _ reason => .crashed reason
  | timedOut _ _ => .timedOut

/-- The counts with an event more. -/
def count (stats : PoolStats) : PoolEvent → PoolStats
  | finished _ _ (.ok _) => { stats with completed := stats.completed + 1 }
  | finished _ _ (.error _) => { stats with failed := stats.failed + 1 }
  | crashed _ _ _ => { stats with crashed := stats.crashed + 1 }
  | timedOut _ _ => { stats with timedOut := stats.timedOut + 1 }

@[simp] theorem active_count (stats : PoolStats) (event : PoolEvent) :
    (event.count stats).active = stats.active := by
  rcases event with ⟨_, _, _ | _⟩ | _ | _ <;> rfl

@[simp] theorem workers_count (stats : PoolStats) (event : PoolEvent) :
    (event.count stats).workers = stats.workers := by
  rcases event with ⟨_, _, _ | _⟩ | _ | _ <;> rfl

end PoolEvent

namespace Supervisor

variable {s : Supervisor}

theorem owns_iff {worker : WorkerId} {task : TaskId} :
    s.owns worker task = true ↔ s.workers.get? worker = some (.busy task) :=
  beq_iff_eq

/-- The books with a worker that waits for work again. -/
def reclaim (s : Supervisor) (worker : WorkerId) (stats : PoolStats) : Supervisor :=
  { s with workers := s.workers.put worker .idle, idle := s.idle ++ [worker], stats }

theorem get?_reclaim (worker : WorkerId) (stats : PoolStats) (w : WorkerId) :
    (s.reclaim worker stats).workers.get? w =
      if worker = w then some .idle else s.workers.get? w :=
  Table.get?_put _ _ _ _

/-- An event is late, or it frees its worker and ends its task with what the parser
    said, or its worker is replaced and its task ends without a result. -/
theorem note_cases (s : Supervisor) (event : PoolEvent) :
    s.owns event.worker event.task = false ∧ s.note event = s ∨
      s.owns event.worker event.task = true ∧
        ((∃ said, event = .finished event.worker event.task said ∧
          event.outcome.said? = some said ∧
          s.note event = (s.reclaim event.worker (event.count s.stats)).finish event.task
            event.outcome) ∨
        event.outcome.said? = none ∧
          s.note event = (({ s with stats := event.count s.stats } : Supervisor).retire
            event.worker).finish event.task event.outcome) := by
  by_cases ho : s.owns event.worker event.task = true
  · refine Or.inr ⟨ho, ?_⟩
    cases event with
    | finished worker task result =>
      cases result with
      | ok parsed => exact Or.inl ⟨_, rfl, rfl, if_pos ho⟩
      | error error => exact Or.inl ⟨_, rfl, rfl, if_pos ho⟩
    | crashed worker task reason => exact Or.inr ⟨rfl, if_pos ho⟩
    | timedOut worker task => exact Or.inr ⟨rfl, if_pos ho⟩
  · refine Or.inl ⟨Bool.eq_false_iff.2 ho, ?_⟩
    cases event <;> exact if_neg ho

/-! ## The reason of a refused start -/

theorem starts_resolve (s : Supervisor) (id : TaskId) (outcome : TaskResult) :
    (s.resolve id outcome).starts = s.starts := by
  unfold resolve
  split <;> rfl

theorem starts_refuseAll (reason : String) (ids : List TaskId) (s : Supervisor) :
    (refuseAll reason ids s).starts = s.starts := by
  induction ids generalizing s with
  | nil => rfl
  | cons id ids ih => rw [refuseAll, ih, starts_resolve]

/-- The reason that the system gives is its own: nothing that the supervisor does changes
    it. -/
theorem reason_retire (s : Supervisor) (worker : WorkerId) :
    (s.retire worker).starts.reason = s.starts.reason := by
  have hkept := reason_startWorker (s.dismiss worker)
  obtain ⟨starts, h | h⟩ := startWorker_cases (s.dismiss worker)
  · rw [h] at hkept
    rw [retire_eq, h]
    exact hkept
  · rw [h] at hkept
    rw [retire_eq, h]
    dsimp only
    split
    · rw [starts_refuseAll]
      exact hkept
    · exact hkept

theorem reason_enqueue (s : Supervisor) (task : Task) :
    (s.enqueue task).starts.reason = s.starts.reason := by
  have hkept := reason_startWorker s
  unfold enqueue
  dsimp only
  split
  · rfl
  · by_cases hw : s.workers.isEmpty = true
    · rw [if_pos hw]
      split <;> exact hkept
    · rw [if_neg hw]
      rfl

theorem reason_note (s : Supervisor) (event : PoolEvent) :
    (s.note event).starts.reason = s.starts.reason := by
  rcases note_cases s event with ⟨-, he⟩ | ⟨-, ⟨said, -, -, he⟩ | ⟨-, he⟩⟩
  · rw [he]
  · rw [he, finish, starts_resolve]
    rfl
  · rw [he, finish, starts_resolve]
    exact reason_retire _ _

/-! ## Handing out tasks -/

section
variable {P : Supervisor → Prop} (accepts : WorkerId → Bool) (now : Nat)
  (hskip : ∀ {s task queue}, P s → s.queue = task :: queue → s.tasks.get? task = none →
    P { s with queue })
  (hpass : ∀ {s worker idle}, P s → s.idle = worker :: idle → s.workers.get? worker = none →
    P { s with idle })
  (hassign : ∀ {s task queue worker idle p state}, P s → s.queue = task :: queue →
    s.idle = worker :: idle → s.tasks.get? task = some p → s.workers.get? worker = some state →
    P (s.assign now worker p.task))
  (hretire : ∀ {s worker idle state}, P s → s.idle = worker :: idle →
    s.workers.get? worker = some state → accepts worker = false →
    P (({ s with idle } : Supervisor).retire worker))
include hskip hpass hassign hretire

/-- What every round of handing out tasks keeps holds after all of them. -/
theorem dispatchLoop_induction (n : Nat) (h : P s) : P (dispatchLoop accepts now n s) := by
  induction n generalizing s with
  | zero => exact h
  | succ n ih =>
    unfold dispatchLoop
    split
    · rename_i task queue worker idle hq hi
      split
      · rename_i ht
        exact ih (hskip h hq ht)
      rename_i p hp
      split
      · rename_i hw
        exact ih (hpass h hi hw)
      rename_i state hw
      split
      · exact ih (hassign h hq hi hp hw)
      · rename_i ha
        exact ih (hretire h hi hw (Bool.eq_false_iff.2 ha))
    · exact h

/-- Handing out tasks also keeps what does not depend on the counts. -/
theorem dispatch_induction (hstats : ∀ {s stats}, P s → P { s with stats }) (h : P s) :
    P (s.dispatch accepts now) :=
  hstats (dispatchLoop_induction accepts now hskip hpass hassign hretire _ h)

end

end Supervisor

end SourceIndex
