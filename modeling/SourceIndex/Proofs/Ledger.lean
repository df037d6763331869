/-
  What the operations on the books do to the ledger: the tasks, their keys, the answers
  and the jobs handed out.

  * `get?_resolve`, `sent_resolve`: an answer, by the task and by those who wait for it;
  * `SameLedger`: a change that leaves the ledger as it is;
  * `ledger_retire`, `ledger_dispatch`, `ledger_note`, `ledger_stop`: what survives such
    changes, a job handed out and the answers that an operation gives holds after the
    operation;
  * `LedgerInvariant`: what survives every change of the ledger, and holds after a run;
  * `enqueue_of_shared`, `enqueue_of_new`: what a submission does, by whether its work is
    under way.
-/
import SourceIndex.Proofs.Books

namespace SourceIndex.Supervisor

variable {s : Supervisor} {id : TaskId} {p : Pending} {task : Task}

/-! ## Answers -/

theorem resolve_of_none (hp : s.tasks.get? id = none) (outcome : TaskResult) :
    s.resolve id outcome = s := by
  rw [resolve, hp]

theorem get?_resolve (s : Supervisor) (id i : TaskId) (outcome : TaskResult) :
    (s.resolve id outcome).tasks.get? i = if id = i then none else s.tasks.get? i := by
  cases hp : s.tasks.get? id with
  | none =>
    rw [resolve_of_none hp]
    by_cases he : id = i
    · rw [if_pos he, ← he]
      exact hp
    · rw [if_neg he]
  | some p =>
    rw [resolve, hp]
    exact Table.get?_erase _ _ _

theorem sent_resolve (hp : s.tasks.get? id = some p) (outcome : TaskResult) (v : TaskId) :
    (s.resolve id outcome).sent v = s.sent v ++ List.replicate (p.waiters.count v) outcome := by
  have hfilter : ∀ waiters : List TaskId,
      ((waiters.map fun waiter => (waiter, outcome)).filter (·.1 = v)).map (·.2) =
        List.replicate (waiters.count v) outcome := by
    intro waiters
    induction waiters with
    | nil => rfl
    | cons w waiters ih =>
      by_cases hw : w = v
      · simp [hw, ih, List.replicate_succ]
      · simp [hw, ih]
  rw [resolve, hp]
  simp only [sent, List.filter_append, List.map_append, hfilter]

/-! ## Operations -/

/-- The ledger stays as it is. -/
structure SameLedger (s s' : Supervisor) : Prop where
  tasks : s'.tasks = s.tasks
  inFlight : s'.inFlight = s.inFlight
  answers : s'.answers = s.answers
  handed : s'.handed = s.handed

section
variable {P : Supervisor → Prop} (hsame : ∀ {s s'}, P s → SameLedger s s' → P s')
include hsame

section
variable {reason : String} (hrefuse : ∀ {s} id, P s → P (s.resolve id (.unavailable reason)))
include hrefuse

theorem ledger_refuseAll (ids : List TaskId) (h : P s) : P (refuseAll reason ids s) := by
  induction ids generalizing s with
  | nil => exact h
  | cons id ids ih =>
    have hcounted : P { s with stats := { s.stats with failed := s.stats.failed + 1 } } :=
      hsame h ⟨rfl, rfl, rfl, rfl⟩
    exact ih (hrefuse id hcounted)

/-- Replacing a worker answers nothing but that no worker could be started, for the reason
    that the system gives. -/
theorem ledger_retire (worker : WorkerId) (h : P s) (hr : s.starts.reason = reason) :
    P (s.retire worker) := by
  obtain ⟨starts, he | he | ⟨-, he⟩⟩ := retire_cases s worker
  · rw [he]
    exact hsame h ⟨rfl, rfl, rfl, rfl⟩
  · rw [he]
    exact hsame h ⟨rfl, rfl, rfl, rfl⟩
  · rw [he, hr]
    refine ledger_refuseAll hsame hrefuse _ ?_
    exact hsame h ⟨rfl, rfl, rfl, rfl⟩

theorem ledger_dispatch (hassign : ∀ {s id p} now worker, s.tasks.get? id = some p → P s →
      P (s.assign now worker p.task)) (accepts : WorkerId → Bool) (now : Nat)
    (hr : s.starts.reason = reason) (h : P s) : P (s.dispatch accepts now) := by
  refine (dispatch_induction (P := fun s => s.starts.reason = reason ∧ P s) accepts now
    ?_ ?_ ?_ ?_ ?_ ⟨hr, h⟩).2
  · rintro s task queue ⟨hr, hs⟩ hq ht
    exact ⟨hr, hsame hs ⟨rfl, rfl, rfl, rfl⟩⟩
  · rintro s worker idle ⟨hr, hs⟩ hi hw
    exact ⟨hr, hsame hs ⟨rfl, rfl, rfl, rfl⟩⟩
  · rintro s task queue worker idle p state ⟨hr, hs⟩ hq hi hp hw
    exact ⟨hr, hassign now worker hp hs⟩
  · rintro s worker idle state ⟨hr, hs⟩ hi hw ha
    refine ⟨(reason_retire _ _).trans hr, ledger_retire hsame hrefuse worker ?_ hr⟩
    exact hsame hs ⟨rfl, rfl, rfl, rfl⟩
  · rintro s stats ⟨hr, hs⟩
    exact ⟨hr, hsame hs ⟨rfl, rfl, rfl, rfl⟩⟩

/-- An event answers its own task, and only if it comes from the worker that has it. -/
theorem ledger_note (event : PoolEvent)
    (hend : s.owns event.worker event.task = true → ∀ {s'}, P s' →
      P (s'.resolve event.task event.outcome)) (hr : s.starts.reason = reason) (h : P s) :
    P (s.note event) := by
  rcases note_cases s event with ⟨-, he⟩ | ⟨howns, ⟨said, -, -, he⟩ | ⟨-, he⟩⟩
  · rw [he]
    exact h
  · rw [he]
    refine hend howns ?_
    exact hsame h ⟨rfl, rfl, rfl, rfl⟩
  · have hcounted : P { s with stats := event.count s.stats } := hsame h ⟨rfl, rfl, rfl, rfl⟩
    have hretired := ledger_retire hsame hrefuse event.worker hcounted hr
    rw [he]
    refine hend howns ?_
    exact hsame hretired ⟨rfl, rfl, rfl, rfl⟩

end

theorem ledger_stop (hcancel : ∀ {s} id, P s → P (s.resolve id .cancelled)) (h : P s) :
    P s.stop := by
  have hall : ∀ (ids : List TaskId) {s : Supervisor}, P s → P (cancelAll ids s) := by
    intro ids
    induction ids with
    | nil => intro s hs; exact hs
    | cons id ids ih => intro s hs; exact ih (hcancel id hs)
  have hstart : P { s with timers := {} } := hsame h ⟨rfl, rfl, rfl, rfl⟩
  exact hsame (hall s.tasks.keys hstart) ⟨rfl, rfl, rfl, rfl⟩

end

/-- `P` survives every change of the ledger, where `done` are the submissions so far. -/
structure LedgerInvariant (P : List TaskId → Supervisor → Prop) : Prop where
  same : ∀ {done s s'}, P done s → SameLedger s s' → P done s'
  resolve : ∀ {done s} id outcome, P done s → P done (s.resolve id outcome)
  assign : ∀ {done s id p} now worker, s.tasks.get? id = some p → P done s →
    P done (s.assign now worker p.task)
  enqueue : ∀ {done s task}, task.id ∉ done → P done s → P (done ++ [task.id]) (s.enqueue task)

namespace LedgerInvariant

variable {P : List TaskId → Supervisor → Prop} {done : List TaskId} {s : Supervisor}

theorem dispatch (hP : LedgerInvariant P) (h : P done s) (accepts : WorkerId → Bool) (now : Nat) :
    P done (s.dispatch accepts now) :=
  ledger_dispatch hP.same (fun id => hP.resolve id _) hP.assign accepts now rfl h

theorem note (hP : LedgerInvariant P) (h : P done s) (event : PoolEvent) : P done (s.note event) :=
  ledger_note hP.same (fun id => hP.resolve id _) event (fun _ => hP.resolve _ _) rfl h

theorem stop (hP : LedgerInvariant P) (h : P done s) : P done s.stop :=
  ledger_stop hP.same (fun id => hP.resolve id _) h

theorem run (hP : LedgerInvariant P) (h : P done s) {ms : List Message}
    (hn : (done ++ submissions ms).Nodup) : P (done ++ submissions ms) (s.run ms) := by
  refine run_induction (P := P) ?_ ?_ ?_ ?_ h hn
  · intro done s accepts now task hnew hs
    exact hP.dispatch (hP.enqueue hnew hs) accepts now
  · intro done s accepts now event hs
    exact hP.dispatch (hP.note hs event) accepts now
  · intro done s hs
    exact hP.stop hs
  · intro done s starts timers hs
    exact hP.same hs ⟨rfl, rfl, rfl, rfl⟩

end LedgerInvariant

theorem sameLedger_startWorker (s : Supervisor) : s.SameLedger s.startWorker.2 := by
  obtain ⟨starts, he | he⟩ := startWorker_cases s
  · rw [he]
    exact ⟨rfl, rfl, rfl, rfl⟩
  · rw [he]
    exact ⟨rfl, rfl, rfl, rfl⟩

/-! ## Submissions -/

/-- The books with one more submission that waits for a task. -/
def join (s : Supervisor) (id : TaskId) (p : Pending) (new : TaskId) : Supervisor :=
  { s with
    tasks := s.tasks.put id { p with waiters := p.waiters ++ [new] }
    stats := { s.stats with deduplicated := s.stats.deduplicated + 1 } }

/-- The books after a submission was refused, as no worker could be started. -/
def turnAway (s : Supervisor) (id : TaskId) : Supervisor :=
  { s.withoutWorker s.starts.next.2 with
    answers := s.answers ++ [(id, .unavailable s.starts.reason)]
    stats := { s.stats with failed := s.stats.failed + 1 } }

/-- A submission of work that is under way waits for it. -/
theorem enqueue_of_shared (hkey : s.inFlight.get? task.key = some id)
    (hp : s.tasks.get? id = some p) : s.enqueue task = s.join id p task.id := by
  simp [enqueue, join, hkey, hp]

/-- A submission of other work becomes a task.  Without any worker one is started first,
    and if that fails the submission is refused. -/
theorem enqueue_of_new (hkey : s.inFlight.get? task.key = none) :
    s.enqueue task =
      if s.workers.isEmpty then
        if s.starts.next.1 then (s.withWorker s.starts.next.2).withTask task
        else s.turnAway task.id
      else s.withTask task := by
  unfold enqueue startWorker
  simp only [hkey, Option.bind_none]
  by_cases hw : s.workers.isEmpty = true
  · have hreason := s.starts.reason_next
    rcases hnext : s.starts.next with ⟨started, starts⟩
    rw [hnext] at hreason
    cases started with
    | true => simp [hw, withWorker, withTask]
    | false => simpa [hw, turnAway, withoutWorker, hnext] using hreason
  · simp [hw, withTask]

end SourceIndex.Supervisor
