/-
  The threads of the pool and its books.

  Threads crash, take too long and are replaced.  A worker on the books nevertheless has
  just the task on its hands that the books say.

  * `Pool.thread`: the thread of a worker, `Pool.underway` the tasks on its hands: in its
    inbox, with its parser or in an event that it sent;
  * `Pool.Linked`: for every worker on the books these are the one task it has there;
  * `Link.free`, `Link.accepts`: so an idle worker waits for a job, or is about to, and takes
    what it is given;
  * `Pool.Tended`, `Tended.party`: what holds of a pool at any time, also while tasks are
    handed out;
  * `Pool.InOrder`, `InOrder.step`, `inOrder_run`: what holds of it between messages.
-/
import SourceIndex.Proofs.Parties
import SourceIndex.Proofs.Settled

namespace SourceIndex

/-- Does an event come from the worker it names?  Timers name a worker, too. -/
def PoolEvent.isReport : PoolEvent → Bool
  | timedOut _ _ => false
  | _ => true

/-- Is it the supervisor that acts? -/
def PoolAction.bySupervisor : PoolAction → Bool
  | takeCommand | takeEvent => true
  | _ => false

/-! ## Numbers and jobs -/

namespace Supervisor

variable {s : Supervisor}

/-- The jobs handed out are the same, and the next worker has the number `n`. -/
structure Framed (s : Supervisor) (n : Nat) (s' : Supervisor) : Prop where
  handed : s'.handed = s.handed
  next : s'.nextWorker = n

theorem framed_resolve (s : Supervisor) (id : TaskId) (outcome : TaskResult) :
    s.Framed s.nextWorker (s.resolve id outcome) := by
  unfold resolve
  split <;> exact ⟨rfl, rfl⟩

theorem framed_refuseAll (reason : String) (ids : List TaskId) (s : Supervisor) :
    s.Framed s.nextWorker (refuseAll reason ids s) := by
  induction ids generalizing s with
  | nil => exact ⟨rfl, rfl⟩
  | cons id ids ih =>
    have hone := framed_resolve
      { s with stats := { s.stats with failed := s.stats.failed + 1 } } id (.unavailable reason)
    have hrest := ih ({ s with
      stats := { s.stats with failed := s.stats.failed + 1 } }.resolve id (.unavailable reason))
    exact ⟨hrest.handed.trans hone.handed, hrest.next.trans hone.next⟩

theorem framed_stop (s : Supervisor) : s.Framed s.nextWorker s.stop := by
  have hall : ∀ (ids : List TaskId) (s : Supervisor), s.Framed s.nextWorker (cancelAll ids s) := by
    intro ids
    induction ids with
    | nil => exact fun s => ⟨rfl, rfl⟩
    | cons id ids ih =>
      intro s
      have hone := framed_resolve s id .cancelled
      have hrest := ih (s.resolve id .cancelled)
      exact ⟨hrest.handed.trans hone.handed, hrest.next.trans hone.next⟩
  have hcancelled := hall s.tasks.keys { s with timers := {} }
  exact ⟨hcancelled.handed, hcancelled.next⟩

theorem framed_retire (s : Supervisor) (worker : WorkerId) :
    s.Framed (s.nextWorker + 1) (s.retire worker) := by
  obtain ⟨starts, he | he | ⟨-, he⟩⟩ := retire_cases s worker
  · rw [he]
    exact ⟨rfl, rfl⟩
  · rw [he]
    exact ⟨rfl, rfl⟩
  · have hrest := framed_refuseAll s.starts.reason s.queue
      { ((s.dismiss worker).withoutWorker starts).recount with queue := [] }
    rw [he]
    exact ⟨hrest.handed, hrest.next⟩

theorem framed_enqueue (s : Supervisor) (task : Task) :
    ∃ n, s.nextWorker ≤ n ∧ n ≤ s.nextWorker + 1 ∧ s.Framed n (s.enqueue task) := by
  rcases enqueue_cases s task with ⟨id, p, -, -, he⟩ | ⟨-, he⟩ | ⟨-, starts, he | he⟩
  · rw [he]
    exact ⟨s.nextWorker, Nat.le_refl _, Nat.le_succ _, rfl, rfl⟩
  · rw [he]
    exact ⟨s.nextWorker, Nat.le_refl _, Nat.le_succ _, rfl, rfl⟩
  · rw [he]
    exact ⟨s.nextWorker + 1, Nat.le_succ _, Nat.le_refl _, rfl, rfl⟩
  · rw [he]
    exact ⟨s.nextWorker + 1, Nat.le_succ _, Nat.le_refl _, rfl, rfl⟩

theorem framed_note (s : Supervisor) (event : PoolEvent) :
    ∃ n, s.nextWorker ≤ n ∧ n ≤ s.nextWorker + 1 ∧ s.Framed n (s.note event) := by
  rcases note_cases s event with ⟨-, he⟩ | ⟨-, ⟨said, -, -, he⟩ | ⟨-, he⟩⟩
  · rw [he]
    exact ⟨s.nextWorker, Nat.le_refl _, Nat.le_succ _, rfl, rfl⟩
  · have hfinish := framed_resolve { s.reclaim event.worker (event.count s.stats) with
      timers := s.timers.erase event.task
      stats := { event.count s.stats with active := (event.count s.stats).active - 1 } }
      event.task event.outcome
    rw [he]
    exact ⟨s.nextWorker, Nat.le_refl _, Nat.le_succ _, hfinish.handed, hfinish.next⟩
  · have hretire := framed_retire { s with stats := event.count s.stats } event.worker
    generalize ({ s with stats := event.count s.stats } : Supervisor).retire event.worker = s₁
      at he hretire
    have hfinish := framed_resolve { s₁ with
      timers := s₁.timers.erase event.task
      stats := { s₁.stats with active := s₁.stats.active - 1 } } event.task event.outcome
    rw [he]
    exact ⟨s.nextWorker + 1, Nat.le_succ _, Nat.le_refl _, hfinish.handed.trans hretire.handed,
      hfinish.next.trans hretire.next⟩

/-- A worker that goes leaves the others as they are, and at most one new one is idle. -/
theorem get?_retire {worker w : WorkerId} {state : WorkerState}
    (h : (s.retire worker).workers.get? w = some state) :
    w ≠ worker ∧ s.workers.get? w = some state ∨ w = s.nextWorker ∧ state = .idle := by
  have hold : ∀ {state}, (s.workers.erase worker).get? w = some state →
      w ≠ worker ∧ s.workers.get? w = some state := by
    intro state hw
    rw [Table.get?_erase] at hw
    split at hw
    · cases hw
    · rename_i hne
      exact ⟨Ne.symm hne, hw⟩
  obtain ⟨starts, he | he | ⟨-, he⟩⟩ := retire_cases s worker
  · rw [he] at h
    rcases Table.get?_of_put h with ⟨rfl, rfl⟩ | ⟨-, h⟩
    · exact Or.inr ⟨rfl, rfl⟩
    · exact Or.inl (hold h)
  · rw [he] at h
    exact Or.inl (hold h)
  · rw [he, (sameStaff_refuseAll _ _ _).workers] at h
    exact Or.inl (hold h)

end Supervisor

/-! ## Threads -/

/-- The job that a thread parses. -/
def ThreadState.job? : ThreadState → Option Task
  | .parsing job => some job
  | _ => none

theorem ThreadState.job?_of_isFree {state : ThreadState} (h : state.isFree = true) :
    state.job? = none := by
  cases state with
  | coming | waiting | exited => rfl
  | parsing job => cases h

theorem ThreadState.ne_exited_of_isFree {state : ThreadState} (h : state.isFree = true) :
    state ≠ .exited := by
  rintro rfl
  cases h

namespace Pool

variable {p : Pool} {s : Supervisor} {w : WorkerId} {state : WorkerState}
  {threads : Table WorkerId Thread} {workers : List WorkerId} {t : Thread}
  {jobs : List (WorkerId × Task)}

/-- The thread of a worker.  One that was not started yet waits for its first job. -/
def thread (p : Pool) (w : WorkerId) : Thread :=
  (p.threads.get? w).getD {}

/-- The tasks that a worker tells about in events that are on their way. -/
def reports (events : List PoolEvent) (w : WorkerId) : List TaskId :=
  (events.filter fun e => e.isReport && e.worker == w).map (·.task)

/-- The tasks that a worker has on its hands. -/
def underway (p : Pool) (w : WorkerId) : List TaskId :=
  ((p.thread w).inbox.toList ++ (p.thread w).state.job?.toList).map (·.id) ++ reports p.events w

theorem accepts_eq (p : Pool) (w : WorkerId) : p.accepts w = (p.thread w).accepts := by
  unfold accepts thread
  cases p.threads.get? w with
  | none => rfl
  | some t => rfl

theorem get?_spawn (h : threads.get? w = some t) (workers : List WorkerId) :
    (spawn threads workers).get? w = some t := by
  unfold spawn
  induction workers generalizing threads with
  | nil => exact h
  | cons worker workers ih =>
    refine ih ?_
    by_cases hc : threads.contains worker = true
    · simpa [hc] using h
    · have hne : worker ≠ w := by
        rintro rfl
        simp [Table.contains, h] at hc
      simpa [hc, Table.get?_put, hne] using h

theorem get?_spawn_new {workers : List WorkerId} (hw : w ∈ workers) (h : threads.get? w = none) :
    (spawn threads workers).get? w = some {} := by
  induction workers generalizing threads with
  | nil => cases hw
  | cons worker workers ih =>
    by_cases hne : worker = w
    · subst hne
      refine get?_spawn ?_ workers
      simp [Table.contains, h]
    · refine ih (List.mem_of_ne_of_mem (Ne.symm hne) hw) ?_
      by_cases hc : threads.contains worker = true
      · simpa [hc] using h
      · simpa [hc, Table.get?_put, hne] using h

theorem get?_deliver_of_notMem (hw : w ∉ jobs.map (·.1)) (threads : Table WorkerId Thread) :
    (jobs.foldl deliver threads).get? w = threads.get? w := by
  induction jobs generalizing threads with
  | nil => rfl
  | cons job jobs ih =>
    simp only [List.map_cons, List.mem_cons, not_or] at hw
    rw [List.foldl_cons, ih hw.2, deliver, Table.get?_put, if_neg (Ne.symm hw.1)]

theorem get?_deliver_of_mem (hn : (jobs.map (·.1)).Nodup) {job : WorkerId × Task} (hj : job ∈ jobs)
    (threads : Table WorkerId Thread) : (jobs.foldl deliver threads).get? job.1 =
      some { (threads.get? job.1).getD {} with inbox := some job.2 } := by
  induction jobs generalizing threads with
  | nil => cases hj
  | cons first jobs ih =>
    rw [List.map_cons, List.nodup_cons] at hn
    rw [List.foldl_cons]
    rcases List.mem_cons.1 hj with rfl | hj
    · rw [get?_deliver_of_notMem hn.1, deliver, Table.get?_put_self]
    · have hne : first.1 ≠ job.1 := fun he => hn.1 (he ▸ List.mem_map_of_mem hj)
      rw [ih hn.2 hj, deliver, Table.get?_put, if_neg hne]

theorem get?_spawn_of_notMem (hw : w ∉ workers) :
    (spawn threads workers).get? w = threads.get? w := by
  unfold spawn
  induction workers generalizing threads with
  | nil => rfl
  | cons worker workers ih =>
    simp only [List.mem_cons, not_or] at hw
    rw [List.foldl_cons, ih hw.2]
    split
    · rfl
    · rw [Table.get?_put, if_neg (Ne.symm hw.1)]

theorem getD_spawn (threads : Table WorkerId Thread) (workers : List WorkerId) (w : WorkerId) :
    ((spawn threads workers).get? w).getD {} = (threads.get? w).getD {} := by
  cases ht : threads.get? w with
  | some t => rw [get?_spawn ht]
  | none =>
    by_cases hw : w ∈ workers
    · rw [get?_spawn_new hw ht]
      rfl
    · rw [get?_spawn_of_notMem hw, ht]

theorem contains_deliver (hw : threads.contains w = true) (jobs : List (WorkerId × Task)) :
    (jobs.foldl deliver threads).contains w = true := by
  induction jobs generalizing threads with
  | nil => exact hw
  | cons job jobs ih =>
    refine ih ?_
    unfold Table.contains at hw ⊢
    rw [deliver, Table.get?_put]
    split
    · rfl
    · exact hw

theorem contains_put (hw : threads.contains w = true) (worker : WorkerId) (t : Thread) :
    (threads.put worker t).contains w = true := by
  unfold Table.contains at hw ⊢
  rw [Table.get?_put]
  split
  · rfl
  · exact hw

theorem contains_withBooks (p : Pool) (hw : w ∈ s.workers.keys) :
    (p.withBooks s).threads.contains w = true := by
  refine contains_deliver ?_ _
  unfold Table.contains
  cases ht : p.threads.get? w with
  | some t => rw [get?_spawn ht]; rfl
  | none => rw [get?_spawn_new hw ht]; rfl

theorem spawn_of_contains (h : ∀ w ∈ workers, threads.contains w = true) :
    spawn threads workers = threads := by
  unfold spawn
  induction workers with
  | nil => rfl
  | cons worker workers ih =>
    rw [List.foldl_cons, if_pos (h worker List.mem_cons_self)]
    exact ih fun w hw => h w (List.mem_cons_of_mem _ hw)

theorem withBooks_self (h : ∀ w ∈ p.supervisor.workers.keys, p.threads.contains w = true) :
    p.withBooks p.supervisor = p := by
  rw [withBooks, spawn_of_contains h, List.drop_length]
  rfl

section
variable (hh : s.handed = p.supervisor.handed ++ jobs)
include hh

theorem thread_withBooks_of_notMem (hw : w ∉ jobs.map (·.1)) :
    (p.withBooks s).thread w = p.thread w := by
  simp only [thread, withBooks, hh, List.drop_left]
  rw [get?_deliver_of_notMem hw, getD_spawn]

theorem thread_withBooks_of_mem (hn : (jobs.map (·.1)).Nodup) {job : WorkerId × Task}
    (hj : job ∈ jobs) :
    (p.withBooks s).thread job.1 = { p.thread job.1 with inbox := some job.2 } := by
  simp only [thread, withBooks, hh, List.drop_left]
  rw [get?_deliver_of_mem hn hj, Option.getD_some, getD_spawn]

end

/-! ## Workers and what they have on their hands -/

/-- A worker has the task on its hands that the books say, and if its thread has gone, an
    event tells so. -/
structure Link (p : Pool) (w : WorkerId) (state : WorkerState) : Prop where
  underway : p.underway w = state.task?.toList
  exited : (p.thread w).state = .exited → ∃ task reason, .crashed w task reason ∈ p.events

theorem mem_reports {events : List PoolEvent} {id : TaskId} :
    id ∈ reports events w ↔ ∃ e ∈ events, e.isReport = true ∧ e.worker = w ∧ e.task = id := by
  simp [reports, and_assoc]

namespace Link

variable {p' : Pool} {job : Task}

theorem congr (h : p.Link w state) (ht : p'.thread w = p.thread w) (he : p'.events = p.events) :
    p'.Link w state := by
  constructor
  · rw [Pool.underway, ht, he]
    exact h.underway
  · rw [ht, he]
    exact h.exited

/-- An idle worker has nothing on its hands: its thread is at its inbox or on its way
    there, the inbox is empty, and no report of it is on its way. -/
theorem free (h : p.Link w .idle) :
    (p.thread w).state.isFree = true ∧ (p.thread w).inbox = none ∧ reports p.events w = [] := by
  have hnone := h.underway
  simp only [Pool.underway, WorkerState.task?, Option.toList_none, List.append_eq_nil_iff,
    List.map_eq_nil_iff, Option.toList_eq_nil_iff] at hnone
  obtain ⟨⟨hinbox, hjob⟩, hreports⟩ := hnone
  refine ⟨?_, hinbox, hreports⟩
  cases hstate : (p.thread w).state with
  | coming | waiting => rfl
  | parsing job =>
    rw [hstate] at hjob
    cases hjob
  | exited =>
    obtain ⟨task, reason, hm⟩ := h.exited hstate
    have hmem : task ∈ reports p.events w := mem_reports.2 ⟨_, hm, rfl, rfl, rfl⟩
    rw [hreports] at hmem
    cases hmem

theorem accepts (h : p.Link w .idle) : p.accepts w = true := by
  obtain ⟨hfree, hinbox, -⟩ := h.free
  rw [accepts_eq, Thread.accepts, hinbox]
  simpa using ThreadState.ne_exited_of_isFree hfree

theorem deliver (h : p.Link w .idle) (ht : p'.thread w = { p.thread w with inbox := some job })
    (he : p'.events = p.events) : p'.Link w (.busy job.id) := by
  obtain ⟨hfree, -, hreports⟩ := h.free
  constructor
  · rw [Pool.underway, ht, he, hreports, ThreadState.job?_of_isFree hfree]
    rfl
  · intro hgone
    rw [ht] at hgone
    exact (ThreadState.ne_exited_of_isFree hfree hgone).elim

theorem wait (h : p.Link w state) (ht : p.thread w = ⟨.coming, none⟩)
    (ht' : p'.thread w = ⟨.waiting, none⟩) (he : p'.events = p.events) : p'.Link w state := by
  constructor
  · have hold := h.underway
    rw [Pool.underway, ht] at hold
    rw [Pool.underway, ht', he]
    exact hold
  · intro hgone
    rw [ht'] at hgone
    cases hgone

theorem receive (h : p.Link w state) {old : ThreadState} (hfree : old.isFree = true)
    (ht : p.thread w = ⟨old, some job⟩) (ht' : p'.thread w = ⟨.parsing job, none⟩)
    (he : p'.events = p.events) : p'.Link w state := by
  constructor
  · have hold := h.underway
    rw [Pool.underway, ht, ThreadState.job?_of_isFree hfree] at hold
    rw [Pool.underway, ht', he]
    exact hold
  · intro hgone
    rw [ht'] at hgone
    cases hgone

theorem finish (h : p.Link w state) {inbox : Option Task} {outcome : ParseOutcome}
    (ht : p.thread w = ⟨.parsing job, inbox⟩) (ht' : p'.thread w = ⟨outcome.next, inbox⟩)
    (he : p'.events = p.events ++ [outcome.event w job.id]) : p'.Link w state := by
  have hreport : (outcome.event w job.id).isReport = true ∧
      (outcome.event w job.id).worker = w ∧ (outcome.event w job.id).task = job.id := by
    cases outcome with
    | returned result => exact ⟨rfl, rfl, rfl⟩
    | crashed reason => exact ⟨rfl, rfl, rfl⟩
  have hidle : outcome.next.job? = none := by
    cases outcome with
    | returned result => rfl
    | crashed reason => rfl
  constructor
  · -- the job was all that the worker had on its hands
    have hold := h.underway
    rw [Pool.underway, ht] at hold
    cases state with
    | idle => simp [ThreadState.job?, WorkerState.task?] at hold
    | busy id =>
      cases inbox with
      | some other => simp [ThreadState.job?, WorkerState.task?] at hold
      | none =>
        simp only [ThreadState.job?, WorkerState.task?, Option.toList_none, Option.toList_some,
          List.nil_append, List.map_cons, List.map_nil, List.cons_append, List.cons.injEq] at hold
        obtain ⟨hid, hnone⟩ := hold
        have hreports : reports p'.events w = [job.id] := by
          rw [he, reports, List.filter_append, List.map_append]
          rw [reports] at hnone
          simp [hnone, hreport]
        rw [Pool.underway, ht', hreports]
        simp [hidle, hid, WorkerState.task?]
  · intro hgone
    rw [ht'] at hgone
    cases outcome with
    | returned result => cases hgone
    | crashed reason => exact ⟨job.id, reason, by simp [he, ParseOutcome.event]⟩

variable {event : PoolEvent} {events : List PoolEvent}

theorem push (h : p.Link w state) (ht : p'.thread w = p.thread w)
    (he : p'.events = p.events ++ [event]) (hother : event.isReport = true → event.worker ≠ w) :
    p'.Link w state := by
  have hskip : (event.isReport && event.worker == w) = false := by
    cases hreport : event.isReport with
    | false => rfl
    | true => simp [hother hreport]
  constructor
  · have hold := h.underway
    rw [Pool.underway] at hold
    rw [Pool.underway, ht, he, ← hold, reports, List.filter_append, List.filter_cons, hskip]
    simp [reports]
  · intro hgone
    rw [ht] at hgone
    obtain ⟨task, reason, hm⟩ := h.exited hgone
    exact ⟨task, reason, he ▸ List.mem_append_left _ hm⟩

theorem pop (h : p.Link w state) (he : p.events = event :: events)
    (hother : event.isReport = true → event.worker ≠ w) :
    ({ p with events } : Pool).Link w state := by
  have hskip : (event.isReport && event.worker == w) = false := by
    cases hreport : event.isReport with
    | false => rfl
    | true => simp [hother hreport]
  constructor
  · have hold := h.underway
    rw [Pool.underway, he, reports, List.filter_cons, hskip] at hold
    exact hold
  · intro hgone
    obtain ⟨task, reason, hm⟩ := h.exited hgone
    rw [he] at hm
    rcases List.mem_cons.1 hm with rfl | hm
    · exact (hother rfl rfl).elim
    · exact ⟨task, reason, hm⟩

/-- A worker that tells about a task has just that one. -/
theorem told (h : p.Link event.worker state) (he : p.events = event :: events)
    (hreport : event.isReport = true) :
    state = .busy event.task ∧ ({ p with events } : Pool).underway event.worker = [] := by
  have hold := h.underway
  have htake : (event.isReport && event.worker == event.worker) = true := by simp [hreport]
  rw [Pool.underway, he, reports, List.filter_cons, htake, if_pos rfl, List.map_cons] at hold
  cases state with
  | idle => simp [WorkerState.task?] at hold
  | busy id =>
    simp only [WorkerState.task?, Option.toList_some, List.append_eq_singleton_iff,
      List.cons.injEq, reduceCtorEq, and_false, or_false] at hold
    obtain ⟨hnone, rfl, hrest⟩ := hold
    exact ⟨rfl, List.append_eq_nil_iff.2 ⟨hnone, hrest⟩⟩

theorem freed (h : p.Link event.worker state) (he : p.events = event :: events)
    {said : Except ParserError ParseResult}
    (hsaid : event = .finished event.worker event.task said) :
    ({ p with events } : Pool).Link event.worker .idle := by
  have hreport : event.isReport = true := by rw [hsaid]; rfl
  obtain ⟨-, hnone⟩ := h.told he hreport
  refine ⟨hnone, ?_⟩
  intro hgone
  obtain ⟨task, reason, hm⟩ := h.exited hgone
  rw [he] at hm
  rcases List.mem_cons.1 hm with hm | hm
  · rw [hsaid] at hm
    cases hm
  · exact ⟨task, reason, hm⟩

end Link

/-- Every worker on the books `s` has the task on its hands that they say. -/
def Linked (p : Pool) (s : Supervisor) : Prop :=
  ∀ w state, s.workers.get? w = some state → p.Link w state

namespace Linked

theorem congr (h : p.Linked s) {p' : Pool} (ht : p'.threads = p.threads)
    (he : p'.events = p.events) : p'.Linked s := by
  intro w state hw
  refine (h w state hw).congr ?_ he
  rw [thread, thread, ht]

theorem enqueue (h : p.Linked s) (hnew : p.Link s.nextWorker .idle) (task : Task) :
    p.Linked (s.enqueue task) := by
  intro w state hw
  rcases s.enqueue_cases task with ⟨id, q, -, -, he⟩ | ⟨-, he⟩ | ⟨-, starts, he | he⟩
  · rw [he] at hw
    exact h w state hw
  · rw [he] at hw
    exact h w state hw
  · rw [he] at hw
    rcases Table.get?_of_put hw with ⟨rfl, rfl⟩ | ⟨-, hw⟩
    · exact hnew
    · exact h w state hw
  · rw [he] at hw
    exact h w state hw

theorem note {event : PoolEvent} {events : List PoolEvent} (h : p.Linked s)
    (he : p.events = event :: events)
    (hnew : ({ p with events } : Pool).Link s.nextWorker .idle) :
    ({ p with events } : Pool).Linked (s.note event) := by
  intro w state hw
  rcases s.note_cases event with ⟨hlate, hnote⟩ | ⟨howns, ⟨said, hsaid, -, hnote⟩ | ⟨-, hnote⟩⟩
  · rw [hnote] at hw
    refine (h w state hw).pop he ?_
    -- an event from a worker on the books is not late
    rintro hreport rfl
    obtain ⟨rfl, -⟩ := (h _ state hw).told he hreport
    rw [Supervisor.owns_iff.2 hw] at hlate
    cases hlate
  · rw [hnote, (Supervisor.finish_spec _ _ _).1, Supervisor.get?_reclaim] at hw
    split at hw
    · rename_i hself
      cases hw
      exact hself ▸ (h _ _ (Supervisor.owns_iff.1 howns)).freed he hsaid
    · rename_i hne
      exact (h w state hw).pop he fun _ => hne
  · rw [hnote, (Supervisor.finish_spec _ _ _).1] at hw
    rcases Supervisor.get?_retire hw with ⟨hne, hw⟩ | ⟨rfl, rfl⟩
    · exact (h w state hw).pop he fun _ => Ne.symm hne
    · exact hnew

theorem dispatch (h : p.Linked s) (hh : s.handed = p.supervisor.handed)
    (hn : s.idle.Nodup) (hidle : ∀ w ∈ s.idle, s.workers.get? w = some .idle) :
    (p.withBooks (s.dispatch p.accepts p.now)).Linked (s.dispatch p.accepts p.now) := by
  obtain ⟨jobs, hj⟩ := Supervisor.exists_handout hn p.now fun w hw => (h w _ (hidle w hw)).accepts
  have hfresh := hj.handed
  rw [hh] at hfresh
  intro w state hw
  by_cases hm : w ∈ jobs.map (·.1)
  · obtain ⟨job, hjob, rfl⟩ := List.mem_map.1 hm
    rw [hj.busy job hjob] at hw
    cases hw
    have hfree := h _ _ (hidle _ (hj.job_idle job hjob))
    exact hfree.deliver (thread_withBooks_of_mem hfresh hj.jobs_nodup hjob) rfl
  · rw [hj.others w hm] at hw
    exact (h w state hw).congr (thread_withBooks_of_notMem hfresh hm) rfl

end Linked

theorem link_of_unborn (ht : p.threads.get? w = none)
    (he : ∀ e ∈ p.events, e.isReport = true → e.worker ≠ w) : p.Link w .idle := by
  have hthread : p.thread w = {} := by rw [thread, ht]; rfl
  constructor
  · have hreports : reports p.events w = [] := by
      rw [List.eq_nil_iff_forall_not_mem]
      intro id hid
      obtain ⟨e, hm, hreport, hw, -⟩ := mem_reports.1 hid
      exact he e hm hreport hw
    rw [underway, hthread, hreports]
    rfl
  · intro hgone
    rw [hthread] at hgone
    cases hgone

end Pool

/-! ## The pool at any time -/

/-- The number of the submission that a command carries. -/
def PoolCommand.task? : PoolCommand → Option TaskId
  | submit task => some task.id
  | shutdown => none

namespace Pool

variable {p p' : Pool} {done : List TaskId} {s : Supervisor} {worker : WorkerId}

/-- The numbers of the submissions that the supervisor has not taken yet. -/
def awaiting (p : Pool) : List TaskId :=
  p.commands.filterMap PoolCommand.task?

/-- The books are kept well, submissions have numbers of their own, and workers are numbered
    in the order of their starts.  The supervisor may be about to hand out tasks. -/
structure Tended (done : List TaskId) (p : Pool) : Prop where
  kept : p.supervisor.Kept done
  ids : (done ++ p.awaiting).Nodup
  le : ∀ id ∈ done ++ p.awaiting, id ≤ p.lastTask
  unborn : ∀ w, p.supervisor.nextWorker ≤ w → p.threads.get? w = none
  reported : ∀ e ∈ p.events, e.isReport = true → e.worker < p.supervisor.nextWorker
  housed : ∀ w ∈ p.supervisor.workers.keys, p.threads.contains w = true
  linked : p.status = .running → p.Linked p.supervisor

/-- The same between messages, when the books are in order. -/
structure InOrder (done : List TaskId) (p : Pool) : Prop extends Tended done p where
  books : p.supervisor.InOrder done

/-- The books are replaced by new ones, from which some jobs are handed out. -/
theorem tended_withBooks (hk : s.Kept done) (hids : (done ++ p.awaiting).Nodup)
    (hle : ∀ id ∈ done ++ p.awaiting, id ≤ p.lastTask)
    (hunborn : ∀ w, s.nextWorker ≤ w → p.threads.get? w = none)
    (hreported : ∀ e ∈ p.events, e.isReport = true → e.worker < s.nextWorker)
    {jobs : List (WorkerId × Task)} (hh : s.handed = p.supervisor.handed ++ jobs)
    (hjobs : ∀ job ∈ jobs, job.1 < s.nextWorker) (hlinked : (p.withBooks s).Linked s) :
    (p.withBooks s).Tended done := by
  refine ⟨hk, hids, hle, ?_, hreported, fun w hw => contains_withBooks p hw, fun _ => hlinked⟩
  intro w hw
  have hlt : ¬ w < s.nextWorker := Nat.not_lt.2 hw
  simp only [withBooks, hh, List.drop_left]
  rw [get?_deliver_of_notMem, get?_spawn_of_notMem]
  · exact hunborn w hw
  · exact fun hmem => hlt (hk.books.worker_lt w hmem)
  · intro hmem
    obtain ⟨job, hjob, rfl⟩ := List.mem_map.1 hmem
    exact hlt (hjobs job hjob)

/-- Tasks are handed out from new books `s`, and no worker is started for that. -/
theorem inOrder_dispatch (hk : s.Kept done) (hi : s.KeysAgree ∧ s.Jobs (·.id ∈ done))
    (hm : s.Manned) (hids : (done ++ p.awaiting).Nodup) (hle : ∀ id ∈ done ++ p.awaiting, id ≤ p.lastTask)
    (hunborn : ∀ w, s.nextWorker ≤ w → p.threads.get? w = none)
    (hreported : ∀ e ∈ p.events, e.isReport = true → e.worker < s.nextWorker) (hlinked : p.Linked s)
    (hh : s.handed = p.supervisor.handed) :
    (p.withBooks (s.dispatch p.accepts p.now)).InOrder done ∧
      (s.dispatch p.accepts p.now).nextWorker = s.nextWorker := by
  have hidle : ∀ w ∈ s.idle, s.workers.get? w = some .idle := fun w => (hk.roster.mem_idle w).1
  have haccepts : ∀ w ∈ s.idle, p.accepts w = true := fun w hw =>
    (hlinked w _ (hidle w hw)).accepts
  have hnext := (Supervisor.dispatch_of_accepts p.now haccepts).1
  have hbooks := Supervisor.InOrder.dispatch p.now hk hi hm haccepts
  obtain ⟨jobs, hj⟩ := Supervisor.exists_handout hk.books.idle_nodup p.now haccepts
  have htended := tended_withBooks hbooks.kept hids hle (hnext.symm ▸ hunborn)
    (hnext.symm ▸ hreported) (hh ▸ hj.handed)
    (fun job hjob => hnext.symm ▸ hk.books.idle_lt _ (hj.job_idle job hjob))
    (hlinked.dispatch hh hk.books.idle_nodup hidle)
  exact ⟨{ htended with books := hbooks }, hnext⟩

theorem thread_put {w : WorkerId} {t' : Thread} {events : List PoolEvent} :
    ({ p with threads := p.threads.put worker t', events } : Pool).thread w =
      if worker = w then t' else p.thread w := by
  unfold thread
  rw [Table.get?_put]
  split <;> rfl

theorem thread_eq {t : Thread} (ht : p.threads.get? worker = some t) :
    p.thread worker = t := by
  rw [thread, ht]
  rfl

namespace Tended

variable {t : Thread} {events : List PoolEvent}

theorem lt_of_thread (h : p.Tended done) (ht : p.threads.get? worker = some t) :
    worker < p.supervisor.nextWorker := by
  rw [← Nat.not_le]
  intro hle
  rw [h.unborn worker hle] at ht
  cases ht

/-- A submission that the supervisor takes is new to it. -/
theorem notMem_done (h : p.Tended done) {task : Task} {commands : List PoolCommand}
    (hc : p.commands = .submit task :: commands) : task.id ∉ done := by
  have hawaits : task.id ∈ p.awaiting := by simp [awaiting, hc, PoolCommand.task?]
  exact fun hm => (List.nodup_append.1 h.ids).2.2 _ hm _ hawaits rfl

theorem put (h : p.Tended done) {t' : Thread} (ht : p.threads.get? worker = some t)
    (hreported : ∀ e ∈ events, e.isReport = true → e.worker < p.supervisor.nextWorker)
    (hlinked : p.status = .running →
      ({ p with threads := p.threads.put worker t', events } : Pool).Linked p.supervisor) :
    ({ p with threads := p.threads.put worker t', events } : Pool).Tended done := by
  refine { h with unborn := ?_, reported := hreported, housed := ?_, linked := hlinked }
  · intro w hw
    have hne : worker ≠ w := fun he => Nat.not_le.2 (h.lt_of_thread ht) (he ▸ hw)
    change (p.threads.put worker t').get? w = none
    rw [Table.get?_put, if_neg hne]
    exact h.unborn w hw
  · intro w hw
    exact contains_put (h.housed w hw) worker t'

theorem linked_enqueue (h : p.Tended done) (hrun : p.status = .running) (task : Task) :
    p.Linked (p.supervisor.enqueue task) := by
  refine (h.linked hrun).enqueue (link_of_unborn (h.unborn _ (Nat.le_refl _)) ?_) task
  exact fun e he hreport => Nat.ne_of_lt (h.reported e he hreport)

theorem linked_note (h : p.Tended done) (hrun : p.status = .running) {event : PoolEvent}
    (he : p.events = event :: events) :
    ({ p with events } : Pool).Linked (p.supervisor.note event) := by
  refine (h.linked hrun).note he (link_of_unborn (h.unborn _ (Nat.le_refl _)) ?_)
  exact fun e hm hreport =>
    Nat.ne_of_lt (h.reported e (he ▸ List.mem_cons_of_mem _ hm) hreport)

/-- What the supervisor does not do itself keeps that, also while it hands out tasks. -/
theorem party (h : p.Tended done) {action : PoolAction} (hs : p.Step action p')
    (hparty : action.bySupervisor = false) : p'.Tended done := by
  cases hs with
  | obey | stop | hear => cases hparty
  | submit hrun =>
    have hlast : ∀ id ∈ done ++ p.awaiting, id ≠ p.lastTask + 1 := fun id hid he =>
      Nat.not_succ_le_self _ (he ▸ h.le id hid)
    refine { h with ids := ?_, le := ?_, linked := fun hrun => ?_ }
    · simp only [awaiting, List.filterMap_append, ← List.append_assoc]
      refine List.Nodup.append h.ids (List.nodup_singleton _) ?_
      intro id hid hnew
      exact hlast id hid (by simpa [PoolCommand.task?, Task.ofContent] using hnew)
    · intro id hid
      simp only [awaiting, List.filterMap_append, ← List.append_assoc] at hid
      rcases List.mem_append.1 hid with hid | hid
      · exact Nat.le_succ_of_le (h.le id hid)
      · have he : id = p.lastTask + 1 := by simpa [PoolCommand.task?, Task.ofContent] using hid
        exact he ▸ Nat.le_refl _
    · exact (h.linked hrun).congr rfl rfl
  | ask hrun =>
    have hsame : p.commands.filterMap PoolCommand.task? ++
        [PoolCommand.shutdown].filterMap PoolCommand.task? = p.awaiting := List.append_nil _
    refine { h with ids := ?_, le := ?_, linked := fun hrun => ?_ }
    · rw [awaiting, List.filterMap_append, hsame]
      exact h.ids
    · rw [awaiting, List.filterMap_append, hsame]
      exact h.le
    · exact (h.linked hrun).congr rfl rfl
  | askInVain hrun => exact h
  | drop =>
    refine { h with ids := ?_, le := ?_, reported := List.forall_mem_nil _, linked := ?_ }
    · exact (List.append_nil done).symm ▸ h.ids.of_append_left
    · intro id hid
      exact h.le id (List.mem_append_left _ ((List.append_nil done) ▸ hid))
    · intro hrun
      cases hrun
  | @wait worker ht =>
    refine h.put ht h.reported ?_
    intro hrun w state hw
    by_cases hne : worker = w
    · subst hne
      exact (h.linked hrun worker state hw).wait (thread_eq ht)
        (thread_put.trans (if_pos rfl)) rfl
    · exact (h.linked hrun w state hw).congr (thread_put.trans (if_neg hne)) rfl
  | @receive worker state job hfree ht =>
    refine h.put ht h.reported ?_
    intro hrun w state hw
    by_cases hne : worker = w
    · subst hne
      exact (h.linked hrun worker state hw).receive hfree (thread_eq ht)
        (thread_put.trans (if_pos rfl)) rfl
    · exact (h.linked hrun w state hw).congr (thread_put.trans (if_neg hne)) rfl
  | @finish worker job inbox outcome hrun ht =>
    have hworker : (outcome.event worker job.id).worker = worker := by
      cases outcome with
      | returned result => rfl
      | crashed reason => rfl
    refine h.put ht ?_ ?_
    · intro e hm hreport
      rcases List.mem_append.1 hm with hm | hm
      · exact h.reported e hm hreport
      · rw [List.mem_singleton.1 hm, hworker]
        exact h.lt_of_thread ht
    · intro hrun w state hw
      by_cases hne : worker = w
      · subst hne
        exact (h.linked hrun worker state hw).finish (thread_eq ht)
          (thread_put.trans (if_pos rfl)) rfl
      · refine (h.linked hrun w state hw).push (thread_put.trans (if_neg hne)) rfl ?_
        exact fun _ => hworker.symm ▸ hne
  | finishInVain outcome hrun ht => exact h.put ht h.reported fun hrun' => (hrun hrun').elim
  | @leave worker state hfree ht hoff =>
    refine h.put ht h.reported ?_
    intro hrun w state hw
    have hne : worker ≠ w := by
      rintro rfl
      simp [Table.contains, hw] at hoff
    exact (h.linked hrun w state hw).congr (thread_put.trans (if_neg hne)) rfl
  | @fire task timer hrun ht =>
    refine { h with
      kept := h.kept.disturb p.supervisor.starts (Table.keys_put_old _ ht)
      reported := ?_, linked := ?_ }
    · intro e hm hreport
      rcases List.mem_append.1 hm with hm | hm
      · exact h.reported e hm hreport
      · rw [List.mem_singleton.1 hm] at hreport
        cases hreport
    · intro hrun w state hw
      have hother : (PoolEvent.timedOut timer.worker task).isReport = true →
          timer.worker ≠ w := by
        intro hreport
        cases hreport
      exact (h.linked hrun w state hw).push rfl rfl hother
  | advance ms =>
    refine { h with linked := fun hrun => ?_ }
    exact (h.linked hrun).congr rfl rfl
  | plan starts =>
    refine { h with kept := h.kept.disturb starts rfl, linked := fun hrun => ?_ }
    exact Linked.congr (h.linked hrun) rfl rfl

theorem stop (h : p.Tended done) :
    ({ p with supervisor := p.supervisor.stop, status := .stopped, commands := [], events := [] } :
      Pool).Tended done := by
  have hframe := Supervisor.framed_stop p.supervisor
  refine ⟨h.kept.stop, ?_, ?_, ?_, List.forall_mem_nil _, List.forall_mem_nil _, ?_⟩
  · exact (List.append_nil done).symm ▸ h.ids.of_append_left
  · intro id hid
    exact h.le id (List.mem_append_left _ ((List.append_nil done) ▸ hid))
  · exact fun w hw => h.unborn w (hframe.next ▸ hw)
  · intro hrun
    cases hrun

end Tended

namespace InOrder

variable {action : PoolAction}

/-- What the supervisor does not do itself changes its books only in timers that have gone
    off and in the plan of worker starts. -/
theorem party (h : p.InOrder done) (hs : p.Step action p') (hparty : action.bySupervisor = false) :
    p'.InOrder done ∧ p'.supervisor.nextWorker = p.supervisor.nextWorker := by
  have htended := h.toTended.party hs hparty
  cases hs with
  | obey | stop | hear => cases hparty
  | fire hrun ht =>
    exact ⟨{ htended with
      books := h.books.disturb p.supervisor.starts (Table.keys_put_old _ ht) }, rfl⟩
  | plan starts => exact ⟨{ htended with books := h.books.disturb starts rfl }, rfl⟩
  | _ => exact ⟨{ htended with books := h.books }, rfl⟩

theorem step (h : p.InOrder done) (hs : p.Step action p') :
    (∃ done', p'.InOrder done') ∧
      p'.supervisor.nextWorker ≤ p.supervisor.nextWorker + 1 := by
  by_cases hparty : action.bySupervisor = false
  · obtain ⟨hordered, hnext⟩ := h.party hs hparty
    exact ⟨⟨done, hordered⟩, Nat.le_succ_of_le (Nat.le_of_eq hnext)⟩
  cases hs with
  | @obey task commands hrun hc =>
    have hawaiting : done ++ p.awaiting =
        done ++ [task.id] ++ ({ p with commands } : Pool).awaiting := by
      simp [awaiting, hc, PoolCommand.task?]
    obtain ⟨n, hlower, hupper, hframe⟩ := Supervisor.framed_enqueue p.supervisor task
    have hlinked : ({ p with commands } : Pool).Linked (p.supervisor.enqueue task) :=
      (h.linked_enqueue hrun task).congr rfl rfl
    obtain ⟨hordered, hnext⟩ := inOrder_dispatch (p := { p with commands })
      (h.books.kept.enqueue (h.notMem_done hc))
      (Supervisor.ledgerInvariant_keysAgree.enqueue (h.notMem_done hc)
        ⟨h.books.keysAgree, h.books.jobs⟩)
      (h.books.manned.enqueue task) (hawaiting ▸ h.ids) (hawaiting ▸ h.le)
      (fun w hw => h.unborn w (Nat.le_trans hlower (hframe.next ▸ hw)))
      (fun e he hreport =>
        hframe.next.symm ▸ Nat.lt_of_lt_of_le (h.reported e he hreport) hlower)
      hlinked hframe.handed
    exact ⟨⟨_, hordered⟩, Nat.le_trans (Nat.le_of_eq (hnext.trans hframe.next)) hupper⟩
  | stop hrun hc =>
    exact ⟨⟨done, { h.toTended.stop with books := h.books.stop }⟩,
      Nat.le_trans (Nat.le_of_eq (Supervisor.framed_stop p.supervisor).next) (Nat.le_succ _)⟩
  | @hear event events hrun he =>
    obtain ⟨n, hlower, hupper, hframe⟩ := Supervisor.framed_note p.supervisor event
    have hreported : ∀ e ∈ events, e.isReport = true → e.worker < p.supervisor.nextWorker :=
      fun e hm => h.reported e (he ▸ List.mem_cons_of_mem _ hm)
    obtain ⟨hordered, hnext⟩ := inOrder_dispatch (p := { p with events })
      (h.books.kept.note event)
      (Supervisor.ledgerInvariant_keysAgree.note ⟨h.books.keysAgree, h.books.jobs⟩ event)
      (h.books.manned.note event) h.ids h.le
      (fun w hw => h.unborn w (Nat.le_trans hlower (hframe.next ▸ hw)))
      (fun e hm hreport =>
        hframe.next.symm ▸ Nat.lt_of_lt_of_le (hreported e hm hreport) hlower)
      (h.linked_note hrun he) hframe.handed
    exact ⟨⟨_, hordered⟩, Nat.le_trans (Nat.le_of_eq (hnext.trans hframe.next)) hupper⟩
  | _ => exact (hparty rfl).elim

theorem start {settings : PoolSettings} {starts : StartPlan}
    (h : Pool.start settings starts = .ok p) : p.InOrder [] := by
  obtain ⟨s, hstart, rfl⟩ := eq_of_start h
  have hs : Supervisor.opened (max settings.workerCount 1) starts = s := congrArg Prod.snd hstart
  obtain ⟨-, hhanded, hidle⟩ := hs ▸ Supervisor.unused_opened (max settings.workerCount 1) starts
  have hbooks : s.InOrder [] := hs ▸ Supervisor.InOrder.opened _ starts
  refine ⟨⟨hbooks.kept, List.nodup_nil, List.forall_mem_nil _, ?_, List.forall_mem_nil _,
    fun w hw => contains_withBooks _ hw, ?_⟩, hbooks⟩
  · intro w hw
    simp only [withBooks, hhanded, List.drop_nil, List.foldl_nil]
    rw [get?_spawn_of_notMem]
    · rfl
    · exact fun hmem => Nat.not_le.2 (hbooks.kept.books.worker_lt w hmem) hw
  · intro hrun w state hw
    obtain rfl := hidle w state hw
    have hnone : s.handed = [] ++ [] := hhanded
    exact (link_of_unborn rfl (List.forall_mem_nil _)).congr
      (thread_withBooks_of_notMem hnone List.not_mem_nil) rfl

end InOrder

theorem inOrder_run {settings : PoolSettings} {starts : StartPlan} {actions : List PoolAction}
    {p₀ : Pool} (hstart : Pool.start settings starts = .ok p₀) (hrun : p₀.run actions = some p) :
    ∃ done, p.InOrder done := by
  refine run_induction (P := fun _ p => ∃ done, p.InOrder done) ?_ [] ⟨[], InOrder.start hstart⟩
    hrun
  rintro log p action p' ⟨done, h⟩ hact
  exact (h.step (step_of_act hact)).1

/-! ## A sample to run -/

/-- A pool with one worker that has just been started. -/
def sample : Pool :=
  (Pool.start {} {}).toOption.get (by decide +kernel)

theorem sample_started : Pool.start {} {} = .ok sample := by
  have hget : ∀ (e : Except PoolError Pool) (h : e.toOption.isSome),
      e = .ok (e.toOption.get h) := by
    intro e h
    cases e with
    | error error => cases h
    | ok p => rfl
  exact hget _ _

end Pool

end SourceIndex
