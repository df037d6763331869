/-
  The books of the pool between messages.

  * `Supervisor.Settled`: nothing is queued, or no worker is idle;
  * `Supervisor.Manned`: nothing is queued without a worker;
  * `dispatchLoop_settles`: handing out tasks settles the books where idle workers take
    what they are given;
  * `Supervisor.Handout`, `exists_handout`: no worker is replaced then and nothing is
    answered;
  * `Supervisor.InOrder`: what holds of the books between messages, with
    `InOrder.submit`, `InOrder.handle`, `InOrder.stop`.
-/
import SourceIndex.Proofs.Roster
import SourceIndex.Proofs.Sharing

namespace SourceIndex.Supervisor

variable {s s' : Supervisor} {accepts : WorkerId → Bool}

/-! ## Handing out tasks -/

/-- There is no task to hand out, or nobody to take one. -/
def Settled (s : Supervisor) : Prop :=
  s.queue = [] ∨ s.idle = []

theorem dispatchLoop_of_settled (h : s.Settled) (accepts : WorkerId → Bool) (now n : Nat) :
    dispatchLoop accepts now n s = s := by
  cases n with
  | zero => rfl
  | succ n =>
    unfold dispatchLoop
    rcases h with h | h
    · rw [h]
    · rw [h]
      cases s.queue with
      | nil => rfl
      | cons task queue => rfl

/-- Each round takes a task off the queue or a worker off the idle ones. -/
theorem dispatchLoop_settles (now : Nat) {n : Nat} (haccepts : ∀ w ∈ s.idle, accepts w = true)
    (hn : s.queue.length + s.idle.length ≤ n) : (dispatchLoop accepts now n s).Settled := by
  induction n generalizing s with
  | zero =>
    have hq : s.queue = [] := List.eq_nil_of_length_eq_zero (by omega)
    exact Or.inl hq
  | succ n ih =>
    cases hq : s.queue with
    | nil =>
      have hs : s.Settled := Or.inl hq
      rwa [dispatchLoop_of_settled hs]
    | cons task queue =>
      cases hi : s.idle with
      | nil =>
        have hs : s.Settled := Or.inr hi
        rwa [dispatchLoop_of_settled hs]
      | cons worker idle =>
        rw [hq, hi] at hn
        simp only [List.length_cons] at hn
        have hothers : ∀ w ∈ idle, accepts w = true := fun w hw =>
          haccepts w (hi ▸ List.mem_cons_of_mem _ hw)
        have hworker : accepts worker = true := haccepts worker (hi ▸ List.mem_cons_self)
        simp only [dispatchLoop, hq, hi, hworker, if_true]
        cases s.tasks.get? task with
        | none =>
          refine ih ?_ ?_
          · rwa [hi] at haccepts
          · simp only [List.length_cons]
            omega
        | some p =>
          cases s.workers.get? worker with
          | none =>
            refine ih hothers ?_
            simp only [List.length_cons]
            omega
          | some state =>
            refine ih ?_ ?_
            · simpa [assign, hi] using hothers
            · simp only [assign, hq, hi, List.tail_cons]
              omega

/-- Where idle workers take what they are given, nobody is answered and no worker comes or
    goes. -/
theorem dispatchLoop_of_accepts (now n : Nat) (haccepts : ∀ w ∈ s.idle, accepts w = true) :
    let s' := dispatchLoop accepts now n s
    s'.nextWorker = s.nextWorker ∧ s'.tasks = s.tasks ∧ s'.workers.keys = s.workers.keys ∧
      ∃ jobs, s'.handed = s.handed ++ jobs := by
  refine (dispatchLoop_induction (P := fun s' => (∀ w ∈ s'.idle, accepts w = true) ∧
    s'.nextWorker = s.nextWorker ∧ s'.tasks = s.tasks ∧ s'.workers.keys = s.workers.keys ∧
    ∃ jobs, s'.handed = s.handed ++ jobs) accepts now ?_ ?_ ?_ ?_ n
    ⟨haccepts, rfl, rfl, rfl, [], (List.append_nil _).symm⟩).2
  · intro s' task queue h hq ht
    exact h
  · intro s' worker idle h hi hw
    exact ⟨fun w hm => h.1 w (hi ▸ List.mem_cons_of_mem _ hm), h.2⟩
  · rintro s' task queue worker idle p state ⟨ha, hnext, htasks, hkeys, jobs, hjobs⟩ hq hi hp hw
    refine ⟨fun w hm => ha w (List.mem_of_mem_tail hm), hnext, htasks,
      (Table.keys_put_old _ hw).trans hkeys, jobs ++ [(worker, p.task)], ?_⟩
    rw [assign, hjobs, List.append_assoc]
  · intro s' worker idle state h hi hw ha
    rw [h.1 worker (hi ▸ List.mem_cons_self)] at ha
    cases ha

theorem dispatch_of_accepts (now : Nat) (haccepts : ∀ w ∈ s.idle, accepts w = true) :
    (s.dispatch accepts now).nextWorker = s.nextWorker ∧
      (s.dispatch accepts now).tasks = s.tasks ∧
      (s.dispatch accepts now).workers.keys = s.workers.keys := by
  obtain ⟨hnext, htasks, hkeys, -⟩ := dispatchLoop_of_accepts now _ haccepts
  exact ⟨hnext, htasks, hkeys⟩

/-- The tasks `jobs` are handed out, each to a worker that was idle, and nothing else
    happens to workers or answers. -/
structure Handout (s : Supervisor) (jobs : List (WorkerId × Task)) (s' : Supervisor) : Prop where
  handed : s'.handed = s.handed ++ jobs
  answers : s'.answers = s.answers
  jobs_nodup : (jobs.map (·.1)).Nodup
  job_idle : ∀ job ∈ jobs, job.1 ∈ s.idle
  busy : ∀ job ∈ jobs, s'.workers.get? job.1 = some (.busy job.2.id)
  others : ∀ w ∉ jobs.map (·.1), s'.workers.get? w = s.workers.get? w
  idle_nodup : s'.idle.Nodup
  idle : ∀ w ∈ s'.idle, w ∈ s.idle ∧ w ∉ jobs.map (·.1)

namespace Handout

variable {jobs : List (WorkerId × Task)}

theorem refl (h : s.idle.Nodup) : s.Handout [] s where
  handed := by simp
  answers := rfl
  jobs_nodup := by simp
  job_idle := by simp
  busy := by simp
  others _ _ := rfl
  idle_nodup := h
  idle := by simp

theorem assign (h : s.Handout jobs s') {worker : WorkerId} {idle : List WorkerId}
    (hi : s'.idle = worker :: idle) (now : Nat) (task : Task) :
    s.Handout (jobs ++ [(worker, task)]) (s'.assign now worker task) := by
  have hn := h.idle_nodup
  rw [hi, List.nodup_cons] at hn
  obtain ⟨hworker, hnew⟩ := h.idle worker (hi ▸ List.mem_cons_self)
  constructor
  case handed => simp [Supervisor.assign, h.handed]
  case answers => exact h.answers
  case jobs_nodup =>
    rw [List.map_append, List.nodup_append]
    refine ⟨h.jobs_nodup, by simp, ?_⟩
    intro w hw w' hw' he
    obtain rfl : w' = worker := by simpa using hw'
    exact hnew (he ▸ hw)
  case job_idle =>
    intro job hj
    rcases List.mem_append.1 hj with hj | hj
    · exact h.job_idle job hj
    · rw [List.mem_singleton.1 hj]
      exact hworker
  case busy =>
    intro job hj
    rw [Supervisor.assign, Table.get?_put]
    rcases List.mem_append.1 hj with hj | hj
    · have hne : worker ≠ job.1 := fun he => hnew (he ▸ List.mem_map_of_mem hj)
      rw [if_neg hne, h.busy job hj]
    · simp [List.mem_singleton.1 hj]
  case others =>
    intro w hw
    simp only [List.map_append, List.map_cons, List.map_nil, List.mem_append, List.mem_singleton,
      not_or] at hw
    rw [Supervisor.assign, Table.get?_put, if_neg (Ne.symm hw.2), h.others w hw.1]
  case idle_nodup => simpa [Supervisor.assign, hi] using hn.2
  case idle =>
    intro w hw
    replace hw : w ∈ idle := by simpa [Supervisor.assign, hi] using hw
    obtain ⟨hold, hfree⟩ := h.idle w (hi ▸ List.mem_cons_of_mem _ hw)
    refine ⟨hold, ?_⟩
    have hne : w ≠ worker := fun he => hn.1 (he ▸ hw)
    simp [hfree, hne]

end Handout

/-- As long as every idle worker takes a task, tasks are only handed out. -/
theorem exists_handout (hn : s.idle.Nodup) {accepts : WorkerId → Bool} (now : Nat)
    (haccepts : ∀ w ∈ s.idle, accepts w = true) :
    ∃ jobs, s.Handout jobs (s.dispatch accepts now) := by
  refine dispatch_induction (P := fun s' => ∃ jobs, s.Handout jobs s') accepts now ?_ ?_ ?_ ?_ ?_
    ⟨[], .refl hn⟩
  · rintro s' task queue ⟨jobs, hj⟩ - -
    exact ⟨jobs, { hj with }⟩
  · rintro s' worker idle ⟨jobs, hj⟩ hi -
    have hn := hj.idle_nodup
    rw [hi, List.nodup_cons] at hn
    exact ⟨jobs, { hj with
      idle_nodup := hn.2
      idle := fun w hw => hj.idle w (hi ▸ List.mem_cons_of_mem _ hw) }⟩
  · rintro s' task queue worker idle p state ⟨jobs, hj⟩ - hi - -
    exact ⟨_, hj.assign hi now p.task⟩
  · rintro s' worker idle state ⟨jobs, hj⟩ hi - ha
    have hworker := (hj.idle worker (hi ▸ List.mem_cons_self)).1
    rw [haccepts worker hworker] at ha
    cases ha
  · rintro s' stats ⟨jobs, hj⟩
    exact ⟨jobs, { hj with }⟩

theorem finish_spec (s : Supervisor) (id : TaskId) (outcome : TaskResult) :
    (s.finish id outcome).workers = s.workers ∧ (s.finish id outcome).idle = s.idle ∧
      (s.finish id outcome).handed = s.handed ∧
      ∀ answer ∈ (s.finish id outcome).answers, answer ∈ s.answers ∨ answer.2 = outcome := by
  unfold finish resolve
  split
  · exact ⟨rfl, rfl, rfl, fun answer => Or.inl⟩
  · refine ⟨rfl, rfl, rfl, ?_⟩
    intro answer h
    rcases List.mem_append.1 h with h | h
    · exact Or.inl h
    · obtain ⟨waiter, -, rfl⟩ := List.mem_map.1 h
      exact Or.inr rfl

/-! ## Tasks without a worker -/

/-- Nothing is queued if there is no worker. -/
def Manned (s : Supervisor) : Prop :=
  s.workers.isEmpty = true → s.queue = []

theorem manned_retire (s : Supervisor) (worker : WorkerId) : (s.retire worker).Manned := by
  intro hempty
  rw [retire_eq] at hempty ⊢
  obtain ⟨starts, he | he⟩ := startWorker_cases (s.dismiss worker)
  · rw [he] at hempty
    simp [withWorker, Table.isEmpty_put] at hempty
  · rw [he] at hempty ⊢
    dsimp only at hempty ⊢
    by_cases hleft : ((s.dismiss worker).withoutWorker starts).workers.isEmpty = true
    · rw [if_pos hleft]
      exact (sameStaff_refuseAll _ _ _).queue
    · rw [if_neg hleft] at hempty
      exact (hleft hempty).elim

namespace Manned

variable {s : Supervisor}

theorem dispatch (h : s.Manned) (accepts : WorkerId → Bool) (now : Nat) :
    (s.dispatch accepts now).Manned := by
  refine dispatch_induction accepts now ?_ ?_ ?_ ?_ ?_ h
  · intro s task queue hs hq ht hempty
    have hnone := hs hempty
    rw [hq] at hnone
    cases hnone
  · intro s worker idle hs hi hw
    exact hs
  · intro s task queue worker idle p state hs hq hi hp hw hempty
    simp [assign, Table.isEmpty_put] at hempty
  · intro s worker idle state hs hi hw ha
    exact manned_retire _ worker
  · intro s stats hs
    exact hs

theorem enqueue (h : s.Manned) (task : Task) : (s.enqueue task).Manned := by
  rcases enqueue_cases s task with ⟨id, p, -, hp, he⟩ | ⟨hsome, he⟩ | ⟨-, starts, he | he⟩
  · rw [he]
    exact h
  · rw [he]
    intro hempty
    rw [show (s.withTask task).workers = s.workers from rfl, hsome] at hempty
    cases hempty
  · rw [he]
    intro hempty
    simp [Supervisor.withTask, Supervisor.withWorker, Table.isEmpty_put] at hempty
  · rw [he]
    exact h

theorem finish (h : s.Manned) (id : TaskId) (outcome : TaskResult) :
    (s.finish id outcome).Manned := by
  have hsame := sameStaff_resolve { s with
    timers := s.timers.erase id
    stats := { s.stats with active := s.stats.active - 1 } } id outcome
  intro hempty
  rw [Supervisor.finish, hsame.workers] at hempty
  rw [Supervisor.finish, hsame.queue]
  exact h hempty

theorem note (h : s.Manned) (event : PoolEvent) : (s.note event).Manned := by
  rcases note_cases s event with ⟨-, he⟩ | ⟨-, ⟨said, -, -, he⟩ | ⟨-, he⟩⟩
  · rw [he]
    exact h
  · rw [he]
    refine finish ?_ _ _
    intro hempty
    simp [reclaim, Table.isEmpty_put] at hempty
  · rw [he]
    exact (manned_retire _ _).finish _ _

end Manned

/-! ## Between messages -/

/-- The workers that are started first all wait for work. -/
theorem unused_opened (count : Nat) (starts : StartPlan) :
    (opened count starts).answers = [] ∧ (opened count starts).handed = [] ∧
      ∀ w state, (opened count starts).workers.get? w = some state → state = .idle := by
  refine opened_induction (P := fun s => s.answers = [] ∧ s.handed = [] ∧
    ∀ w state, s.workers.get? w = some state → state = .idle) starts ⟨rfl, rfl, nofun⟩ ?_ count
  rintro s ⟨hanswers, hhanded, hidle⟩
  obtain ⟨starts, he | he⟩ := startWorker_cases s
  · rw [he]
    refine ⟨hanswers, hhanded, ?_⟩
    intro w state hw
    rcases Table.get?_of_put hw with ⟨-, rfl⟩ | ⟨-, hw⟩
    · rfl
    · exact hidle w state hw
  · rw [he]
    exact ⟨hanswers, hhanded, hidle⟩

/-- The books between messages, where `done` are the submissions so far. -/
structure InOrder (done : List TaskId) (s : Supervisor) : Prop where
  kept : s.Kept done
  queued : s.stats.queued = s.queue.length
  keysAgree : s.KeysAgree
  jobs : s.Jobs (·.id ∈ done)
  settled : s.Settled
  manned : s.Manned

namespace InOrder

variable {s : Supervisor} {done : List TaskId}

theorem balanced (h : s.InOrder done) : s.Balanced :=
  h.kept.balanced h.queued

theorem dispatch (now : Nat) (hk : s.Kept done) (hi : s.KeysAgree ∧ s.Jobs (·.id ∈ done))
    (hm : s.Manned) (haccepts : ∀ w ∈ s.idle, accepts w = true) :
    (s.dispatch accepts now).InOrder done := by
  obtain ⟨hagree, hjobs⟩ := ledgerInvariant_keysAgree.dispatch hi accepts now
  refine ⟨hk.dispatch accepts now, rfl, hagree, hjobs, ?_, hm.dispatch accepts now⟩
  exact dispatchLoop_settles now haccepts (by omega)

theorem stop (h : s.InOrder done) : s.stop.InOrder done := by
  obtain ⟨hagree, hjobs⟩ := ledgerInvariant_keysAgree.stop ⟨h.keysAgree, h.jobs⟩
  exact ⟨h.kept.stop, rfl, hagree, hjobs, Or.inl rfl, fun _ => rfl⟩

theorem disturb (h : s.InOrder done) (starts : StartPlan) {timers : Table TaskId Timer}
    (ht : s.SameTimers timers) : ({ s with starts, timers } : Supervisor).InOrder done := by
  refine ⟨h.kept.disturb starts ht, h.queued, ?_, ?_, h.settled, h.manned⟩
  · exact h.keysAgree.congr ⟨rfl, rfl, rfl, rfl⟩
  · exact h.jobs.congr ⟨rfl, rfl, rfl, rfl⟩

theorem opened (count : Nat) (starts : StartPlan) :
    (Supervisor.opened count starts).InOrder [] := by
  have hquiet : (Supervisor.opened count starts).queue = [] ∧
      (Supervisor.opened count starts).stats.queued = 0 := by
    refine opened_induction (P := fun s => s.queue = [] ∧ s.stats.queued = 0) starts ⟨rfl, rfl⟩ ?_
      count
    intro s h
    obtain ⟨starts, he | he⟩ := startWorker_cases s
    · rw [he]
      exact h
    · rw [he]
      exact h
  obtain ⟨hagree, hjobs⟩ := keysAgree_opened count starts
  refine ⟨Kept.opened count starts, ?_, hagree, hjobs, Or.inl hquiet.1, fun _ => hquiet.1⟩
  rw [hquiet.1, hquiet.2]
  rfl

end InOrder

end SourceIndex.Supervisor
