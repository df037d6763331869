/-
  No task is left behind without anybody to run it.

  * `Supervisor.Carried`: a submission still waits for a task, or was told that no worker
    could be started;
  * `Supervisor.InOrder.crew`: the workers where a task is queued, `InOrder.deserted` the
    tasks where there is no worker;
  * `Pool.no_task_stranded`: both hold of a pool at any time; the queue is given up with
    the last worker, and the next submission has a worker started.
-/
import SourceIndex.Proofs.Threads

namespace SourceIndex

namespace Supervisor

variable {s : Supervisor} {reason : String} {v id : TaskId}

/-! ## Tasks that are given up -/

/-- A submission waits for a task, or it was told for what reason no worker could be
    started. -/
def Carried (reason : String) (v id : TaskId) (s : Supervisor) : Prop :=
  s.Waits v id ∨ .unavailable reason ∈ s.sent v

namespace Carried

theorem congr (h : s.Carried reason v id) {s' : Supervisor} (ht : s'.tasks = s.tasks)
    (ha : s'.answers = s.answers) : s'.Carried reason v id := by
  unfold Carried Waits sent at h ⊢
  rw [ht, ha]
  exact h

theorem resolve (h : s.Carried reason v id) {i : TaskId} {outcome : TaskResult}
    (ho : i = id → outcome = .unavailable reason) :
    (s.resolve i outcome).Carried reason v id := by
  rcases h with ⟨p, hp, hv⟩ | hsent
  · by_cases hi : i = id
    · right
      subst hi
      rw [sent_resolve hp, ho rfl]
      refine List.mem_append_right _ (List.mem_replicate.2 ⟨?_, rfl⟩)
      exact Nat.ne_of_gt (List.count_pos_iff.2 hv)
    · left
      refine ⟨p, ?_, hv⟩
      rw [get?_resolve, if_neg hi]
      exact hp
  · right
    cases hp : s.tasks.get? i with
    | none => rwa [resolve_of_none hp]
    | some p =>
      rw [sent_resolve hp]
      exact List.mem_append_left _ hsent

theorem enqueue (h : s.Carried reason v id) {task : Task} (hnew : s.tasks.get? task.id = none) :
    (s.enqueue task).Carried reason v id := by
  have hput : ∀ {i : TaskId} {q : Pending} {s' : Supervisor},
      (∀ p, s.tasks.get? i = some p → ∀ v ∈ p.waiters, v ∈ q.waiters) →
      s'.tasks = s.tasks.put i q → s'.answers = s.answers → s'.Carried reason v id := by
    intro i q s' hq ht ha
    unfold Carried Waits sent at h ⊢
    rw [ht, ha]
    refine h.imp_left ?_
    rintro ⟨p, hp, hv⟩
    rw [Table.get?_put]
    by_cases hi : i = id
    · subst hi
      exact ⟨q, if_pos rfl, hq p hp v hv⟩
    · exact ⟨p, (if_neg hi).trans hp, hv⟩
  have hfresh : ∀ p, s.tasks.get? task.id = some p → ∀ v ∈ p.waiters, v ∈ [task.id] := by
    intro p hp
    rw [hnew] at hp
    cases hp
  rcases enqueue_cases s task with ⟨i, q, -, hq, he⟩ | ⟨-, he⟩ | ⟨-, starts, he | he⟩
  · rw [he]
    refine hput (i := i) (q := { q with waiters := q.waiters ++ [task.id] }) ?_ rfl rfl
    intro p hp v hv
    rw [hq] at hp
    cases hp
    exact List.mem_append_left _ hv
  · rw [he]
    exact hput (q := { task, waiters := [task.id] }) hfresh rfl rfl
  · rw [he]
    exact hput (q := { task, waiters := [task.id] }) hfresh rfl rfl
  · rw [he]
    refine h.imp_right ?_
    intro hsent
    simp only [sent, List.filter_append, List.map_append] at hsent ⊢
    exact List.mem_append_left _ hsent

theorem dispatch (h : s.Carried reason v id) (hr : s.starts.reason = reason)
    (accepts : WorkerId → Bool) (now : Nat) : (s.dispatch accepts now).Carried reason v id := by
  refine ledger_dispatch ?_ ?_ ?_ accepts now hr h
  · intro s s' h hs
    exact h.congr hs.tasks hs.answers
  · intro s i h
    exact h.resolve fun _ => rfl
  · intro s i p now worker hp h
    exact h.congr rfl rfl

theorem note (h : s.Carried reason v id) (hr : s.starts.reason = reason) (event : PoolEvent)
    (hother : s.owns event.worker event.task = true → event.task ≠ id) :
    (s.note event).Carried reason v id := by
  refine ledger_note ?_ ?_ event ?_ hr h
  · intro s s' h hs
    exact h.congr hs.tasks hs.answers
  · intro s i h
    exact h.resolve fun _ => rfl
  · intro howns s' h
    exact h.resolve fun he => (hother howns he).elim

end Carried

theorem Books.sent_of_mem {Ended : TaskId → Prop} {done : List TaskId} (h : s.Books Ended done)
    (hn : done.Nodup) {outcome : TaskResult} (hm : outcome ∈ s.sent v) : s.sent v = [outcome] := by
  have hdone : v ∈ done := by
    refine h.ledger.mem_iff.1 (List.mem_append_right _ ?_)
    rw [← List.count_pos_iff, ← length_sent]
    exact List.length_pos_of_mem hm
  rcases h.waits_or_sent hn hdone with ⟨-, hnone⟩ | ⟨-, other, hone⟩
  · rw [hnone] at hm
    cases hm
  · rw [hone] at hm ⊢
    rw [List.mem_singleton.1 hm]

namespace InOrder

variable {done : List TaskId}

/-- Where a task is queued, there are workers and each of them has a task and a timer. -/
theorem crew (h : s.InOrder done) (hq : s.queue ≠ []) :
    s.idle = [] ∧ s.workers.isEmpty = false ∧
      ∀ w state, s.workers.get? w = some state →
        ∃ id, state = .busy id ∧ id ∈ s.tasks.keys ∧ id ∈ s.timers.keys := by
  have hidle : s.idle = [] := h.settled.resolve_left hq
  refine ⟨hidle, Bool.eq_false_iff.2 fun hempty => hq (h.manned hempty), ?_⟩
  intro w state hw
  cases state with
  | idle =>
    have hmem := (h.balanced.mem_idle w).2 hw
    rw [hidle] at hmem
    cases hmem
  | busy id =>
    exact ⟨id, rfl, (h.balanced.busy hw).1, (h.balanced.mem_timers id).2 ⟨w, hw⟩⟩

theorem deserted (h : s.InOrder done) (hempty : s.workers.isEmpty = true) :
    s.queue = [] ∧ s.idle = [] ∧ s.tasks.keys = [] := by
  have hnone := Table.isEmpty_iff.1 hempty
  refine ⟨h.manned hempty, ?_, ?_⟩
  · rw [List.eq_nil_iff_forall_not_mem]
    intro w hw
    have hidle := (h.balanced.mem_idle w).1 hw
    rw [hnone w] at hidle
    cases hidle
  · rw [List.eq_nil_iff_forall_not_mem]
    intro id hid
    rcases (h.balanced.mem_tasks id).1 hid with hq | ⟨w, hw⟩
    · rw [h.manned hempty] at hq
      cases hq
    · rw [hnone w] at hw
      cases hw

end InOrder

end Supervisor

namespace Pool

variable {p p' : Pool} {done : List TaskId}

namespace InOrder

/-- What waits for a task in the queue is still waiting, or was told that no worker could
    be started, as long as the pool runs. -/
theorem carried (h : p.InOrder done) {action : PoolAction} (hs : p.Step action p')
    (hrun' : p'.status = .running) {id v : TaskId} (hid : id ∈ p.supervisor.queue)
    (hw : p.supervisor.Waits v id) : p'.supervisor.Carried p.supervisor.starts.reason v id := by
  have hold : p.supervisor.Carried p.supervisor.starts.reason v id := Or.inl hw
  cases hs with
  | @obey task commands hrun hc =>
    refine (hold.enqueue ?_).dispatch (Supervisor.reason_enqueue _ _) p.accepts p.now
    cases hp : p.supervisor.tasks.get? task.id with
    | none => rfl
    | some q =>
      obtain ⟨hself, hdone⟩ := h.books.jobs.tasks task.id q hp
      exact (h.notMem_done hc (hself ▸ hdone)).elim
  | @hear event events hrun he =>
    refine (hold.note rfl event ?_).dispatch (Supervisor.reason_note _ _) p.accepts p.now
    rintro howns rfl
    exact h.books.balanced.queue_free hid event.worker (Supervisor.owns_iff.1 howns)
  | stop hrun hc => cases hrun'
  | submit | ask | askInVain | drop | wait | receive | finish | finishInVain | leave | fire
    | advance | plan => exact hold

/-- Without a worker on the books, the next submission is the occasion to start one. -/
theorem restarts (h : p.InOrder done) (hempty : p.supervisor.workers.isEmpty = true)
    (task : Task) :
    let s := p.supervisor.submit p.accepts p.now task
    s.nextWorker = p.supervisor.nextWorker + 1 ∧
      if p.supervisor.starts.next.1 then
        s.workers.get? p.supervisor.nextWorker = some (.busy task.id)
      else .unavailable p.supervisor.starts.reason ∈ s.sent task.id := by
  obtain ⟨hq, hi, htasks⟩ := h.books.deserted hempty
  have hkey : p.supervisor.inFlight.get? task.key = none := by
    cases hk : p.supervisor.inFlight.get? task.key with
    | none => rfl
    | some id =>
      obtain ⟨q, hp, -⟩ := (h.books.keysAgree.mem_inFlight _ _).1 hk
      have hmem := Table.mem_keys_iff.2 ⟨q, hp⟩
      rw [htasks] at hmem
      cases hmem
  have haccepts : p.accepts p.supervisor.nextWorker = true := by
    rw [Pool.accepts, h.unborn _ (Nat.le_refl _)]
  rw [Supervisor.submit, Supervisor.enqueue_of_new hkey, if_pos hempty]
  by_cases hstart : p.supervisor.starts.next.1 = true
  · simp only [if_pos hstart]
    simp [Supervisor.dispatch, Supervisor.dispatchLoop, Supervisor.withTask,
      Supervisor.withWorker, Supervisor.assign, hq, hi, haccepts]
  · simp only [if_neg hstart]
    have hsettled : (p.supervisor.turnAway task.id).Settled := Or.inl hq
    rw [Supervisor.dispatch, Supervisor.dispatchLoop_of_settled hsettled]
    refine ⟨rfl, ?_⟩
    simp [Supervisor.sent, Supervisor.turnAway]

end InOrder

/-- **No task is stranded.**  Whatever the parties of the pool do and whichever worker
    starts fail: while a task is queued there are workers, and each of them has a task on
    the books that has a timer; without a worker there is no task.  An action starts one
    worker at most.  If it leaves no worker, everybody who waited for a task in the queue
    was told for what reason none could be started.  The next submission has a worker
    started. -/
theorem no_task_stranded {settings : PoolSettings} {starts : StartPlan}
    {actions : List PoolAction} {p₀ p : Pool} (hstart : Pool.start settings starts = .ok p₀)
    (hrun : p₀.run actions = some p) :
    (p.supervisor.queue ≠ [] → p.supervisor.idle = [] ∧ p.supervisor.workers.isEmpty = false ∧
      ∀ w state, p.supervisor.workers.get? w = some state →
        ∃ id, state = .busy id ∧ id ∈ p.supervisor.tasks.keys ∧ id ∈ p.supervisor.timers.keys) ∧
    (p.supervisor.workers.isEmpty = true →
      p.supervisor.queue = [] ∧ p.supervisor.tasks.keys = []) ∧
    (∀ action p', p.act action = some p' →
      p'.supervisor.nextWorker ≤ p.supervisor.nextWorker + 1 ∧
      (p'.status = .running → p'.supervisor.workers.isEmpty = true →
        ∀ id ∈ p.supervisor.queue, ∀ v, p.supervisor.Waits v id →
          p'.supervisor.sent v = [.unavailable p.supervisor.starts.reason])) ∧
    (p.supervisor.workers.isEmpty = true → p.status = .running →
      ∀ task commands, p.commands = .submit task :: commands →
        ∃ p', p.act .takeCommand = some p' ∧
          p'.supervisor.nextWorker = p.supervisor.nextWorker + 1 ∧
          if p.supervisor.starts.next.1 then
            p'.supervisor.workers.get? p.supervisor.nextWorker = some (.busy task.id)
          else p'.supervisor.sent task.id = [.unavailable p.supervisor.starts.reason]) := by
  obtain ⟨done, h⟩ := inOrder_run hstart hrun
  -- an answer in a pool that is in order is the only one
  have honly : ∀ {p' : Pool} {done' v reason}, p'.InOrder done' →
      .unavailable reason ∈ p'.supervisor.sent v →
        p'.supervisor.sent v = [.unavailable reason] := by
    intro p' done' v reason h' hm
    exact h'.books.kept.books.sent_of_mem h'.ids.of_append_left hm
  refine ⟨h.books.crew, ?_, ?_, ?_⟩
  · intro hempty
    obtain ⟨hq, -, htasks⟩ := h.books.deserted hempty
    exact ⟨hq, htasks⟩
  · intro action p' hact
    obtain ⟨⟨done', h'⟩, hnext⟩ := h.step (step_of_act hact)
    refine ⟨hnext, ?_⟩
    intro hrun' hempty id hid v hw
    rcases h.carried (step_of_act hact) hrun' hid hw with ⟨q, hq, -⟩ | hsent
    · have hmem := Table.mem_keys_iff.2 ⟨q, hq⟩
      rw [(h'.books.deserted hempty).2.2] at hmem
      cases hmem
    · exact honly h' hsent
  · intro hempty hrunning task commands hc
    have hact : p.act .takeCommand = some (({ p with commands } : Pool).withBooks
        (p.supervisor.submit p.accepts p.now task)) := by
      simp only [act, hrunning, hc]
      rfl
    obtain ⟨⟨done', h'⟩, -⟩ := h.step (step_of_act hact)
    obtain ⟨hnext, hworker⟩ := h.restarts hempty task
    refine ⟨_, hact, hnext, ?_⟩
    by_cases hstarts : p.supervisor.starts.next.1 = true
    · rw [if_pos hstarts] at hworker ⊢
      exact hworker
    · rw [if_neg hstarts] at hworker ⊢
      exact honly h' hworker

/-- The only worker of the sample crashes while a second task is queued, and no worker can
    be started in its place. -/
def desertion : List PoolAction :=
  [.submit "p" "a", .submit "p" "b", .takeCommand, .takeCommand, .receive 0,
    .plan { refuse := 1, reason := "busy" }, .finish 0 (.crashed "")]

/-- The sample before the supervisor hears of the crash. -/
def crashing : Pool :=
  (sample.run desertion).get (by decide +kernel)

theorem no_task_stranded_sample :
    ∃ p, crashing.act .takeEvent = some p ∧ crashing.supervisor.queue = [2] ∧
      crashing.supervisor.idle = [] ∧ p.supervisor.workers.pairs = [] ∧
      p.supervisor.sent 1 = [.crashed ""] ∧ p.supervisor.sent 2 = [.unavailable "busy"] := by
  have hcheck : (crashing.act .takeEvent).any (fun p =>
      (crashing.supervisor.tasks.get? 2).any fun q =>
        decide (2 ∈ q.waiters ∧ crashing.supervisor.queue = [2] ∧ p.status = .running ∧
          p.supervisor.workers.pairs = [] ∧ p.supervisor.sent 1 = [.crashed ""])) = true := by
    decide +kernel
  obtain ⟨p, hact, hcheck⟩ := (Option.any_eq_true _ _).1 hcheck
  obtain ⟨q, hq, hcheck⟩ := (Option.any_eq_true _ _).1 hcheck
  obtain ⟨hwaits, hqueue, hrunning, hworkers, hcrashed⟩ := of_decide_eq_true hcheck
  have hrun : sample.run desertion = some crashing := (Option.some_get _).symm
  have h := no_task_stranded sample_started hrun
  refine ⟨p, hact, hqueue, ?_, hworkers, hcrashed, ?_⟩
  · exact (h.1 (by rw [hqueue]; exact List.cons_ne_nil _ _)).1
  · have hempty : p.supervisor.workers.isEmpty = true := by
      rw [Table.isEmpty, hworkers]
      rfl
    have hmem : 2 ∈ crashing.supervisor.queue := by
      rw [hqueue]
      exact List.mem_cons_self
    have hreason : crashing.supervisor.starts.reason = "busy" := by decide +kernel
    exact hreason ▸ (h.2.2.1 _ _ hact).2 hrunning hempty 2 hmem 2 ⟨q, hq, hwaits⟩

end Pool

end SourceIndex
