/-
  Shutdown of the worker pool.

  The supervisor answers whatever is on its books and leaves.  Threads go on with their
  parses, but nobody hears of them.

  * `Supervisor.sent_stop_of_free`, `InOrder.emptied_stop`: what a shutdown makes of the
    books;
  * `Pool.Closed`: the books are closed, `Closed.run` that they stay so;
  * `Pool.shutdown_final`: a shutdown cancels what is on the books, and nothing follows it.
-/
import SourceIndex.Proofs.Timeouts

namespace SourceIndex

theorem Table.eq_empty_of_keys {κ α : Type} {t : Table κ α} (h : t.keys = []) : t = {} := by
  obtain ⟨pairs⟩ := t
  have hpairs : pairs = [] := List.map_eq_nil_iff.1 h
  rw [hpairs]

namespace Supervisor

variable {s : Supervisor} {done : List TaskId} {v : TaskId}

/-! ## The books after a shutdown -/

theorem stats_stop (s : Supervisor) :
    s.stop.stats = { s.stats with
      cancelled := s.stats.cancelled + s.tasks.size, active := 0, workers := 0, queued := 0 } := by
  simp only [stop, stats_cancelAll, Table.size_eq]

theorem sent_stop_of_free (hfree : ∀ id, ¬ s.Waits v id) : s.stop.sent v = s.sent v := by
  refine (ledger_stop (P := fun s' => (∀ id, ¬ s'.Waits v id) ∧ s'.sent v = s.sent v) ?_ ?_
    ⟨hfree, rfl⟩).2
  · rintro s₁ s₂ ⟨hfree, hsent⟩ hs
    refine ⟨?_, ?_⟩
    · rintro id ⟨q, hq, hv⟩
      exact hfree id ⟨q, hs.tasks ▸ hq, hv⟩
    · rw [sent, hs.answers]
      exact hsent
  · rintro s₁ id ⟨hfree, hsent⟩
    cases hp : s₁.tasks.get? id with
    | none =>
      rw [resolve_of_none hp]
      exact ⟨hfree, hsent⟩
    | some q =>
      have hv : q.waiters.count v = 0 := List.count_eq_zero.2 fun hv => hfree id ⟨q, hp, hv⟩
      refine ⟨?_, ?_⟩
      · rintro i ⟨q', hq', hv'⟩
        rw [get?_resolve] at hq'
        split at hq'
        · cases hq'
        · exact hfree i ⟨q', hq', hv'⟩
      · rw [sent_resolve hp, hv, hsent, List.replicate_zero, List.append_nil]

namespace InOrder

/-- The tasks on the books are those in the queue and those that workers have. -/
theorem size_tasks (h : s.InOrder done) : s.tasks.size = s.queue.length + s.stats.active := by
  rw [Table.size_eq, h.kept.roster.tasks_perm.length_eq, h.kept.roster.active_eq,
    List.length_append]

theorem emptied_stop (h : s.InOrder done) :
    s.stop.tasks = {} ∧ s.stop.queue = [] ∧ s.stop.inFlight = {} ∧ s.stop.timers = {} ∧
      s.stop.workers = {} ∧ s.stop.idle = [] := by
  have htasks : s.stop.tasks = {} := Table.eq_empty_of_keys (keys_stop s)
  refine ⟨htasks, rfl, ?_, s.timers_stop, rfl, rfl⟩
  refine Table.eq_empty_of_keys (List.eq_nil_iff_forall_not_mem.2 ?_)
  intro key hkey
  obtain ⟨id, hid⟩ := Table.mem_keys_iff.1 hkey
  obtain ⟨q, hq, -⟩ := (h.stop.keysAgree.mem_inFlight key id).1 hid
  rw [htasks] at hq
  cases hq

end InOrder

end Supervisor

namespace Pool

variable {p p' : Pool} {done : List TaskId} {s : Supervisor}

/-! ## After a shutdown -/

/-- The supervisor has left its books `s` for good.  The system may still change its mind
    on worker starts. -/
structure Closed (s : Supervisor) (p : Pool) : Prop where
  books : p.supervisor = { s with starts := p.supervisor.starts }
  off : p.status ≠ .running

namespace Closed

theorem step (h : p.Closed s) {action : PoolAction} (hs : p.Step action p') : p'.Closed s := by
  refine ⟨?_, off_step hs h.off⟩
  cases hs with
  | drop | askInVain | wait | receive | finishInVain | leave | advance => exact h.books
  | plan starts =>
    change { p.supervisor with starts } = { s with starts }
    rw [h.books]
  | submit hrun | ask hrun | obey hrun | stop hrun | hear hrun | finish outcome hrun | fire hrun =>
    exact (h.off hrun).elim

theorem run (h : p.Closed s) {actions : List PoolAction} (hrun : p.run actions = some p') :
    p'.Closed s := by
  refine transitions_induction (P := fun _ p => p.Closed s) ?_ [] h hrun
  intro log p action p' h ha
  exact h.step (step_of_act ha)

/-- Who was answered nothing is told that the task is cancelled. -/
theorem outcome?_eq (h : p.Closed s) (id : TaskId) :
    p.outcome? id = some (((s.answers.find? (·.1 = id)).map (·.2)).getD .cancelled) := by
  rw [outcome?, answer?, if_neg h.off, h.books]
  cases s.answers.find? (·.1 = id) <;> rfl

theorem submit_eq (h : p.Closed s) (path content : String) :
    p.submit path content = .error .shutDown :=
  if_neg h.off

theorem requestShutdown_eq (h : p.Closed s) : p.act .requestShutdown = some p := by
  rw [act, requestShutdown, if_neg h.off]

/-- Nobody takes events any more, whoever sent them, and no timer goes off. -/
theorem deaf (h : p.Closed s) (events : List PoolEvent) :
    ({ p with events } : Pool).act .takeEvent = none ∧
      ∀ id, ({ p with events } : Pool).act (.fire id) = none := by
  have hoff : ∀ {action p'}, ({ p with events } : Pool).act action = some p' →
      action ≠ .takeEvent ∧ ∀ id, action ≠ .fire id := by
    intro action p' ha
    cases step_of_act ha with
    | hear hrun | fire hrun => exact (h.off hrun).elim
    | _ => exact ⟨by simp, by simp⟩
  constructor
  · rw [Option.eq_none_iff_forall_ne_some]
    exact fun p' ha => (hoff ha).1 rfl
  · intro id
    rw [Option.eq_none_iff_forall_ne_some]
    exact fun p' ha => (hoff ha).2 id rfl

end Closed

/-- A submission that the supervisor has not taken is not answered by a shutdown. -/
theorem InOrder.find?_stop (h : p.InOrder done) {task : Task} (hm : .submit task ∈ p.commands) :
    p.supervisor.stop.answers.find? (·.1 = task.id) = none := by
  have hawaits : task.id ∈ p.awaiting := List.mem_filterMap.2 ⟨_, hm, rfl⟩
  rw [List.find?_eq_none]
  intro answer ha
  rw [decide_eq_true_eq]
  intro hid
  have hdone : answer.1 ∈ done := h.books.stop.kept.books.ledger.mem_iff.1
    (List.mem_append_right _ (List.mem_map.2 ⟨answer, ha, rfl⟩))
  exact (List.nodup_append.1 h.ids).2.2 _ hdone _ hawaits hid

/-- The supervisor takes a shutdown, whatever events are on their way. -/
theorem takeCommand_shutdown (hrun : p.status = .running) {commands : List PoolCommand}
    (hc : p.commands = .shutdown :: commands) (events : List PoolEvent) :
    ({ p with events } : Pool).act .takeCommand =
      some { p with
        supervisor := p.supervisor.stop, status := .stopped, commands := [], events := [] } := by
  obtain ⟨settings, supervisor, status, queued, sent, threads, now, lastTask⟩ := p
  cases hrun
  cases hc
  rfl

/-- **A shutdown is final.**  Whatever the parties of the pool have done and whatever events
    are on their way, the supervisor that takes a shutdown:

    * sends to everybody who waits for a task in the queue or with a worker, and was sent
      nothing before, that it is cancelled, and sends nothing to anybody else;
    * counts the tasks that it cancels, not those who wait for them, and no other ending;
    * leaves nothing on its books.

    Whatever happens afterwards changes neither the books nor an outcome, no event is taken
    and no timer goes off, submissions are refused, those that were on their way are
    cancelled, and to ask for a shutdown once more changes nothing. -/
theorem shutdown_final {settings : PoolSettings} {starts : StartPlan} {actions : List PoolAction}
    {p₀ p : Pool} (hstart : Pool.start settings starts = .ok p₀) (hrun : p₀.run actions = some p)
    (hrunning : p.status = .running) {commands : List PoolCommand}
    (hc : p.commands = .shutdown :: commands) :
    ∃ p' : Pool, (∀ events, ({ p with events } : Pool).act .takeCommand = some p') ∧
      (∀ v id, (id ∈ p.supervisor.queue ∨ ∃ w, p.supervisor.workers.get? w = some (.busy id)) →
        p.supervisor.Waits v id →
          p.supervisor.sent v = [] ∧ p'.supervisor.sent v = [.cancelled]) ∧
      (∀ v, (∀ id, (id ∈ p.supervisor.queue ∨
          ∃ w, p.supervisor.workers.get? w = some (.busy id)) → ¬ p.supervisor.Waits v id) →
        p'.supervisor.sent v = p.supervisor.sent v) ∧
      p'.supervisor.stats = { p.supervisor.stats with
        cancelled := p.supervisor.stats.cancelled +
          (p.supervisor.queue.length + p.supervisor.stats.active)
        active := 0, workers := 0, queued := 0 } ∧
      (p'.supervisor.tasks = {} ∧ p'.supervisor.queue = [] ∧ p'.supervisor.inFlight = {} ∧
        p'.supervisor.timers = {} ∧ p'.supervisor.workers = {} ∧ p'.supervisor.idle = []) ∧
      ∀ more p'', p'.run more = some p'' →
        p''.supervisor = { p'.supervisor with starts := p''.supervisor.starts } ∧
        (∀ id, p''.outcome? id = p'.outcome? id) ∧
        (∀ events, ({ p'' with events } : Pool).act .takeEvent = none ∧
          ∀ id, ({ p'' with events } : Pool).act (.fire id) = none) ∧
        (∀ path content, p''.submit path content = .error .shutDown) ∧
        (∀ task, .submit task ∈ commands → p''.outcome? task.id = some .cancelled) ∧
        p''.act .requestShutdown = some p'' := by
  obtain ⟨done, ho⟩ := inOrder_run hstart hrun
  have hn : done.Nodup := ho.ids.of_append_left
  let p' : Pool := { p with
    supervisor := p.supervisor.stop, status := .stopped, commands := [], events := [] }
  have hclosed : p'.Closed p.supervisor.stop := ⟨rfl, by simp [p']⟩
  refine ⟨p', takeCommand_shutdown hrunning hc, ?_, ?_, ?_, ho.books.emptied_stop, ?_⟩
  · intro v id _ hwaits
    refine ⟨?_, ho.books.sent_stop hn hwaits⟩
    rcases ho.books.kept.books.waits_or_sent hn (ho.books.kept.books.mem_of_waits hwaits) with
      ⟨-, hnone⟩ | ⟨hfree, -⟩
    · exact hnone
    · exact (hfree id hwaits).elim
  · intro v hfree
    refine Supervisor.sent_stop_of_free ?_
    rintro id ⟨q, hq, hv⟩
    have hplaced := (ho.books.balanced.mem_tasks id).1 (Table.mem_keys_iff.2 ⟨q, hq⟩)
    exact hfree id hplaced ⟨q, hq, hv⟩
  · rw [← ho.books.size_tasks]
    exact p.supervisor.stats_stop
  · intro more p'' hmore
    have hlater := hclosed.run hmore
    refine ⟨hlater.books, ?_, hlater.deaf, hlater.submit_eq, ?_, hlater.requestShutdown_eq⟩
    · intro id
      rw [hlater.outcome?_eq, hclosed.outcome?_eq]
    · intro task hm
      rw [hlater.outcome?_eq, ho.find?_stop (hc ▸ List.mem_cons_of_mem _ hm)]
      rfl

/-- The worker of the sample has crashed on its first task, and two submissions wait for the
    second one, when a shutdown is asked for.  One more submission comes behind that. -/
def closing : List PoolAction :=
  [.submit "p" "a", .takeCommand, .submit "p" "b", .takeCommand, .submit "p" "b", .takeCommand,
    .receive 0, .finish 0 (.crashed "overflow"), .requestShutdown, .submit "p" "c"]

/-- The sample before the supervisor takes the shutdown. -/
def crowded : Pool :=
  (sample.run closing).get (by decide +kernel)

theorem shutdown_final_sample :
    ∃ p, crowded.act .takeCommand = some p ∧ crowded.events.length = 1 ∧
      (∀ v ∈ [1, 2, 3], p.supervisor.sent v = [.cancelled]) ∧
      p.supervisor.stats.cancelled = 2 ∧ p.supervisor.stats.crashed = 0 ∧
      ∀ more p', p.run more = some p' → p'.supervisor.answers = p.supervisor.answers ∧
        p'.outcome? 4 = some .cancelled ∧ p'.submit "p" "d" = .error .shutDown := by
  have hcheck : decide (crowded.status = .running ∧
      crowded.commands.head? = some .shutdown ∧ crowded.events.length = 1 ∧
      crowded.supervisor.queue = [2] ∧ crowded.supervisor.workers.get? 0 = some (.busy 1) ∧
      crowded.supervisor.stats.active = 1 ∧ crowded.supervisor.stats.cancelled = 0 ∧
      crowded.supervisor.stats.crashed = 0 ∧
      (crowded.supervisor.tasks.get? 1).any (fun q => decide (1 ∈ q.waiters)) = true ∧
      (crowded.supervisor.tasks.get? 2).any (fun q => decide (2 ∈ q.waiters ∧ 3 ∈ q.waiters)) =
        true ∧
      crowded.commands.any (fun c => decide (c.task? = some 4)) = true) = true := by
    decide +kernel
  obtain ⟨hrunning, hhead, hevents, hqueue, hbusy, hactive, hcancelled, hcrashed, hone, htwo,
    hbehind⟩ := of_decide_eq_true hcheck
  obtain ⟨commands, hc⟩ := List.head?_eq_some_iff.1 hhead
  obtain ⟨q₁, hq₁, hv₁⟩ := (Option.any_eq_true _ _).1 hone
  obtain ⟨q₂, hq₂, hv₂⟩ := (Option.any_eq_true _ _).1 htwo
  have hrun : sample.run closing = some crowded := (Option.some_get _).symm
  obtain ⟨p, hact, hsent, -, hstats, -, hlater⟩ :=
    shutdown_final sample_started hrun hrunning hc
  refine ⟨p, hact crowded.events, hevents, ?_, ?_, ?_, ?_⟩
  · have h₁ := (hsent 1 1 (Or.inr ⟨0, hbusy⟩) ⟨q₁, hq₁, of_decide_eq_true hv₁⟩).2
    have h₂ := (hsent 2 2 (Or.inl (by simp [hqueue])) ⟨q₂, hq₂, (of_decide_eq_true hv₂).1⟩).2
    have h₃ := (hsent 3 2 (Or.inl (by simp [hqueue])) ⟨q₂, hq₂, (of_decide_eq_true hv₂).2⟩).2
    simp [h₁, h₂, h₃]
  · rw [hstats]
    simp [hcancelled, hqueue, hactive]
  · rw [hstats]
    exact hcrashed
  · intro more p' hmore
    obtain ⟨hbooks, -, -, hsubmit, hcommands, -⟩ := hlater more p' hmore
    refine ⟨by rw [hbooks], ?_, hsubmit "p" "d"⟩
    obtain ⟨command, hm, hid⟩ := List.any_eq_true.1 hbehind
    rw [hc] at hm
    cases command with
    | shutdown => cases of_decide_eq_true hid
    | submit task =>
      have htask : task.id = 4 := Option.some.inj (of_decide_eq_true hid)
      rw [← htask]
      exact hcommands task (by simpa using hm)

end Pool

end SourceIndex
