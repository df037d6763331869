/-
  The moments of a run of the supervisor.

  A message is not one step.  The supervisor takes a submission or takes note of an event,
  and then goes through rounds of handing out tasks, of which each does one thing.

  * `Supervisor.Round`: what one round of handing out tasks does;
  * `Supervisor.Moment`: one thing that the supervisor does, with the books before and
    after it;
  * `Supervisor.moments`: the moments of a run, in order;
  * `moments_induction`: what each moment keeps holds after a run, together with what was
    seen of it;
  * `Pool.Driven`, `Pool.driven_run`: the books of a pool are those after some messages,
    of which the submissions have different numbers.
-/
import SourceIndex.Proofs.Threads

namespace SourceIndex

namespace Supervisor

/-! ## Rounds of handing out tasks -/

/-- What a round of handing out tasks does. -/
inductive Round (accepts : WorkerId → Bool) (now : Nat) (s : Supervisor) : Supervisor → Prop where
  | rest (h : s.Settled) : Round accepts now s s
  | skip {task : TaskId} {queue : List TaskId} (hq : s.queue = task :: queue)
    (ht : s.tasks.get? task = none) : Round accepts now s { s with queue := queue }
  | pass {worker : WorkerId} {idle : List WorkerId} (hi : s.idle = worker :: idle)
    (hw : s.workers.get? worker = none) : Round accepts now s { s with idle := idle }
  | assign {task : TaskId} {queue : List TaskId} {worker : WorkerId} {idle : List WorkerId}
    {p : Pending} {state : WorkerState} (hq : s.queue = task :: queue)
    (hi : s.idle = worker :: idle) (hp : s.tasks.get? task = some p)
    (hw : s.workers.get? worker = some state) (ha : accepts worker = true) :
    Round accepts now s (s.assign now worker p.task)
  | retire {worker : WorkerId} {idle : List WorkerId} {state : WorkerState}
    (hi : s.idle = worker :: idle) (hw : s.workers.get? worker = some state)
    (ha : accepts worker = false) : Round accepts now s (s.retire worker)

section
variable (accepts : WorkerId → Bool) (now : Nat)

theorem exists_round (s : Supervisor) :
    ∃ s', Round accepts now s s' ∧
      ∀ n, dispatchLoop accepts now (n + 1) s = dispatchLoop accepts now n s' := by
  have hsettled : s.Settled → ∃ s', Round accepts now s s' ∧
      ∀ n, dispatchLoop accepts now (n + 1) s = dispatchLoop accepts now n s' := fun hs =>
    ⟨s, .rest hs, fun n => by rw [dispatchLoop_of_settled hs, dispatchLoop_of_settled hs]⟩
  cases hq : s.queue with
  | nil => exact hsettled (Or.inl hq)
  | cons task queue =>
    cases hi : s.idle with
    | nil => exact hsettled (Or.inr hi)
    | cons worker idle =>
      cases hp : s.tasks.get? task with
      | none => exact ⟨_, .skip hq hp, fun n => by simp only [dispatchLoop, hq, hi, hp]⟩
      | some p =>
        cases hw : s.workers.get? worker with
        | none => exact ⟨_, .pass hi hw, fun n => by simp only [dispatchLoop, hq, hi, hp, hw]⟩
        | some state =>
          cases ha : accepts worker with
          | true =>
            refine ⟨_, .assign hq hi hp hw ha, fun n => ?_⟩
            simp only [dispatchLoop, hq, hi, hp, hw, ha, if_true]
          | false =>
            refine ⟨_, .retire hi hw ha, fun n => ?_⟩
            rw [← retire_tail hi]
            simp [dispatchLoop, hq, hi, hp, hw, ha]

theorem round_dispatchLoop (n : Nat) (s : Supervisor) :
    Round accepts now (dispatchLoop accepts now n s) (dispatchLoop accepts now (n + 1) s) := by
  induction n generalizing s with
  | zero =>
    obtain ⟨s', hround, hloop⟩ := exists_round accepts now s
    rw [hloop]
    exact hround
  | succ n ih =>
    obtain ⟨s', -, hloop⟩ := exists_round accepts now s
    rw [hloop, hloop]
    exact ih s'

end

/-! ## Moments -/

/-- What the supervisor does at a moment. -/
inductive Duty where
  | take (task : Task)
  | note (event : PoolEvent)
  | round
  | stop

/-- The books just before and just after the supervisor does one thing. -/
structure Moment where
  before : Supervisor
  duty : Duty
  after : Supervisor

/-- The moments at which tasks are handed out. -/
def rounds (accepts : WorkerId → Bool) (now n : Nat) (s : Supervisor) : List Moment :=
  (List.range n).map fun k =>
    ⟨dispatchLoop accepts now k s, .round, dispatchLoop accepts now (k + 1) s⟩

/-- The moments of a run. -/
def moments (s : Supervisor) : List Message → List Moment
  | [] => []
  | .submit accepts now task :: ms =>
    let s₁ := s.enqueue task
    [⟨s, .take task, s₁⟩] ++ rounds accepts now (s₁.queue.length + 2 * s₁.idle.length) s₁ ++
      (s.submit accepts now task).moments ms
  | .event accepts now event :: ms =>
    let s₁ := s.note event
    [⟨s, .note event, s₁⟩] ++ rounds accepts now (s₁.queue.length + 2 * s₁.idle.length) s₁ ++
      (s.handle accepts now event).moments ms
  | .disturb starts timers :: ms => moments { s with starts, timers } ms
  | .shutdown :: _ => [⟨s, .stop, s.stop⟩]

section
variable {P : List TaskId → List Moment → Supervisor → Prop}
  (htake : ∀ {done log s} (task : Task), P done log s →
    P (done ++ [task.id]) (log ++ [⟨s, .take task, s.enqueue task⟩]) (s.enqueue task))
  (hnote : ∀ {done log s} event, P done log s →
    P done (log ++ [⟨s, .note event, s.note event⟩]) (s.note event))
  (hround : ∀ {done log s s'} accepts now, P done log s → Round accepts now s s' →
    P done (log ++ [⟨s, .round, s'⟩]) s') (hcount : ∀ {done log s}, P done log s →
    P done log { s with stats := { s.stats with queued := s.queue.length } }) {done : List TaskId}
  {log : List Moment} {s : Supervisor}

include hround hcount in
/-- Handing out tasks keeps what each round keeps. -/
theorem rounds_induction (h : P done log s) (accepts : WorkerId → Bool) (now : Nat) :
    P done (log ++ rounds accepts now (s.queue.length + 2 * s.idle.length) s)
      (s.dispatch accepts now) := by
  have hrounds : ∀ n,
      P done (log ++ rounds accepts now n s) (dispatchLoop accepts now n s) := by
    intro n
    induction n with
    | zero => rwa [rounds, List.range_zero, List.map_nil, List.append_nil]
    | succ n ih =>
      rw [rounds, List.range_succ, List.map_append, ← List.append_assoc]
      exact hround accepts now ih (round_dispatchLoop accepts now n s)
  exact hcount (hrounds _)

include htake hnote hround hcount in
/-- What each moment keeps holds after a run, where `log` are the moments so far and
    `done` the submissions. -/
theorem moments_induction
    (hstop : ∀ {done log s}, P done log s → P done (log ++ [⟨s, .stop, s.stop⟩]) s.stop)
    (hdisturb : ∀ {done log s} starts timers, P done log s → P done log { s with starts, timers })
    {ms : List Message} (h : P done log s) :
    P (done ++ submissions ms) (log ++ s.moments ms) (s.run ms) := by
  induction ms generalizing done log s with
  | nil => simpa [submissions, moments, run] using h
  | cons m ms ih =>
    cases m with
    | submit accepts now task =>
      have he : done ++ submissions (.submit accepts now task :: ms) =
        done ++ [task.id] ++ submissions ms := by simp [submissions]
      rw [he, moments, ← List.append_assoc, ← List.append_assoc]
      exact ih (rounds_induction hround hcount (htake task h) accepts now)
    | event accepts now event =>
      rw [moments, ← List.append_assoc, ← List.append_assoc]
      exact ih (rounds_induction hround hcount (hnote event h) accepts now)
    | disturb starts timers => exact ih (hdisturb starts timers h)
    | shutdown => simpa [submissions, moments, run] using hstop h

end

/-! ## More messages -/

section
variable {ms : List Message} (h : .shutdown ∉ ms)
include h

theorem run_append (s : Supervisor) (more : List Message) :
    s.run (ms ++ more) = (s.run ms).run more := by
  induction ms generalizing s with
  | nil => rfl
  | cons m ms ih =>
    have hms : .shutdown ∉ ms := fun hm => h (List.mem_cons_of_mem _ hm)
    cases m with
    | submit accepts now task => exact ih hms _
    | event accepts now event => exact ih hms _
    | disturb starts timers => exact ih hms _
    | shutdown => exact absurd List.mem_cons_self h

theorem submissions_append (more : List Message) :
    submissions (ms ++ more) = submissions ms ++ submissions more := by
  induction ms with
  | nil => rfl
  | cons m ms ih =>
    have hms : .shutdown ∉ ms := fun hm => h (List.mem_cons_of_mem _ hm)
    cases m with
    | submit accepts now task => exact congrArg (task.id :: ·) (ih hms)
    | event accepts now event => exact ih hms
    | disturb starts timers => exact ih hms
    | shutdown => exact absurd List.mem_cons_self h

end

end Supervisor

/-! ## Runs of a pool -/

namespace Pool

variable {s : Supervisor} {ms : List Supervisor.Message} {starts : StartPlan} {p p' : Pool}
  {settings : PoolSettings}

/-- The books of a pool are those after the messages `ms`, but for the worker starts that
    are to come.  No submission has the number of another one. -/
structure Driven (s : Supervisor) (ms : List Supervisor.Message) (starts : StartPlan) (p : Pool) :
    Prop where
  books : p.supervisor = { s.run ms with starts }
  running : p.status = .running → .shutdown ∉ ms
  ids : (Supervisor.submissions ms ++ p.awaiting).Nodup
  le : ∀ id ∈ Supervisor.submissions ms ++ p.awaiting, id ≤ p.lastTask

namespace Driven

theorem congr (h : p.Driven s ms starts) (hs : p'.supervisor = { s.run ms with starts })
    (hrun : p'.status = .running → p.status = .running) (hids : p'.awaiting.Sublist p.awaiting)
    (hlast : p'.lastTask = p.lastTask) : p'.Driven s ms starts := by
  have hsub := (List.Sublist.refl (Supervisor.submissions ms)).append hids
  refine ⟨hs, fun hr => h.running (hrun hr), h.ids.sublist hsub, ?_⟩
  rw [hlast]
  exact fun id hid => h.le id (hsub.subset hid)

theorem message (h : p.Driven s ms starts) (hrun : p.status = .running) (m : Supervisor.Message)
    (hs : p'.supervisor = p.supervisor.run [m]) (hm : p'.status = .running → m ≠ .shutdown)
    (hids : (Supervisor.submissions [m] ++ p'.awaiting).Sublist p.awaiting)
    (hlast : p'.lastTask = p.lastTask) : ∃ ms starts, p'.Driven s ms starts := by
  have hms := h.running hrun
  -- what the system says about worker starts by now comes before the message
  let more : List Supervisor.Message := [.disturb starts (s.run ms).timers, m]
  have hsub : (Supervisor.submissions (ms ++ more) ++ p'.awaiting).Sublist
      (Supervisor.submissions ms ++ p.awaiting) := by
    rw [Supervisor.submissions_append hms, List.append_assoc]
    exact (List.Sublist.refl _).append hids
  refine ⟨ms ++ more, p'.supervisor.starts, ?_, ?_, h.ids.sublist hsub, ?_⟩
  · rw [Supervisor.run_append hms, hs, h.books]
    rfl
  · intro hr hmem
    rcases List.mem_append.1 hmem with hmem | hmem
    · exact hms hmem
    · simp only [more, List.mem_cons, List.not_mem_nil, or_false, reduceCtorEq, false_or] at hmem
      exact hm hr hmem.symm
  · rw [hlast]
    exact fun id hid => h.le id (hsub.subset hid)

theorem step (h : p.Driven s ms starts) {action : PoolAction} (hstep : p.Step action p') :
    ∃ ms starts, p'.Driven s ms starts := by
  cases hstep with
  | submit hrun =>
    refine ⟨ms, starts, h.books, h.running, ?_, ?_⟩
    · simp only [awaiting, List.filterMap_append, ← List.append_assoc]
      refine h.ids.append (List.nodup_singleton _) ?_
      intro id hid hlast
      have hle := h.le id hid
      rw [List.mem_singleton.1 hlast] at hle
      exact Nat.not_succ_le_self _ hle
    · simp only [awaiting, List.filterMap_append, ← List.append_assoc]
      intro id hid
      rcases List.mem_append.1 hid with hid | hid
      · exact Nat.le_succ_of_le (h.le id hid)
      · exact Nat.le_of_eq (List.mem_singleton.1 hid)
  | ask hrun =>
    refine ⟨ms, starts, h.congr h.books id ?_ rfl⟩
    simp [awaiting, PoolCommand.task?]
  | askInVain hrun => exact ⟨ms, starts, h⟩
  | drop => exact ⟨ms, starts, h.congr h.books (fun hr => by cases hr) (List.nil_sublist _) rfl⟩
  | @obey task commands hrun hc =>
    refine h.message hrun (.submit p.accepts p.now task) rfl (fun _ hm => by cases hm) ?_ rfl
    have hnext : p.awaiting = task.id :: commands.filterMap PoolCommand.task? := by
      rw [awaiting, hc]
      rfl
    rw [hnext]
    exact List.Sublist.refl _
  | stop hrun hc =>
    exact h.message hrun .shutdown rfl (fun hr => by cases hr) (List.nil_sublist _) rfl
  | @hear event events hrun he =>
    exact h.message hrun (.event p.accepts p.now event) rfl (fun _ hm => by cases hm)
      (List.Sublist.refl _) rfl
  | wait | receive | finish | finishInVain | leave | advance =>
    exact ⟨ms, starts, h.congr h.books id (List.Sublist.refl _) rfl⟩
  | @fire task timer hrun ht =>
    exact h.message hrun (.disturb p.supervisor.starts
      (p.supervisor.timers.put task { timer with fired := true })) rfl (fun _ hm => by cases hm)
      (List.Sublist.refl _) rfl
  | plan starts' =>
    refine ⟨ms, starts', ?_, h.running, h.ids, h.le⟩
    rw [h.books]

end Driven

theorem Driven.start (h : Pool.start settings starts = .ok p) :
    p.Driven p.supervisor [] p.supervisor.starts := by
  obtain ⟨s, -, rfl⟩ := eq_of_start h
  exact ⟨rfl, fun _ => List.not_mem_nil, List.nodup_nil, List.forall_mem_nil _⟩

/-- The books of a pool are those after some messages, at any time. -/
theorem driven_run {actions : List PoolAction} (hstart : Pool.start settings starts = .ok p)
    (hrun : p.run actions = some p') : ∃ ms starts, p'.Driven p.supervisor ms starts := by
  refine run_induction (P := fun _ p' => ∃ ms starts, p'.Driven p.supervisor ms starts) ?_ []
    ⟨[], _, Driven.start hstart⟩ hrun
  rintro log p₁ action p₂ ⟨ms, starts, h⟩ hact
  exact h.step (step_of_act hact)

end Pool

end SourceIndex
