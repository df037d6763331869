/-
  Tasks that take too long.

  The time of a task is up some time before its timer goes off, and the supervisor hears
  of that later still.  Once it has heard of every timer that is due, no task is past its
  time.

  * `Pool.CaughtUp`: every timer that is due has gone off and was heard of;
  * `Pool.Pursued`: what becomes of a submission that waits for a task which a worker has;
  * `Punctual.exists_catchUp`: a pool that runs can catch up at any time;
  * `Pool.timeouts_disciplined`: a task is answered so only after its time, and once the
    pool has caught up every task that is past its time was answered.
-/
import SourceIndex.Proofs.Accounting
import SourceIndex.Proofs.Capacity
import SourceIndex.Proofs.Stranded
import SourceIndex.Proofs.Timers

namespace SourceIndex

namespace Supervisor

variable {s : Supervisor} {done : List TaskId} {v id : TaskId} {w : WorkerId}

/-! ## What stays -/

theorem mem_sent {outcome : TaskResult} : outcome ∈ s.sent v ↔ (v, outcome) ∈ s.answers := by
  simp [sent]

theorem subset_answers_resolve (s : Supervisor) (id : TaskId) (outcome : TaskResult) :
    s.answers ⊆ (s.resolve id outcome).answers := by
  rw [resolve]
  split
  · exact List.Subset.refl _
  · exact List.subset_append_left _ _

theorem subset_answers_enqueue (s : Supervisor) (task : Task) :
    s.answers ⊆ (s.enqueue task).answers := by
  rcases enqueue_cases s task with ⟨id, p, -, -, he⟩ | ⟨-, he⟩ | ⟨-, starts, he | he⟩
  · rw [he]
    exact List.Subset.refl _
  · rw [he]
    exact List.Subset.refl _
  · rw [he]
    exact List.Subset.refl _
  · rw [he]
    exact List.subset_append_left _ _

/-- Answers stay. -/
theorem ledgerInvariant_answers (answers : List (TaskId × TaskResult)) :
    LedgerInvariant fun _ s => answers ⊆ s.answers where
  same h hs := hs.answers ▸ h
  resolve id outcome h := List.Subset.trans h (subset_answers_resolve _ id outcome)
  assign _ _ _ h := h
  enqueue _ h := List.Subset.trans h (subset_answers_enqueue _ _)

theorem get?_refuseAll (reason : String) {ids : List TaskId} (hid : id ∉ ids) :
    (refuseAll reason ids s).tasks.get? id = s.tasks.get? id := by
  induction ids generalizing s with
  | nil => rfl
  | cons i ids ih =>
    rw [List.mem_cons, not_or] at hid
    rw [refuseAll, ih hid.2, get?_resolve, if_neg (Ne.symm hid.1)]

theorem tasks_retire (hq : id ∉ s.queue) (worker : WorkerId) :
    (s.retire worker).tasks.get? id = s.tasks.get? id := by
  obtain ⟨starts, he | he | ⟨-, he⟩⟩ := retire_cases s worker
  · rw [he]
    rfl
  · rw [he]
    rfl
  · rw [he, get?_refuseAll _ hq]
    rfl

theorem keys_retire (hnew : s.nextWorker ∉ s.workers.keys) (worker : WorkerId) :
    (s.retire worker).workers.keys = s.workers.keys.filter (· ≠ worker) ++
      if s.starts.next.1 then [s.nextWorker] else [] := by
  have hkeys : (s.workers.erase worker).keys = s.workers.keys.filter (· ≠ worker) := by
    rw [Table.erase, Table.keys, Table.keys, List.filter_map]
    rfl
  have hgone : s.nextWorker ∉ (s.workers.erase worker).keys := by
    rw [hkeys]
    exact fun hm => hnew (List.mem_of_mem_filter hm)
  rw [Crew.keys_retire, Crew.workers_startWorker]
  change (if s.starts.next.1 then (s.workers.erase worker).put s.nextWorker .idle
    else s.workers.erase worker).keys = _
  split
  · rw [Table.keys_put_new _ hgone, hkeys]
  · rw [hkeys, List.append_nil]

namespace InOrder

variable {event : PoolEvent}

theorem notMem_queue (h : s.InOrder done) (hbusy : s.workers.get? w = some (.busy id)) :
    id ∉ s.queue :=
  fun hq => h.balanced.queue_free hq w hbusy

theorem lt_nextWorker (h : s.InOrder done) {state : WorkerState}
    (hw : s.workers.get? w = some state) : w < s.nextWorker :=
  h.kept.books.worker_lt w (Table.mem_keys_iff.2 ⟨state, hw⟩)

theorem runs_enqueue (h : s.InOrder done) (hbusy : s.workers.get? w = some (.busy id))
    (hwaits : s.Waits v id) {task : Task} (hnew : task.id ∉ done) :
    (s.enqueue task).workers.get? w = some (.busy id) ∧ (s.enqueue task).Waits v id := by
  obtain ⟨p, hp, hv⟩ := hwaits
  have hne : task.id ≠ id := by
    rintro rfl
    exact hnew (h.kept.books.known _ (h.balanced.busy hbusy).1)
  have hstarted : s.nextWorker ≠ w := Nat.ne_of_gt (h.lt_nextWorker hbusy)
  have hput : ∀ q, (s.tasks.put task.id q).get? id = some p := by
    intro q
    rw [Table.get?_put, if_neg hne, hp]
  rcases enqueue_cases s task with ⟨i, q, -, hq, he⟩ | ⟨-, he⟩ | ⟨-, starts, he | he⟩
  · rw [he]
    refine ⟨hbusy, ?_⟩
    by_cases hi : i = id
    · subst hi
      rw [hq] at hp
      cases hp
      exact ⟨_, Table.get?_put_self _ _ _, List.mem_append_left _ hv⟩
    · exact ⟨p, (Table.get?_put _ _ _ _).trans ((if_neg hi).trans hp), hv⟩
  · rw [he]
    exact ⟨hbusy, p, hput _, hv⟩
  · rw [he]
    refine ⟨?_, p, hput _, hv⟩
    change (s.workers.put s.nextWorker .idle).get? w = _
    rw [Table.get?_put, if_neg hstarted, hbusy]
  · rw [he]
    exact ⟨hbusy, p, hp, hv⟩

theorem runs_note (h : s.InOrder done) (hbusy : s.workers.get? w = some (.busy id))
    (hother : event.worker = w → event.task ≠ id) :
    (s.note event).workers.get? w = some (.busy id) ∧
      (s.note event).tasks.get? id = s.tasks.get? id := by
  rcases s.note_cases event with ⟨-, he⟩ | ⟨howns, hcases⟩
  · rw [he]
    exact ⟨hbusy, rfl⟩
  have hevent := owns_iff.1 howns
  have hworker : event.worker ≠ w := by
    rintro rfl
    rw [hbusy] at hevent
    cases hevent
    exact hother rfl rfl
  have htask : event.task ≠ id := by
    intro hid
    rw [hid] at hevent
    exact hworker ((h.balanced.busy hbusy).2 _ hevent)
  rcases hcases with ⟨said, -, -, he⟩ | ⟨-, he⟩
  · rw [he, (finish_spec _ _ _).1, get?_reclaim, if_neg hworker, finish, get?_resolve,
      if_neg htask]
    exact ⟨hbusy, rfl⟩
  · let s₁ : Supervisor := { s with stats := event.count s.stats }
    have hstays : (s₁.retire event.worker).workers.get? w = s.workers.get? w :=
      get?_retire_of_ne (s := s₁) (Ne.symm hworker) (h.lt_nextWorker hbusy)
    rw [he, (finish_spec _ _ _).1, finish, get?_resolve, if_neg htask]
    exact ⟨hstays.trans hbusy, tasks_retire (s := s₁) (h.notMem_queue hbusy) _⟩

/-- The event about the task of a worker is the answer to all who wait for the task. -/
theorem sent_note (h : s.InOrder done) (howns : s.owns event.worker event.task = true)
    (hwaits : s.Waits v event.task) : (v, event.outcome) ∈ (s.note event).answers := by
  obtain ⟨p, hp, hv⟩ := hwaits
  have hanswer : ∀ {s' : Supervisor}, s'.tasks.get? event.task = some p →
      (v, event.outcome) ∈ (s'.finish event.task event.outcome).answers := by
    intro s' hp'
    rw [finish, resolve]
    simp only [hp']
    exact List.mem_append_right _ (List.mem_map.2 ⟨v, hv, rfl⟩)
  rw [note_of_owns howns]
  refine hanswer ?_
  split
  · exact hp
  · let s₁ : Supervisor := { s with stats := event.count s.stats }
    exact (tasks_retire (s := s₁) (h.notMem_queue (owns_iff.1 howns)) _).trans hp

theorem sent_stop (h : s.InOrder done) (hn : done.Nodup) (hwaits : s.Waits v id) :
    s.stop.sent v = [.cancelled] := by
  have hv := h.kept.books.mem_of_waits hwaits
  obtain ⟨outcome, hsent⟩ :=
    h.stop.kept.books.sent_of_no_tasks hn hv (keys_stop s)
  have hmem : (v, outcome) ∈ s.stop.answers := mem_sent.1 (by simp [hsent])
  rcases (Since.stop s).answers _ hmem with hold | hcancelled
  · rcases h.kept.books.waits_or_sent hn hv with ⟨-, hnone⟩ | ⟨hfree, -⟩
    · rw [← mem_sent, hnone] at hold
      cases hold
    · exact (hfree id hwaits).elim
  · rw [hsent]
    exact congrArg (fun outcome => [outcome]) hcancelled

end InOrder

theorem mem_workers_enqueue {task : Task} (hw : w ∈ (s.enqueue task).workers.keys) :
    w = s.nextWorker ∨ w ∈ s.workers.keys := by
  rcases enqueue_cases s task with ⟨i, q, -, -, he⟩ | ⟨-, he⟩ | ⟨-, starts, he | he⟩
  · rw [he] at hw
    exact Or.inr hw
  · rw [he] at hw
    exact Or.inr hw
  · rw [he] at hw
    exact Table.mem_keys_put.1 hw
  · rw [he] at hw
    exact Or.inr hw

theorem mem_workers_note {event : PoolEvent} (hw : w ∈ (s.note event).workers.keys) :
    w = s.nextWorker ∨ w ∈ s.workers.keys := by
  rcases s.note_cases event with ⟨-, he⟩ | ⟨howns, ⟨said, -, -, he⟩ | ⟨-, he⟩⟩
  · rw [he] at hw
    exact Or.inr hw
  · rw [he, (finish_spec _ _ _).1, reclaim, Table.keys_put_old _ (owns_iff.1 howns)] at hw
    exact Or.inr hw
  · rw [he, (finish_spec _ _ _).1] at hw
    obtain ⟨state, hstate⟩ := Table.mem_keys_iff.1 hw
    rcases get?_retire hstate with ⟨-, hold⟩ | ⟨hnew, -⟩
    · exact Or.inr (Table.mem_keys_iff.2 ⟨state, hold⟩)
    · exact Or.inl hnew

theorem Kept.runs_dispatch (hk : s.Kept done) {accepts : WorkerId → Bool} (now : Nat)
    (haccepts : ∀ w ∈ s.idle, accepts w = true) (hbusy : s.workers.get? w = some (.busy id)) :
    (s.dispatch accepts now).workers.get? w = some (.busy id) := by
  obtain ⟨jobs, hj⟩ := exists_handout hk.books.idle_nodup now haccepts
  rw [hj.others w, hbusy]
  intro hm
  obtain ⟨job, hjob, rfl⟩ := List.mem_map.1 hm
  exact hk.books.idle_free _ (hj.job_idle job hjob) id hbusy

end Supervisor

namespace Pool

variable {p p' : Pool} {done : List TaskId} {limit : Nat} {log : List Transition} {v id : TaskId}
  {w : WorkerId} {action : PoolAction}

/-! ## Steps of the supervisor -/

/-- A supervisor that runs can take the next event. -/
theorem takeEvent_eq (hrun : p.status = .running) {event : PoolEvent} {events : List PoolEvent}
    (he : p.events = event :: events) :
    p.act .takeEvent = some (({ p with events } : Pool).withBooks
      (p.supervisor.handle p.accepts p.now event)) := by
  obtain ⟨settings, supervisor, status, commands, sent, threads, now, lastTask⟩ := p
  cases hrun
  cases he
  rfl

theorem subset_answers_step (hs : p.Step action p') :
    p.supervisor.answers ⊆ p'.supervisor.answers := by
  have hinv := Supervisor.ledgerInvariant_answers p.supervisor.answers
  have hstart : p.supervisor.answers ⊆ p.supervisor.answers := List.Subset.refl _
  cases hs with
  | submit | ask | askInVain | drop | wait | receive | finish | finishInVain | leave | fire
    | advance | plan => exact hstart
  | stop => exact @hinv.stop _ [] _ hstart
  | obey => exact @hinv.dispatch _ [] _ (Supervisor.subset_answers_enqueue _ _) _ _
  | hear => exact @hinv.dispatch _ [] _ (@hinv.note _ [] _ hstart _) _ _

namespace InOrder

/-- Idle workers take what they are given once a submission is on the books. -/
theorem accepts_enqueue (h : p.InOrder done) (hrun : p.status = .running) {task : Task}
    {commands : List PoolCommand} (hc : p.commands = .submit task :: commands) :
    ∀ w ∈ (p.supervisor.enqueue task).idle, p.accepts w = true := by
  intro w hw
  have hidle := ((h.books.kept.enqueue (h.notMem_done hc)).roster.mem_idle w).1 hw
  exact (h.linked_enqueue hrun task w _ hidle).accepts

/-- Idle workers take what they are given once an event was taken. -/
theorem accepts_note (h : p.InOrder done) (hrun : p.status = .running) {event : PoolEvent}
    {events : List PoolEvent} (he : p.events = event :: events) :
    ∀ w ∈ (p.supervisor.note event).idle, p.accepts w = true := by
  intro w hw
  have hidle := ((h.books.kept.note event).roster.mem_idle w).1 hw
  exact (h.linked_note hrun he w _ hidle).accepts

theorem gone_step (h : p.InOrder done) (hs : p.Step action p')
    (hgone : w < p.supervisor.nextWorker ∧ w ∉ p.supervisor.workers.keys) :
    w < p'.supervisor.nextWorker ∧ w ∉ p'.supervisor.workers.keys := by
  obtain ⟨hlt, hoff⟩ := hgone
  cases hs with
  | submit | ask | askInVain | drop | wait | receive | finish | finishInVain | leave | fire
    | advance | plan => exact ⟨hlt, hoff⟩
  | stop => exact ⟨(Supervisor.framed_stop p.supervisor).next ▸ hlt, List.not_mem_nil⟩
  | @obey task commands hrun hc =>
    have haccepts := h.accepts_enqueue hrun hc
    obtain ⟨n, hle, -, hframe⟩ := Supervisor.framed_enqueue p.supervisor task
    constructor
    · refine Nat.lt_of_lt_of_le hlt ?_
      change _ ≤ ((p.supervisor.enqueue task).dispatch p.accepts p.now).nextWorker
      rw [(Supervisor.dispatch_of_accepts _ haccepts).1, hframe.next]
      exact hle
    · change w ∉ ((p.supervisor.enqueue task).dispatch p.accepts p.now).workers.keys
      rw [(Supervisor.dispatch_of_accepts _ haccepts).2.2]
      exact fun hw => (Supervisor.mem_workers_enqueue hw).elim (Nat.ne_of_lt hlt) hoff
  | @hear event events hrun he =>
    have haccepts := h.accepts_note hrun he
    obtain ⟨n, hle, -, hframe⟩ := Supervisor.framed_note p.supervisor event
    constructor
    · refine Nat.lt_of_lt_of_le hlt ?_
      change _ ≤ ((p.supervisor.note event).dispatch p.accepts p.now).nextWorker
      rw [(Supervisor.dispatch_of_accepts _ haccepts).1, hframe.next]
      exact hle
    · change w ∉ ((p.supervisor.note event).dispatch p.accepts p.now).workers.keys
      rw [(Supervisor.dispatch_of_accepts _ haccepts).2.2]
      exact fun hw => (Supervisor.mem_workers_note hw).elim (Nat.ne_of_lt hlt) hoff

theorem sent_step (h : p.InOrder done) (hs : p.Step action p') {outcome : TaskResult}
    (hsent : p.supervisor.sent v = [outcome]) : p'.supervisor.sent v = [outcome] := by
  have hold : (v, outcome) ∈ p.supervisor.answers := Supervisor.mem_sent.1 (by simp [hsent])
  obtain ⟨⟨done', h'⟩, -⟩ := h.step hs
  refine h'.books.kept.books.sent_of_mem h'.ids.of_append_left (Supervisor.mem_sent.2 ?_)
  exact subset_answers_step hs hold

end InOrder

theorem off_step (hs : p.Step action p') (hoff : p.status ≠ .running) : p'.status ≠ .running := by
  cases hs with
  | askInVain | wait | receive | finishInVain | leave | advance | plan => exact hoff
  | drop => simp
  | submit hrun | ask hrun | obey hrun | stop hrun | hear hrun | finish outcome hrun | fire hrun =>
    exact (hoff hrun).elim

/-! ## What becomes of a task with a worker -/

namespace InOrder

variable {events : List PoolEvent} {event : PoolEvent}

theorem sent_hear (h : p.InOrder done) (hrun : p.status = .running)
    (he : p.events = event :: events)
    (hbusy : p.supervisor.workers.get? event.worker = some (.busy event.task))
    (hwaits : p.supervisor.Waits v event.task) :
    (p.supervisor.handle p.accepts p.now event).sent v = [event.outcome] := by
  obtain ⟨⟨done', h'⟩, -⟩ := h.step (.hear hrun he)
  refine h'.books.kept.books.sent_of_mem h'.ids.of_append_left (Supervisor.mem_sent.2 ?_)
  have hinv := Supervisor.ledgerInvariant_answers (p.supervisor.note event).answers
  refine @hinv.dispatch _ done _ (List.Subset.refl _) p.accepts p.now _ ?_
  exact h.books.sent_note (Supervisor.owns_iff.2 hbusy) hwaits

/-- A worker whose task takes too long is replaced, where starting succeeds. -/
theorem keys_hear (h : p.InOrder done) (hrun : p.status = .running)
    (he : p.events = .timedOut w id :: events)
    (hbusy : p.supervisor.workers.get? w = some (.busy id)) :
    (p.supervisor.handle p.accepts p.now (.timedOut w id)).workers.keys =
      p.supervisor.workers.keys.filter (· ≠ w) ++
        if p.supervisor.starts.next.1 then [p.supervisor.nextWorker] else [] := by
  let event : PoolEvent := .timedOut w id
  have hnew : p.supervisor.nextWorker ∉ p.supervisor.workers.keys :=
    fun hm => Nat.lt_irrefl _ (h.books.kept.books.worker_lt _ hm)
  have howns : p.supervisor.owns event.worker event.task = true := Supervisor.owns_iff.2 hbusy
  have hnote := Supervisor.note_of_owns howns
  rw [if_neg (by simp [event, PoolEvent.outcome, TaskResult.said?])] at hnote
  rw [Supervisor.handle, (Supervisor.dispatch_of_accepts _ (h.accepts_note hrun he)).2.2, hnote,
    (Supervisor.finish_spec _ _ _).1]
  exact Supervisor.keys_retire (s := { p.supervisor with stats := event.count _ }) hnew w

/-- The tasks that the supervisor hands out as it hears of an event are with their workers. -/
theorem busy_hear (h : p.InOrder done) (hrun : p.status = .running)
    (he : p.events = event :: events) {job : WorkerId × Task}
    (hjob : job ∈ (p.supervisor.handle p.accepts p.now event).handed.drop
      p.supervisor.handed.length) :
    (p.supervisor.handle p.accepts p.now event).workers.get? job.1 = some (.busy job.2.id) := by
  obtain ⟨n, -, -, hframe⟩ := Supervisor.framed_note p.supervisor event
  obtain ⟨jobs, hj⟩ := Supervisor.exists_handout
    (h.books.kept.note event).books.idle_nodup p.now (h.accepts_note hrun he)
  have hfresh : (p.supervisor.handle p.accepts p.now event).handed =
      p.supervisor.handed ++ jobs := hframe.handed ▸ hj.handed
  rw [hfresh, List.drop_left] at hjob
  exact hj.busy job hjob

end InOrder

/-- What becomes of a submission `v` that waits for the task `id` of the worker `w`, where
    the supervisor has taken the events `heard` meanwhile. -/
inductive Pursued (v id : TaskId) (w : WorkerId) (heard : List PoolEvent) (p : Pool) : Prop where
  | runs (hbusy : p.supervisor.workers.get? w = some (.busy id))
    (hwaits : p.supervisor.Waits v id)
  | timedOut (hsent : p.supervisor.sent v = [.timedOut])
    (hgone : w < p.supervisor.nextWorker ∧ w ∉ p.supervisor.workers.keys)
  | cancelled (hoff : p.status ≠ .running) (hsent : p.supervisor.sent v = [.cancelled])
  | reported {event : PoolEvent} (hheard : event ∈ heard) (hreport : event.isReport = true)
    (hworker : event.worker = w) (htask : event.task = id)
    (hsent : p.supervisor.sent v = [event.outcome])

namespace Pursued

variable {heard : List PoolEvent}

theorem hear (ho : p.InOrder done) (hbusy : p.supervisor.workers.get? w = some (.busy id))
    (hwaits : p.supervisor.Waits v id) {event : PoolEvent} {events : List PoolEvent}
    (hrun : p.status = .running) (he : p.events = event :: events)
    (hp : p'.supervisor = p.supervisor.handle p.accepts p.now event) (hheard : event ∈ heard) :
    p'.Pursued v id w heard := by
  by_cases hown : event.worker = w ∧ event.task = id
  · obtain ⟨rfl, rfl⟩ := hown
    have hsent := ho.sent_hear hrun he hbusy hwaits
    rw [← hp] at hsent
    cases event with
    | finished worker task result => exact .reported hheard rfl rfl rfl hsent
    | crashed worker task reason => exact .reported hheard rfl rfl rfl hsent
    | timedOut worker task =>
      have hlt := ho.books.lt_nextWorker hbusy
      have hgone : worker ∉ p'.supervisor.workers.keys := by
        rw [hp, ho.keys_hear hrun he hbusy, List.mem_append, not_or]
        refine ⟨by simp, ?_⟩
        split
        · exact fun hm => Nat.ne_of_lt hlt (List.mem_singleton.1 hm)
        · exact List.not_mem_nil
      refine .timedOut hsent ⟨?_, hgone⟩
      obtain ⟨n, hle, -, hframe⟩ := Supervisor.framed_note p.supervisor (.timedOut worker task)
      rw [hp, Supervisor.handle, (Supervisor.dispatch_of_accepts _ (ho.accepts_note hrun he)).1,
        hframe.next]
      exact Nat.lt_of_lt_of_le hlt hle
  · rw [not_and] at hown
    have haccepts := ho.accepts_note hrun he
    obtain ⟨hbusy', htask⟩ := ho.books.runs_note hbusy hown
    refine .runs ?_ ?_
    · rw [hp]
      exact (ho.books.kept.note event).runs_dispatch p.now haccepts hbusy'
    · obtain ⟨q, hq, hv⟩ := hwaits
      refine ⟨q, ?_, hv⟩
      rw [hp, Supervisor.handle, (Supervisor.dispatch_of_accepts _ haccepts).2.1, htask, hq]

theorem act (h : p.Pursued v id w heard) (ho : p.InOrder done) (ha : p.act action = some p') :
    p'.Pursued v id w (heard ++ (⟨p, action, p'⟩ : Transition).heard) := by
  have hs := step_of_act ha
  cases h with
  | timedOut hsent hgone => exact .timedOut (ho.sent_step hs hsent) (ho.gone_step hs hgone)
  | cancelled hoff hsent => exact .cancelled (off_step hs hoff) (ho.sent_step hs hsent)
  | reported hheard hreport hworker htask hsent =>
    exact .reported (List.mem_append_left _ hheard) hreport hworker htask (ho.sent_step hs hsent)
  | runs hbusy hwaits =>
    cases hs with
    | submit | ask | askInVain | drop | wait | receive | finish | finishInVain | leave | fire
      | advance | plan => exact .runs hbusy hwaits
    | stop =>
      refine .cancelled (by simp) ?_
      exact ho.books.sent_stop ho.ids.of_append_left hwaits
    | @obey task commands hrun hc =>
      have hnew := ho.notMem_done hc
      have haccepts := ho.accepts_enqueue hrun hc
      obtain ⟨hbusy', hwaits'⟩ := ho.books.runs_enqueue hbusy hwaits hnew
      refine .runs ((ho.books.kept.enqueue hnew).runs_dispatch p.now haccepts hbusy') ?_
      obtain ⟨q, hq, hv⟩ := hwaits'
      refine ⟨q, ?_, hv⟩
      change ((p.supervisor.enqueue task).dispatch p.accepts p.now).tasks.get? id = some q
      rw [(Supervisor.dispatch_of_accepts _ haccepts).2.1, hq]
    | @hear event events hrun he =>
      refine hear ho hbusy hwaits hrun he rfl (List.mem_append_right _ ?_)
      simp [Transition.heard, he]

end Pursued

/-! ## Catching up -/

/-- Every timer that is due has gone off, and the supervisor has taken its event. -/
def CaughtUp (p : Pool) : Prop :=
  ∀ id timer, p.supervisor.timers.get? id = some timer → timer.due ≤ p.now →
    timer.fired = true ∧ .timedOut timer.worker id ∉ p.events

theorem run_append {p₁ p₂ : Pool} {actions more : List PoolAction}
    (h₁ : p.run actions = some p₁) (h₂ : p₁.run more = some p₂) :
    p.run (actions ++ more) = some p₂ := by
  induction actions generalizing p with
  | nil =>
    cases h₁
    exact h₂
  | cons action actions ih =>
    obtain ⟨q, hq, h₁⟩ := Option.bind_eq_some_iff.1 h₁
    exact Option.bind_eq_some_iff.2 ⟨q, hq, ih h₁⟩

/-- The timers of some tasks go off, those that are due. -/
theorem exists_fires (ids : List TaskId) (hrun : p.status = .running) :
    ∃ more p', (∀ action ∈ more, ∃ id, action = .fire id) ∧ p.run more = some p' ∧
      p'.status = .running ∧ p'.now = p.now ∧
      ∀ id timer, p'.supervisor.timers.get? id = some timer → timer.due ≤ p.now →
        timer.fired = false → id ∉ ids ∧ p.supervisor.timers.get? id = some timer := by
  induction ids generalizing p with
  | nil =>
    refine ⟨[], p, List.forall_mem_nil _, rfl, hrun, rfl, ?_⟩
    intro id timer ht _ _
    exact ⟨List.not_mem_nil, ht⟩
  | cons i ids ih =>
    by_cases hdue : ∃ timer, p.supervisor.timers.get? i = some timer ∧ timer.fired = false ∧
        timer.due ≤ p.now
    · obtain ⟨timer, ht, hfired, hdue⟩ := hdue
      let p₁ : Pool := { p with
        supervisor :=
          { p.supervisor with timers := p.supervisor.timers.put i { timer with fired := true } }
        events := p.events ++ [.timedOut timer.worker i] }
      have hact : p.act (.fire i) = some p₁ := by simp [act, hrun, ht, hfired, hdue, p₁]
      obtain ⟨more, p', hfires, hmore, hrun', hnow, hrest⟩ := ih (p := p₁) hrun
      refine ⟨.fire i :: more, p', ?_, Option.bind_eq_some_iff.2 ⟨p₁, hact, hmore⟩, hrun', hnow, ?_⟩
      · simpa using hfires
      · intro id timer' ht' hdue' hfired'
        obtain ⟨hid, ht'⟩ := hrest id timer' ht' hdue' hfired'
        rcases Table.get?_of_put ht' with ⟨-, rfl⟩ | ⟨hne, ht'⟩
        · cases hfired'
        · exact ⟨List.not_mem_cons_of_ne_of_not_mem hne hid, ht'⟩
    · obtain ⟨more, p', hfires, hmore, hrun', hnow, hrest⟩ := ih hrun
      refine ⟨more, p', hfires, hmore, hrun', hnow, ?_⟩
      intro id timer' ht' hdue' hfired'
      obtain ⟨hid, ht'⟩ := hrest id timer' ht' hdue' hfired'
      refine ⟨List.not_mem_cons_of_ne_of_not_mem ?_ hid, ht'⟩
      rintro rfl
      exact hdue ⟨timer', ht', hfired', hdue'⟩

namespace Punctual

variable {x : Handover}

/-- The supervisor takes an event, and the timers set for that are not due yet. -/
theorem fired_hear (h : p.Punctual limit log) (hlimit : 0 < limit)
    (hfired : ∀ {id timer}, p.supervisor.timers.get? id = some timer → timer.due ≤ p.now →
      timer.fired = true) (event : PoolEvent) {timer : Timer}
    (ht : (p.supervisor.handle p.accepts p.now event).timers.get? id = some timer)
    (hdue : timer.due ≤ p.now) : timer.fired = true := by
  obtain ⟨done, ho⟩ := h.inOrder
  have hclocked : p.supervisor.Clocked (log.flatMap (·.handovers)) fun _ timer =>
      timer.due ≤ p.now → timer.fired = true :=
    h.clocked.keep rfl (fun ht => ht) (fun _ => rfl) fun ht _ => hfired ht
  have hjobs : (p.supervisor.note event).Jobs (·.timeoutMs = limit) :=
    Supervisor.ledger_note (fun h hs => h.congr hs) (fun id h => h.resolve id _) event
      (fun _ _ h => h.resolve _ _) rfl h.limits
  have hnoted : (p.supervisor.note event).Clocked (log.flatMap (·.handovers)) fun _ timer =>
      timer.due ≤ p.now → timer.fired = true :=
    hclocked.note ho.books.kept event fun _ hf => hf
  refine (hnoted.dispatch (ho.books.kept.note event) hjobs p.accepts p.now ?_).fits ht hdue
  intro worker job htime hle
  have hpast : p.now + job.timeoutMs ≤ p.now := hle
  rw [show job.timeoutMs = limit from htime] at hpast
  omega

/-- The supervisor takes all events. -/
theorem exists_hearing (h : p.Punctual limit log) (hlimit : 0 < limit)
    (hrun : p.status = .running)
    (hfired : ∀ {id timer}, p.supervisor.timers.get? id = some timer → timer.due ≤ p.now →
      timer.fired = true) :
    ∃ more p', (∀ action ∈ more, action = .takeEvent) ∧ p.run more = some p' ∧
      p'.status = .running ∧ p'.now = p.now ∧ p'.CaughtUp := by
  generalize hevents : p.events = events
  induction events generalizing p log with
  | nil =>
    refine ⟨[], p, List.forall_mem_nil _, rfl, hrun, rfl, ?_⟩
    intro id timer ht hdue
    exact ⟨hfired ht hdue, by simp [hevents]⟩
  | cons event events ih =>
    let p₁ := ({ p with events } : Pool).withBooks (p.supervisor.handle p.accepts p.now event)
    have hact : p.act .takeEvent = some p₁ := takeEvent_eq hrun hevents
    have hfired₁ : ∀ {id timer}, p₁.supervisor.timers.get? id = some timer →
        timer.due ≤ p₁.now → timer.fired = true := fun ht hdue =>
      h.fired_hear hlimit hfired event ht hdue
    obtain ⟨more, p', hmore, hrun', hstatus, hnow, hcaught⟩ := ih (h.act hact) hrun hfired₁ rfl
    refine ⟨.takeEvent :: more, p', by simpa using hmore, ?_, hstatus, hnow, hcaught⟩
    exact Option.bind_eq_some_iff.2 ⟨p₁, hact, hrun'⟩

/-- A pool that runs can catch up: due timers go off and the supervisor takes all events. -/
theorem exists_catchUp (h : p.Punctual limit log) (hlimit : 0 < limit)
    (hrun : p.status = .running) :
    ∃ more p', (∀ action ∈ more, action = .takeEvent ∨ ∃ id, action = .fire id) ∧
      p.run more = some p' ∧ p'.status = .running ∧ p'.now = p.now ∧ p'.CaughtUp := by
  obtain ⟨fires, p₁, hfires, hrun₁, hstatus₁, hnow₁, hrest⟩ :=
    exists_fires p.supervisor.timers.keys hrun
  have hfired : ∀ {id timer}, p₁.supervisor.timers.get? id = some timer →
      timer.due ≤ p₁.now → timer.fired = true := by
    intro id timer ht hdue
    by_contra hnot
    obtain ⟨hid, hold⟩ := hrest id timer ht (hnow₁ ▸ hdue) (Bool.eq_false_iff.2 hnot)
    exact hid (Table.mem_keys_iff.2 ⟨timer, hold⟩)
  obtain ⟨hears, p₂, hhears, hrun₂, hstatus₂, hnow₂, hcaught⟩ :=
    (h.run hrun₁).exists_hearing hlimit hstatus₁ hfired
  refine ⟨fires ++ hears, p₂, ?_, run_append hrun₁ hrun₂, hstatus₂, hnow₂.trans hnow₁, hcaught⟩
  intro action hm
  rcases List.mem_append.1 hm with hm | hm
  · exact Or.inr (hfires action hm)
  · exact Or.inl (hhears action hm)

/-- Once the pool has caught up, no worker is past the time of its task. -/
theorem lt_of_caughtUp (h : p.Punctual limit log) (hstatus : p.status ≠ .dropped)
    (hcaught : p.CaughtUp) (hbusy : p.supervisor.workers.get? w = some (.busy id)) :
    ∃ x ∈ log.flatMap (·.handovers), x.worker = w ∧ x.job.id = id ∧ p.now < x.time + limit := by
  obtain ⟨done, ho⟩ := h.inOrder
  obtain ⟨timer, ht⟩ := Table.mem_keys_iff.1 ((ho.books.balanced.mem_timers id).2 ⟨w, hbusy⟩)
  obtain ⟨x, hx, hworker, hid, hdue⟩ := h.clocked.due ht
  have hself : timer.worker = w := (ho.books.balanced.busy hbusy).2 _ (h.clocked.busy ht)
  have htime : x.job.timeoutMs = limit := h.limits.handed _ (h.handed hx)
  refine ⟨x, hx, hworker.trans hself, hid, ?_⟩
  by_contra hlate
  obtain ⟨hfired, hheard⟩ := hcaught id timer ht (by omega)
  cases hst : p.status with
  | running => exact hheard (h.clocked.fits ht hfired hst)
  | stopped =>
    rw [h.stopped hst] at ht
    cases ht
  | dropped => exact hstatus hst

/-- Once the pool has caught up, no worker has a task that was handed out its time ago. -/
theorem not_busy_of_caughtUp (h : p.Punctual limit log) (hstatus : p.status ≠ .dropped)
    (hcaught : p.CaughtUp) (hx : x ∈ log.flatMap (·.handovers)) (hdue : x.time + limit ≤ p.now) :
    p.supervisor.workers.get? x.worker ≠ some (.busy x.job.id) := by
  intro hbusy
  obtain ⟨y, hy, -, hid, hlt⟩ := h.lt_of_caughtUp hstatus hcaught hbusy
  obtain rfl := h.unique hx hy hid
  omega

/-- The time of a task counts from when it was handed out. -/
theorem timer_of_handover (h : p.Punctual limit log) (hlimit : 0 < limit)
    (hrun : p.status = .running) (hx : x ∈ log.flatMap (·.handovers)) (hnow : x.time = p.now)
    (hbusy : p.supervisor.workers.get? x.worker = some (.busy x.job.id)) :
    p.supervisor.timers.get? x.job.id = some { worker := x.worker, due := p.now + limit } := by
  obtain ⟨done, ho⟩ := h.inOrder
  obtain ⟨⟨worker, due, fired⟩, ht⟩ :=
    Table.mem_keys_iff.1 ((ho.books.balanced.mem_timers _).2 ⟨_, hbusy⟩)
  obtain ⟨y, hy, hworker, hid, hdue⟩ := h.clocked.due ht
  obtain rfl := h.unique hx hy hid
  have htime : y.job.timeoutMs = limit := h.limits.handed _ (h.handed hy)
  have hfresh : fired = false := by
    rw [← Bool.not_eq_true]
    intro hfired
    obtain ⟨z, hz, -, hid', hle⟩ := h.overdue (h.clocked.fits ht hfired hrun)
    obtain rfl := h.unique hy hz hid'
    omega
  rw [ht]
  simp only [Option.some.injEq, Timer.mk.injEq]
  refine ⟨hworker.symm, ?_, hfresh⟩
  calc due = y.time + y.job.timeoutMs := hdue
    _ = p.now + limit := by rw [hnow, htime]

/-- An answer that a task took too long comes after its time, and before any other event
    about the task. -/
theorem overdue_of_answer (h : p.Punctual limit log) (ha : p.act action = some p')
    (hm : (v, .timedOut) ∈ p'.supervisor.answers) (hnew : (v, .timedOut) ∉ p.supervisor.answers) :
    ∃ x ∈ log.flatMap (·.handovers), p.supervisor.Waits v x.job.id ∧
      p.supervisor.workers.get? x.worker = some (.busy x.job.id) ∧ x.time + limit ≤ p.now ∧
      ∀ event ∈ log.flatMap (·.heard), event.task ≠ x.job.id := by
  rcases origin_of_answer (step_of_act ha) hm with hold | ⟨reason, hrefused⟩ | hcancelled |
    ⟨event, events, he, howns, hout, hwaits⟩
  · exact (hnew hold).elim
  · cases hrefused
  · cases hcancelled
  · rcases event with ⟨w, id, said | said⟩ | ⟨w, id, reason⟩ | ⟨w, id⟩
    · cases hout
    · cases hout
    · cases hout
    · obtain ⟨x, hx, rfl, rfl, hdue⟩ := h.overdue (he ▸ List.mem_cons_self)
      refine ⟨x, hx, hwaits, Supervisor.owns_iff.1 howns, hdue, ?_⟩
      intro event hheard hid
      obtain ⟨q, hq, -⟩ := hwaits
      exact (h.heard event hheard).2 (hid ▸ Table.mem_keys_iff.2 ⟨q, hq⟩)

/-- A submission is pursued through a run. -/
theorem pursue (h : p.Punctual limit log) (hbusy : p.supervisor.workers.get? w = some (.busy id))
    (hwaits : p.supervisor.Waits v id) {more : List PoolAction} (hrun : p.run more = some p') :
    p'.Pursued v id w (p.heard more) := by
  have hstart : (∃ done, p.InOrder done) ∧
      p.Pursued v id w (([] : List Transition).flatMap (·.heard)) :=
    ⟨h.inOrder, .runs hbusy hwaits⟩
  refine (transitions_induction (P := fun log' q => (∃ done, q.InOrder done) ∧
    q.Pursued v id w (log'.flatMap (·.heard))) ?_ [] hstart hrun).2
  rintro log' q action q' ⟨⟨done, ho⟩, hq⟩ ha
  refine ⟨(ho.step (step_of_act ha)).1, ?_⟩
  rw [Transition.flatMap_heard_snoc]
  exact hq.act ho ha

end Punctual

/-- **Timeouts under the clock.**  Let tasks have a positive time.  Whatever the parties of
    the pool do:

    * a submission is told that its task took too long only if it waits for a task that was
      handed out, once, so much time ago, and of which the supervisor has heard nothing;
    * once the pool has caught up, each worker got its task less than that time ago;
    * when the supervisor hears that a task took too long, all who wait for it are told, its
      worker is replaced if a start succeeds, and the time of the tasks handed out
      for that counts from now;
    * a task that a worker has is answered when the pool has caught up at any time after the
      time of the task: that it took too long, its worker being gone, unless the pool was
      shut down or its worker told the supervisor in time;
    * a pool that runs can catch up after any advance of the clock. -/
theorem timeouts_disciplined {settings : PoolSettings} {starts : StartPlan}
    {actions : List PoolAction} {p₀ p : Pool} (hstart : Pool.start settings starts = .ok p₀)
    (hrun : p₀.run actions = some p) (hlimit : 0 < settings.taskTimeoutMs) :
    (∀ action p', p.act action = some p' → ∀ v, (v, .timedOut) ∈ p'.supervisor.answers →
      (v, .timedOut) ∉ p.supervisor.answers →
        ∃ x ∈ p₀.handovers actions, p.supervisor.Waits v x.job.id ∧
          (∀ y ∈ p₀.handovers actions, y.job.id = x.job.id → y = x) ∧
          x.time + settings.taskTimeoutMs ≤ p.now ∧
          ∀ event ∈ p₀.heard actions, event.task ≠ x.job.id) ∧
    (p.status ≠ .dropped → p.CaughtUp → ∀ w id,
      p.supervisor.workers.get? w = some (.busy id) →
        ∃ x ∈ p₀.handovers actions, x.worker = w ∧ x.job.id = id ∧
          p.now < x.time + settings.taskTimeoutMs) ∧
    (p.status = .running → ∀ w id events, p.events = .timedOut w id :: events →
      p.supervisor.workers.get? w = some (.busy id) →
        ∃ p', p.act .takeEvent = some p' ∧
          (∀ v, p.supervisor.Waits v id → p'.supervisor.sent v = [.timedOut]) ∧
          p'.supervisor.workers.keys = p.supervisor.workers.keys.filter (· ≠ w) ++
            (if p.supervisor.starts.next.1 then [p.supervisor.nextWorker] else []) ∧
          ∀ job ∈ p'.supervisor.handed.drop p.supervisor.handed.length,
            p'.supervisor.timers.get? job.2.id =
              some { worker := job.1, due := p.now + settings.taskTimeoutMs }) ∧
    (∀ more p', p.run more = some p' → p'.status ≠ .dropped → p'.CaughtUp →
      ∀ x ∈ p₀.handovers actions, p.supervisor.workers.get? x.worker = some (.busy x.job.id) →
        x.time + settings.taskTimeoutMs ≤ p'.now →
          x.job.id ∉ p'.supervisor.tasks.keys ∧
          ∀ v, p.supervisor.Waits v x.job.id →
            p'.supervisor.sent v = [.timedOut] ∧ x.worker ∉ p'.supervisor.workers.keys ∨
            p'.supervisor.sent v = [.cancelled] ∧ p'.status = .stopped ∨
            ∃ event ∈ p.heard more, event.isReport = true ∧ event.worker = x.worker ∧
              event.task = x.job.id ∧ p'.supervisor.sent v = [event.outcome]) ∧
    (p.status = .running → ∀ ms, ∃ more p',
      (∀ action ∈ more, action = .takeEvent ∨ ∃ id, action = .fire id) ∧
      p.run (.advance ms :: more) = some p' ∧ p'.status = .running ∧ p'.now = p.now + ms ∧
      p'.CaughtUp) := by
  have h : p.Punctual settings.taskTimeoutMs (p₀.transitions actions) :=
    (Punctual.start hstart).run hrun
  obtain ⟨done, ho⟩ := h.inOrder
  refine ⟨?_, ?_, ?_, ?_, ?_⟩
  · intro action p' ha v hm hnew
    obtain ⟨x, hx, hwaits, -, hdue, hheard⟩ := h.overdue_of_answer ha hm hnew
    exact ⟨x, hx, hwaits, fun y hy hid => h.unique hx hy hid, hdue, hheard⟩
  · intro hstatus hcaught w id hbusy
    exact h.lt_of_caughtUp hstatus hcaught hbusy
  · intro hrunning w id events he hbusy
    let p' := ({ p with events } : Pool).withBooks
      (p.supervisor.handle p.accepts p.now (.timedOut w id))
    have hact : p.act .takeEvent = some p' := takeEvent_eq hrunning he
    have h' := h.act hact
    let t : Transition := ⟨p, .takeEvent, p'⟩
    refine ⟨p', hact, fun v hv => ho.sent_hear hrunning he hbusy hv,
      ho.keys_hear hrunning he hbusy, ?_⟩
    intro job hjob
    have hx : (⟨p.now, job.1, job.2⟩ : Handover) ∈
        (p₀.transitions actions ++ [t]).flatMap (·.handovers) := by
      rw [Transition.flatMap_handovers_snoc]
      exact List.mem_append_right _ (List.mem_map.2 ⟨job, hjob, rfl⟩)
    exact h'.timer_of_handover hlimit hrunning hx rfl (ho.busy_hear hrunning he hjob)
  · intro more p' hmore hstatus hcaught x hx hbusy hdue
    have h' := h.run hmore
    have hx' : x ∈ (p₀.transitions actions ++ p.transitions more).flatMap (·.handovers) := by
      rw [List.flatMap_append]
      exact List.mem_append_left _ hx
    have hidle := h'.not_busy_of_caughtUp hstatus hcaught hx' hdue
    refine ⟨fun hkey => hidle (h'.busy_of_handed (h'.handed hx') hkey), ?_⟩
    intro v hv
    cases h.pursue hbusy hv hmore with
    | runs hbusy' _ => exact (hidle hbusy').elim
    | timedOut hsent hgone => exact Or.inl ⟨hsent, hgone.2⟩
    | cancelled hoff hsent =>
      refine Or.inr (Or.inl ⟨hsent, ?_⟩)
      cases hst : p'.status with
      | running => exact (hoff hst).elim
      | stopped => rfl
      | dropped => exact (hstatus hst).elim
    | reported hheard hreport hworker htask hsent =>
      exact Or.inr (Or.inr ⟨_, hheard, hreport, hworker, htask, hsent⟩)
  · intro hrunning ms
    have hadvance : p.act (.advance ms) = some { p with now := p.now + ms } := rfl
    obtain ⟨more, p', hactions, hmore, hstatus, hnow, hcaught⟩ :=
      (h.act hadvance).exists_catchUp hlimit hrunning
    exact ⟨more, p', hactions, Option.bind_eq_some_iff.2 ⟨_, hadvance, hmore⟩, hstatus, hnow,
      hcaught⟩

/-- The sample works off one task before the next one is handed out, at 20 s.  A submission
    joins that task at 40 s, and its timer goes off at 50 s. -/
def delays : List PoolAction :=
  let parsed := ParseOutcome.returned (.ok { symbols := [], parseTimeMs := 0 })
  [.submit "p" "a", .takeCommand, .submit "p" "b", .takeCommand, .advance 20000, .receive 0,
    .finish 0 parsed, .takeEvent, .advance 20000, .submit "p" "b", .takeCommand,
    .advance 10000, .fire 2]

/-- The sample before the supervisor hears of the timer. -/
def delayed : Pool :=
  (sample.run delays).get (by decide +kernel)

theorem timeouts_disciplined_sample :
    ∃ p, delayed.act .takeEvent = some p ∧ (3, .timedOut) ∈ p.supervisor.answers ∧
      (∃ x ∈ sample.handovers delays, delayed.supervisor.Waits 3 x.job.id ∧
        x.time + 30000 ≤ delayed.now ∧ ∀ event ∈ sample.heard delays, event.task ≠ x.job.id) ∧
      ∃ more p', delayed.run (.advance 5 :: more) = some p' ∧ p'.CaughtUp ∧
        2 ∉ p'.supervisor.tasks.keys := by
  have hcheck : (delayed.act .takeEvent).any (fun p =>
      decide ((3, .timedOut) ∈ p.supervisor.answers ∧
        (3, .timedOut) ∉ delayed.supervisor.answers ∧ delayed.status = .running ∧
        delayed.now = 50000 ∧ delayed.supervisor.workers.get? 0 = some (.busy 2) ∧
        (sample.handovers delays).any (fun x =>
          decide (x.time = 20000 ∧ x.worker = 0 ∧ x.job.id = 2)) = true)) = true := by
    decide +kernel
  obtain ⟨p, hact, hcheck⟩ := (Option.any_eq_true _ _).1 hcheck
  obtain ⟨hanswer, hnew, hrunning, hnow, hbusy, hany⟩ := of_decide_eq_true hcheck
  obtain ⟨x, hx, hcheck⟩ := List.any_eq_true.1 hany
  obtain ⟨htime, hworker, hid⟩ := of_decide_eq_true hcheck
  have hrun : sample.run delays = some delayed := (Option.some_get _).symm
  have h := timeouts_disciplined sample_started hrun (by decide)
  obtain ⟨y, hy, hwaits, -, hdue, hheard⟩ := h.1 _ _ hact 3 hanswer hnew
  obtain ⟨more, p', -, hrun', hstatus, hnow', hcaught⟩ := h.2.2.2.2 hrunning 5
  refine ⟨p, hact, hanswer, ⟨y, hy, hwaits, hdue, hheard⟩, more, p', hrun', hcaught, ?_⟩
  have hover : x.time + 30000 ≤ p'.now := by omega
  rw [← hid]
  refine (h.2.2.2.1 _ p' hrun' (by simp [hstatus]) hcaught x hx ?_ hover).1
  rw [hworker, hid, hbusy]

end Pool

end SourceIndex
