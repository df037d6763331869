/-
  Every submission is accounted for in the counts of the pool.

  * `Ending`, `TaskResult.ending`, `PoolStats.ended`: the endings that the pool counts;
  * `Supervisor.Untimed`: the books are kept, whatever was done to the timers;
  * `Supervisor.heads`: the submissions of a run that became tasks of their own, rather than
    wait for a task on the books;
  * `Supervisor.tally`: how many of them were answered with an ending;
  * `Supervisor.Settles`: a step counts as many endings as it answers;
  * `accounts_conserved`: the submissions are those that joined another one, those whose
    task ended, each counted once and with its own ending, and those in the queue or with a
    worker.
-/
import SourceIndex.Proofs.Fifo

namespace SourceIndex

/-! ## Endings -/

/-- What the pool counts about the end of a task. -/
inductive Ending where
  | completed
  | failed
  | timedOut
  | crashed
  | cancelled
  deriving DecidableEq

/-- The ending of a task with an outcome.  A file that the parser rejects and a task for
    which no worker could be started have both failed. -/
def TaskResult.ending : TaskResult → Ending
  | ok _ => .completed
  | rejected _ => .failed
  | unavailable _ => .failed
  | timedOut => .timedOut
  | crashed _ => .crashed
  | cancelled => .cancelled

/-- The count of the tasks with an ending. -/
def PoolStats.ended (stats : PoolStats) : Ending → Nat
  | .completed => stats.completed
  | .failed => stats.failed
  | .timedOut => stats.timedOut
  | .crashed => stats.crashed
  | .cancelled => stats.cancelled

theorem PoolEvent.ended_count (event : PoolEvent) (stats : PoolStats) (e : Ending) :
    (event.count stats).ended e =
      stats.ended e + if event.outcome.ending = e then 1 else 0 := by
  rcases event with ⟨_, _, _ | _⟩ | _ | _ <;> cases e <;> rfl

theorem PoolEvent.deduplicated_count (event : PoolEvent) (stats : PoolStats) :
    (event.count stats).deduplicated = stats.deduplicated := by
  rcases event with ⟨_, _, _ | _⟩ | _ | _ <;> rfl

namespace Supervisor

variable {s : Supervisor} {event : PoolEvent} {id : TaskId}

/-! ## Timers -/

theorem note_of_late (h : s.owns event.worker event.task = false) : s.note event = s := by
  rcases note_cases s event with ⟨-, he⟩ | ⟨ho, -⟩
  · exact he
  · rw [h] at ho
    cases ho

theorem note_of_owns (h : s.owns event.worker event.task = true) :
    s.note event =
      (if event.outcome.said?.isSome then s.reclaim event.worker (event.count s.stats)
        else ({ s with stats := event.count s.stats } : Supervisor).retire event.worker).finish
          event.task event.outcome := by
  rcases note_cases s event with ⟨ho, -⟩ | ⟨-, ⟨said, -, hs, he⟩ | ⟨hs, he⟩⟩
  · rw [h] at ho
    cases ho
  · rw [he, hs]
    rfl
  · rw [he, hs]
    rfl

section
variable (s : Supervisor) (timers : Table TaskId Timer)

theorem resolve_timers (id : TaskId) (outcome : TaskResult) :
    ({ s with timers } : Supervisor).resolve id outcome =
      { s.resolve id outcome with timers } := by
  cases hp : s.tasks.get? id with
  | none => simp [resolve, hp]
  | some p => simp [resolve, hp]

theorem refuseAll_timers (reason : String) (ids : List TaskId) :
    refuseAll reason ids { s with timers } = { refuseAll reason ids s with timers } := by
  induction ids generalizing s with
  | nil => rfl
  | cons id ids ih =>
    rw [refuseAll, refuseAll, ← ih, ← resolve_timers]

theorem startWorker_timers :
    ({ s with timers } : Supervisor).startWorker =
      (s.startWorker.1, { s.startWorker.2 with timers }) := by
  unfold startWorker
  rcases s.starts.next with ⟨started, starts⟩
  cases started <;> rfl

theorem retire_timers (worker : WorkerId) :
    ({ s with timers } : Supervisor).retire worker = { s.retire worker with timers } := by
  have hstart : (({ s with timers } : Supervisor).dismiss worker).startWorker = _ :=
    startWorker_timers (s.dismiss worker) timers
  obtain ⟨starts, he | he⟩ := startWorker_cases (s.dismiss worker)
  · rw [retire_eq, retire_eq, hstart, he]
  · rw [retire_eq, retire_eq, hstart, he]
    dsimp only
    split
    · exact refuseAll_timers { ((s.dismiss worker).withoutWorker starts).recount with queue := [] }
        timers _ _
    · rfl

theorem finish_timers (id : TaskId) (outcome : TaskResult) :
    ∃ timers', ({ s with timers } : Supervisor).finish id outcome =
      { s.finish id outcome with timers := timers' } := by
  refine ⟨timers.erase id, ?_⟩
  rw [finish, finish, ← resolve_timers]

theorem enqueue_timers (task : Task) :
    ({ s with timers } : Supervisor).enqueue task = { s.enqueue task with timers } := by
  unfold enqueue
  rw [startWorker_timers]
  dsimp only
  split
  · rfl
  · split
    · split <;> rfl
    · rfl

theorem note_timers (event : PoolEvent) :
    ∃ timers', ({ s with timers } : Supervisor).note event =
      { s.note event with timers := timers' } := by
  cases ho : s.owns event.worker event.task with
  | false =>
    have ho' : ({ s with timers } : Supervisor).owns event.worker event.task = false := ho
    exact ⟨timers, by rw [note_of_late ho, note_of_late ho']⟩
  | true =>
    have ho' : ({ s with timers } : Supervisor).owns event.worker event.task = true := ho
    rw [note_of_owns ho, note_of_owns ho']
    split
    · exact finish_timers (s.reclaim event.worker (event.count s.stats)) timers _ _
    · have hretire : ({ s with timers, stats := event.count s.stats } : Supervisor).retire
          event.worker = _ := retire_timers { s with stats := event.count s.stats } timers _
      rw [hretire]
      exact finish_timers _ timers _ _

end

/-- The books are kept, whatever was done to the timers. -/
def Untimed (done : List TaskId) (s : Supervisor) : Prop :=
  ∃ timers, ({ s with timers } : Supervisor).Kept done

namespace Untimed

variable {s s' : Supervisor} {done : List TaskId}

theorem books (h : s.Untimed done) : s.Books (fun _ => False) done := by
  obtain ⟨timers, hk⟩ := h
  exact hk.books.congr rfl rfl rfl rfl rfl rfl

/-- Every task in the queue is on the books, and is there once. -/
theorem queue (h : s.Untimed done) : s.queue.Nodup ∧ s.queue ⊆ s.tasks.keys := by
  obtain ⟨timers, hk⟩ := h
  have hn := hk.roster.tasks_perm.nodup_iff.1 hk.roster.tasks_nodup
  exact ⟨hn.of_append_left, fun id hid => hk.mem_keys_of_queue hid⟩

theorem owned (h : s.Untimed done) {worker : WorkerId} (ho : s.owns worker id = true) :
    id ∈ s.tasks.keys ∧ id ∉ s.queue := by
  obtain ⟨timers, hk⟩ := h
  have hn := hk.roster.tasks_perm.nodup_iff.1 hk.roster.tasks_nodup
  have hbusy : id ∈ tasksOf s.workers ++ [] :=
    List.mem_append_left _ ((mem_tasksOf hk.roster.workers_nodup).2 ⟨worker, owns_iff.1 ho⟩)
  refine ⟨hk.roster.tasks_perm.mem_iff.2 (List.mem_append_right _ hbusy), fun hq => ?_⟩
  exact (List.nodup_append.1 hn).2.2 id hq id hbusy rfl

theorem enqueue (h : s.Untimed done) {task : Task} (hnew : task.id ∉ done) :
    (s.enqueue task).Untimed (done ++ [task.id]) := by
  obtain ⟨timers, hk⟩ := h
  exact ⟨timers, enqueue_timers s timers task ▸ hk.enqueue hnew⟩

theorem note (h : s.Untimed done) (event : PoolEvent) : (s.note event).Untimed done := by
  obtain ⟨timers, hk⟩ := h
  obtain ⟨timers', he⟩ := note_timers s timers event
  exact ⟨timers', he ▸ hk.note event⟩

theorem stop (h : s.Untimed done) : s.stop.Untimed done := by
  obtain ⟨timers, hk⟩ := h
  exact ⟨s.stop.timers, hk.stop⟩

theorem round (h : s.Untimed done) {accepts : WorkerId → Bool} {now : Nat}
    (hr : Round accepts now s s') : s'.Untimed done := by
  obtain ⟨timers, hk⟩ := h
  cases hr with
  | rest => exact ⟨timers, hk⟩
  | skip hq ht =>
    exact absurd (hk.mem_keys_of_queue (hq ▸ List.mem_cons_self)) (Table.get?_eq_none_iff.1 ht)
  | @pass worker idle hi hw =>
    -- every idle worker is on the books
    have hidle := (hk.roster.mem_idle worker).1 (hi ▸ List.mem_cons_self)
    rw [hw] at hidle
    cases hidle
  | assign hq hi hp hw ha => exact ⟨_, hk.assign now hq hi hp hw⟩
  | retire hi hw ha =>
    exact ⟨timers, retire_timers s timers _ ▸ hk.retire (hi ▸ List.mem_cons_self)⟩

end Untimed

/-! ## Tasks and their endings -/

/-- The task that a submission becomes if no task on the books does its work. -/
def Moment.head (m : Moment) : List TaskId :=
  match m.duty with
  | .take task =>
    if m.before.tasks.values.any (·.task.key = task.key) then [] else [task.id]
  | _ => []

/-- The submissions of a run that became tasks. -/
def heads (s : Supervisor) (ms : List Message) : List TaskId :=
  (s.moments ms).flatMap (·.head)

/-- How many of the tasks were answered with an ending. -/
def tally (heads : List TaskId) (e : Ending) (s : Supervisor) : Nat :=
  heads.countP fun id => (s.sent id).map TaskResult.ending = [e]

theorem tally_congr {heads : List TaskId} {e : Ending} {s' : Supervisor}
    (h : ∀ id ∈ heads, s'.sent id = s.sent id) : tally heads e s' = tally heads e s := by
  refine List.countP_congr fun id hid => ?_
  rw [h id hid]

theorem tally_snoc (heads : List TaskId) (id : TaskId) (e : Ending) (s : Supervisor) :
    tally (heads ++ [id]) e s =
      tally heads e s + if (s.sent id).map TaskResult.ending = [e] then 1 else 0 := by
  rw [tally, tally, List.countP_append, List.countP_singleton]
  by_cases h : (s.sent id).map TaskResult.ending = [e]
  · simp [h]
  · simp [h]

/-- Every task on the books is one of `heads`, and every one of them is on the books or was
    answered. -/
structure Headed (heads done : List TaskId) (s : Supervisor) : Prop
    extends s.Tracked heads done where
  books : s.Books (fun _ => True) done
  nodup : done.Nodup
  known : s.tasks.keys ⊆ heads
  sublist : heads.Sublist done

namespace Headed

variable {s s' : Supervisor} {heads done : List TaskId} {id : TaskId}

theorem resolve (h : s.Headed heads done) (id : TaskId) (outcome : TaskResult) :
    (s.resolve id outcome).Headed heads done :=
  { (ledgerInvariant_tracked heads).resolve id outcome h.toTracked with
    books := (h.books.resolve id outcome).mono fun _ => trivial
    nodup := h.nodup
    known := fun _ hi => h.known (mem_keys_resolve.1 hi).2
    sublist := h.sublist }

/-- A task on the books was sent nothing, and it alone among the tasks waits for itself. -/
theorem waiters (h : s.Headed heads done) {p : Pending} (hp : s.tasks.get? id = some p) :
    s.sent id = [] ∧ p.waiters.count id = 1 ∧ ∀ v ∈ heads, v ≠ id → p.waiters.count v = 0 := by
  have hkey : id ∈ s.tasks.keys := Table.mem_keys_iff.2 ⟨p, hp⟩
  have hself : s.Waits id id := ⟨p, hp, h.keysAgree.waits_self id p hp⟩
  have hdone : id ∈ done := h.books.known id hkey
  have hunsent : s.sent id = [] := by
    rcases h.books.waits_or_sent h.nodup hdone with ⟨-, hsent⟩ | ⟨hnone, -⟩
    · exact hsent
    · exact absurd hself (hnone id)
  refine ⟨hunsent, ?_, fun v hv hne => List.count_eq_zero.2 fun hm => ?_⟩
  · have hone := h.books.count_ledger h.nodup hdone
    have hpos : 0 < p.waiters.count id := List.count_pos_iff.2 (h.keysAgree.waits_self id p hp)
    obtain ⟨l₁, l₂, hvalues, -, -⟩ := Table.exists_values_split hp
    rw [hvalues] at hone
    simp only [List.flatMap_append, List.flatMap_cons, List.count_append] at hone
    omega
  · -- another task waits for itself, or was answered
    have hwaits : s.Waits v id := ⟨p, hp, hm⟩
    have hvdone : v ∈ done := h.sublist.subset hv
    rcases h.accounted v hv with hkey' | hsent
    · obtain ⟨q, hq⟩ := Table.mem_keys_iff.1 hkey'
      exact hne (h.books.waits_unique h.nodup hvdone hwaits ⟨q, hq, h.keysAgree.waits_self v q hq⟩)
    · rcases h.books.waits_or_sent h.nodup hvdone with ⟨-, hnone⟩ | ⟨hnone, -⟩
      · exact hsent hnone
      · exact hnone id hwaits

theorem tally_resolve (h : s.Headed heads done) (hid : id ∈ s.tasks.keys) (outcome : TaskResult)
    (e : Ending) :
    tally heads e (s.resolve id outcome) =
      tally heads e s + if outcome.ending = e then 1 else 0 := by
  obtain ⟨p, hp⟩ := Table.mem_keys_iff.1 hid
  obtain ⟨hunsent, hself, hothers⟩ := h.waiters hp
  have hsent : (s.resolve id outcome).sent id = [outcome] := by
    rw [sent_resolve hp, hunsent, hself]
    rfl
  have hrest : ∀ v ∈ heads, v ≠ id → (s.resolve id outcome).sent v = s.sent v := by
    intro v hv hne
    rw [sent_resolve hp, hothers v hv hne]
    exact List.append_nil _
  obtain ⟨l₁, l₂, hheads⟩ := List.append_of_mem (h.known hid)
  have hn : (l₁ ++ id :: l₂).Nodup := hheads ▸ h.sublist.nodup h.nodup
  obtain ⟨h₁, h₂⟩ : id ∉ l₁ ∧ id ∉ l₂ := by
    simpa using (List.nodup_cons.1 (List.nodup_middle.1 hn)).1
  have htally : ∀ l ⊆ heads, id ∉ l → tally l e (s.resolve id outcome) = tally l e s := by
    intro l hl hnot
    exact tally_congr fun v hv => hrest v (hl hv) fun he => hnot (he ▸ hv)
  have hl₁ := htally l₁ (by simp [hheads]) h₁
  have hl₂ := htally l₂ (by simp [hheads]) h₂
  simp only [tally] at hl₁ hl₂ ⊢
  rw [hheads]
  simp only [List.countP_append, List.countP_cons, hl₁, hl₂, hsent, hunsent]
  simp
  omega

theorem congr (h : s.Headed heads done) (hs : s.SameLedger s')
    (hb : s'.Books (fun _ => True) done) : s'.Headed heads done :=
  { (ledgerInvariant_tracked heads).same h.toTracked hs with
    books := hb
    nodup := h.nodup
    known := hs.tasks ▸ h.known
    sublist := h.sublist }

theorem count (h : s.Headed heads done) (stats : PoolStats) :
    ({ s with stats } : Supervisor).Headed heads done :=
  h.congr ⟨rfl, rfl, rfl, rfl⟩ (h.books.congr rfl rfl rfl rfl rfl rfl)

theorem tally_finish (h : s.Headed heads done) (hid : id ∈ s.tasks.keys) (outcome : TaskResult)
    (e : Ending) :
    tally heads e (s.finish id outcome) =
      tally heads e s + if outcome.ending = e then 1 else 0 := by
  let b : Supervisor := { s with
    timers := s.timers.erase id
    stats := { s.stats with active := s.stats.active - 1 } }
  have hb : b.Headed heads done :=
    h.congr ⟨rfl, rfl, rfl, rfl⟩ (h.books.congr rfl rfl rfl rfl rfl rfl)
  exact hb.tally_resolve hid outcome e

/-- A worker that has no task, or one that is about to be answered, is replaced. -/
theorem retire (h : s.Headed heads done) (worker : WorkerId) :
    (s.retire worker).Headed heads done :=
  have hP := ledgerInvariant_tracked heads
  { ledger_retire hP.same (fun id => hP.resolve id _) worker h.toTracked rfl with
    books := h.books.retire fun _ _ => trivial
    nodup := h.nodup
    known := List.Subset.trans (NoHandout.retire s worker).keys h.known
    sublist := h.sublist }

end Headed

/-! ## Steps that count what they answer -/

/-- As many tasks are counted with an ending as are answered with it. -/
structure Settles (heads : List TaskId) (s s' : Supervisor) : Prop where
  deduplicated : s'.stats.deduplicated = s.stats.deduplicated
  keys : s'.tasks.keys ⊆ s.tasks.keys
  ended : ∀ e, s'.stats.ended e + tally heads e s = s.stats.ended e + tally heads e s'

theorem stats_resolve (s : Supervisor) (id : TaskId) (outcome : TaskResult) :
    (s.resolve id outcome).stats = s.stats := by
  unfold resolve
  split <;> rfl

theorem stats_cancelAll (ids : List TaskId) (s : Supervisor) :
    (cancelAll ids s).stats = s.stats := by
  induction ids generalizing s with
  | nil => rfl
  | cons id ids ih => rw [cancelAll, ih, stats_resolve]

theorem mem_keys_refuseAll (reason : String) {ids : List TaskId} (hid : id ∈ s.tasks.keys)
    (hids : id ∉ ids) : id ∈ (refuseAll reason ids s).tasks.keys := by
  induction ids generalizing s with
  | nil => exact hid
  | cons i ids ih =>
    rw [List.mem_cons, not_or] at hids
    exact ih (mem_keys_resolve.2 ⟨hids.1, hid⟩) hids.2

theorem mem_keys_retire (hid : id ∈ s.tasks.keys) (hq : id ∉ s.queue) (worker : WorkerId) :
    id ∈ (s.retire worker).tasks.keys := by
  obtain ⟨starts, he | he | ⟨-, he⟩⟩ := retire_cases s worker
  · rw [he]
    exact hid
  · rw [he]
    exact hid
  · rw [he]
    exact mem_keys_refuseAll _ hid hq

namespace Settles

variable {s s' s'' : Supervisor} {heads done : List TaskId}

theorem of_eq (ht : s'.tasks = s.tasks) (ha : s'.answers = s.answers)
    (hd : s'.stats.deduplicated = s.stats.deduplicated)
    (he : ∀ e, s'.stats.ended e = s.stats.ended e) : Settles heads s s' where
  deduplicated := hd
  keys := by rw [ht]; exact fun _ => id
  ended e := by
    rw [he, tally_congr fun id _ => ?_]
    rw [sent, sent, ha]

theorem trans (h : Settles heads s s') (h' : Settles heads s' s'') : Settles heads s s'' where
  deduplicated := h'.deduplicated.trans h.deduplicated
  keys := List.Subset.trans h'.keys h.keys
  ended e := by
    have := h.ended e
    have := h'.ended e
    omega

theorem resolve (h : s.Headed heads done) (hid : id ∈ s.tasks.keys) {stats : PoolStats}
    {outcome : TaskResult} (hd : stats.deduplicated = s.stats.deduplicated)
    (he : ∀ e, stats.ended e = s.stats.ended e + if outcome.ending = e then 1 else 0) :
    Settles heads s (({ s with stats } : Supervisor).resolve id outcome) where
  deduplicated := by rw [stats_resolve]; exact hd
  keys i hi := (mem_keys_resolve.1 hi).2
  ended e := by
    have htally := (h.count stats).tally_resolve hid outcome e
    have hsame : tally heads e { s with stats } = tally heads e s := rfl
    rw [stats_resolve, htally, hsame]
    have := he e
    change stats.ended e + _ = _
    omega

theorem refuseAll (h : s.Headed heads done) {ids : List TaskId} (hn : ids.Nodup)
    (hids : ids ⊆ s.tasks.keys) (reason : String) :
    Settles heads s (Supervisor.refuseAll reason ids s) := by
  induction ids generalizing s with
  | nil => exact of_eq rfl rfl rfl fun _ => rfl
  | cons id ids ih =>
    obtain ⟨hnot, hn⟩ := List.nodup_cons.1 hn
    obtain ⟨hid, hids⟩ := List.cons_subset.1 hids
    let counted : PoolStats := { s.stats with failed := s.stats.failed + 1 }
    have hone : Settles heads s
        (({ s with stats := counted } : Supervisor).resolve id (.unavailable reason)) :=
      resolve h hid rfl fun e => by cases e <;> rfl
    refine hone.trans (ih ((h.count counted).resolve id _) hn fun i hi => ?_)
    exact mem_keys_resolve.2 ⟨fun he => hnot (he ▸ hi), hids hi⟩

/-- The tasks in the queue are refused if no worker is left. -/
theorem retire (h : s.Headed heads done) (hn : s.queue.Nodup) (hq : s.queue ⊆ s.tasks.keys)
    (worker : WorkerId) : Settles heads s (s.retire worker) := by
  obtain ⟨starts, he | he | ⟨-, he⟩⟩ := retire_cases s worker
  · rw [he]
    exact of_eq rfl rfl rfl fun e => by cases e <;> rfl
  · rw [he]
    exact of_eq rfl rfl rfl fun e => by cases e <;> rfl
  · let s₁ : Supervisor := { ((s.dismiss worker).withoutWorker starts).recount with queue := [] }
    have hbooks : s₁.Books (fun _ => True) done :=
      { (h.books.dismiss fun _ _ => trivial).withoutWorker starts with
        placed := fun _ _ => Or.inl trivial }
    have hs₁ : Settles heads s s₁ := of_eq rfl rfl rfl fun e => by cases e <;> rfl
    rw [he]
    exact hs₁.trans (refuseAll (s := s₁) (h.congr ⟨rfl, rfl, rfl, rfl⟩ hbooks) hn hq _)

theorem round (h : s.Headed heads done) (hu : s.Untimed done) {accepts : WorkerId → Bool}
    {now : Nat} (hr : Round accepts now s s') : Settles heads s s' := by
  cases hr with
  | rest | skip | pass => exact of_eq rfl rfl rfl fun _ => rfl
  | assign => exact of_eq rfl rfl rfl fun e => by cases e <;> rfl
  | retire => exact retire h hu.queue.1 hu.queue.2 _

theorem note (h : s.Headed heads done) (hu : s.Untimed done) (event : PoolEvent) :
    Settles heads s (s.note event) := by
  cases ho : s.owns event.worker event.task with
  | false =>
    rw [note_of_late ho]
    exact of_eq rfl rfl rfl fun _ => rfl
  | true =>
    obtain ⟨hkey, hfree⟩ := hu.owned ho
    let b : Supervisor := { s with stats := event.count s.stats }
    -- the worker is free or replaced before the task is answered
    obtain ⟨r, he, hb, hr, hrkey⟩ : ∃ r, s.note event = r.finish event.task event.outcome ∧
        Settles heads b r ∧ r.Headed heads done ∧ event.task ∈ r.tasks.keys := by
      rw [note_of_owns ho]
      split
      · refine ⟨_, rfl, of_eq rfl rfl rfl fun _ => rfl, ?_, hkey⟩
        refine h.congr ⟨rfl, rfl, rfl, rfl⟩ ?_
        exact (hu.books.freed _ (owns_iff.1 ho)).mono fun _ => trivial
      · have hhead : b.Headed heads done := h.count _
        exact ⟨b.retire event.worker, rfl, retire hhead hu.queue.1 hu.queue.2 _, hhead.retire _,
          mem_keys_retire (s := b) hkey hfree event.worker⟩
    rw [he]
    constructor
    case deduplicated =>
      rw [Supervisor.finish, stats_resolve]
      exact hb.deduplicated.trans (event.deduplicated_count s.stats)
    case keys => exact fun i hi => hb.keys (mem_keys_resolve.1 hi).2
    case ended =>
      intro e
      have hcount := event.ended_count s.stats e
      have hrest := hb.ended e
      have htally := hr.tally_finish hrkey event.outcome e
      have hstats : (r.finish event.task event.outcome).stats.ended e = r.stats.ended e := by
        rw [Supervisor.finish, stats_resolve]
        cases e <;> rfl
      have hsame : tally heads e b = tally heads e s := rfl
      rw [hsame] at hrest
      change _ = (event.count s.stats).ended e + _ at hrest
      omega

/-- What is left on the books is cancelled. -/
theorem stop (h : s.Headed heads done) : Settles heads s s.stop := by
  have hall : ∀ (ids : List TaskId) {b : Supervisor}, b.Headed heads done → ids.Nodup →
      ids ⊆ b.tasks.keys → ∀ e, tally heads e (cancelAll ids b) =
        tally heads e b + if Ending.cancelled = e then ids.length else 0 := by
    intro ids
    induction ids with
    | nil =>
      intro b _ _ _ e
      simp [cancelAll]
    | cons id ids ih =>
      intro b hb hn hids e
      obtain ⟨hnot, hn⟩ := List.nodup_cons.1 hn
      obtain ⟨hid, hids⟩ := List.cons_subset.1 hids
      have hrest := ih (hb.resolve id .cancelled) hn (fun i hi =>
        mem_keys_resolve.2 ⟨fun he => hnot (he ▸ hi), hids hi⟩) e
      have hone : tally heads e (b.resolve id .cancelled) =
          tally heads e b + if Ending.cancelled = e then 1 else 0 :=
        hb.tally_resolve hid .cancelled e
      rw [cancelAll, hrest, hone]
      by_cases he : Ending.cancelled = e
      · simp only [he, if_true, List.length_cons]
        omega
      · simp [he]
  let b : Supervisor := { s with timers := {} }
  have hb : b.Headed heads done :=
    h.congr ⟨rfl, rfl, rfl, rfl⟩ (h.books.congr rfl rfl rfl rfl rfl rfl)
  have htally := hall s.tasks.keys hb h.books.tasks_nodup (List.Subset.refl _)
  have hstats : (cancelAll s.tasks.keys b).stats = s.stats := stats_cancelAll _ b
  constructor
  case deduplicated =>
    change (cancelAll s.tasks.keys b).stats.deduplicated = _
    rw [hstats]
  case keys => rw [keys_stop]; exact List.nil_subset _
  case ended =>
    intro e
    have hended : s.stop.stats.ended e =
        s.stats.ended e + if Ending.cancelled = e then s.tasks.keys.length else 0 := by
      cases e <;> simp [Supervisor.stop, PoolStats.ended, hstats, b]
    have hsame : tally heads e s.stop = tally heads e (cancelAll s.tasks.keys b) := rfl
    have hb' : tally heads e b = tally heads e s := rfl
    rw [hended, hsame, htally, hb']
    omega

end Settles

/-! ## Runs -/

/-- A pool that has just been started counts nothing but its workers. -/
theorem stats_opened (count : Nat) (starts : StartPlan) :
    (∀ e, (opened count starts).stats.ended e = 0) ∧
      (opened count starts).stats.deduplicated = 0 ∧
      (opened count starts).stats.queued = (opened count starts).queue.length := by
  refine opened_induction (P := fun s => (∀ e, s.stats.ended e = 0) ∧ s.stats.deduplicated = 0 ∧
    s.stats.queued = s.queue.length) starts ⟨fun e => by cases e <;> rfl, rfl, rfl⟩ ?_ count
  rintro s ⟨hended, hrest⟩
  obtain ⟨starts, he | he⟩ := startWorker_cases s
  · rw [he]
    refine ⟨fun e => ?_, hrest⟩
    have hold := hended e
    cases e <;> exact hold
  · rw [he]
    exact ⟨hended, hrest⟩

/-- The submissions `done` are those that joined a task and the tasks `heads`, and the
    endings of the tasks are counted. -/
structure Accounted (done heads : List TaskId) (s : Supervisor) : Prop where
  untimed : s.Untimed done
  tracked : s.Tracked heads done
  known : s.tasks.keys ⊆ heads
  sublist : heads.Sublist done
  length : done.length = s.stats.deduplicated + heads.length
  ended : ∀ e, s.stats.ended e = tally heads e s

namespace Accounted

variable {s s' : Supervisor} {heads done : List TaskId} {task : Task}

theorem headed (h : s.Accounted done heads) (hn : done.Nodup) : s.Headed heads done :=
  { h.tracked with
    books := h.untimed.books.mono fun _ => trivial
    nodup := hn
    known := h.known
    sublist := h.sublist }

theorem settle (h : s.Accounted done heads) (hu : s'.Untimed done) (ht : s'.Tracked heads done)
    (hs : Settles heads s s') : s'.Accounted done heads where
  untimed := hu
  tracked := ht
  known := List.Subset.trans hs.keys h.known
  sublist := h.sublist
  length := by rw [hs.deduplicated]; exact h.length
  ended e := by
    have := hs.ended e
    have := h.ended e
    omega

theorem join (h : s.Accounted done heads) (hnew : task.id ∉ done) {p : Pending}
    (hkey : s.inFlight.get? task.key = some id) (hp : s.tasks.get? id = some p) :
    (s.enqueue task).Accounted (done ++ [task.id]) heads := by
  have hu := h.untimed.enqueue hnew
  have ht := (ledgerInvariant_tracked heads).enqueue hnew h.tracked
  rw [enqueue_of_shared hkey hp] at hu ht ⊢
  have hkeys : (s.join id p task.id).tasks.keys = s.tasks.keys := Table.keys_put_old _ hp
  have hlength : (done ++ [task.id]).length = s.stats.deduplicated + 1 + heads.length := by
    rw [List.length_append, h.length, List.length_singleton]
    omega
  have hended : ∀ e, (s.join id p task.id).stats.ended e = s.stats.ended e := by
    intro e
    cases e <;> rfl
  exact ⟨hu, ht, hkeys ▸ h.known, h.sublist.trans (List.sublist_append_left _ _), hlength,
    fun e => (hended e).trans (h.ended e)⟩

theorem sent_new (h : s.Accounted done heads) (hnew : id ∉ done) : s.sent id = [] := by
  rw [← List.length_eq_zero_iff, length_sent, List.count_eq_zero]
  exact fun hm => hnew (h.untimed.books.ledger.mem_iff.1 (List.mem_append_right _ hm))

/-- The submission becomes a task, or is refused. -/
theorem withHead (h : s.Accounted done heads) (hnew : task.id ∉ done)
    (hkeys : ∀ i, i ∈ (s.enqueue task).tasks.keys → i = task.id ∨ i ∈ s.tasks.keys)
    (hon : task.id ∈ (s.enqueue task).tasks.keys ∨ (s.enqueue task).sent task.id ≠ [])
    (hsent : ∀ id ∈ heads, (s.enqueue task).sent id = s.sent id)
    (hd : (s.enqueue task).stats.deduplicated = s.stats.deduplicated)
    (hended : ∀ e, (s.enqueue task).stats.ended e = s.stats.ended e +
      if ((s.enqueue task).sent task.id).map TaskResult.ending = [e] then 1 else 0) :
    (s.enqueue task).Accounted (done ++ [task.id]) (heads ++ [task.id]) := by
  have ht := (ledgerInvariant_tracked heads).enqueue hnew h.tracked
  constructor
  case untimed => exact h.untimed.enqueue hnew
  case tracked =>
    refine ⟨ht.keysAgree, ht.jobs, fun id hid => ?_⟩
    rcases List.mem_append.1 hid with hid | hid
    · exact ht.accounted id hid
    · rw [List.mem_singleton.1 hid]
      exact hon
  case known =>
    intro i hi
    rcases hkeys i hi with rfl | hi
    · exact List.mem_append_right _ List.mem_cons_self
    · exact List.mem_append_left _ (h.known hi)
  case sublist => exact h.sublist.append (List.Sublist.refl _)
  case length =>
    rw [hd, List.length_append, List.length_append, h.length]
    exact Nat.add_assoc _ _ _
  case ended =>
    intro e
    rw [tally_snoc, tally_congr hsent, ← h.ended]
    exact hended e

theorem withTask (h : s.Accounted done heads) (hnew : task.id ∉ done) {b : Supervisor}
    (he : s.enqueue task = b.withTask task) (hs : s.SameLedger b)
    (hd : b.stats.deduplicated = s.stats.deduplicated)
    (hended : ∀ e, b.stats.ended e = s.stats.ended e) :
    (s.enqueue task).Accounted (done ++ [task.id]) (heads ++ [task.id]) := by
  have hsent : ∀ id, (s.enqueue task).sent id = s.sent id := by
    intro id
    rw [he]
    exact congrArg (fun answers => (answers.filter (·.1 = id)).map (·.2)) hs.answers
  have hkeys : ∀ i, i ∈ (s.enqueue task).tasks.keys ↔ i = task.id ∨ i ∈ s.tasks.keys := by
    intro i
    rw [he, ← hs.tasks]
    exact Table.mem_keys_put
  refine h.withHead hnew (fun i hi => (hkeys i).1 hi) (Or.inl ((hkeys _).2 (Or.inl rfl)))
    (fun id _ => hsent id) (by rw [he]; exact hd) fun e => ?_
  rw [hsent, h.sent_new hnew, he]
  exact hended e

theorem turnAway (h : s.Accounted done heads) (hnew : task.id ∉ done)
    (he : s.enqueue task = s.turnAway task.id) :
    (s.enqueue task).Accounted (done ++ [task.id]) (heads ++ [task.id]) := by
  have hself : (s.enqueue task).sent task.id = [.unavailable s.starts.reason] := by
    have hold := h.sent_new hnew
    rw [sent] at hold
    rw [he, sent, Supervisor.turnAway]
    simp [hold]
  have hothers : ∀ id ∈ heads, (s.enqueue task).sent id = s.sent id := by
    intro id hid
    have hne : task.id ≠ id := fun heq => hnew (heq ▸ h.sublist.subset hid)
    rw [he, sent, sent, Supervisor.turnAway]
    simp [hne]
  refine h.withHead hnew (fun i hi => ?_) (Or.inr ?_) hothers (by rw [he]; rfl) fun e => ?_
  · rw [he] at hi
    exact Or.inr hi
  · rw [hself]
    exact List.cons_ne_nil _ _
  · rw [hself, he]
    cases e <;> rfl

theorem enqueue (h : s.Accounted done heads) (hnew : task.id ∉ done) :
    (s.enqueue task).Accounted (done ++ [task.id])
      (heads ++ (Moment.mk s (.take task) (s.enqueue task)).head) := by
  cases hkey : s.inFlight.get? task.key with
  | some id =>
    obtain ⟨p, hp, hwork⟩ := (h.tracked.keysAgree.mem_inFlight task.key id).1 hkey
    have hhead : (Moment.mk s (.take task) (s.enqueue task)).head = [] := by
      refine if_pos (List.any_eq_true.2 ⟨p, Table.mem_values_of_get? hp, ?_⟩)
      exact decide_eq_true hwork
    rw [hhead, List.append_nil]
    exact h.join hnew hkey hp
  | none =>
    have hhead : (Moment.mk s (.take task) (s.enqueue task)).head = [task.id] := by
      refine if_neg fun hany => ?_
      obtain ⟨p, hp, hwork⟩ := List.any_eq_true.1 hany
      obtain ⟨id, hid⟩ := Table.exists_get?_of_mem_values h.untimed.books.tasks_nodup hp
      have hfound :=
        (h.tracked.keysAgree.mem_inFlight task.key id).2 ⟨p, hid, of_decide_eq_true hwork⟩
      rw [hkey] at hfound
      cases hfound
    have hnone := enqueue_of_new hkey
    rw [hhead]
    by_cases hw : s.workers.isEmpty = true
    · rw [if_pos hw] at hnone
      by_cases hstart : s.starts.next.1 = true
      · rw [if_pos hstart] at hnone
        exact h.withTask hnew hnone ⟨rfl, rfl, rfl, rfl⟩ rfl fun e => by cases e <;> rfl
      · rw [if_neg hstart] at hnone
        exact h.turnAway hnew hnone
    · rw [if_neg hw] at hnone
      exact h.withTask hnew hnone ⟨rfl, rfl, rfl, rfl⟩ rfl fun _ => rfl

theorem opened (count : Nat) (starts : StartPlan) :
    (Supervisor.opened count starts).Accounted [] [] := by
  obtain ⟨hagree, hjobs⟩ := keysAgree_opened count starts
  have hkept := Kept.opened count starts
  obtain ⟨hended, hjoined, -⟩ := stats_opened count starts
  constructor
  case untimed => exact ⟨_, hkept⟩
  case tracked => exact ⟨hagree, hjobs, List.forall_mem_nil _⟩
  case known => exact fun id hid => hkept.books.known id hid
  case sublist => exact List.Sublist.refl _
  case length => rw [hjoined]; rfl
  case ended => exact hended

theorem run {log : List Moment} (h : s.Accounted done (log.flatMap (·.head))) {ms : List Message}
    (hn : (done ++ submissions ms).Nodup) :
    (s.run ms).Accounted (done ++ submissions ms) ((log ++ s.moments ms).flatMap (·.head)) := by
  refine moments_induction
    (P := fun done log s => done.Nodup → s.Accounted done (log.flatMap (·.head)))
    ?_ ?_ ?_ ?_ ?_ ?_ (fun _ => h) hn
  · intro done log s task h hn
    have hnew : task.id ∉ done := fun hm =>
      (List.nodup_append.1 hn).2.2 _ hm _ List.mem_cons_self rfl
    rw [List.flatMap_append, List.flatMap_singleton]
    exact (h hn.of_append_left).enqueue hnew
  · intro done log s event h hn
    have ht := (ledgerInvariant_tracked _).note (h hn).tracked event
    rw [List.flatMap_append, List.flatMap_singleton]
    simp only [Moment.head, List.append_nil]
    exact (h hn).settle ((h hn).untimed.note event) ht
      (.note ((h hn).headed hn) (h hn).untimed event)
  · intro done log s s' accepts now h hr hn
    have ht := (ledgerInvariant_tracked _).round (h hn).tracked hr
    rw [List.flatMap_append, List.flatMap_singleton]
    simp only [Moment.head, List.append_nil]
    exact (h hn).settle ((h hn).untimed.round hr) ht
      (.round ((h hn).headed hn) (h hn).untimed hr)
  · intro done log s h hn
    obtain ⟨timers, hk⟩ := (h hn).untimed
    refine (h hn).settle ⟨timers, ?_, ?_, hk.counted⟩
      ((ledgerInvariant_tracked _).same (h hn).tracked ⟨rfl, rfl, rfl, rfl⟩)
      (.of_eq rfl rfl rfl fun e => by cases e <;> rfl)
    · exact hk.books.congr rfl rfl rfl rfl rfl rfl
    · exact { hk.roster with }
  · intro done log s h hn
    have ht := (ledgerInvariant_tracked _).stop (h hn).tracked
    rw [List.flatMap_append, List.flatMap_singleton]
    simp only [Moment.head, List.append_nil]
    exact (h hn).settle (h hn).untimed.stop ht (.stop ((h hn).headed hn))
  · intro done log s starts timers h hn
    obtain ⟨timers', hk⟩ := (h hn).untimed
    refine (h hn).settle ⟨timers', ?_, ?_, hk.counted⟩
      ((ledgerInvariant_tracked _).same (h hn).tracked ⟨rfl, rfl, rfl, rfl⟩)
      (.of_eq rfl rfl rfl fun _ => rfl)
    · exact hk.books.congr rfl rfl rfl rfl rfl rfl
    · exact { hk.roster with }

/-- A task is on the books and was sent nothing, or it is not there and was answered. -/
theorem sent_cases (h : s.Accounted done heads) (hn : done.Nodup) (hid : id ∈ heads) :
    id ∈ s.tasks.keys ∧ s.sent id = [] ∨
      id ∉ s.tasks.keys ∧ ∃ outcome, s.sent id = [outcome] := by
  by_cases hkey : id ∈ s.tasks.keys
  · obtain ⟨p, hp⟩ := Table.mem_keys_iff.1 hkey
    exact Or.inl ⟨hkey, ((h.headed hn).waiters hp).1⟩
  · have hsent := (h.tracked.accounted id hid).resolve_left hkey
    refine Or.inr ⟨hkey, ?_⟩
    rcases h.untimed.books.waits_or_sent hn (h.sublist.subset hid) with ⟨-, hnone⟩ | ⟨-, hone⟩
    · exact absurd hnone hsent
    · exact hone

theorem countP_unsent (h : s.Accounted done heads) (hn : done.Nodup) :
    heads.countP (fun id => s.sent id = []) = s.tasks.keys.length := by
  rw [List.countP_eq_length_filter]
  refine List.Perm.length_eq ((List.perm_ext_iff_of_nodup ((h.sublist.nodup hn).filter _)
    h.untimed.books.tasks_nodup).2 fun id => ?_)
  rw [List.mem_filter, decide_eq_true_eq]
  constructor
  · rintro ⟨hid, hsent⟩
    exact (h.tracked.accounted id hid).resolve_right fun hne => hne hsent
  · intro hkey
    obtain ⟨p, hp⟩ := Table.mem_keys_iff.1 hkey
    exact ⟨h.known hkey, ((h.headed hn).waiters hp).1⟩

end Accounted

/-- Every task was sent nothing or has one ending. -/
theorem length_eq_tallies {heads : List TaskId}
    (h : ∀ id ∈ heads, s.sent id = [] ∨ ∃ outcome, s.sent id = [outcome]) :
    heads.length = heads.countP (fun id => s.sent id = []) + tally heads .completed s +
      tally heads .failed s + tally heads .timedOut s + tally heads .crashed s +
      tally heads .cancelled s := by
  induction heads with
  | nil => rfl
  | cons id heads ih =>
    obtain ⟨hid, hrest⟩ := List.forall_mem_cons.1 h
    have hrest := ih hrest
    simp only [tally, List.countP_cons, List.length_cons] at hrest ⊢
    rcases hid with hid | ⟨outcome, hid⟩
    · simp [hid]
      omega
    · cases outcome <;> simp [hid, TaskResult.ending] <;> omega

theorem stats_run_of_shutdown {ms : List Message} (hm : .shutdown ∈ ms) :
    (s.run ms).stats.queued = 0 ∧ (s.run ms).stats.active = 0 ∧ (s.run ms).stats.workers = 0 := by
  induction ms generalizing s with
  | nil => cases hm
  | cons m ms ih =>
    cases m with
    | shutdown => exact ⟨rfl, rfl, rfl⟩
    | submit | event | disturb => exact ih ((List.mem_cons.1 hm).resolve_left (by simp))

theorem queued_run (h : s.stats.queued = s.queue.length) (ms : List Message) :
    (s.run ms).stats.queued = (s.run ms).queue.length := by
  induction ms generalizing s with
  | nil => exact h
  | cons m ms ih =>
    cases m with
    | submit accepts now task => exact ih rfl
    | event accepts now event => exact ih rfl
    | disturb starts timers => exact ih h
    | shutdown => rfl

/-- **The accounts of the pool are conserved.**  Whatever messages the supervisor takes and
    whichever worker starts fail: every submission joined another one, or its task has ended
    and is counted so, or its task is in the queue or with a worker.  A task is counted
    once, with the ending that it was answered with, however many submissions wait for it.
    After a shutdown nothing is queued or active, and there is no worker. -/
theorem accounts_conserved {count : Nat} {starts : StartPlan} {ms : List Message} {s : Supervisor}
    (hrun : (opened count starts).run ms = s) (hids : (submissions ms).Nodup) :
    let tasks := (opened count starts).heads ms
    (submissions ms).length = s.stats.deduplicated + s.stats.completed + s.stats.failed +
      s.stats.timedOut + s.stats.crashed + s.stats.cancelled + s.stats.queued + s.stats.active ∧
    (submissions ms).length = s.stats.deduplicated + tasks.length ∧
    tasks.Sublist (submissions ms) ∧
    (∀ e, s.stats.ended e = tasks.countP fun id => (s.sent id).map TaskResult.ending = [e]) ∧
    (∀ id ∈ tasks, id ∈ s.tasks.keys ∧ s.sent id = [] ∨
      id ∉ s.tasks.keys ∧ ∃ outcome, s.sent id = [outcome]) ∧
    s.stats.queued + s.stats.active = tasks.countP (fun id => s.sent id = []) ∧
    s.stats.queued = s.queue.length ∧ s.stats.active = s.workers.values.countP (· ≠ .idle) ∧
    (.shutdown ∈ ms → s.stats.queued = 0 ∧ s.stats.active = 0 ∧ s.stats.workers = 0) := by
  intro tasks
  have h : s.Accounted ([] ++ submissions ms)
      (([] ++ (opened count starts).moments ms).flatMap Moment.head) :=
    hrun ▸ (Accounted.opened count starts).run hids
  simp only [List.nil_append] at h
  change s.Accounted (submissions ms) tasks at h
  have hqueued : s.stats.queued = s.queue.length := by
    rw [← hrun]
    exact queued_run (stats_opened count starts).2.2 ms
  obtain ⟨timers, hk⟩ := h.untimed
  have hactive : s.stats.active = (tasksOf s.workers).length := by
    have := hk.roster.active_eq
    rwa [List.append_nil] at this
  have hopen : s.stats.queued + s.stats.active = tasks.countP (fun id => s.sent id = []) := by
    have hkeys : s.tasks.keys.length = (s.queue ++ (tasksOf s.workers ++ [])).length :=
      hk.roster.tasks_perm.length_eq
    rw [List.append_nil, List.length_append] at hkeys
    rw [h.countP_unsent hids, hkeys, hqueued, hactive]
  have hall := length_eq_tallies fun id hid => (h.sent_cases hids hid).imp And.right And.right
  have hlength := h.length
  refine ⟨?_, h.length, h.sublist, h.ended, fun id hid => h.sent_cases hids hid, hopen, hqueued,
    ?_, fun hstop => hrun ▸ stats_run_of_shutdown hstop⟩
  · simp only [← h.ended, PoolStats.ended] at hall
    omega
  · rw [hactive, length_tasksOf]

/-- Five tasks and a submission that joined one of them: two tasks crashed, one took too
    long, one failed as no worker could be started, and one is with a worker.  In the other
    run one task is cancelled by the shutdown. -/
theorem accounts_conserved_shifts :
    let s := (opened 2 {}).run Message.shifts
    let s' := (opened 1 {}).run Message.sample
    ((submissions Message.shifts).length = s.stats.deduplicated + s.stats.completed +
        s.stats.failed + s.stats.timedOut + s.stats.crashed + s.stats.cancelled +
        s.stats.queued + s.stats.active ∧
      (opened 2 {}).heads Message.shifts = [1, 2, 3, 5, 6] ∧
      s.stats = { workers := 1, active := 1, failed := 1, timedOut := 1, crashed := 2,
                  deduplicated := 1 }) ∧
    s'.stats = { failed := 2, timedOut := 1, deduplicated := 1, cancelled := 1 } ∧
      s'.stats.queued = 0 ∧ s'.stats.active = 0 ∧ s'.stats.workers = 0 := by
  have hshut : Message.shutdown ∈ Message.sample := by simp [Message.sample]
  obtain ⟨hsum, -⟩ :=
    accounts_conserved (s := (opened 2 {}).run Message.shifts) rfl (by decide +kernel)
  obtain ⟨-, -, -, -, -, -, -, -, hstop⟩ :=
    accounts_conserved (s := (opened 1 {}).run Message.sample) rfl (by decide +kernel)
  exact ⟨⟨hsum, by decide +kernel, by decide +kernel⟩, by decide +kernel, hstop hshut⟩

end Supervisor

end SourceIndex
