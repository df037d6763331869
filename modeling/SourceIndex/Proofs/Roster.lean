/-
  The books of the pool agree with each other.

  * `Supervisor.Roster left ending`: the tasks on the books are those of `left`, those
    that workers have and those of `ending`, which are about to be answered; the timers
    and the count of active tasks are those of the last two;
  * `Roster.withWorker`, `Roster.dismiss`, `Roster.assign`, `Roster.reclaim`,
    `Roster.finish`: what each operation makes of that;
  * `Roster.run`: between messages, nothing is about to be answered and `left` is the
    queue;
  * `Supervisor.Balanced`, `books_balanced`: idle list, worker table, queue, tasks,
    timers and counts agree after every run.
-/
import SourceIndex.Proofs.Books

namespace SourceIndex

/-- The task that a worker has. -/
def WorkerState.task? : WorkerState → Option TaskId
  | idle => none
  | busy task => some task

namespace Supervisor

variable {s : Supervisor} {workers : Table WorkerId WorkerState} {w : WorkerId} {done : List TaskId}
  {id : TaskId} {state : WorkerState}

/-! ## The tasks of the workers -/

/-- The tasks that workers have. -/
def tasksOf (workers : Table WorkerId WorkerState) : List TaskId :=
  workers.values.filterMap WorkerState.task?

theorem mem_tasksOf (hn : workers.keys.Nodup) :
    id ∈ tasksOf workers ↔ ∃ w, workers.get? w = some (.busy id) := by
  simp only [tasksOf, List.mem_filterMap, Table.mem_values, Table.mem_pairs_iff hn]
  constructor
  · rintro ⟨state, ⟨w, hw⟩, hid⟩
    cases state with
    | idle => cases hid
    | busy task =>
      cases hid
      exact ⟨w, hw⟩
  · rintro ⟨w, hw⟩
    exact ⟨_, ⟨w, hw⟩, rfl⟩

theorem tasksOf_put_new (h : workers.get? w = none) :
    tasksOf (workers.put w .idle) = tasksOf workers := by
  rw [tasksOf, Table.values_put_new _ (Table.get?_eq_none_iff.1 h), List.filterMap_append]
  exact List.append_nil _

theorem perm_tasksOf_erase (hn : workers.keys.Nodup) (h : workers.get? w = some state) :
    (tasksOf workers).Perm (state.task?.toList ++ tasksOf (workers.erase w)) := by
  refine ((Table.perm_values_erase hn h).filterMap _).trans ?_
  rw [List.filterMap_cons]
  cases state with
  | idle => exact .refl _
  | busy task => exact .refl _

theorem perm_tasksOf_put (h : workers.get? w = some state) (state' : WorkerState) :
    (state'.task?.toList ++ tasksOf workers).Perm
      (state.task?.toList ++ tasksOf (workers.put w state')) := by
  obtain ⟨l₁, l₂, hold, hput, -⟩ := Table.exists_values_split h
  have hcons : ∀ (v : WorkerState) (l : List WorkerState),
      (v :: l).filterMap WorkerState.task? = v.task?.toList ++ l.filterMap WorkerState.task? := by
    intro v l
    cases v with
    | idle => rfl
    | busy task => rfl
  rw [tasksOf, tasksOf, hold, hput]
  simp only [List.filterMap_append, hcons]
  refine (List.perm_append_comm_assoc _ _ _).trans ?_
  refine List.Perm.trans ?_ (List.perm_append_comm_assoc _ _ _)
  exact (List.Perm.refl _).append (List.perm_append_comm_assoc _ _ _)

/-! ## Answers and the workers -/

/-- Workers, queue and timers are the same, and so are their counts. -/
structure SameStaff (s s' : Supervisor) : Prop where
  workers : s'.workers = s.workers
  idle : s'.idle = s.idle
  queue : s'.queue = s.queue
  timers : s'.timers = s.timers
  active : s'.stats.active = s.stats.active
  staff : s'.stats.workers = s.stats.workers

theorem SameStaff.refl (s : Supervisor) : s.SameStaff s := ⟨rfl, rfl, rfl, rfl, rfl, rfl⟩

theorem SameStaff.trans {s₁ s₂ s₃ : Supervisor} (h : s₁.SameStaff s₂) (h' : s₂.SameStaff s₃) :
    s₁.SameStaff s₃ where
  workers := h'.workers.trans h.workers
  idle := h'.idle.trans h.idle
  queue := h'.queue.trans h.queue
  timers := h'.timers.trans h.timers
  active := h'.active.trans h.active
  staff := h'.staff.trans h.staff

theorem sameStaff_resolve (s : Supervisor) (id : TaskId) (outcome : TaskResult) :
    s.SameStaff (s.resolve id outcome) := by
  unfold resolve
  split
  · exact .refl s
  · exact ⟨rfl, rfl, rfl, rfl, rfl, rfl⟩

theorem sameStaff_refuseAll (reason : String) (ids : List TaskId) (s : Supervisor) :
    s.SameStaff (refuseAll reason ids s) := by
  induction ids generalizing s with
  | nil => exact .refl s
  | cons id ids ih =>
    refine SameStaff.trans ?_ (ih _)
    refine SameStaff.trans ?_ (sameStaff_resolve _ id _)
    exact ⟨rfl, rfl, rfl, rfl, rfl, rfl⟩

theorem sameStaff_cancelAll (ids : List TaskId) (s : Supervisor) :
    s.SameStaff (cancelAll ids s) := by
  induction ids generalizing s with
  | nil => exact .refl s
  | cons id ids ih => exact (sameStaff_resolve s id .cancelled).trans (ih _)

theorem active_retire (s : Supervisor) (worker : WorkerId) :
    (s.retire worker).stats.active = s.stats.active := by
  obtain ⟨starts, he | he | ⟨-, he⟩⟩ := retire_cases s worker
  · rw [he]; rfl
  · rw [he]; rfl
  · rw [he, (sameStaff_refuseAll _ _ _).active]; rfl

theorem perm_keys_resolve (hn : s.tasks.keys.Nodup) {l : List TaskId}
    (h : s.tasks.keys.Perm (id :: l)) (outcome : TaskResult) :
    (s.resolve id outcome).tasks.keys.Perm l := by
  have hm : id ∈ s.tasks.keys := h.mem_iff.2 List.mem_cons_self
  obtain ⟨p, hp⟩ := Table.mem_keys_iff.1 hm
  rw [resolve, hp]
  exact ((Table.perm_keys_erase hn hm).symm.trans h).cons_inv

/-! ## The roster -/

/-- The tasks on the books are those of `left`, those that workers have and those of
    `ending`.  The last two have timers and count as active, and the workers without a
    task are the idle ones. -/
structure Roster (left ending : List TaskId) (s : Supervisor) : Prop where
  workers_nodup : s.workers.keys.Nodup
  tasks_nodup : s.tasks.keys.Nodup
  mem_idle : ∀ w, w ∈ s.idle ↔ s.workers.get? w = some .idle
  tasks_perm : s.tasks.keys.Perm (left ++ (tasksOf s.workers ++ ending))
  timers_perm : s.timers.keys.Perm (tasksOf s.workers ++ ending)
  active_eq : s.stats.active = (tasksOf s.workers ++ ending).length

/-- The count of the workers is right. -/
def Counted (s : Supervisor) : Prop :=
  s.stats.workers = s.workers.size

theorem counted_retire (s : Supervisor) (worker : WorkerId) : (s.retire worker).Counted := by
  obtain ⟨starts, he | he | ⟨-, he⟩⟩ := retire_cases s worker
  · rw [he]; rfl
  · rw [he]; rfl
  · have hsame := sameStaff_refuseAll s.starts.reason s.queue
      { ((s.dismiss worker).withoutWorker starts).recount with queue := [] }
    rw [he, Counted, hsame.staff, hsame.workers]
    rfl

namespace Roster

variable {s : Supervisor} {left ending : List TaskId} {worker : WorkerId} {task : TaskId}

theorem congr (h : s.Roster left ending) {s' : Supervisor} (hs : s.SameStaff s')
    {left' : List TaskId} (hn : s'.tasks.keys.Nodup)
    (ht : s'.tasks.keys.Perm (left' ++ (tasksOf s.workers ++ ending))) :
    s'.Roster left' ending := by
  constructor
  case workers_nodup => rw [hs.workers]; exact h.workers_nodup
  case tasks_nodup => exact hn
  case mem_idle => rw [hs.idle, hs.workers]; exact h.mem_idle
  case tasks_perm => rw [hs.workers]; exact ht
  case timers_perm => rw [hs.workers, hs.timers]; exact h.timers_perm
  case active_eq => rw [hs.workers, hs.active]; exact h.active_eq

/-! ### Workers -/

theorem withWorker (h : s.Roster left ending) (hnew : s.workers.get? s.nextWorker = none)
    (starts : StartPlan) : (s.withWorker starts).Roster left ending := by
  have hsame : tasksOf (s.withWorker starts).workers = tasksOf s.workers := tasksOf_put_new hnew
  constructor
  case workers_nodup => exact Table.nodup_put h.workers_nodup _ _
  case tasks_nodup => exact h.tasks_nodup
  case mem_idle =>
    intro w
    change w ∈ s.idle ++ [s.nextWorker] ↔ (s.workers.put s.nextWorker .idle).get? w = _
    rw [List.mem_append, List.mem_singleton, h.mem_idle, Table.get?_put]
    by_cases hw : s.nextWorker = w
    · simp [hw]
    · simp [hw, Ne.symm hw]
  case tasks_perm => rw [hsame]; exact h.tasks_perm
  case timers_perm => rw [hsame]; exact h.timers_perm
  case active_eq => rw [hsame]; exact h.active_eq

theorem dismiss (h : s.Roster left []) (hw : s.workers.get? worker = some state) :
    (s.dismiss worker).Roster left state.task?.toList := by
  have hperm : (tasksOf s.workers ++ []).Perm
      (tasksOf (s.dismiss worker).workers ++ state.task?.toList) := by
    rw [List.append_nil]
    exact (perm_tasksOf_erase h.workers_nodup hw).trans List.perm_append_comm
  constructor
  case workers_nodup => exact Table.nodup_erase h.workers_nodup _
  case tasks_nodup => exact h.tasks_nodup
  case mem_idle =>
    intro w
    change w ∈ s.idle.filter _ ↔ (s.workers.erase worker).get? w = _
    rw [List.mem_filter, h.mem_idle, Table.get?_erase]
    by_cases he : worker = w
    · simp [he]
    · simp [he, Ne.symm he]
  case tasks_perm => exact h.tasks_perm.trans (hperm.append_left left)
  case timers_perm => exact h.timers_perm.trans hperm
  case active_eq => exact h.active_eq.trans hperm.length_eq

theorem reclaim (h : s.Roster left []) {stats : PoolStats}
    (hw : s.workers.get? worker = some (.busy task)) (ha : stats.active = s.stats.active) :
    (s.reclaim worker stats).Roster left [task] := by
  have hperm : (tasksOf s.workers ++ []).Perm
      (tasksOf (s.reclaim worker stats).workers ++ [task]) := by
    rw [List.append_nil]
    exact (perm_tasksOf_put hw .idle).trans List.perm_append_comm
  constructor
  case workers_nodup => exact Table.nodup_put h.workers_nodup _ _
  case tasks_nodup => exact h.tasks_nodup
  case mem_idle =>
    intro w
    change w ∈ s.idle ++ [worker] ↔ _
    rw [List.mem_append, List.mem_singleton, h.mem_idle, get?_reclaim]
    by_cases he : worker = w
    · simp [he]
    · simp [he, Ne.symm he]
  case tasks_perm => exact h.tasks_perm.trans (hperm.append_left left)
  case timers_perm => exact h.timers_perm.trans hperm
  case active_eq => exact (ha.trans h.active_eq).trans hperm.length_eq

/-! ### Answers -/

theorem resolve (h : s.Roster (id :: left) ending) (outcome : TaskResult) :
    (s.resolve id outcome).Roster left ending := by
  have hperm := perm_keys_resolve h.tasks_nodup h.tasks_perm outcome
  have hn := (List.nodup_cons.1 (h.tasks_perm.nodup_iff.1 h.tasks_nodup)).2
  exact h.congr (sameStaff_resolve s id outcome) (hperm.nodup_iff.2 hn) hperm

theorem refuseAll {ids : List TaskId} (h : s.Roster ids ending) (reason : String) :
    (Supervisor.refuseAll reason ids s).Roster [] ending := by
  induction ids generalizing s with
  | nil => exact h
  | cons id ids ih =>
    refine ih (resolve ?_ _)
    exact { h with }

theorem finish (h : s.Roster left [id]) (outcome : TaskResult) :
    (s.finish id outcome).Roster left [] := by
  have hlast : ∀ l : List TaskId, (l ++ [id]).Perm (id :: (l ++ [])) := by
    intro l
    rw [List.append_nil]
    exact List.perm_append_comm
  have htasks : s.tasks.keys.Perm (id :: (left ++ (tasksOf s.workers ++ []))) :=
    (h.tasks_perm.trans ((hlast _).append_left left)).trans List.perm_middle
  have htimers : s.timers.keys.Perm (id :: (tasksOf s.workers ++ [])) :=
    h.timers_perm.trans (hlast _)
  have hended : (({ s with
      timers := s.timers.erase id
      stats := { s.stats with active := s.stats.active - 1 } } : Supervisor)).Roster
        (id :: left) [] := by
    refine { h with tasks_perm := htasks, timers_perm := ?_, active_eq := ?_ }
    · have htn : s.timers.keys.Nodup := h.timers_perm.nodup_iff.2
        (h.tasks_perm.nodup_iff.1 h.tasks_nodup).of_append_right
      have hm : id ∈ s.timers.keys := htimers.mem_iff.2 List.mem_cons_self
      exact ((Table.perm_keys_erase htn hm).symm.trans htimers).cons_inv
    · change s.stats.active - 1 = _
      rw [h.active_eq]
      simp
  exact hended.resolve outcome

/-- A worker is replaced.  If no worker is left, the tasks in the queue are answered. -/
theorem retire (h : s.Roster s.queue []) (hnew : s.workers.get? s.nextWorker = none)
    (hw : s.workers.get? worker = some state) :
    (s.retire worker).Roster (s.retire worker).queue state.task?.toList := by
  have hd := h.dismiss hw
  obtain ⟨starts, he | he | ⟨-, he⟩⟩ := retire_cases s worker
  · rw [he]
    refine hd.withWorker ?_ starts
    change (s.workers.erase worker).get? s.nextWorker = none
    rw [Table.get?_erase, hnew, ite_self]
  · rw [he]
    exact { hd with }
  · have hgiven : ({ ((s.dismiss worker).withoutWorker starts).recount with queue := [] } :
        Supervisor).Roster s.queue state.task?.toList := { hd with }
    rw [he, (sameStaff_refuseAll _ _ _).queue]
    exact hgiven.refuseAll _

/-! ### Handing out tasks -/

theorem assign (h : s.Roster s.queue []) (now : Nat) {queue : List TaskId} {idle : List WorkerId}
    {p : Pending} (hq : s.queue = task :: queue) (hi : s.idle = worker :: idle) (hn : s.idle.Nodup)
    (hp : p.task.id = task) :
    (s.assign now worker p.task).Roster (s.assign now worker p.task).queue [] := by
  have hw : s.workers.get? worker = some .idle :=
    (h.mem_idle worker).1 (hi ▸ List.mem_cons_self)
  have hqueue : (s.assign now worker p.task).queue = queue := congrArg List.tail hq
  have hperm : (task :: (tasksOf s.workers ++ [])).Perm
      (tasksOf (s.assign now worker p.task).workers ++ []) := by
    rw [List.append_nil, List.append_nil, ← hp]
    exact perm_tasksOf_put hw (.busy p.task.id)
  have htasks := h.tasks_perm
  rw [hq, List.cons_append] at htasks
  constructor
  case workers_nodup => exact Table.nodup_put h.workers_nodup _ _
  case tasks_nodup => exact h.tasks_nodup
  case mem_idle =>
    intro w
    change w ∈ s.idle.tail ↔ (s.workers.put worker (.busy p.task.id)).get? w = _
    rw [hi] at hn
    rw [Table.get?_put, hi, List.tail_cons]
    by_cases he : worker = w
    · subst he
      simp [(List.nodup_cons.1 hn).1]
    · rw [if_neg he, ← h.mem_idle, hi, List.mem_cons]
      simp [Ne.symm he]
  case tasks_perm =>
    rw [hqueue]
    exact (htasks.trans List.perm_middle.symm).trans (hperm.append_left queue)
  case timers_perm =>
    have hfree : task ∉ s.timers.keys := by
      intro hm
      have hnd := htasks.nodup_iff.1 h.tasks_nodup
      exact (List.nodup_cons.1 hnd).1 (List.mem_append_right _ (h.timers_perm.mem_iff.1 hm))
    change (s.timers.put p.task.id _).keys.Perm _
    rw [hp, Table.keys_put_new _ hfree]
    exact (List.perm_append_comm.trans (h.timers_perm.cons task)).trans hperm
  case active_eq =>
    change s.stats.active + 1 = _
    rw [h.active_eq, ← hperm.length_eq]
    rfl

end Roster

/-! ## Messages -/

/-- Idle workers may be named before they are replaced or only then. -/
theorem retire_tail {worker : WorkerId} {idle : List WorkerId} (h : s.idle = worker :: idle) :
    ({ s with idle } : Supervisor).retire worker = s.retire worker := by
  have hd : ({ s with idle } : Supervisor).dismiss worker = s.dismiss worker := by
    simp [Supervisor.dismiss, h]
  rw [retire_eq, retire_eq, hd]

/-- The books account for every submission and agree with each other. -/
structure Kept (done : List TaskId) (s : Supervisor) : Prop where
  books : s.Books (fun _ => False) done
  roster : s.Roster s.queue []
  counted : s.Counted

namespace Kept

variable {s : Supervisor} {done : List TaskId} {worker : WorkerId} {task : Task}

theorem startWorker (h : s.Kept done) : s.startWorker.2.Kept done := by
  refine ⟨h.books.startWorker, ?_, ?_⟩
  · obtain ⟨starts, he | he⟩ := startWorker_cases s
    · rw [he]; exact h.roster.withWorker h.books.get?_nextWorker starts
    · rw [he]; exact { h.roster with }
  · obtain ⟨starts, he | he⟩ := startWorker_cases s
    · rw [he]; rfl
    · rw [he]; exact h.counted

theorem mem_keys_of_queue (h : s.Kept done) (hid : id ∈ s.queue) : id ∈ s.tasks.keys :=
  h.roster.tasks_perm.mem_iff.2 (List.mem_append_left _ hid)

theorem assign (h : s.Kept done) (now : Nat) {task : TaskId} {queue : List TaskId}
    {idle : List WorkerId} {p : Pending} (hq : s.queue = task :: queue)
    (hi : s.idle = worker :: idle) (hp : s.tasks.get? task = some p)
    (hw : s.workers.get? worker = some state) : (s.assign now worker p.task).Kept done := by
  refine ⟨h.books.assign now hq hi hp,
    h.roster.assign now hq hi h.books.idle_nodup (h.books.own hp), ?_⟩
  change s.stats.workers = (s.workers.put worker _).size
  rw [h.counted, Table.size_put_old _ hw]

theorem retire (h : s.Kept done) (hi : worker ∈ s.idle) : (s.retire worker).Kept done := by
  have hidle := (h.roster.mem_idle worker).1 hi
  refine ⟨h.books.retire fun task hb => ?_, h.roster.retire h.books.get?_nextWorker hidle,
    counted_retire s worker⟩
  rw [hidle] at hb
  cases hb

theorem dispatchLoop (h : s.Kept done) (accepts : WorkerId → Bool) (now n : Nat) :
    (Supervisor.dispatchLoop accepts now n s).Kept done := by
  refine dispatchLoop_induction accepts now (fun {s task queue} h hq ht => ?_)
    (fun {s worker idle} h hi hw => ?_) (fun {s task queue worker idle p state} h hq hi hp hw => ?_)
    (fun {s worker idle state} h hi hw ha => ?_) n h
  · exact absurd (h.mem_keys_of_queue (hq ▸ List.mem_cons_self)) (Table.get?_eq_none_iff.1 ht)
  · -- every idle worker is on the books
    rw [(h.roster.mem_idle worker).1 (hi ▸ List.mem_cons_self)] at hw
    cases hw
  · exact h.assign now hq hi hp hw
  · rw [retire_tail hi]
    exact h.retire (hi ▸ List.mem_cons_self)

theorem dispatch (h : s.Kept done) (accepts : WorkerId → Bool) (now : Nat) :
    (s.dispatch accepts now).Kept done := by
  have hl := h.dispatchLoop accepts now (s.queue.length + 2 * s.idle.length)
  exact ⟨hl.books.congr rfl rfl rfl rfl rfl rfl, { hl.roster with }, hl.counted⟩

theorem withTask (h : s.Kept done) (hnew : task.id ∉ done) :
    (s.withTask task).Kept (done ++ [task.id]) := by
  refine ⟨h.books.withTask hnew, { h.roster with tasks_nodup := ?_, tasks_perm := ?_ }, h.counted⟩
  · exact Table.nodup_put h.roster.tasks_nodup _ _
  · have hkey : task.id ∉ s.tasks.keys := fun hm => hnew (h.books.known _ hm)
    change (s.tasks.put task.id _).keys.Perm (s.queue ++ [task.id] ++ _)
    rw [Table.keys_put_new _ hkey, List.append_assoc]
    refine (h.roster.tasks_perm.append_right _).trans ?_
    rw [List.append_assoc]
    exact List.perm_append_comm.append_left _

theorem enqueue (h : s.Kept done) (hnew : task.id ∉ done) :
    (s.enqueue task).Kept (done ++ [task.id]) := by
  have hb := h.books.enqueue hnew
  rcases enqueue_cases s task with ⟨id, p, -, hp, he⟩ | ⟨-, he⟩ | ⟨-, starts, he | he⟩
  · rw [he] at hb ⊢
    have hkeys := Table.keys_put_old { p with waiters := p.waiters ++ [task.id] } hp
    refine ⟨hb, { h.roster with tasks_nodup := ?_, tasks_perm := ?_ }, h.counted⟩
    · rw [hkeys]; exact h.roster.tasks_nodup
    · rw [hkeys]; exact h.roster.tasks_perm
  · rw [he]
    exact h.withTask hnew
  · rw [he]
    refine withTask ⟨h.books.withWorker starts, ?_, rfl⟩ hnew
    exact h.roster.withWorker h.books.get?_nextWorker starts
  · rw [he] at hb ⊢
    exact ⟨hb, { h.roster with }, h.counted⟩

theorem of_finish {outcome : TaskResult} (hb : (s.finish id outcome).Books (fun _ => False) done)
    (hr : s.Roster s.queue [id]) (hc : s.Counted) : (s.finish id outcome).Kept done := by
  have hsame := sameStaff_resolve { s with
    timers := s.timers.erase id
    stats := { s.stats with active := s.stats.active - 1 } } id outcome
  refine ⟨hb, ?_, ?_⟩
  · rw [finish, hsame.queue]
    exact hr.finish outcome
  · rw [Counted, finish, hsame.staff, hsame.workers]
    exact hc

theorem note (h : s.Kept done) (event : PoolEvent) : (s.note event).Kept done := by
  have hb := h.books.note event
  rcases note_cases s event with ⟨-, he⟩ | ⟨howns, ⟨said, -, -, he⟩ | ⟨-, he⟩⟩
  · rw [he]
    exact h
  · have hbusy := owns_iff.1 howns
    rw [he] at hb ⊢
    refine of_finish hb (h.roster.reclaim hbusy (event.active_count s.stats)) ?_
    change (event.count s.stats).workers = (s.workers.put event.worker .idle).size
    rw [event.workers_count, h.counted, Table.size_put_old _ hbusy]
  · have hbusy := owns_iff.1 howns
    have hr : ({ s with stats := event.count s.stats } : Supervisor).Roster s.queue [] :=
      { h.roster with active_eq := (event.active_count s.stats).trans h.roster.active_eq }
    have hretired := Roster.retire (s := { s with stats := event.count s.stats }) hr
      h.books.get?_nextWorker hbusy
    rw [he] at hb ⊢
    exact of_finish hb hretired (counted_retire _ _)

theorem stop (h : s.Kept done) : s.stop.Kept done := by
  have hkeys := keys_stop s
  have htimers : s.stop.timers = {} := (sameStaff_cancelAll s.tasks.keys _).timers
  refine ⟨h.books.stop, ?_, rfl⟩
  constructor
  case workers_nodup => exact List.nodup_nil
  case tasks_nodup => rw [hkeys]; exact List.nodup_nil
  case mem_idle => exact fun w => ⟨nofun, nofun⟩
  case tasks_perm => rw [hkeys]; exact .refl _
  case timers_perm => rw [htimers]; exact .refl _
  case active_eq => rfl

theorem opened (count : Nat) (starts : StartPlan) : (Supervisor.opened count starts).Kept [] := by
  refine opened_induction starts ⟨Books.opened 0 starts, ?_, rfl⟩ (fun h => h.startWorker) count
  exact ⟨List.nodup_nil, List.nodup_nil, fun w => ⟨nofun, nofun⟩,
    .refl _, .refl _, rfl⟩

end Kept

/-- Timers may go off, but none comes or goes. -/
def SameTimers (s : Supervisor) (timers : Table TaskId Timer) : Prop :=
  timers.keys = s.timers.keys

instance (s : Supervisor) (timers : Table TaskId Timer) : Decidable (s.SameTimers timers) :=
  inferInstanceAs (Decidable (timers.keys = s.timers.keys))

theorem Kept.disturb (h : s.Kept done) (starts : StartPlan) {timers : Table TaskId Timer}
    (ht : s.SameTimers timers) : ({ s with starts, timers } : Supervisor).Kept done := by
  refine ⟨h.books.congr rfl rfl rfl rfl rfl rfl, { h.roster with timers_perm := ?_ }, h.counted⟩
  change timers.keys.Perm _
  rw [ht]
  exact h.roster.timers_perm

theorem Kept.run (h : s.Kept done) (hq : s.stats.queued = s.queue.length) {ms : List Message}
    (hd : Disturbed SameTimers s ms) (hn : (done ++ submissions ms).Nodup) :
    (s.run ms).Kept (done ++ submissions ms) ∧
      (s.run ms).stats.queued = (s.run ms).queue.length := by
  exact run_induction_of_disturbed
    (P := fun done s => s.Kept done ∧ s.stats.queued = s.queue.length)
    (fun accepts now _ hnew h => ⟨(h.1.enqueue hnew).dispatch accepts now, rfl⟩)
    (fun accepts now event h => ⟨(h.1.note event).dispatch accepts now, rfl⟩)
    (fun h => ⟨h.1.stop, rfl⟩)
    (fun starts _ ht h => ⟨h.1.disturb starts ht, h.2⟩) ⟨h, hq⟩ hd hn

/-! ## What the books say -/

/-- The books agree with each other. -/
structure Balanced (s : Supervisor) : Prop where
  /-- every worker, task and timer is on the books once -/
  keys_nodup : s.workers.keys.Nodup ∧ s.tasks.keys.Nodup ∧ s.timers.keys.Nodup
  idle_nodup : s.idle.Nodup
  /-- the idle list has exactly the workers without a task -/
  mem_idle : ∀ w, w ∈ s.idle ↔ s.workers.get? w = some .idle
  /-- the task of a worker is on the books, and no other worker has it -/
  busy : ∀ {w id}, s.workers.get? w = some (.busy id) → id ∈ s.tasks.keys ∧
    ∀ w', s.workers.get? w' = some (.busy id) → w' = w
  queue_nodup : s.queue.Nodup
  /-- the tasks on the books are those in the queue and those that workers have -/
  mem_tasks : ∀ id, id ∈ s.tasks.keys ↔
    id ∈ s.queue ∨ ∃ w, s.workers.get? w = some (.busy id)
  queue_free : ∀ {id}, id ∈ s.queue → ∀ w, s.workers.get? w ≠ some (.busy id)
  /-- the tasks with a timer are those that workers have -/
  mem_timers : ∀ id, id ∈ s.timers.keys ↔ ∃ w, s.workers.get? w = some (.busy id)
  active : s.stats.active = s.workers.values.countP (· ≠ .idle)
  queued : s.stats.queued = s.queue.length
  workers : s.stats.workers = s.workers.size

theorem length_tasksOf (workers : Table WorkerId WorkerState) :
    (tasksOf workers).length = workers.values.countP (· ≠ .idle) := by
  rw [tasksOf, List.length_filterMap_eq_countP]
  refine List.countP_congr fun state _ => ?_
  cases state with
  | idle => simp [WorkerState.task?]
  | busy task => simp [WorkerState.task?]

/-- No task is with two workers if no task is counted twice. -/
theorem busy_unique (hn : (tasksOf workers).Nodup) {w' : WorkerId}
    (h : workers.get? w = some (.busy id)) (h' : workers.get? w' = some (.busy id)) : w' = w := by
  by_contra hne
  obtain ⟨l₁, l₂, hold, -, hothers⟩ := Table.exists_values_split h
  have hm := hothers hne h'
  rw [tasksOf, hold] at hn
  have hperm : ((l₁ ++ .busy id :: l₂).filterMap WorkerState.task?).Perm
      (id :: (l₁ ++ l₂).filterMap WorkerState.task?) := List.perm_middle.filterMap _
  exact (List.nodup_cons.1 (hperm.nodup_iff.1 hn)).1 (List.mem_filterMap.2 ⟨_, hm, rfl⟩)

theorem Kept.balanced (h : s.Kept done) (hq : s.stats.queued = s.queue.length) : s.Balanced := by
  have hr := h.roster
  have htasks := hr.tasks_perm
  have htimers := hr.timers_perm
  rw [List.append_nil] at htasks htimers
  have hn := htasks.nodup_iff.1 hr.tasks_nodup
  constructor
  case keys_nodup =>
    exact ⟨hr.workers_nodup, hr.tasks_nodup, htimers.nodup_iff.2 hn.of_append_right⟩
  case idle_nodup => exact h.books.idle_nodup
  case mem_idle => exact hr.mem_idle
  case busy =>
    intro w id hw
    refine ⟨htasks.mem_iff.2 (List.mem_append_right _ ?_), fun w' hw' => ?_⟩
    · exact (mem_tasksOf hr.workers_nodup).2 ⟨w, hw⟩
    · exact busy_unique hn.of_append_right hw hw'
  case queue_nodup => exact hn.of_append_left
  case mem_tasks =>
    intro id
    rw [htasks.mem_iff, List.mem_append, mem_tasksOf hr.workers_nodup]
  case queue_free =>
    intro id hid w hw
    exact (List.nodup_append.1 hn).2.2 id hid id ((mem_tasksOf hr.workers_nodup).2 ⟨w, hw⟩) rfl
  case mem_timers =>
    intro id
    rw [htimers.mem_iff, mem_tasksOf hr.workers_nodup]
  case active => rw [hr.active_eq, List.append_nil, length_tasksOf]
  case queued => exact hq
  case workers => exact h.counted

theorem Kept.active_note (h : s.Kept done) {event : PoolEvent}
    (ho : s.owns event.worker event.task = true) :
    (s.note event).stats.active + 1 = s.stats.active := by
  have hpos : 0 < s.stats.active := by
    rw [h.roster.active_eq, List.append_nil]
    exact List.length_pos_of_mem ((mem_tasksOf h.roster.workers_nodup).2 ⟨_, owns_iff.1 ho⟩)
  have hfinish : ∀ (s' : Supervisor) (id : TaskId) (outcome : TaskResult),
      (s'.finish id outcome).stats.active = s'.stats.active - 1 := fun s' id outcome =>
    (sameStaff_resolve _ id outcome).active
  rcases note_cases s event with ⟨hlate, -⟩ | ⟨-, ⟨said, -, -, he⟩ | ⟨-, he⟩⟩
  · rw [ho] at hlate
    cases hlate
  · have hsame : (s.reclaim event.worker (event.count s.stats)).stats.active = s.stats.active :=
      event.active_count s.stats
    rw [he, hfinish, hsame]
    omega
  · have hsame : ({ s with stats := event.count s.stats } : Supervisor).stats.active =
        s.stats.active := event.active_count s.stats
    rw [he, hfinish, active_retire, hsame]
    omega

/-- **The books agree with each other between messages.**  Whatever messages the supervisor
    takes and whichever worker starts fail, the idle list, the worker table, the queue, the
    tasks, the timers and the counts agree.  An event that ends a task finds it counted as
    active. -/
theorem books_balanced {count : Nat} {starts : StartPlan} {ms : List Message} {s : Supervisor}
    (hrun : (opened count starts).run ms = s) (hids : (submissions ms).Nodup)
    (htimers : Disturbed SameTimers (opened count starts) ms) :
    s.Balanced ∧ ∀ event : PoolEvent, s.owns event.worker event.task = true →
      (s.note event).stats.active + 1 = s.stats.active := by
  have hq : (opened count starts).stats.queued = (opened count starts).queue.length :=
    opened_induction (P := fun s => s.stats.queued = s.queue.length) starts rfl
      (fun {s} h => by
        obtain ⟨starts, he | he⟩ := startWorker_cases s <;> rw [he] <;> exact h) count
  obtain ⟨hkept, hqueued⟩ := (Kept.opened count starts).run hq htimers hids
  rw [hrun] at hkept hqueued
  exact ⟨hkept.balanced hqueued, fun event ho => hkept.active_note ho⟩

/-- Two workers are busy and a third submission waits when the timer of the first task goes
    off and no worker can be started in place of its worker. -/
def Message.refusal : List Message :=
  let accepts : WorkerId → Bool := fun _ => true
  let submit := fun id path => Message.submit accepts 0 (Task.ofContent id path "" 10)
  [submit 1 "p", submit 2 "q", submit 3 "r",
    .disturb { refuse := 1 } ⟨[(1, { worker := 0, due := 10, fired := true }),
      (2, { worker := 1, due := 10 })]⟩,
    .event accepts 10 (.timedOut 0 1)]

theorem books_balanced_refusal :
    let s := (opened 2 {}).run Message.refusal
    s.Balanced ∧ s.workers.pairs = [(1, .busy 2)] ∧ s.queue = [3] ∧ s.timers.keys = [2] ∧
      (s.note (.crashed 1 2 "")).stats.active + 1 = 1 := by
  have h := books_balanced (s := (opened 2 {}).run Message.refusal) rfl (by decide +kernel)
    ⟨by decide +kernel, trivial⟩
  exact ⟨h.1, by decide +kernel, by decide +kernel, by decide +kernel,
    (h.2 (.crashed 1 2 "") (by decide +kernel)).trans (by decide +kernel)⟩

end Supervisor

end SourceIndex
