/-
  The timers of tasks.

  The time of a task counts from when it is handed to a worker.  Its timer may go off any
  time after it is due, and the supervisor hears of that later still, so that a result may
  come in between.

  * `Pool.transitions`: the actions of a run, each with the pool before and after it;
    `Pool.handovers` are the jobs handed out in it, with their times, and `Pool.heard` the
    events that the supervisor took;
  * `Supervisor.Clocked`: every timer is that of a task which a worker has, and is due when
    the time of the task is up;
  * `Pool.Punctual`: what holds of timers and their events at any time; `Punctual.act` and
    `Punctual.run` keep it so.
-/
import SourceIndex.Proofs.Late

namespace SourceIndex

/-- A job, the worker it was handed to, and when. -/
structure Handover where
  time : Nat
  worker : WorkerId
  job : Task
  deriving DecidableEq

namespace Supervisor

variable {s s' : Supervisor} {done : List TaskId}

/-! ## Workers and timers -/

theorem timers_retire (s : Supervisor) (worker : WorkerId) :
    (s.retire worker).timers = s.timers := by
  obtain ⟨starts, he | he | ⟨-, he⟩⟩ := retire_cases s worker
  · rw [he]
    rfl
  · rw [he]
    rfl
  · rw [he, (sameStaff_refuseAll _ _ _).timers]
    rfl

theorem get?_retire_of_ne {worker w : WorkerId} (hne : w ≠ worker) (hlt : w < s.nextWorker) :
    (s.retire worker).workers.get? w = s.workers.get? w := by
  have hdismiss : (s.dismiss worker).workers.get? w = s.workers.get? w := by
    simp [dismiss, Table.get?_erase, Ne.symm hne]
  obtain ⟨starts, he | he | ⟨-, he⟩⟩ := retire_cases s worker
  · rw [he, ← hdismiss]
    simp [withWorker, dismiss, Table.get?_put, Nat.ne_of_gt hlt]
  · rw [he, ← hdismiss]
    rfl
  · rw [he, (sameStaff_refuseAll _ _ _).workers, ← hdismiss]
    rfl

/-- Where the books are kept, tasks are only handed out and workers replaced. -/
theorem Kept.dispatch_induction {P : Supervisor → Prop} {accepts : WorkerId → Bool} {now : Nat}
    (hassign : ∀ {s task worker p}, s.Kept done → P s → task ∈ s.queue →
      s.tasks.get? task = some p → s.workers.get? worker = some .idle →
      P (s.assign now worker p.task))
    (hretire : ∀ {s worker}, s.Kept done → P s → worker ∈ s.idle → accepts worker = false →
      P (s.retire worker))
    (hstats : ∀ {s stats}, P s → P { s with stats }) (hk : s.Kept done) (h : P s) :
    P (s.dispatch accepts now) := by
  have hloop := dispatchLoop_induction (P := fun s => s.Kept done ∧ P s) accepts now
    (s := s) ?_ ?_ ?_ ?_ (s.queue.length + 2 * s.idle.length) ⟨hk, h⟩
  · exact hstats hloop.2
  · intro s task queue h hq ht
    exact absurd (h.1.mem_keys_of_queue (hq ▸ List.mem_cons_self)) (Table.get?_eq_none_iff.1 ht)
  · intro s worker idle h hi hw
    rw [(h.1.roster.mem_idle worker).1 (hi ▸ List.mem_cons_self)] at hw
    cases hw
  · intro s task queue worker idle p state h hq hi hp hw
    refine ⟨h.1.assign now hq hi hp hw, hassign h.1 h.2 (hq ▸ List.mem_cons_self) hp ?_⟩
    exact (h.1.roster.mem_idle worker).1 (hi ▸ List.mem_cons_self)
  · intro s worker idle state h hi hw ha
    have hmem : worker ∈ s.idle := hi ▸ List.mem_cons_self
    rw [retire_tail hi]
    exact ⟨h.1.retire hmem, hretire h.1 h.2 hmem ha⟩

theorem timers_stop (s : Supervisor) : s.stop.timers = {} :=
  (sameStaff_cancelAll s.tasks.keys _).timers

theorem Since.keys {New : TaskId × TaskResult → Prop} (h : s.Since New s') :
    s'.tasks.keys ⊆ s.tasks.keys := by
  intro id hid
  obtain ⟨p, hp⟩ := Table.mem_keys_iff.1 hid
  exact Table.mem_keys_iff.2 ⟨p, h.tasks id p hp⟩

theorem keys_dispatch_subset (s : Supervisor) (accepts : WorkerId → Bool) (now : Nat) :
    (s.dispatch accepts now).tasks.keys ⊆ s.tasks.keys := by
  have hrefl : s.Since (fun _ => True) s := .refl s
  exact (hrefl.dispatch (fun _ _ => trivial) accepts now).keys

theorem keys_note_subset (s : Supervisor) (event : PoolEvent) :
    (s.note event).tasks.keys ⊆ s.tasks.keys := by
  have hrefl : s.Since (fun _ => True) s := .refl s
  exact (hrefl.note (fun _ _ => trivial) event fun _ _ _ => trivial).keys

theorem mem_keys_of_enqueue {task : Task} {id : TaskId}
    (hid : id ∈ (s.enqueue task).tasks.keys) : id = task.id ∨ id ∈ s.tasks.keys := by
  rcases enqueue_cases s task with ⟨joined, p, -, hp, he⟩ | ⟨-, he⟩ | ⟨-, starts, he | he⟩
  · rw [he] at hid
    rcases Table.mem_keys_put.1 hid with rfl | hid
    · exact Or.inr (Table.mem_keys_iff.2 ⟨p, hp⟩)
    · exact Or.inr hid
  · rw [he] at hid
    exact Table.mem_keys_put.1 hid
  · rw [he] at hid
    exact Table.mem_keys_put.1 hid
  · rw [he] at hid
    exact Or.inr hid

/-- Every timer is that of the task which its worker has, and is due when the time of the
    task is up since it was handed over.  `log` has everything that was handed over, and
    `Fits` holds of every timer. -/
structure Clocked (log : List Handover) (Fits : TaskId → Timer → Prop) (s : Supervisor) :
    Prop where
  handed : s.handed = log.map fun h => (h.worker, h.job)
  busy : ∀ {id timer}, s.timers.get? id = some timer →
    s.workers.get? timer.worker = some (.busy id)
  due : ∀ {id timer}, s.timers.get? id = some timer →
    ∃ h ∈ log, h.worker = timer.worker ∧ h.job.id = id ∧ timer.due = h.time + h.job.timeoutMs
  fits : ∀ {id timer}, s.timers.get? id = some timer → Fits id timer

namespace Clocked

variable {log : List Handover} {Fits Fits' : TaskId → Timer → Prop}

theorem keep (h : s.Clocked log Fits) (hh : s'.handed = s.handed)
    (ht : ∀ {id timer}, s'.timers.get? id = some timer → s.timers.get? id = some timer)
    (hw : ∀ {id timer}, s'.timers.get? id = some timer →
      s'.workers.get? timer.worker = s.workers.get? timer.worker)
    (hfits : ∀ {id timer}, s'.timers.get? id = some timer → Fits id timer → Fits' id timer) :
    s'.Clocked log Fits' where
  handed := hh.trans h.handed
  busy htimer := (hw htimer).trans (h.busy (ht htimer))
  due htimer := h.due (ht htimer)
  fits htimer := hfits htimer (h.fits (ht htimer))

theorem enqueue (h : s.Clocked log Fits) (hk : s.Kept done) (task : Task) :
    (s.enqueue task).Clocked log Fits := by
  have hlt : ∀ {id timer}, s.timers.get? id = some timer → timer.worker < s.nextWorker :=
    fun ht => hk.books.worker_lt _ (Table.mem_keys_iff.2 ⟨_, h.busy ht⟩)
  have hput : ∀ {id timer}, s.timers.get? id = some timer →
      (s.workers.put s.nextWorker .idle).get? timer.worker = s.workers.get? timer.worker := by
    intro id timer ht
    rw [Table.get?_put, if_neg (Nat.ne_of_gt (hlt ht))]
  rcases enqueue_cases s task with ⟨joined, p, -, -, he⟩ | ⟨-, he⟩ | ⟨-, starts, he | he⟩
  · rw [he]
    exact h.keep rfl id (fun _ => rfl) fun _ hf => hf
  · rw [he]
    exact h.keep rfl id (fun _ => rfl) fun _ hf => hf
  · rw [he]
    exact h.keep rfl id hput fun _ hf => hf
  · rw [he]
    exact h.keep rfl id (fun _ => rfl) fun _ hf => hf

/-- An event ends its task, or it is late.  Afterwards no timer is that of its task with
    its worker. -/
theorem note (h : s.Clocked log Fits) (hk : s.Kept done) (event : PoolEvent)
    (hfits : ∀ {id timer}, (event.worker = timer.worker → event.task ≠ id) → Fits id timer →
      Fits' id timer) : (s.note event).Clocked log Fits' := by
  have hlt : ∀ {id timer}, s.timers.get? id = some timer → timer.worker < s.nextWorker :=
    fun ht => hk.books.worker_lt _ (Table.mem_keys_iff.2 ⟨_, h.busy ht⟩)
  -- a timer of another task has another worker
  have hother : s.owns event.worker event.task = true → ∀ {id timer},
      s.timers.get? id = some timer → event.task ≠ id → event.worker ≠ timer.worker := by
    intro howns id timer ht hne hw
    have hbusy := h.busy ht
    rw [← hw, owns_iff.1 howns] at hbusy
    cases hbusy
    exact hne rfl
  have herase : ∀ {id timer}, (s.timers.erase event.task).get? id = some timer →
      event.task ≠ id ∧ s.timers.get? id = some timer := by
    intro id timer ht
    rw [Table.get?_erase] at ht
    exact Option.ite_none_left_eq_some.1 ht
  rcases note_cases s event with ⟨hlate, he⟩ | ⟨howns, ⟨said, -, -, he⟩ | ⟨-, he⟩⟩
  · rw [he]
    refine h.keep rfl id (fun _ => rfl) fun {id timer} ht => hfits ?_
    rintro hw rfl
    rw [hw, owns_iff.2 (h.busy ht)] at hlate
    cases hlate
  · obtain ⟨hworkers, -, hhanded, -⟩ :=
      finish_spec (s.reclaim event.worker (event.count s.stats)) event.task event.outcome
    have htimers : (s.note event).timers = s.timers.erase event.task := by
      rw [he]
      exact (sameStaff_resolve _ _ _).timers
    refine h.keep ?_ ?_ ?_ ?_
    · rw [he, hhanded]
      rfl
    · intro id timer ht
      exact (herase (htimers ▸ ht)).2
    · intro id timer ht
      obtain ⟨hne, ht⟩ := herase (htimers ▸ ht)
      rw [he, hworkers, get?_reclaim, if_neg (hother howns ht hne)]
    · intro id timer ht
      exact hfits fun _ => (herase (htimers ▸ ht)).1
  · obtain ⟨hworkers, -, hhanded, -⟩ := finish_spec
      (({ s with stats := event.count s.stats } : Supervisor).retire event.worker) event.task
      event.outcome
    have htimers : (s.note event).timers = s.timers.erase event.task := by
      rw [he]
      refine (sameStaff_resolve _ _ _).timers.trans ?_
      exact congrArg (Table.erase · event.task) (timers_retire _ _)
    refine h.keep ?_ ?_ ?_ ?_
    · rw [he, hhanded, (framed_retire _ _).handed]
    · intro id timer ht
      exact (herase (htimers ▸ ht)).2
    · intro id timer ht
      obtain ⟨hne, ht⟩ := herase (htimers ▸ ht)
      rw [he, hworkers]
      exact get?_retire_of_ne (Ne.symm (hother howns ht hne)) (hlt ht)
    · intro id timer ht
      exact hfits fun _ => (herase (htimers ▸ ht)).1

theorem assign (h : s.Clocked log Fits) {worker : WorkerId} {job : Task} (now : Nat)
    (hw : s.workers.get? worker = some .idle)
    (hfits : Fits job.id { worker, due := now + job.timeoutMs }) :
    (s.assign now worker job).Clocked (log ++ [⟨now, worker, job⟩]) Fits := by
  have hget : ∀ {id timer}, (s.assign now worker job).timers.get? id = some timer →
      job.id = id ∧ timer = { worker, due := now + job.timeoutMs } ∨
        s.timers.get? id = some timer := by
    intro id timer ht
    exact (Table.get?_of_put ht).imp (fun h => ⟨h.1.symm, h.2⟩) And.right
  constructor
  case handed => simp [Supervisor.assign, h.handed]
  case busy =>
    intro id timer ht
    simp only [Supervisor.assign, Table.get?_put]
    rcases hget ht with ⟨rfl, rfl⟩ | hold
    · simp
    · have hne : worker ≠ timer.worker := by
        rintro rfl
        rw [h.busy hold] at hw
        cases hw
      rw [if_neg hne, h.busy hold]
  case due =>
    intro id timer ht
    rcases hget ht with ⟨rfl, rfl⟩ | ht
    · exact ⟨⟨now, worker, job⟩, by simp, rfl, rfl, rfl⟩
    · obtain ⟨h', hm, hh⟩ := h.due ht
      exact ⟨h', List.mem_append_left _ hm, hh⟩
  case fits =>
    intro id timer ht
    rcases hget ht with ⟨rfl, rfl⟩ | ht
    · exact hfits
    · exact h.fits ht

/-- What is handed out now has its time from now. -/
theorem dispatch (h : s.Clocked log Fits) (hk : s.Kept done) {Q : Task → Prop} (hj : s.Jobs Q)
    (accepts : WorkerId → Bool) (now : Nat)
    (hfits : ∀ {worker job}, Q job → Fits job.id { worker, due := now + job.timeoutMs }) :
    (s.dispatch accepts now).Clocked
      (log ++ ((s.dispatch accepts now).handed.drop s.handed.length).map fun job =>
        ⟨now, job.1, job.2⟩) Fits := by
  have hmore : ∃ more, (∀ h ∈ more, h.time = now) ∧
      (s.dispatch accepts now).Clocked (log ++ more) Fits := by
    refine (Kept.dispatch_induction (P := fun s' => s'.Jobs Q ∧ ∃ more : List Handover,
      (∀ h ∈ more, h.time = now) ∧ s'.Clocked (log ++ more) Fits) ?_ ?_ ?_ hk
      ⟨hj, [], List.forall_mem_nil _, ?_⟩).2
    · rintro s' task worker p hk' ⟨hj', more, hnow, h'⟩ hq hp hw
      refine ⟨hj'.assign now worker hp, more ++ [⟨now, worker, p.task⟩], ?_, ?_⟩
      · intro h hm
        rcases List.mem_append.1 hm with hm | hm
        · exact hnow h hm
        · rw [List.mem_singleton.1 hm]
      · rw [← List.append_assoc]
        exact h'.assign now hw (hfits (hj'.tasks task p hp).2)
    · rintro s' worker hk' ⟨hj', more, hnow, h'⟩ hi ha
      refine ⟨?_, more, hnow, h'.keep (framed_retire s' worker).handed ?_ ?_ fun _ hf => hf⟩
      · exact ledger_retire (fun h hs => h.congr hs) (fun id h => h.resolve id _) worker hj' rfl
      · intro id timer ht
        rwa [timers_retire] at ht
      · intro id timer ht
        rw [timers_retire] at ht
        have hbusy := h'.busy ht
        refine get?_retire_of_ne ?_ (hk'.books.worker_lt _ (Table.mem_keys_iff.2 ⟨_, hbusy⟩))
        rintro rfl
        exact hk'.books.idle_free _ hi _ hbusy
    · rintro s' stats ⟨hj', more, hnow, h'⟩
      exact ⟨hj'.congr ⟨rfl, rfl, rfl, rfl⟩, more, hnow, h'.keep rfl id (fun _ => rfl)
        fun _ hf => hf⟩
    · simpa using h
  obtain ⟨more, hnow, h'⟩ := hmore
  have hstamp : ((s.dispatch accepts now).handed.drop s.handed.length).map
      (fun job => (⟨now, job.1, job.2⟩ : Handover)) = more := by
    rw [h'.handed, h.handed, List.map_append, List.drop_left, List.map_map]
    refine (List.map_congr_left fun h hm => ?_).trans (List.map_id _)
    simp [← hnow h hm]
  rwa [hstamp]

theorem stop (h : s.Clocked log Fits) : s.stop.Clocked log Fits' := by
  have hnone : ∀ {id timer}, s.stop.timers.get? id ≠ some timer := by
    intro id timer ht
    rw [timers_stop] at ht
    cases ht
  exact ⟨(framed_stop s).handed.trans h.handed, fun ht => (hnone ht).elim,
    fun ht => (hnone ht).elim, fun ht => (hnone ht).elim⟩

end Clocked

end Supervisor

/-! ## Runs and what happens in them -/

namespace Pool

/-- An action, with the pool before and after it. -/
structure Transition where
  before : Pool
  action : PoolAction
  after : Pool

namespace Transition

variable {t : Transition}

/-- The jobs that an action hands out. -/
def handovers (t : Transition) : List Handover :=
  (t.after.supervisor.handed.drop t.before.supervisor.handed.length).map fun job =>
    ⟨t.before.now, job.1, job.2⟩

/-- The event that the supervisor takes. -/
def heard (t : Transition) : List PoolEvent :=
  match t.action with
  | .takeEvent => t.before.events.take 1
  | _ => []

theorem handovers_of_eq (h : t.after.supervisor.handed = t.before.supervisor.handed) :
    t.handovers = [] := by
  simp [handovers, h]

theorem flatMap_handovers_snoc (log : List Transition) (t : Transition) :
    (log ++ [t]).flatMap (·.handovers) = log.flatMap (·.handovers) ++ t.handovers := by
  simp

theorem flatMap_handovers_of_eq (log : List Transition)
    (h : t.after.supervisor.handed = t.before.supervisor.handed) :
    (log ++ [t]).flatMap (·.handovers) = log.flatMap (·.handovers) := by
  rw [flatMap_handovers_snoc, handovers_of_eq h, List.append_nil]

theorem flatMap_heard_snoc (log : List Transition) (t : Transition) :
    (log ++ [t]).flatMap (·.heard) = log.flatMap (·.heard) ++ t.heard := by
  simp

theorem heard_of_ne (h : t.action ≠ .takeEvent) : t.heard = [] := by
  rw [heard]
  split
  · rename_i he
    exact (h he).elim
  · rfl

end Transition

/-- The actions of a run, each with the pool before and after it. -/
def transitions (p : Pool) : List PoolAction → List Transition
  | [] => []
  | action :: actions =>
    ((p.act action).map fun p' => ⟨p, action, p'⟩ :: p'.transitions actions).getD []

/-- The jobs handed out in a run. -/
def handovers (p : Pool) (actions : List PoolAction) : List Handover :=
  (p.transitions actions).flatMap (·.handovers)

/-- The events that the supervisor takes in a run. -/
def heard (p : Pool) (actions : List PoolAction) : List PoolEvent :=
  (p.transitions actions).flatMap (·.heard)

/-- What each action keeps holds after a run, where `log` is what has happened. -/
theorem transitions_induction {P : List Transition → Pool → Prop}
    (hact : ∀ {log p action p'}, P log p → p.act action = some p' →
      P (log ++ [⟨p, action, p'⟩]) p')
    {actions : List PoolAction} {p p' : Pool} (log : List Transition) (h : P log p)
    (hrun : p.run actions = some p') : P (log ++ p.transitions actions) p' := by
  induction actions generalizing log p with
  | nil =>
    cases hrun
    simpa [transitions] using h
  | cons action actions ih =>
    obtain ⟨p₁, h₁, hrun⟩ := Option.bind_eq_some_iff.1 hrun
    have hrest := ih _ (hact h h₁) hrun
    simpa [transitions, h₁] using hrest

variable {p p' : Pool} {done : List TaskId} {limit : Nat} {log : List Transition}

theorem due_of_fire {task : TaskId} (h : p.act (.fire task) = some p') :
    ∃ timer, p.supervisor.timers.get? task = some timer ∧ timer.due ≤ p.now := by
  rw [act] at h
  split at h
  · rename_i timer hrun ht
    split at h
    · rename_i hdue
      simp only [Bool.and_eq_true, decide_eq_true_eq] at hdue
      exact ⟨timer, ht, hdue.2⟩
    · cases h
  · cases h

/-! ## The timers at any time -/

/-- Timers and their events in a pool where tasks have the time `limit`, and where `log` is
    what has happened. -/
structure Punctual (limit : Nat) (log : List Transition) (p : Pool) : Prop where
  traceable : ∃ parses, p.Traceable parses
  /-- a timer that has gone off has sent an event, which is still to be taken -/
  clocked : p.supervisor.Clocked (log.flatMap (·.handovers)) fun id timer =>
    timer.fired = true → p.status = .running → .timedOut timer.worker id ∈ p.events
  limits : p.supervisor.Jobs (·.timeoutMs = limit)
  settings : p.settings.taskTimeoutMs = limit
  commands : ∀ {task}, .submit task ∈ p.commands → task.timeoutMs = limit
  overdue : ∀ {w id}, .timedOut w id ∈ p.events →
    ∃ h ∈ log.flatMap (·.handovers), h.worker = w ∧ h.job.id = id ∧ h.time + limit ≤ p.now
  /-- no event about a task on the books was taken -/
  heard : ∀ event ∈ log.flatMap (·.heard),
    event.task ∈ p.supervisor.handed.map (·.2.id) ∧ event.task ∉ p.supervisor.tasks.keys
  stopped : p.status = .stopped → p.supervisor.timers = {}

namespace Punctual

variable {event : PoolEvent} {action : PoolAction} {x : Handover} {starts : StartPlan}

theorem inOrder (h : p.Punctual limit log) : ∃ done, p.InOrder done := by
  obtain ⟨parses, ht⟩ := h.traceable
  exact ht.inOrder

theorem assigned (h : p.Punctual limit log) : p.supervisor.Assigned := by
  obtain ⟨parses, ht⟩ := h.traceable
  exact ht.assigned

theorem handed (h : p.Punctual limit log) (hx : x ∈ log.flatMap (·.handovers)) :
    (x.worker, x.job) ∈ p.supervisor.handed := by
  rw [h.clocked.handed]
  exact List.mem_map.2 ⟨x, hx, rfl⟩

theorem unique (h : p.Punctual limit log) {y : Handover} (hx : x ∈ log.flatMap (·.handovers))
    (hy : y ∈ log.flatMap (·.handovers)) (hid : y.job.id = x.job.id) : y = x := by
  have hn := h.assigned.handed_nodup
  rw [h.clocked.handed, List.map_map] at hn
  exact List.inj_on_of_nodup_map hn hy hx hid

/-- The event of a task tells about a job that was handed out to its worker. -/
theorem handed_of_event (h : p.Punctual limit log) (he : event ∈ p.events) :
    ∃ job, (event.worker, job) ∈ p.supervisor.handed ∧ job.id = event.task := by
  obtain ⟨parses, ht⟩ := h.traceable
  cases hended : event.outcome.ended? with
  | some ended =>
    obtain ⟨job, -, hid, hjob⟩ := ht.posted.event event he ended hended
    exact ⟨job, hjob, hid⟩
  | none =>
    rcases event with ⟨w, id, said | said⟩ | ⟨w, id, reason⟩ | ⟨w, id⟩
    · cases hended
    · cases hended
    · cases hended
    · obtain ⟨x, hx, rfl, rfl, -⟩ := h.overdue he
      exact ⟨x.job, h.handed hx, rfl⟩

/-- A task that was handed out and is on the books is with the worker that got it. -/
theorem busy_of_handed (h : p.Punctual limit log) {w : WorkerId} {job : Task}
    (hjob : (w, job) ∈ p.supervisor.handed) (hkey : job.id ∈ p.supervisor.tasks.keys) :
    p.supervisor.workers.get? w = some (.busy job.id) := by
  obtain ⟨done, ho⟩ := h.inOrder
  rcases (ho.books.balanced.mem_tasks _).1 hkey with hq | ⟨w', hbusy⟩
  · exact (h.assigned.queue_new _ hq (List.mem_map.2 ⟨_, hjob, rfl⟩)).elim
  · obtain ⟨job', hjob', hid⟩ := h.assigned.busy w' job.id hbusy
    cases h.assigned.unique hjob hjob' hid
    exact hbusy

theorem notMem_keys_note (h : p.Punctual limit log) (he : event ∈ p.events) :
    event.task ∉ (p.supervisor.note event).tasks.keys := by
  rcases p.supervisor.note_cases event with ⟨hlate, hnote⟩ | ⟨-, ⟨said, -, -, hnote⟩ | ⟨-, hnote⟩⟩
  · rw [hnote]
    intro hkey
    obtain ⟨job, hjob, hid⟩ := h.handed_of_event he
    have hbusy := h.busy_of_handed hjob (hid ▸ hkey)
    rw [hid] at hbusy
    rw [Supervisor.owns_iff.2 hbusy] at hlate
    cases hlate
  · rw [hnote]
    exact fun hkey => (Supervisor.mem_keys_resolve.1 hkey).1 rfl
  · rw [hnote]
    exact fun hkey => (Supervisor.mem_keys_resolve.1 hkey).1 rfl

theorem quiet (h : p.Punctual limit log) (ha : p.act action = some p')
    (hother : action ≠ .takeEvent) (hs : p'.supervisor = { p.supervisor with starts })
    (hset : p'.settings = p.settings)
    (hc : ∀ {task}, .submit task ∈ p'.commands → .submit task ∈ p.commands ∨ task.timeoutMs = limit)
    (hnow : p.now ≤ p'.now) (hstatus : p'.status = p.status ∨ p'.status = .dropped)
    (hsent : ∀ {w id}, .timedOut w id ∈ p'.events → .timedOut w id ∈ p.events)
    (hkept : p'.status = .running → p.events ⊆ p'.events) :
    p'.Punctual limit (log ++ [⟨p, action, p'⟩]) := by
  let t : Transition := ⟨p, action, p'⟩
  have hlog := t.flatMap_handovers_of_eq log (by simp [t, hs])
  have hheard : (log ++ [t]).flatMap (·.heard) = log.flatMap (·.heard) := by
    rw [Transition.flatMap_heard_snoc, Transition.heard_of_ne hother, List.append_nil]
  obtain ⟨parses, ht⟩ := h.traceable
  constructor
  case traceable => exact ⟨_, ht.act ha⟩
  case clocked =>
    rw [hlog, hs]
    refine h.clocked.keep rfl id (fun _ => rfl) ?_
    intro id timer _ hfits hfired hrun
    refine hkept hrun (hfits hfired ?_)
    rcases hstatus with hst | hst
    · rw [← hst, hrun]
    · rw [hst] at hrun
      cases hrun
  case limits =>
    rw [hs]
    exact h.limits.congr ⟨rfl, rfl, rfl, rfl⟩
  case settings => rw [hset, h.settings]
  case commands =>
    intro task hm
    exact (hc hm).elim h.commands id
  case overdue =>
    intro w id hm
    obtain ⟨x, hx, hw, hid, hdue⟩ := h.overdue (hsent hm)
    exact ⟨x, hlog ▸ hx, hw, hid, Nat.le_trans hdue hnow⟩
  case heard =>
    rw [hheard, hs]
    exact h.heard
  case stopped =>
    intro hst
    rw [hs]
    refine h.stopped ?_
    rcases hstatus with hst' | hst'
    · rw [← hst', hst]
    · rw [hst'] at hst
      cases hst

/-- The supervisor hands out tasks from new books `s`, of which the timers are in order. -/
theorem dispatched (h : p.Punctual limit log) {s : Supervisor} (events : List PoolEvent)
    (ha : p.act action = some p') (hrun : p'.status = .running)
    (hs : p'.supervisor = s.dispatch p.accepts p.now) (hk : s.Kept done)
    (hj : s.Jobs (·.timeoutMs = limit)) (hh : s.handed = p.supervisor.handed)
    (hclocked : s.Clocked (log.flatMap (·.handovers)) fun id timer =>
      timer.fired = true → .timedOut timer.worker id ∈ events) (hset : p'.settings = p.settings)
    (hc : ∀ {task}, .submit task ∈ p'.commands → .submit task ∈ p.commands) (hnow : p'.now = p.now)
    (he : p'.events = events) (hsent : events ⊆ p.events)
    (hheard : ∀ event ∈ (log ++ [(⟨p, action, p'⟩ : Transition)]).flatMap (·.heard),
      event.task ∈ p.supervisor.handed.map (·.2.id) ∧ event.task ∉ s.tasks.keys) :
    p'.Punctual limit (log ++ [⟨p, action, p'⟩]) := by
  have hlog := Transition.flatMap_handovers_snoc log ⟨p, action, p'⟩
  obtain ⟨parses, ht⟩ := h.traceable
  have hdispatched := hclocked.dispatch hk hj p.accepts p.now
    fun {worker job} _ hfired => by cases hfired
  rw [hh, ← hs] at hdispatched
  constructor
  case traceable => exact ⟨_, ht.act ha⟩
  case clocked =>
    rw [hlog, he]
    refine hdispatched.keep rfl id (fun _ => rfl) ?_
    intro id timer _ hfits hfired _
    exact hfits hfired
  case limits =>
    rw [hs]
    exact Supervisor.ledger_dispatch (fun h hs => h.congr hs) (fun id h => h.resolve id _)
      (fun now worker hp h => h.assign now worker hp) p.accepts p.now rfl hj
  case settings => rw [hset, h.settings]
  case commands =>
    intro task hm
    exact h.commands (hc hm)
  case overdue =>
    intro w id hm
    obtain ⟨x, hx, hw, hid, hdue⟩ := h.overdue (hsent (he ▸ hm))
    rw [hlog, hnow]
    exact ⟨x, List.mem_append_left _ hx, hw, hid, hdue⟩
  case heard =>
    intro event hm
    obtain ⟨hid, hkey⟩ := hheard event hm
    rw [hs]
    refine ⟨?_, fun hkey' => hkey (Supervisor.keys_dispatch_subset s p.accepts p.now hkey')⟩
    have hmore := handed_dispatch s p.accepts p.now
    rw [hh] at hmore
    exact List.map_subset _ hmore.subset hid
  case stopped =>
    intro hst
    rw [hrun] at hst
    cases hst

theorem obey (h : p.Punctual limit log) {task : Task} {commands : List PoolCommand}
    (hrun : p.status = .running) (hc : p.commands = .submit task :: commands)
    (hp : p' = ({ p with commands } : Pool).withBooks
      (p.supervisor.submit p.accepts p.now task))
    (ha : p.act .takeCommand = some p') : p'.Punctual limit (log ++ [⟨p, .takeCommand, p'⟩]) := by
  obtain ⟨done, ho⟩ := h.inOrder
  have hnew := ho.notMem_done hc
  obtain ⟨n, -, -, hframe⟩ := Supervisor.framed_enqueue p.supervisor task
  have htime : task.timeoutMs = limit := h.commands (hc ▸ List.mem_cons_self)
  subst hp
  refine h.dispatched p.events ha hrun rfl (ho.books.kept.enqueue hnew)
    (h.limits.enqueue htime) hframe.handed ?_ rfl ?_ rfl rfl (List.Subset.refl _) ?_
  · refine (h.clocked.enqueue ho.books.kept task).keep rfl id (fun _ => rfl) ?_
    intro id timer _ hfits hfired
    exact hfits hfired hrun
  · intro other hm
    exact hc ▸ List.mem_cons_of_mem _ hm
  · intro event hm
    have hold : event ∈ log.flatMap (·.heard) := by simpa [Transition.heard] using hm
    obtain ⟨hid, hkey⟩ := h.heard event hold
    refine ⟨hid, fun hkey' => ?_⟩
    rcases Supervisor.mem_keys_of_enqueue hkey' with he | hkey'
    · -- a task that was handed out is no new one
      obtain ⟨job, hjob, hid⟩ := List.mem_map.1 hid
      exact hnew (he ▸ hid ▸ ho.books.jobs.handed job hjob)
    · exact hkey hkey'

theorem hear (h : p.Punctual limit log) {events : List PoolEvent} (hrun : p.status = .running)
    (he : p.events = event :: events)
    (hp : p' = ({ p with events } : Pool).withBooks (p.supervisor.handle p.accepts p.now event))
    (ha : p.act .takeEvent = some p') : p'.Punctual limit (log ++ [⟨p, .takeEvent, p'⟩]) := by
  obtain ⟨done, ho⟩ := h.inOrder
  obtain ⟨n, -, -, hframe⟩ := Supervisor.framed_note p.supervisor event
  have hmem : event ∈ p.events := he ▸ List.mem_cons_self
  subst hp
  refine h.dispatched events ha hrun rfl (ho.books.kept.note event)
    (Supervisor.ledger_note (fun h hs => h.congr hs) (fun id h => h.resolve id _) event
      (fun _ _ h => h.resolve _ _) rfl h.limits) hframe.handed ?_ rfl (fun hm => hm) rfl rfl ?_ ?_
  · refine h.clocked.note ho.books.kept event ?_
    intro id timer hne hfits hfired
    have hm := hfits hfired hrun
    rw [he] at hm
    rcases List.mem_cons.1 hm with hself | hm
    · exact (hne (by rw [← hself]; rfl) (by rw [← hself]; rfl)).elim
    · exact hm
  · rw [he]
    exact List.subset_cons_self _ _
  · intro other hm
    rw [Transition.flatMap_heard_snoc] at hm
    rcases List.mem_append.1 hm with hm | hm
    · obtain ⟨hid, hkey⟩ := h.heard other hm
      exact ⟨hid, fun hkey' => hkey (p.supervisor.keys_note_subset event hkey')⟩
    · obtain rfl : other = event := by simpa [Transition.heard, he] using hm
      obtain ⟨job, hjob, hid⟩ := h.handed_of_event hmem
      exact ⟨List.mem_map.2 ⟨_, hjob, hid⟩, h.notMem_keys_note hmem⟩

theorem stop (h : p.Punctual limit log)
    (hp : p' = { p with
      supervisor := p.supervisor.stop, status := .stopped, commands := [], events := [] })
    (ha : p.act .takeCommand = some p') : p'.Punctual limit (log ++ [⟨p, .takeCommand, p'⟩]) := by
  let t : Transition := ⟨p, .takeCommand, p'⟩
  have hhanded := (Supervisor.framed_stop p.supervisor).handed
  have hlog := t.flatMap_handovers_of_eq log (by simp [t, hp, hhanded])
  obtain ⟨parses, htrace⟩ := h.traceable
  constructor
  case traceable => exact ⟨_, htrace.act ha⟩
  case clocked =>
    rw [hlog, hp]
    exact h.clocked.stop
  case limits =>
    rw [hp]
    exact Supervisor.ledger_stop (fun h hs => h.congr hs) (fun id h => h.resolve id _) h.limits
  case settings =>
    rw [hp]
    exact h.settings
  case commands =>
    rw [hp]
    intro task hm
    cases hm
  case overdue =>
    rw [hp]
    intro w id hm
    cases hm
  case heard =>
    intro event hm
    rw [hp]
    refine ⟨?_, ?_⟩
    · rw [show p.supervisor.stop.handed = p.supervisor.handed from hhanded]
      exact (h.heard event (by simpa [Transition.heard] using hm)).1
    · simp [Supervisor.keys_stop]
  case stopped =>
    intro _
    rw [hp]
    exact p.supervisor.timers_stop

theorem fire (h : p.Punctual limit log) {task : TaskId} {timer : Timer}
    (hrun : p.status = .running) (ht : p.supervisor.timers.get? task = some timer)
    (hdue : timer.due ≤ p.now)
    (hp : p' = { p with
      supervisor :=
        { p.supervisor with timers := p.supervisor.timers.put task { timer with fired := true } }
      events := p.events ++ [.timedOut timer.worker task] })
    (ha : p.act (.fire task) = some p') : p'.Punctual limit (log ++ [⟨p, .fire task, p'⟩]) := by
  let t : Transition := ⟨p, .fire task, p'⟩
  have hlog := t.flatMap_handovers_of_eq log (by simp [t, hp])
  have hget : ∀ {id timer'}, p'.supervisor.timers.get? id = some timer' →
      task = id ∧ timer' = { timer with fired := true } ∨
        p.supervisor.timers.get? id = some timer' := by
    intro id timer' ht'
    rw [hp] at ht'
    exact (Table.get?_of_put ht').imp (fun h => ⟨h.1.symm, h.2⟩) And.right
  obtain ⟨parses, htrace⟩ := h.traceable
  obtain ⟨x, hx, hworker, hid, hxdue⟩ := h.clocked.due ht
  have htime : x.job.timeoutMs = limit := h.limits.handed _ (h.handed hx)
  constructor
  case traceable => exact ⟨_, htrace.act ha⟩
  case clocked =>
    rw [hlog]
    constructor
    case handed =>
      rw [hp]
      exact h.clocked.handed
    case busy =>
      intro id timer' ht'
      rw [show p'.supervisor.workers = p.supervisor.workers by rw [hp]]
      rcases hget ht' with ⟨rfl, rfl⟩ | hold
      · have hbusy := h.clocked.busy ht
        exact hbusy
      · exact h.clocked.busy hold
    case due =>
      intro id timer' ht'
      rcases hget ht' with ⟨rfl, rfl⟩ | hold
      · exact ⟨x, hx, hworker, hid, hxdue⟩
      · exact h.clocked.due hold
    case fits =>
      intro id timer' ht' hfired _
      rw [show p'.events = p.events ++ [.timedOut timer.worker task] by rw [hp]]
      rcases hget ht' with ⟨rfl, rfl⟩ | hold
      · simp
      · exact List.mem_append_left _ (h.clocked.fits hold hfired hrun)
  case limits =>
    rw [hp]
    exact h.limits.congr ⟨rfl, rfl, rfl, rfl⟩
  case settings =>
    rw [hp]
    exact h.settings
  case commands =>
    rw [hp]
    exact h.commands
  case overdue =>
    intro w id hm
    rw [hlog, show p'.now = p.now by rw [hp]]
    rw [hp] at hm
    rcases List.mem_append.1 hm with hm | hm
    · exact h.overdue hm
    · cases List.mem_singleton.1 hm
      exact ⟨x, hx, hworker, hid, by omega⟩
  case heard =>
    intro event hm
    rw [hp]
    exact h.heard event (by simpa [Transition.heard] using hm)
  case stopped =>
    intro hst
    rw [hp, hrun] at hst
    cases hst

/-- Every action keeps the timers and their events in order. -/
theorem act (h : p.Punctual limit log) (ha : p.act action = some p') :
    p'.Punctual limit (log ++ [⟨p, action, p'⟩]) := by
  have hsame : ∀ {task}, .submit task ∈ p.commands → .submit task ∈ p.commands ∨
      task.timeoutMs = limit := fun hm => Or.inl hm
  have hstep := step_of_act ha
  cases hstep with
  | submit hrun =>
    refine h.quiet ha (by simp) rfl rfl ?_ (Nat.le_refl _) (Or.inl rfl) id
      (fun _ => List.Subset.refl _)
    intro task hm
    rcases List.mem_append.1 hm with hm | hm
    · exact Or.inl hm
    · cases List.mem_singleton.1 hm
      exact Or.inr h.settings
  | ask hrun =>
    refine h.quiet ha (by simp) rfl rfl ?_ (Nat.le_refl _) (Or.inl rfl) id
      (fun _ => List.Subset.refl _)
    intro task hm
    simpa using Or.inl hm
  | askInVain | wait | receive | finishInVain | leave | plan =>
    exact h.quiet ha (by simp) rfl rfl hsame (Nat.le_refl _) (Or.inl rfl) id
      (fun _ => List.Subset.refl _)
  | drop =>
    refine h.quiet ha (by simp) rfl rfl ?_ (Nat.le_refl _) (Or.inr rfl) ?_ ?_
    · intro task hm
      cases hm
    · intro w id hm
      cases hm
    · intro hrun
      cases hrun
  | obey hrun hc => exact h.obey hrun hc rfl ha
  | stop hrun hc => exact h.stop rfl ha
  | hear hrun he => exact h.hear hrun he rfl ha
  | finish outcome hrun ht =>
    refine h.quiet ha (by simp) rfl rfl hsame (Nat.le_refl _) (Or.inl rfl) ?_
      (fun _ => List.subset_append_left _ _)
    intro w id hm
    rcases List.mem_append.1 hm with hm | hm
    · exact hm
    · cases outcome <;> cases List.mem_singleton.1 hm
  | @fire task timer hrun ht =>
    obtain ⟨timer', ht', hdue⟩ := due_of_fire ha
    rw [ht] at ht'
    cases ht'
    exact h.fire hrun ht hdue rfl ha
  | advance ms =>
    exact h.quiet ha (by simp) rfl rfl hsame (Nat.le_add_right _ _) (Or.inl rfl) id
      (fun _ => List.Subset.refl _)

theorem start {settings : PoolSettings} (h : Pool.start settings starts = .ok p) :
    p.Punctual settings.taskTimeoutMs [] := by
  have ho := InOrder.start h
  have hhanded : p.supervisor.handed = [] := by
    refine List.eq_nil_iff_forall_not_mem.2 fun job hjob => ?_
    exact absurd (ho.books.jobs.handed job hjob) List.not_mem_nil
  have hidle : ∀ {w id}, p.supervisor.workers.get? w ≠ some (.busy id) := by
    intro w id hbusy
    have hkey := (ho.books.balanced.mem_tasks id).2 (Or.inr ⟨w, hbusy⟩)
    exact absurd (ho.books.kept.books.known id hkey) List.not_mem_nil
  have htimer : ∀ {id timer}, p.supervisor.timers.get? id ≠ some timer := by
    intro id timer ht
    obtain ⟨w, hbusy⟩ := (ho.books.balanced.mem_timers id).1 (Table.mem_keys_iff.2 ⟨timer, ht⟩)
    exact hidle hbusy
  have hfresh : p.settings.taskTimeoutMs = settings.taskTimeoutMs ∧ p.commands = [] ∧
      p.events = [] ∧ p.status = .running := by
    obtain ⟨s, -, rfl⟩ := eq_of_start h
    exact ⟨rfl, rfl, rfl, rfl⟩
  constructor
  case traceable => exact ⟨[], Traceable.start h⟩
  case clocked =>
    exact ⟨hhanded, fun ht => (htimer ht).elim, fun ht => (htimer ht).elim,
      fun ht => (htimer ht).elim⟩
  case limits =>
    constructor
    · intro id pending hp
      have hknown := ho.books.kept.books.known id (Table.mem_keys_iff.2 ⟨pending, hp⟩)
      exact absurd hknown List.not_mem_nil
    · rw [hhanded]
      exact List.forall_mem_nil _
  case settings => exact hfresh.1
  case commands => simp [hfresh]
  case overdue => simp [hfresh]
  case heard => exact List.forall_mem_nil _
  case stopped => simp [hfresh]

theorem run (h : p.Punctual limit log) {actions : List PoolAction}
    (hrun : p.run actions = some p') : p'.Punctual limit (log ++ p.transitions actions) := by
  refine transitions_induction ?_ log h hrun
  intro log p action p' h ha
  exact h.act ha

end Punctual

end Pool

end SourceIndex
