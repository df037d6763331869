/-
  Results that come late.

  A thread whose worker was replaced cannot be stopped, and a timer may have gone off
  before its task ended.  What they send is told apart from what the supervisor waits for
  by the worker and the task it names.

  * `Supervisor.Assigned`: every task that a worker has was handed to it, no task was
    handed out twice, and the job is that of the task;
  * `Supervisor.Since`: what an operation answers, and to whom;
  * `Pool.Posted`: threads parse what was handed to their worker, and events tell how
    these parses ended;
  * `Pool.late_results_isolated`: what the parser said goes to those who wait for the job
    it said it about, and events about tasks that were answered change nothing.
-/
import SourceIndex.Proofs.Threads

namespace SourceIndex

/-- How the parse ended that a task was answered with. -/
def TaskResult.ended? : TaskResult → Option ParseOutcome
  | ok result => some (.returned (.ok result))
  | rejected error => some (.returned (.error error))
  | crashed reason => some (.crashed reason)
  | _ => none

namespace Supervisor

variable {s : Supervisor}

/-! ## Jobs and the workers that have them -/

/-- Every task that a worker has was handed to it, and no task was handed out twice.
    Those in the queue were not handed out yet. -/
structure Assigned (s : Supervisor) : Prop where
  busy : ∀ w id, s.workers.get? w = some (.busy id) → ∃ job, (w, job) ∈ s.handed ∧ job.id = id
  handed_nodup : (s.handed.map (·.2.id)).Nodup
  job : ∀ w job p, (w, job) ∈ s.handed → s.tasks.get? job.id = some p → p.task = job
  queue_nodup : s.queue.Nodup
  queue_new : ∀ id ∈ s.queue, id ∉ s.handed.map (·.2.id)
  self : ∀ id p, s.tasks.get? id = some p → p.task.id = id

namespace Assigned

variable {task : Task}

/-- Tasks leave the books, workers their tasks, and the queue gets shorter. -/
theorem shrink (h : s.Assigned) {s' : Supervisor}
    (hw : ∀ w id, s'.workers.get? w = some (.busy id) → s.workers.get? w = some (.busy id))
    (hh : s'.handed = s.handed) (hq : s'.queue.Sublist s.queue)
    (ht : ∀ id p, s'.tasks.get? id = some p → s.tasks.get? id = some p) : s'.Assigned := by
  constructor
  case busy =>
    intro w id hbusy
    rw [hh]
    exact h.busy w id (hw w id hbusy)
  case handed_nodup =>
    rw [hh]
    exact h.handed_nodup
  case job =>
    intro w job p hm hp
    rw [hh] at hm
    exact h.job w job p hm (ht _ p hp)
  case queue_nodup => exact hq.nodup h.queue_nodup
  case queue_new =>
    intro id hid
    rw [hh]
    exact h.queue_new id (hq.subset hid)
  case self =>
    intro id p hp
    exact h.self id p (ht id p hp)

theorem resolve (h : s.Assigned) (id : TaskId) (outcome : TaskResult) :
    (s.resolve id outcome).Assigned := by
  have hsame := sameStaff_resolve s id outcome
  refine h.shrink ?_ (framed_resolve s id outcome).handed ?_ ?_
  · intro w i hw
    rwa [hsame.workers] at hw
  · rw [hsame.queue]
  · intro i p hp
    rw [get?_resolve] at hp
    exact (Option.ite_none_left_eq_some.1 hp).2

theorem refuseAll (h : s.Assigned) (reason : String) (ids : List TaskId) :
    (Supervisor.refuseAll reason ids s).Assigned := by
  induction ids generalizing s with
  | nil => exact h
  | cons id ids ih =>
    refine ih (resolve ?_ id _)
    exact { h with }

theorem withWorker (h : s.Assigned) (starts : StartPlan) : (s.withWorker starts).Assigned := by
  refine h.shrink ?_ rfl (List.Sublist.refl _) fun id p hp => hp
  intro w id hw
  rcases Table.get?_of_put hw with ⟨-, hidle⟩ | ⟨-, hw⟩
  · cases hidle
  · exact hw

theorem dismiss (h : s.Assigned) (worker : WorkerId) : (s.dismiss worker).Assigned := by
  refine h.shrink ?_ rfl (List.Sublist.refl _) fun id p hp => hp
  intro w id hw
  change (s.workers.erase worker).get? w = _ at hw
  rw [Table.get?_erase] at hw
  exact (Option.ite_none_left_eq_some.1 hw).2

theorem retire (h : s.Assigned) (worker : WorkerId) : (s.retire worker).Assigned := by
  have hd := h.dismiss worker
  obtain ⟨starts, he | he | ⟨-, he⟩⟩ := retire_cases s worker
  · rw [he]
    exact hd.withWorker starts
  · rw [he]
    exact { hd with }
  · rw [he]
    refine refuseAll ?_ _ _
    exact hd.shrink (fun w id hw => hw) rfl (List.nil_sublist _) fun id p hp => hp

theorem assign (h : s.Assigned) {task : TaskId} {queue : List TaskId} {p : Pending}
    (now : Nat) (worker : WorkerId) (hq : s.queue = task :: queue)
    (hp : s.tasks.get? task = some p) : (s.assign now worker p.task).Assigned := by
  have hself : p.task.id = task := h.self task p hp
  have hnew : task ∉ s.handed.map (·.2.id) := h.queue_new task (hq ▸ List.mem_cons_self)
  have hnodup := h.queue_nodup
  rw [hq, List.nodup_cons] at hnodup
  have hqueue : (s.assign now worker p.task).queue = queue := congrArg List.tail hq
  constructor
  case busy =>
    intro w id hbusy
    rcases Table.get?_of_put hbusy with ⟨rfl, he⟩ | ⟨-, hbusy⟩
    · cases he
      exact ⟨p.task, by simp [Supervisor.assign], rfl⟩
    · obtain ⟨job, hm, hid⟩ := h.busy w id hbusy
      exact ⟨job, List.mem_append_left _ hm, hid⟩
  case handed_nodup =>
    simp only [Supervisor.assign, List.map_append, List.map_cons, List.map_nil, hself]
    refine List.Nodup.append h.handed_nodup (List.nodup_singleton _) ?_
    intro id hid hone
    exact hnew (List.mem_singleton.1 hone ▸ hid)
  case job =>
    intro w job q hm hq'
    rcases List.mem_append.1 hm with hm | hm
    · exact h.job w job q hm hq'
    · cases List.mem_singleton.1 hm
      rw [hself] at hq'
      exact congrArg Pending.task (Option.some.inj (hq'.symm.trans hp))
  case queue_nodup =>
    rw [hqueue]
    exact hnodup.2
  case queue_new =>
    intro id hid
    rw [hqueue] at hid
    simp only [Supervisor.assign, List.map_append, List.map_cons, List.map_nil, List.mem_append,
      List.mem_singleton, not_or, hself]
    refine ⟨h.queue_new id (hq ▸ List.mem_cons_of_mem _ hid), ?_⟩
    rintro rfl
    exact hnodup.1 hid
  case self => exact h.self

theorem dispatch (h : s.Assigned) (accepts : WorkerId → Bool) (now : Nat) :
    (s.dispatch accepts now).Assigned := by
  refine dispatch_induction accepts now ?_ ?_ ?_ ?_ ?_ h
  · intro s task queue h hq ht
    refine h.shrink (fun w id hw => hw) rfl ?_ fun id p hp => hp
    rw [hq]
    exact List.sublist_cons_self _ _
  · intro s worker idle h hi hw
    exact { h with }
  · intro s task queue worker idle p state h hq hi hp hw
    exact h.assign now worker hq hp
  · intro s worker idle state h hi hw ha
    refine retire ?_ worker
    exact { h with }
  · intro s stats h
    exact { h with }

theorem withTask (h : s.Assigned) (hhanded : task.id ∉ s.handed.map (·.2.id))
    (hqueue : task.id ∉ s.queue) : (s.withTask task).Assigned := by
  have hget : ∀ {i p}, (s.withTask task).tasks.get? i = some p →
      task.id = i ∧ p.task = task ∨ s.tasks.get? i = some p := by
    intro i p hp
    rcases Table.get?_of_put hp with ⟨rfl, rfl⟩ | ⟨-, hp⟩
    · exact Or.inl ⟨rfl, rfl⟩
    · exact Or.inr hp
  constructor
  case busy => exact h.busy
  case handed_nodup => exact h.handed_nodup
  case job =>
    intro w job p hm hp
    rcases hget hp with ⟨hid, -⟩ | hp
    · exact (hhanded (hid ▸ List.mem_map_of_mem hm)).elim
    · exact h.job w job p hm hp
  case queue_nodup =>
    refine List.Nodup.append h.queue_nodup (List.nodup_singleton _) ?_
    intro id hid hone
    exact hqueue (List.mem_singleton.1 hone ▸ hid)
  case queue_new =>
    intro id hid
    rcases List.mem_append.1 hid with hid | hid
    · exact h.queue_new id hid
    · rw [List.mem_singleton.1 hid]
      exact hhanded
  case self =>
    intro id p hp
    rcases hget hp with ⟨hid, htask⟩ | hp
    · rw [htask, hid]
    · exact h.self id p hp

theorem enqueue (h : s.Assigned) (hhanded : task.id ∉ s.handed.map (·.2.id))
    (hqueue : task.id ∉ s.queue) : (s.enqueue task).Assigned := by
  rcases enqueue_cases s task with ⟨id, p, -, hp, he⟩ | ⟨-, he⟩ | ⟨-, starts, he | he⟩
  · -- the task that is joined stays the same
    have hget : ∀ {i q}, (s.tasks.put id { p with waiters := p.waiters ++ [task.id] }).get? i =
        some q → ∃ q', s.tasks.get? i = some q' ∧ q.task = q'.task := by
      intro i q hq
      rcases Table.get?_of_put hq with ⟨rfl, rfl⟩ | ⟨-, hq⟩
      · exact ⟨p, hp, rfl⟩
      · exact ⟨q, hq, rfl⟩
    rw [he]
    refine { h with job := ?_, self := ?_ }
    · intro w job q hm hq
      obtain ⟨q', hq', hsame⟩ := hget hq
      rw [hsame]
      exact h.job w job q' hm hq'
    · intro i q hq
      obtain ⟨q', hq', hsame⟩ := hget hq
      rw [hsame]
      exact h.self i q' hq'
  · rw [he]
    exact h.withTask hhanded hqueue
  · rw [he]
    exact (h.withWorker starts).withTask hhanded hqueue
  · rw [he]
    exact { h with }

theorem note (h : s.Assigned) (event : PoolEvent) : (s.note event).Assigned := by
  rcases note_cases s event with ⟨-, he⟩ | ⟨-, ⟨said, -, -, he⟩ | ⟨-, he⟩⟩
  · rw [he]
    exact h
  · have hfree : (s.reclaim event.worker (event.count s.stats)).Assigned := by
      refine h.shrink ?_ rfl (List.Sublist.refl _) fun id p hp => hp
      intro w id hw
      rw [get?_reclaim] at hw
      split at hw
      · cases hw
      · exact hw
    rw [he]
    refine resolve ?_ _ _
    exact { hfree with }
  · have hcounted : ({ s with stats := event.count s.stats } : Supervisor).Assigned := { h with }
    have hretired := hcounted.retire event.worker
    rw [he]
    refine resolve ?_ _ _
    exact { hretired with }

theorem stop (h : s.Assigned) : s.stop.Assigned := by
  have hall : ∀ (ids : List TaskId) {s : Supervisor}, s.Assigned → (cancelAll ids s).Assigned := by
    intro ids
    induction ids with
    | nil => exact id
    | cons id ids ih => exact fun hs => ih (hs.resolve id .cancelled)
  have hcancelled : (cancelAll s.tasks.keys { s with timers := {} }).Assigned := by
    refine hall _ ?_
    exact { h with }
  refine hcancelled.shrink ?_ rfl (List.nil_sublist _) fun id p hp => hp
  intro w id hw
  cases hw

theorem unique (h : s.Assigned) {job other : WorkerId × Task} (hjob : job ∈ s.handed)
    (hother : other ∈ s.handed) (hid : other.2.id = job.2.id) : other = job :=
  List.inj_on_of_nodup_map h.handed_nodup hother hjob hid

end Assigned

/-! ## Answers -/

/-- Since the books `s`, tasks have only left them, and every new answer is one that `New`
    speaks of. -/
structure Since (New : TaskId × TaskResult → Prop) (s s' : Supervisor) : Prop where
  tasks : ∀ id p, s'.tasks.get? id = some p → s.tasks.get? id = some p
  answers : ∀ answer ∈ s'.answers, answer ∈ s.answers ∨ New answer

namespace Since

variable {New : TaskId × TaskResult → Prop} {s' : Supervisor}

theorem refl (s : Supervisor) : s.Since New s :=
  ⟨fun _ _ hp => hp, fun _ hm => Or.inl hm⟩

theorem congr (h : s.Since New s') {s'' : Supervisor} (ht : s''.tasks = s'.tasks)
    (ha : s''.answers = s'.answers) : s.Since New s'' := by
  constructor
  · rw [ht]
    exact h.tasks
  · rw [ha]
    exact h.answers

theorem resolve (h : s.Since New s') (id : TaskId) {outcome : TaskResult}
    (hnew : ∀ v, s.Waits v id → New (v, outcome)) : s.Since New (s'.resolve id outcome) := by
  cases hp : s'.tasks.get? id with
  | none => rwa [resolve_of_none hp]
  | some p =>
    constructor
    · intro i q hq
      rw [get?_resolve] at hq
      exact h.tasks i q (Option.ite_none_left_eq_some.1 hq).2
    · intro answer hm
      rw [Supervisor.resolve, hp] at hm
      rcases List.mem_append.1 hm with hm | hm
      · exact h.answers answer hm
      · obtain ⟨v, hv, rfl⟩ := List.mem_map.1 hm
        exact Or.inr (hnew v ⟨p, h.tasks id p hp, hv⟩)

section
variable (hrefused : ∀ v reason, New (v, .unavailable reason))
include hrefused

theorem dispatch (h : s.Since New s') (accepts : WorkerId → Bool) (now : Nat) :
    s.Since New (s'.dispatch accepts now) := by
  refine ledger_dispatch ?_ ?_ ?_ accepts now rfl h
  · intro s₁ s₂ h hs
    exact h.congr hs.tasks hs.answers
  · intro s₁ id h
    exact h.resolve id fun v _ => hrefused v _
  · intro s₁ id p now worker hp h
    exact h.congr rfl rfl

theorem note (h : s.Since New s) (event : PoolEvent)
    (hnew : s.owns event.worker event.task = true → ∀ v, s.Waits v event.task →
      New (v, event.outcome)) : s.Since New (s.note event) := by
  refine ledger_note ?_ ?_ event ?_ rfl h
  · intro s₁ s₂ h hs
    exact h.congr hs.tasks hs.answers
  · intro s₁ id h
    exact h.resolve id fun v _ => hrefused v _
  · intro howns s₁ h
    exact h.resolve event.task (hnew howns)

end

theorem stop (s : Supervisor) : s.Since (fun answer => answer.2 = .cancelled) s.stop := by
  refine ledger_stop ?_ ?_ (Since.refl s)
  · intro s₁ s₂ h hs
    exact h.congr hs.tasks hs.answers
  · intro s₁ id h
    exact h.resolve id fun v _ => rfl

end Since

/-- A submission that is not put on the books is told that no worker could be started. -/
theorem answers_enqueue (s : Supervisor) (task : Task) {answer : TaskId × TaskResult}
    (hm : answer ∈ (s.enqueue task).answers) :
    answer ∈ s.answers ∨ ∃ reason, answer.2 = .unavailable reason := by
  rcases enqueue_cases s task with ⟨id, p, -, -, he⟩ | ⟨-, he⟩ | ⟨-, starts, he | he⟩
  · rw [he] at hm
    exact Or.inl hm
  · rw [he] at hm
    exact Or.inl hm
  · rw [he] at hm
    exact Or.inl hm
  · rw [he] at hm
    rcases List.mem_append.1 hm with hm | hm
    · exact Or.inl hm
    · rw [List.mem_singleton.1 hm]
      exact Or.inr ⟨_, rfl⟩

theorem InOrder.assigned (h : s.InOrder []) : s.Assigned := by
  have htasks : ∀ id p, s.tasks.get? id ≠ some p := by
    intro id p hp
    exact absurd (h.jobs.tasks id p hp).2 List.not_mem_nil
  have hhanded : s.handed = [] := by
    rw [List.eq_nil_iff_forall_not_mem]
    intro job hjob
    exact absurd (h.jobs.handed job hjob) List.not_mem_nil
  have hkeys : ∀ id, id ∉ s.tasks.keys := by
    intro id hid
    obtain ⟨p, hp⟩ := Table.mem_keys_iff.1 hid
    exact htasks id p hp
  constructor
  case busy => exact fun w id hw => (hkeys id (h.balanced.busy hw).1).elim
  case handed_nodup =>
    rw [hhanded]
    exact List.nodup_nil
  case job => exact fun w job p _ hp => (htasks _ p hp).elim
  case queue_nodup => exact h.balanced.queue_nodup
  case queue_new =>
    rw [hhanded]
    exact fun id _ => List.not_mem_nil
  case self => exact fun id p hp => (htasks id p hp).elim

theorem InOrder.owns_of_answered {done : List TaskId} (h : s.InOrder done) (hn : done.Nodup)
    {id : TaskId} {outcome : TaskResult} (hm : (id, outcome) ∈ s.answers) (w : WorkerId) :
    s.owns w id = false := by
  rw [← Bool.not_eq_true, owns_iff]
  intro hbusy
  obtain ⟨p, hp⟩ := Table.mem_keys_iff.1 (h.balanced.busy hbusy).1
  have hw : s.Waits id id := ⟨p, hp, h.keysAgree.waits_self id p hp⟩
  have hsent : outcome ∈ s.sent id := by
    rw [sent, List.mem_map]
    exact ⟨(id, outcome), by simp [hm], rfl⟩
  rcases h.kept.books.waits_or_sent hn (h.kept.books.mem_of_waits hw) with ⟨-, hnone⟩ | ⟨hfree, -⟩
  · rw [hnone] at hsent
    cases hsent
  · exact hfree id hw

end Supervisor

/-! ## Threads and events -/

theorem ParseOutcome.ended?_event (outcome : ParseOutcome) (worker : WorkerId) (task : TaskId) :
    (outcome.event worker task).outcome.ended? = some outcome := by
  cases outcome with
  | crashed reason => rfl
  | returned result =>
    cases result with
    | error error => rfl
    | ok parsed => rfl

namespace Pool

variable {p p' : Pool} {done : List TaskId} {log : List Parse} {action : PoolAction}
  {answer : TaskId × TaskResult}

/-- Threads have jobs that were handed to their worker, and events tell how parses of
    such jobs ended, where `log` are the parses that have ended. -/
structure Posted (log : List Parse) (p : Pool) : Prop where
  inbox : ∀ w job, (p.thread w).inbox = some job → (w, job) ∈ p.supervisor.handed
  parsing : ∀ w job, (p.thread w).state = .parsing job → (w, job) ∈ p.supervisor.handed
  event : ∀ e ∈ p.events, ∀ ended, e.outcome.ended? = some ended →
    ∃ job, ⟨e.worker, job, ended⟩ ∈ log ∧ job.id = e.task ∧ (e.worker, job) ∈ p.supervisor.handed

theorem getD_deliver (jobs : List (WorkerId × Task)) (threads : Table WorkerId Thread)
    (w : WorkerId) :
    ((jobs.foldl deliver threads).get? w).getD {} = (threads.get? w).getD {} ∨
      ∃ job, (w, job) ∈ jobs ∧ ((jobs.foldl deliver threads).get? w).getD {} =
        { (threads.get? w).getD {} with inbox := some job } := by
  induction jobs generalizing threads with
  | nil => exact Or.inl rfl
  | cons first jobs ih =>
    have hfirst : ((deliver threads first).get? w).getD {} =
        if first.1 = w then { (threads.get? w).getD {} with inbox := some first.2 }
        else (threads.get? w).getD {} := by
      rw [deliver, Table.get?_put]
      split
      · rename_i he
        rw [he]
        rfl
      · rfl
    rw [List.foldl_cons]
    rcases ih (deliver threads first) with he | ⟨job, hj, he⟩
    · rw [he, hfirst]
      by_cases hw : first.1 = w
      · rw [if_pos hw]
        exact Or.inr ⟨first.2, by simp [← hw], rfl⟩
      · rw [if_neg hw]
        exact Or.inl rfl
    · right
      refine ⟨job, List.mem_cons_of_mem _ hj, ?_⟩
      rw [he, hfirst]
      split <;> rfl

/-- A thread stays as it is, or it gets a job that is handed out. -/
theorem thread_withBooks (p : Pool) (s : Supervisor) (w : WorkerId) :
    (p.withBooks s).thread w = p.thread w ∨
      ∃ job, (w, job) ∈ s.handed ∧ (p.withBooks s).thread w =
        { p.thread w with inbox := some job } := by
  simp only [thread, withBooks]
  rcases getD_deliver (s.handed.drop p.supervisor.handed.length)
    (spawn p.threads s.workers.keys) w with he | ⟨job, hj, he⟩
  · rw [he, getD_spawn]
    exact Or.inl rfl
  · rw [he, getD_spawn]
    exact Or.inr ⟨job, List.mem_of_mem_drop hj, rfl⟩

theorem handed_dispatch (s : Supervisor) (accepts : WorkerId → Bool) (now : Nat) :
    s.handed <+: (s.dispatch accepts now).handed := by
  refine Supervisor.ledger_dispatch (P := fun s' => s.handed <+: s'.handed) ?_ ?_ ?_ accepts now
    rfl (List.prefix_refl _)
  · intro s₁ s₂ h hs
    rwa [hs.handed]
  · intro s₁ id h
    rwa [(Supervisor.framed_resolve _ _ _).handed]
  · intro s₁ id q now worker hq h
    exact h.trans (List.prefix_append _ _)

namespace Posted

theorem mono (h : p.Posted log) (more : List Parse) : p.Posted (log ++ more) := by
  refine { h with event := ?_ }
  intro e he ended hended
  obtain ⟨job, hm, hjob⟩ := h.event e he ended hended
  exact ⟨job, List.mem_append_left _ hm, hjob⟩

theorem withBooks (h : p.Posted log) {s : Supervisor} (hh : p.supervisor.handed <+: s.handed) :
    (p.withBooks s).Posted log := by
  constructor
  · intro w job hj
    rcases thread_withBooks p s w with he | ⟨job', hm, he⟩
    · rw [he] at hj
      exact hh.subset (h.inbox w job hj)
    · rw [he] at hj
      cases hj
      exact hm
  · intro w job hj
    rcases thread_withBooks p s w with he | ⟨job', hm, he⟩
    · rw [he] at hj
      exact hh.subset (h.parsing w job hj)
    · rw [he] at hj
      exact hh.subset (h.parsing w job hj)
  · intro e he ended hended
    obtain ⟨job, hm, hid, hjob⟩ := h.event e he ended hended
    exact ⟨job, hm, hid, hh.subset hjob⟩

theorem congr (h : p.Posted log) (ht : p'.threads = p.threads)
    (hh : p'.supervisor.handed = p.supervisor.handed)
    (he : ∀ e ∈ p'.events, e ∈ p.events ∨ e.outcome.ended? = none) : p'.Posted log := by
  constructor
  · rw [hh]
    unfold thread
    rw [ht]
    exact h.inbox
  · rw [hh]
    unfold thread
    rw [ht]
    exact h.parsing
  · intro e hm ended hended
    rw [hh]
    rcases he e hm with hm | hnone
    · exact h.event e hm ended hended
    · rw [hnone] at hended
      cases hended

theorem put (h : p.Posted log) {worker : WorkerId} {t : Thread} {events : List PoolEvent}
    (hinbox : ∀ job, t.inbox = some job → (worker, job) ∈ p.supervisor.handed)
    (hparsing : ∀ job, t.state = .parsing job → (worker, job) ∈ p.supervisor.handed)
    (hevent : ∀ e ∈ events, ∀ ended, e.outcome.ended? = some ended → ∃ job,
      ⟨e.worker, job, ended⟩ ∈ log ∧ job.id = e.task ∧ (e.worker, job) ∈ p.supervisor.handed) :
    ({ p with threads := p.threads.put worker t, events } : Pool).Posted log := by
  refine ⟨?_, ?_, hevent⟩
  · intro w job hj
    rw [thread_put] at hj
    split at hj
    · rename_i hw
      exact hw ▸ hinbox job hj
    · exact h.inbox w job hj
  · intro w job hj
    rw [thread_put] at hj
    split at hj
    · rename_i hw
      exact hw ▸ hparsing job hj
    · exact h.parsing w job hj

theorem step (h : p.Posted log) (hs : p.Step action p') :
    p'.Posted (log ++ (p.parse? action).toList) := by
  have hmore := h.mono (p.parse? action).toList
  cases hs with
  | submit | ask | askInVain | advance | plan =>
    exact hmore.congr rfl rfl fun e he => Or.inl he
  | drop => exact hmore.congr rfl rfl (List.forall_mem_nil _)
  | stop =>
    exact hmore.congr rfl (Supervisor.framed_stop p.supervisor).handed (List.forall_mem_nil _)
  | @obey task commands hrun hc =>
    obtain ⟨n, -, -, hframe⟩ := Supervisor.framed_enqueue p.supervisor task
    have hrest : ({ p with commands } : Pool).Posted (log ++ (p.parse? .takeCommand).toList) :=
      hmore.congr rfl rfl fun e he => Or.inl he
    refine hrest.withBooks ?_
    have hmono := handed_dispatch (p.supervisor.enqueue task) p.accepts p.now
    rwa [hframe.handed] at hmono
  | @hear event events hrun he =>
    obtain ⟨n, -, -, hframe⟩ := Supervisor.framed_note p.supervisor event
    have hrest : ({ p with events } : Pool).Posted (log ++ (p.parse? .takeEvent).toList) :=
      hmore.congr rfl rfl fun e hm => Or.inl (he ▸ List.mem_cons_of_mem _ hm)
    refine hrest.withBooks ?_
    have hmono := handed_dispatch (p.supervisor.note event) p.accepts p.now
    rwa [hframe.handed] at hmono
  | @receive worker state job hfree ht =>
    refine hmore.put ?_ ?_ hmore.event
    · intro job' hj
      cases hj
    · intro job' hj
      cases hj
      exact h.inbox worker job (by rw [thread_eq ht])
  | @finish worker job inbox outcome hrun ht =>
    have hhanded := h.parsing worker job (by rw [thread_eq ht])
    obtain ⟨hworker, htask⟩ : (outcome.event worker job.id).worker = worker ∧
        (outcome.event worker job.id).task = job.id := by
      cases outcome with
      | returned result => exact ⟨rfl, rfl⟩
      | crashed reason => exact ⟨rfl, rfl⟩
    refine hmore.put ?_ ?_ ?_
    · intro job' hj
      exact h.inbox worker job' (by rw [thread_eq ht]; exact hj)
    · intro job' hj
      cases outcome with
      | returned result => cases hj
      | crashed reason => cases hj
    · intro e hm ended hended
      rcases List.mem_append.1 hm with hm | hm
      · exact hmore.event e hm ended hended
      · rw [List.mem_singleton.1 hm] at hended ⊢
        rw [outcome.ended?_event] at hended
        cases hended
        refine ⟨job, ?_⟩
        rw [hworker, htask, parse?, ht]
        exact ⟨by simp, rfl, hhanded⟩
  | @finishInVain worker job inbox outcome hrun ht =>
    refine hmore.put ?_ ?_ hmore.event
    · intro job' hj
      exact h.inbox worker job' (by rw [thread_eq ht]; exact hj)
    · intro job' hj
      cases hj
  | wait | leave =>
    refine hmore.put ?_ ?_ hmore.event
    · intro job' hj
      cases hj
    · intro job' hj
      cases hj
  | @fire task timer hrun ht =>
    refine hmore.congr rfl rfl ?_
    intro e hm
    rcases List.mem_append.1 hm with hm | hm
    · exact Or.inl hm
    · rw [List.mem_singleton.1 hm]
      exact Or.inr rfl

end Posted

/-! ## Late events -/

/-- An event about a task that its worker does not have changes nothing. -/
theorem InOrder.takeEvent_of_late (h : p.InOrder done) (hrun : p.status = .running)
    {event : PoolEvent} (hlate : p.supervisor.owns event.worker event.task = false)
    (events : List PoolEvent) :
    ({ p with events := event :: events } : Pool).act .takeEvent = some { p with events } := by
  have hnote : p.supervisor.note event = p.supervisor := by
    rcases p.supervisor.note_cases event with ⟨-, he⟩ | ⟨howns, -⟩
    · exact he
    · rw [hlate] at howns
      cases howns
  have hbooks : p.supervisor.handle p.accepts p.now event = p.supervisor := by
    rw [Supervisor.handle, hnote, Supervisor.dispatch,
      Supervisor.dispatchLoop_of_settled h.books.settled, ← h.books.queued]
  have hsame : ({ p with events } : Pool).withBooks p.supervisor = { p with events } :=
    withBooks_self h.housed
  calc ({ p with events := event :: events } : Pool).act .takeEvent
      = some (({ p with events } : Pool).withBooks
          (p.supervisor.handle p.accepts p.now event)) := by
        simp only [act, hrun]
        rfl
    _ = some { p with events } := by rw [hbooks, hsame]

/-! ## Answers -/

/-- An action answers what the event says that the supervisor takes, to those who wait for
    the task which the event is about, or it answers that no worker could be started or
    that a task is cancelled. -/
theorem origin_of_answer (hs : p.Step action p') (hm : answer ∈ p'.supervisor.answers) :
    answer ∈ p.supervisor.answers ∨ (∃ reason, answer.2 = .unavailable reason) ∨
      answer.2 = .cancelled ∨
      ∃ event events, p.events = event :: events ∧
        p.supervisor.owns event.worker event.task = true ∧ answer.2 = event.outcome ∧
        p.supervisor.Waits answer.1 event.task := by
  cases hs with
  | submit | ask | askInVain | drop | wait | receive | finish | finishInVain | leave | fire
    | advance | plan => exact Or.inl hm
  | stop hrun hc =>
    rcases (Supervisor.Since.stop p.supervisor).answers answer hm with hm | hcancelled
    · exact Or.inl hm
    · exact Or.inr (Or.inr (Or.inl hcancelled))
  | @obey task commands hrun hc =>
    have hrefl : (p.supervisor.enqueue task).Since (fun a => ∃ reason, a.2 = .unavailable reason)
      (p.supervisor.enqueue task) := .refl _
    rcases (hrefl.dispatch (fun v reason => ⟨reason, rfl⟩) p.accepts p.now).answers answer hm with
      hm | hrefused
    · exact (p.supervisor.answers_enqueue task hm).imp_right Or.inl
    · exact Or.inr (Or.inl hrefused)
  | @hear event events hrun he =>
    have hrefl : p.supervisor.Since (fun a => (∃ reason, a.2 = .unavailable reason) ∨
      p.supervisor.owns event.worker event.task = true ∧ a.2 = event.outcome ∧
        p.supervisor.Waits a.1 event.task) p.supervisor := .refl _
    have hnoted := hrefl.note (fun v reason => Or.inl ⟨reason, rfl⟩) event fun howns v hw =>
      Or.inr ⟨howns, rfl, hw⟩
    rcases (hnoted.dispatch (fun v reason => Or.inl ⟨reason, rfl⟩) p.accepts p.now).answers answer
      hm with hm | hrefused | htold
    · exact Or.inl hm
    · exact Or.inr (Or.inl hrefused)
    · exact Or.inr (Or.inr (Or.inr ⟨event, events, he, htold⟩))

/-- An action answers what an event says, to those who wait for the task that the event
    is about, or an answer does not tell how a parse ended. -/
theorem answers_of_step (hs : p.Step action p') (hm : answer ∈ p'.supervisor.answers) :
    answer ∈ p.supervisor.answers ∨ answer.2.ended? = none ∨
      ∃ event ∈ p.events, p.supervisor.owns event.worker event.task = true ∧
        answer.2 = event.outcome ∧ p.supervisor.Waits answer.1 event.task := by
  rcases origin_of_answer hs hm with
    hold | ⟨reason, hrefused⟩ | hcancelled | ⟨event, events, he, htold⟩
  · exact Or.inl hold
  · exact Or.inr (Or.inl (by rw [hrefused]; rfl))
  · exact Or.inr (Or.inl (by rw [hcancelled]; rfl))
  · exact Or.inr (Or.inr ⟨event, he ▸ List.mem_cons_self, htold⟩)

/-- A pool in order whose books remember what was handed out, and where `log` are the
    parses that have ended. -/
structure Traceable (log : List Parse) (p : Pool) : Prop where
  inOrder : ∃ done, p.InOrder done
  assigned : p.supervisor.Assigned
  posted : p.Posted log

theorem Traceable.act (h : p.Traceable log) (ha : p.act action = some p') :
    p'.Traceable (log ++ (p.parse? action).toList) := by
  obtain ⟨done, ho⟩ := h.inOrder
  have hs := step_of_act ha
  refine ⟨(ho.step hs).1, ?_, h.posted.step hs⟩
  cases hs with
  | submit | ask | askInVain | drop | wait | receive | finish | finishInVain | leave | advance =>
    exact h.assigned
  | fire | plan => exact { h.assigned with }
  | stop => exact h.assigned.stop
  | hear => exact (h.assigned.note _).dispatch _ _
  | @obey task commands hrun hc =>
    have hnew := ho.notMem_done hc
    refine Supervisor.Assigned.dispatch (h.assigned.enqueue ?_ ?_) _ _
    · intro hm
      obtain ⟨job, hjob, hid⟩ := List.mem_map.1 hm
      exact hnew (hid ▸ ho.books.jobs.handed job hjob)
    · intro hm
      refine hnew (ho.books.kept.books.known _ ?_)
      exact (ho.books.balanced.mem_tasks _).2 (Or.inl hm)

theorem Traceable.start {settings : PoolSettings} {starts : StartPlan}
    (h : Pool.start settings starts = .ok p) : p.Traceable [] := by
  have ho := InOrder.start h
  refine ⟨⟨[], ho⟩, ho.books.assigned, ?_⟩
  obtain ⟨s, -, rfl⟩ := eq_of_start h
  refine Posted.withBooks ⟨?_, ?_, List.forall_mem_nil _⟩ (List.nil_prefix)
  · intro w job hj
    cases hj
  · intro w job hj
    cases hj

/-- **Late results are isolated.**  Whatever the parties of the pool do:

    * an answer that tells how a parse ended goes to a submission that waits for a task on
      the books, and it tells how the one worker ended that the task was handed to, on the
      job of just this task;
    * an event about a task that was answered changes nothing in the pool;
    * so does a timer that went off for another task than the one its worker now has. -/
theorem late_results_isolated {settings : PoolSettings} {starts : StartPlan}
    {actions : List PoolAction} {p₀ p : Pool} (hstart : Pool.start settings starts = .ok p₀)
    (hrun : p₀.run actions = some p) :
    (∀ action p', p.act action = some p' → ∀ v outcome ended,
      (v, outcome) ∈ p'.supervisor.answers → (v, outcome) ∉ p.supervisor.answers →
      outcome.ended? = some ended →
        ∃ worker pending, ⟨worker, pending.task, ended⟩ ∈ p₀.parses actions ∧
          (worker, pending.task) ∈ p.supervisor.handed ∧
          (∀ job ∈ p.supervisor.handed, job.2.id = pending.task.id →
            job = (worker, pending.task)) ∧
          p.supervisor.tasks.get? pending.task.id = some pending ∧ v ∈ pending.waiters) ∧
    (∀ id outcome, (id, outcome) ∈ p.supervisor.answers → p.status = .running →
      ∀ event events, event.task = id →
        ({ p with events := event :: events } : Pool).act .takeEvent = some { p with events }) ∧
    (∀ worker id other, p.supervisor.workers.get? worker = some (.busy other) → other ≠ id →
      p.status = .running → ∀ events,
        ({ p with events := .timedOut worker id :: events } : Pool).act .takeEvent =
          some { p with events }) := by
  have h : p.Traceable (p₀.parses actions) := by
    refine run_induction (P := Traceable) ?_ [] (Traceable.start hstart) hrun
    intro log p action p' h ha
    exact h.act ha
  obtain ⟨done, ho⟩ := h.inOrder
  refine ⟨?_, ?_, ?_⟩
  · intro action p' hact v outcome ended hm hnew hended
    rcases answers_of_step (step_of_act hact) hm with hold | hnone | ⟨event, he, howns, hout, hw⟩
    · exact (hnew hold).elim
    · rw [hended] at hnone
      cases hnone
    · subst hout
      obtain ⟨job, hlog, hid, hhanded⟩ := h.posted.event event he ended hended
      obtain ⟨pending, hpending, hv⟩ := hw
      rw [← hid] at hpending
      -- the task on the books is the job that the worker got
      have hjob := h.assigned.job _ job pending hhanded hpending
      subst hjob
      refine ⟨event.worker, pending, hlog, hhanded, ?_, hpending, hv⟩
      intro other hother hsame
      exact h.assigned.unique hhanded hother hsame
  · rintro id outcome hm hrunning event events rfl
    have hlate := ho.books.owns_of_answered ho.ids.of_append_left hm event.worker
    exact ho.takeEvent_of_late hrunning hlate events
  · intro worker id other hbusy hne hrunning events
    have hlate : ¬ p.supervisor.owns worker id = true := by
      rw [Supervisor.owns_iff, hbusy]
      intro he
      cases he
      exact hne rfl
    refine ho.takeEvent_of_late hrunning ?_ events
    exact Bool.eq_false_iff.2 hlate

/-- The only task of the sample takes too long.  It is submitted again, and the new worker
    has done it after the old one has. -/
def tardiness : List PoolAction :=
  let parsed := ParseOutcome.returned (.ok { symbols := [], parseTimeMs := 0 })
  [.submit "p" "a", .takeCommand, .receive 0, .advance 30000, .fire 1, .takeEvent,
    .submit "p" "a", .takeCommand, .receive 1, .finish 0 parsed, .takeEvent, .finish 1 parsed]

/-- The sample before the supervisor hears from the new worker. -/
def tardy : Pool :=
  (sample.run tardiness).get (by decide +kernel)

theorem late_results_isolated_sample :
    ∃ p, tardy.act .takeEvent = some p ∧ tardy.supervisor.sent 1 = [.timedOut] ∧
      (∃ (worker : WorkerId) (pending : Pending),
        ⟨worker, pending.task, .returned (.ok { symbols := [], parseTimeMs := 0 })⟩ ∈
          sample.parses tardiness ∧
        (worker, pending.task) ∈ tardy.supervisor.handed ∧ 2 ∈ pending.waiters) ∧
      ∀ events said,
        ({ tardy with events := .finished 0 1 said :: events } : Pool).act .takeEvent =
            some { tardy with events } ∧
          ({ tardy with events := .timedOut 1 1 :: events } : Pool).act .takeEvent =
            some { tardy with events } := by
  have hcheck : (tardy.act .takeEvent).any (fun p =>
      decide ((2, .ok { symbols := [], parseTimeMs := 0 }) ∈ p.supervisor.answers ∧
        (2, .ok { symbols := [], parseTimeMs := 0 }) ∉ tardy.supervisor.answers ∧
        (1, .timedOut) ∈ tardy.supervisor.answers ∧ tardy.supervisor.sent 1 = [.timedOut] ∧
        tardy.supervisor.workers.get? 1 = some (.busy 2) ∧ tardy.status = .running)) = true := by
    decide +kernel
  obtain ⟨p, hact, hcheck⟩ := (Option.any_eq_true _ _).1 hcheck
  obtain ⟨hanswer, hnew, hlate, hsent, hbusy, hrunning⟩ := of_decide_eq_true hcheck
  have hrun : sample.run tardiness = some tardy := (Option.some_get _).symm
  have h := late_results_isolated sample_started hrun
  obtain ⟨worker, pending, hparse, hhanded, -, -, hv⟩ := h.1 _ _ hact 2 _ _ hanswer hnew rfl
  refine ⟨p, hact, hsent, ⟨worker, pending, hparse, hhanded, hv⟩, ?_⟩
  intro events said
  constructor
  · exact h.2.1 1 .timedOut hlate hrunning (.finished 0 1 said) events rfl
  · exact h.2.2 1 1 2 hbusy (by decide) hrunning events

end Pool

end SourceIndex
