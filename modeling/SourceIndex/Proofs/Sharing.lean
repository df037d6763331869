/-
  Submissions of the same work share one task.

  * `Supervisor.KeysAgree`: the keys in flight are those of the tasks on the books;
  * `Supervisor.Jobs`: a property of every task on the books and of every job handed out;
  * `Supervisor.Paid`: every job is paid for by a submission that was not a duplicate;
  * `Supervisor.Together`: two submissions that wait for the same tasks were sent the same;
  * `work_shared`: a submission joins the work under way on its key, and starts a task
    of its own if there is none.
-/
import SourceIndex.Proofs.Ledger

namespace SourceIndex.Supervisor

variable {s : Supervisor} {Ended : TaskId → Prop} {done : List TaskId} {v id : TaskId}

/-! ## Keys -/

/-- The keys in flight are those of the tasks on the books, and each task has the number
    of a submission that waits for it. -/
structure KeysAgree (s : Supervisor) : Prop where
  mem_inFlight : ∀ key id,
    s.inFlight.get? key = some id ↔ ∃ p, s.tasks.get? id = some p ∧ p.task.key = key
  waits_self : ∀ id p, s.tasks.get? id = some p → id ∈ p.waiters

namespace KeysAgree

variable {s : Supervisor} {p : Pending} {task : Task}

theorem congr (h : s.KeysAgree) {s' : Supervisor} (hs : s.SameLedger s') : s'.KeysAgree := by
  constructor
  · rw [hs.inFlight, hs.tasks]
    exact h.mem_inFlight
  · rw [hs.tasks]
    exact h.waits_self

theorem unique (h : s.KeysAgree) {id' : TaskId} {p' : Pending} (hp : s.tasks.get? id = some p)
    (hp' : s.tasks.get? id' = some p') (hkey : p.task.key = p'.task.key) : id = id' := by
  have hid := (h.mem_inFlight p'.task.key id).2 ⟨p, hp, hkey⟩
  have hid' := (h.mem_inFlight p'.task.key id').2 ⟨p', hp', rfl⟩
  rw [hid] at hid'
  exact Option.some.inj hid'

theorem resolve (h : s.KeysAgree) (id : TaskId) (outcome : TaskResult) :
    (s.resolve id outcome).KeysAgree := by
  cases hp : s.tasks.get? id with
  | none => rwa [resolve_of_none hp]
  | some p =>
    have hkey := (h.mem_inFlight p.task.key id).2 ⟨p, hp, rfl⟩
    have hflight : ∀ key, (s.resolve id outcome).inFlight.get? key =
        if p.task.key = key then none else s.inFlight.get? key := by
      intro key
      simp only [Supervisor.resolve, hp, if_pos hkey]
      exact Table.get?_erase _ _ _
    constructor
    · intro key i
      rw [hflight, get?_resolve]
      by_cases hi : id = i
      · -- the task is gone, and so is its key
        subst hi
        simp only [if_true, reduceCtorEq, false_and, exists_false, iff_false]
        split
        · simp
        · rename_i hne
          intro hfound
          obtain ⟨q, hq, hk⟩ := (h.mem_inFlight key id).1 hfound
          rw [hp] at hq
          cases hq
          exact hne hk
      · -- the other tasks have other keys
        rw [if_neg hi, ← h.mem_inFlight]
        split
        · rename_i he
          rw [← he, hkey]
          simp [hi]
        · rfl
    · intro i q hq
      rw [get?_resolve] at hq
      exact h.waits_self i q (Option.ite_none_left_eq_some.1 hq).2

theorem join (h : s.KeysAgree) (hp : s.tasks.get? id = some p) (new : TaskId) :
    (s.join id p new).KeysAgree := by
  have hget : ∀ i, (s.join id p new).tasks.get? i =
      if id = i then some { p with waiters := p.waiters ++ [new] } else s.tasks.get? i :=
    fun i => Table.get?_put _ _ _ _
  constructor
  · intro key i
    rw [hget]
    refine (h.mem_inFlight key i).trans ?_
    by_cases hi : id = i
    · subst hi
      simp [hp]
    · simp [hi]
  · intro i q hq
    rw [hget] at hq
    split at hq
    · rename_i hi
      cases hq
      exact List.mem_append_left _ (hi ▸ h.waits_self id p hp)
    · exact h.waits_self i q hq

theorem withTask (h : s.KeysAgree) (hnew : s.tasks.get? task.id = none)
    (hkey : s.inFlight.get? task.key = none) : (s.withTask task).KeysAgree := by
  have hget : ∀ i, (s.withTask task).tasks.get? i =
      if task.id = i then some { task, waiters := [task.id] } else s.tasks.get? i :=
    fun i => Table.get?_put _ _ _ _
  have hflight : ∀ key, (s.withTask task).inFlight.get? key =
      if task.key = key then some task.id else s.inFlight.get? key :=
    fun key => Table.get?_put _ _ _ _
  constructor
  · intro key i
    rw [hget, hflight]
    by_cases hk : task.key = key
    · by_cases hi : task.id = i
      · simp [hk, hi]
      · -- no task on the books has the key
        subst hk
        have hnone := h.mem_inFlight task.key i
        rw [hkey] at hnone
        simp [hi, ← hnone]
    · rw [if_neg hk, h.mem_inFlight]
      by_cases hi : task.id = i
      · subst hi
        simp [hnew, hk]
      · simp [hi]
  · intro i q hq
    rw [hget] at hq
    split at hq
    · rename_i hi
      cases hq
      simp [hi]
    · exact h.waits_self i q hq

theorem enqueue (h : s.KeysAgree) (hnew : s.tasks.get? task.id = none) :
    (s.enqueue task).KeysAgree := by
  cases hkey : s.inFlight.get? task.key with
  | some id =>
    obtain ⟨p, hp, -⟩ := (h.mem_inFlight task.key id).1 hkey
    rw [enqueue_of_shared hkey hp]
    exact h.join hp task.id
  | none =>
    rw [enqueue_of_new hkey]
    split
    · split
      · refine withTask (h.congr ?_) hnew hkey
        exact ⟨rfl, rfl, rfl, rfl⟩
      · exact ⟨h.mem_inFlight, h.waits_self⟩
    · exact h.withTask hnew hkey

end KeysAgree

/-! ## Jobs -/

/-- Every task is on the books under its own number, and a property of all tasks there and
    of all jobs handed out. -/
structure Jobs (Q : Task → Prop) (s : Supervisor) : Prop where
  tasks : ∀ id p, s.tasks.get? id = some p → p.task.id = id ∧ Q p.task
  handed : ∀ job ∈ s.handed, Q job.2

namespace Jobs

variable {s s' : Supervisor} {Q : Task → Prop} {p : Pending}

theorem mono (h : s.Jobs Q) {Q' : Task → Prop} (hQ : ∀ {task}, Q task → Q' task) : s.Jobs Q' :=
  ⟨fun id p hp => (h.tasks id p hp).imp_right hQ, fun job hjob => hQ (h.handed job hjob)⟩

theorem congr (h : s.Jobs Q) (hs : s.SameLedger s') : s'.Jobs Q := by
  constructor
  · rw [hs.tasks]
    exact h.tasks
  · rw [hs.handed]
    exact h.handed

theorem resolve (h : s.Jobs Q) (id : TaskId) (outcome : TaskResult) :
    (s.resolve id outcome).Jobs Q := by
  constructor
  · intro i p hp
    rw [get?_resolve] at hp
    exact h.tasks i p (Option.ite_none_left_eq_some.1 hp).2
  · unfold Supervisor.resolve
    split <;> exact h.handed

theorem assign (h : s.Jobs Q) (now : Nat) (worker : WorkerId) (hp : s.tasks.get? id = some p) :
    (s.assign now worker p.task).Jobs Q := by
  refine ⟨h.tasks, ?_⟩
  intro job hjob
  rcases List.mem_append.1 hjob with hjob | hjob
  · exact h.handed job hjob
  · rw [List.mem_singleton.1 hjob]
    exact (h.tasks id p hp).2

theorem put (h : s.Jobs Q) (hQ : Q p.task) (ht : s'.tasks = s.tasks.put p.task.id p)
    (hh : s'.handed = s.handed) : s'.Jobs Q := by
  constructor
  · intro i q hq
    rcases Table.get?_of_put (ht ▸ hq) with ⟨rfl, rfl⟩ | ⟨-, hq⟩
    · exact ⟨rfl, hQ⟩
    · exact h.tasks i q hq
  · rw [hh]
    exact h.handed

theorem join (h : s.Jobs Q) (hp : s.tasks.get? id = some p) (new : TaskId) :
    (s.join id p new).Jobs Q := by
  obtain ⟨hid, hQ⟩ := h.tasks id p hp
  refine h.put (p := { p with waiters := p.waiters ++ [new] }) hQ ?_ rfl
  simp only [Supervisor.join, hid]

theorem enqueue (h : s.Jobs Q) {task : Task} (hQ : Q task) : (s.enqueue task).Jobs Q := by
  rcases enqueue_cases s task with ⟨id, p, -, hp, he⟩ | ⟨-, he⟩ | ⟨-, starts, he | he⟩
  · rw [he]
    exact h.join hp task.id
  · rw [he]
    exact h.put (p := { task, waiters := [task.id] }) hQ rfl rfl
  · rw [he]
    exact h.put (p := { task, waiters := [task.id] }) hQ rfl rfl
  · rw [he]
    exact ⟨h.tasks, h.handed⟩

end Jobs

/-! ## Answers sent together -/

/-- Two submissions wait for the same tasks and were sent the same answers. -/
structure Together (v v' : TaskId) (s : Supervisor) : Prop where
  waiters : ∀ id p, s.tasks.get? id = some p → p.waiters.count v = p.waiters.count v'
  sent : s.sent v = s.sent v'

namespace Together

variable {s : Supervisor} {v v' : TaskId}

theorem congr (h : s.Together v v') {s' : Supervisor} (ht : s'.tasks = s.tasks)
    (ha : s'.answers = s.answers) : s'.Together v v' := by
  constructor
  · rw [ht]
    exact h.waiters
  · rw [Supervisor.sent, Supervisor.sent, ha]
    exact h.sent

theorem resolve (h : s.Together v v') (id : TaskId) (outcome : TaskResult) :
    (s.resolve id outcome).Together v v' := by
  constructor
  · intro i p hp
    rw [get?_resolve] at hp
    exact h.waiters i p (Option.ite_none_left_eq_some.1 hp).2
  · cases hp : s.tasks.get? id with
    | none =>
      rw [resolve_of_none hp]
      exact h.sent
    | some p => rw [sent_resolve hp, sent_resolve hp, h.sent, h.waiters id p hp]

/-- Another submission is no concern of the two. -/
theorem enqueue (h : s.Together v v') {task : Task} (hv : task.id ≠ v) (hv' : task.id ≠ v') :
    (s.enqueue task).Together v v' := by
  have hput : ∀ {id : TaskId} {p : Pending}, p.waiters.count v = p.waiters.count v' →
      ∀ {s' : Supervisor}, s'.tasks = s.tasks.put id p → s'.answers = s.answers →
        s'.Together v v' := by
    intro id p hp s' ht ha
    constructor
    · intro i q hq
      rcases Table.get?_of_put (ht ▸ hq) with ⟨-, rfl⟩ | ⟨-, hq⟩
      · exact hp
      · exact h.waiters i q hq
    · rw [Supervisor.sent, Supervisor.sent, ha]
      exact h.sent
  have hself : [task.id].count v = [task.id].count v' := by simp [hv, hv']
  rcases enqueue_cases s task with ⟨id, p, -, hp, he⟩ | ⟨-, he⟩ | ⟨-, starts, he | he⟩
  · rw [he]
    refine hput (p := { p with waiters := p.waiters ++ [task.id] }) ?_ rfl rfl
    rw [List.count_append, List.count_append, hself, h.waiters id p hp]
  · rw [he]
    exact hput hself rfl rfl
  · rw [he]
    exact hput hself rfl rfl
  · rw [he]
    refine ⟨h.waiters, ?_⟩
    have hsent := h.sent
    simp only [Supervisor.sent] at hsent
    simp [Supervisor.sent, hv, hv', hsent]

end Together

/-! ## Jobs and submissions -/

/-- Every job handed out and every task in the queue is paid for by one of `n`
    submissions, and none of those was a duplicate. -/
def Paid (n : Nat) (s : Supervisor) : Prop :=
  s.handed.length + s.queue.length + s.stats.deduplicated ≤ n

namespace Paid

variable {s : Supervisor} {n : Nat}

theorem congr (h : s.Paid n) {s' : Supervisor} (hh : s'.handed = s.handed)
    (hq : s'.queue.length ≤ s.queue.length) (hd : s'.stats.deduplicated = s.stats.deduplicated) :
    s'.Paid n := by
  unfold Paid at h ⊢
  rw [hh, hd]
  omega

theorem resolve (h : s.Paid n) (id : TaskId) (outcome : TaskResult) :
    (s.resolve id outcome).Paid n := by
  unfold Supervisor.resolve
  split <;> exact h

theorem refuseAll (h : s.Paid n) (reason : String) (ids : List TaskId) :
    (Supervisor.refuseAll reason ids s).Paid n := by
  induction ids generalizing s with
  | nil => exact h
  | cons id ids ih =>
    refine ih (resolve ?_ id _)
    exact h

theorem retire (h : s.Paid n) (worker : WorkerId) : (s.retire worker).Paid n := by
  obtain ⟨starts, he | he | ⟨-, he⟩⟩ := retire_cases s worker
  · rw [he]
    exact h
  · rw [he]
    exact h
  · rw [he]
    refine refuseAll ?_ _ _
    exact h.congr rfl (Nat.zero_le _) rfl

theorem dispatch (h : s.Paid n) (accepts : WorkerId → Bool) (now : Nat) :
    (s.dispatch accepts now).Paid n := by
  have hloop : (dispatchLoop accepts now (s.queue.length + 2 * s.idle.length) s).Paid n := by
    refine dispatchLoop_induction accepts now ?_ ?_ ?_ ?_ _ h
    · intro s task queue hs hq ht
      exact hs.congr rfl (by simp [hq]) rfl
    · intro s worker idle hs hi hw
      exact hs
    · intro s task queue worker idle p state hs hq hi hp hw
      simp only [Paid, assign, hq, List.length_append, List.tail_cons, List.length_cons] at hs ⊢
      simp only [List.length_nil]
      omega
    · intro s worker idle state hs hi hw ha
      refine retire ?_ worker
      exact hs
  exact hloop

theorem enqueue (h : s.Paid n) (task : Task) : (s.enqueue task).Paid (n + 1) := by
  unfold Paid at h
  rcases enqueue_cases s task with ⟨id, p, -, -, he⟩ | ⟨-, he⟩ | ⟨-, starts, he | he⟩
  · rw [he]
    simp only [Paid]
    omega
  · rw [he]
    simp only [Paid, withTask, List.length_append, List.length_singleton]
    omega
  · rw [he]
    simp only [Paid, withTask, withWorker, List.length_append, List.length_singleton]
    omega
  · rw [he]
    simp only [Paid, withoutWorker]
    omega

theorem note (h : s.Paid n) (event : PoolEvent) : (s.note event).Paid n := by
  have hcount : ({ s with stats := event.count s.stats } : Supervisor).Paid n := by
    refine h.congr rfl (Nat.le_refl _) ?_
    rcases event with ⟨_, _, _ | _⟩ | _ | _ <;> rfl
  rcases note_cases s event with ⟨-, he⟩ | ⟨-, ⟨said, -, -, he⟩ | ⟨-, he⟩⟩
  · rw [he]
    exact h
  · rw [he]
    refine resolve ?_ _ _
    exact hcount
  · rw [he]
    refine resolve ?_ _ _
    exact hcount.retire event.worker

theorem stop (h : s.Paid n) : s.stop.Paid n := by
  have hall : ∀ (ids : List TaskId) {s : Supervisor}, s.Paid n → (cancelAll ids s).Paid n := by
    intro ids
    induction ids with
    | nil => exact id
    | cons id ids ih => exact fun hs => ih (hs.resolve id .cancelled)
  have hcancelled : (cancelAll s.tasks.keys { s with timers := {} }).Paid n := by
    refine hall _ ?_
    exact h
  exact hcancelled.congr rfl (Nat.zero_le _) rfl

end Paid

/-! ## Runs -/

theorem Books.mem_of_waits (h : s.Books Ended done) (hw : s.Waits v id) : v ∈ done :=
  h.ledger.mem_iff.1 (List.mem_append_left _ (h.exists_waits_iff.1 ⟨id, hw⟩))

/-- A submission that joins a task goes together with all that wait for it. -/
theorem Books.together_join (h : s.Books Ended done) (hn : done.Nodup) {new : TaskId} {p : Pending}
    (hp : s.tasks.get? id = some p) (hv : v ∈ p.waiters) (hnew : new ∉ done) :
    (s.join id p new).Together new v := by
  have hw : s.Waits v id := ⟨p, hp, hv⟩
  have hdone := h.mem_of_waits hw
  have hne : new ≠ v := fun he => hnew (he ▸ hdone)
  have hstranger : ∀ i q, s.tasks.get? i = some q → q.waiters.count new = 0 := by
    intro i q hq
    exact List.count_eq_zero.2 fun hm => hnew (h.mem_of_waits ⟨q, hq, hm⟩)
  constructor
  · intro i q hq
    change (s.tasks.put id _).get? i = _ at hq
    rw [Table.get?_put] at hq
    split at hq
    · have hflat := (h.ledger.nodup_iff.2 hn).of_append_left
      have hnodup := (List.nodup_flatMap.1 hflat).1 p (Table.mem_values_of_get? hp)
      cases hq
      simp [hstranger id p hp, List.count_eq_one_of_mem hnodup hv, hne]
    · rename_i hi
      rw [hstranger i q hq, eq_comm, List.count_eq_zero]
      intro hm
      exact hi (h.waits_unique hn hdone hw ⟨q, hq, hm⟩).symm
  · have hnone : s.sent new = [] := by
      refine List.eq_nil_of_length_eq_zero ?_
      rw [length_sent, List.count_eq_zero]
      intro hm
      exact hnew (h.ledger.mem_iff.1 (List.mem_append_right _ hm))
    change s.sent new = s.sent v
    rcases h.waits_or_sent hn hdone with ⟨-, hsent⟩ | ⟨hfree, -⟩
    · rw [hnone, hsent]
    · exact (hfree id hw).elim

/-- Keys and jobs of the books that have processed the submissions `done`. -/
theorem ledgerInvariant_keysAgree :
    LedgerInvariant fun done s => s.KeysAgree ∧ s.Jobs (·.id ∈ done) := by
  constructor
  case same =>
    intro done s s' h hs
    exact ⟨h.1.congr hs, h.2.congr hs⟩
  case resolve =>
    intro done s id outcome h
    exact ⟨h.1.resolve id outcome, h.2.resolve id outcome⟩
  case assign =>
    intro done s id p now worker hp h
    exact ⟨⟨h.1.mem_inFlight, h.1.waits_self⟩, h.2.assign now worker hp⟩
  case enqueue =>
    intro done s task hnew h
    refine ⟨h.1.enqueue ?_, Jobs.enqueue (h.2.mono (List.mem_append_left _)) (by simp)⟩
    cases hp : s.tasks.get? task.id with
    | none => rfl
    | some p =>
      obtain ⟨hid, hdone⟩ := h.2.tasks task.id p hp
      exact (hnew (hid ▸ hdone)).elim

/-- A submission without a job of its own, and one that it goes together with. -/
theorem ledgerInvariant_together (v v' : TaskId) :
    LedgerInvariant fun done s =>
      (v ∈ done ∧ v' ∈ done) ∧ s.Jobs (·.id ≠ v) ∧ s.Together v v' := by
  constructor
  case same =>
    intro done s s' h hs
    exact ⟨h.1, h.2.1.congr hs, h.2.2.congr hs.tasks hs.answers⟩
  case resolve =>
    intro done s id outcome h
    exact ⟨h.1, h.2.1.resolve id outcome, h.2.2.resolve id outcome⟩
  case assign =>
    intro done s id p now worker hp h
    exact ⟨h.1, h.2.1.assign now worker hp, h.2.2.congr rfl rfl⟩
  case enqueue =>
    intro done s task hnew h
    have hne : ∀ {u}, u ∈ done → task.id ≠ u := fun hu he => hnew (he ▸ hu)
    exact ⟨⟨List.mem_append_left _ h.1.1, List.mem_append_left _ h.1.2⟩,
      h.2.1.enqueue (hne h.1.1), h.2.2.enqueue (hne h.1.1) (hne h.1.2)⟩

theorem keysAgree_opened (count : Nat) (starts : StartPlan) :
    (opened count starts).KeysAgree ∧ (opened count starts).Jobs (·.id ∈ []) := by
  refine opened_induction (P := fun s => s.KeysAgree ∧ s.Jobs (·.id ∈ [])) starts ?_ ?_ count
  · have hnone : ∀ (id : TaskId) (p : Pending),
        ({ starts } : Supervisor).tasks.get? id ≠ some p := by
      intro id p hp
      cases hp
    refine ⟨⟨?_, fun id p hp => (hnone id p hp).elim⟩,
      ⟨fun id p hp => (hnone id p hp).elim, List.forall_mem_nil _⟩⟩
    intro key id
    constructor
    · intro h
      cases h
    · rintro ⟨p, hp, -⟩
      exact (hnone id p hp).elim
  · intro s h
    exact ⟨h.1.congr (sameLedger_startWorker s), h.2.congr (sameLedger_startWorker s)⟩

theorem Paid.run {count : Nat} {starts : StartPlan} {ms : List Message}
    (hn : (submissions ms).Nodup) :
    ((opened count starts).run ms).Paid (submissions ms).length := by
  have hopened : (opened count starts).Paid 0 := by
    refine opened_induction starts (Nat.le_refl 0) ?_ count
    intro s h
    obtain ⟨starts, he | he⟩ := startWorker_cases s
    · rw [he]
      exact h
    · rw [he]
      exact h
  refine (List.nil_append (submissions ms)).symm ▸
    run_induction (P := fun done s => s.Paid done.length) ?_ ?_ ?_ ?_ hopened hn
  · intro done s accepts now task hnew h
    rw [List.length_append]
    exact (h.enqueue task).dispatch accepts now
  · intro done s accepts now event h
    exact (h.note event).dispatch accepts now
  · intro done s h
    exact h.stop
  · intro done s starts timers h
    exact h

/-- **Submissions of the same work share one task.**  Between messages the keys in flight
    are exactly those of the tasks on the books, no two of which have the same key, and no
    task that was answered is among them.  A submission whose key is in flight makes no
    job and is sent, at any later time, what all who wait for that task were sent.  Any
    other submission starts a task, unless there is no worker and none can be started.
    At most as many jobs are handed out as there were submissions that joined no task. -/
theorem work_shared {count : Nat} {starts : StartPlan} {ms : List Message} {s : Supervisor}
    (hrun : (opened count starts).run ms = s) (hids : (submissions ms).Nodup) :
    (∀ key id, s.inFlight.get? key = some id ↔
      ∃ p, s.tasks.get? id = some p ∧ p.task.key = key) ∧
    (∀ id id' p p', s.tasks.get? id = some p → s.tasks.get? id' = some p' →
      p.task.key = p'.task.key → id = id') ∧
    (∀ id, s.sent id ≠ [] → s.tasks.get? id = none) ∧
    s.handed.length + s.stats.deduplicated ≤ (submissions ms).length ∧
    ∀ task : Task, task.id ∉ submissions ms →
      (∀ id p, s.tasks.get? id = some p → p.task.key = task.key →
        s.enqueue task = s.join id p task.id ∧
        ∀ accepts now later, (submissions ms ++ task.id :: submissions later).Nodup →
          let s' := (s.submit accepts now task).run later
          (∀ job ∈ s'.handed, job.2.id ≠ task.id) ∧
            ∀ v ∈ p.waiters, s'.sent task.id = s'.sent v) ∧
      ((∀ id p, s.tasks.get? id = some p → p.task.key ≠ task.key) →
        s.enqueue task =
          if s.workers.isEmpty then
            if s.starts.next.1 then (s.withWorker s.starts.next.2).withTask task
            else s.turnAway task.id
          else s.withTask task) := by
  have hbooks : s.Books (fun _ => False) (submissions ms) :=
    hrun ▸ (Books.opened count starts).run hids
  obtain ⟨hagree, hjobs⟩ : s.KeysAgree ∧ s.Jobs (·.id ∈ submissions ms) :=
    hrun ▸ ledgerInvariant_keysAgree.run (keysAgree_opened count starts) hids
  have hpaid : s.Paid (submissions ms).length := hrun ▸ Paid.run hids
  refine ⟨hagree.mem_inFlight, ?_, ?_, ?_, ?_⟩
  · intro id id' p p' hp hp' hkey
    exact hagree.unique hp hp' hkey
  · intro id hsent
    cases hp : s.tasks.get? id with
    | none => rfl
    | some p =>
      have hw : s.Waits id id := ⟨p, hp, hagree.waits_self id p hp⟩
      rcases hbooks.waits_or_sent hids (hbooks.mem_of_waits hw) with ⟨-, hnone⟩ | ⟨hfree, -⟩
      · exact (hsent hnone).elim
      · exact (hfree id hw).elim
  · unfold Paid at hpaid
    omega
  · intro task hnew
    constructor
    · intro id p hp hkey
      have hjoin := enqueue_of_shared ((hagree.mem_inFlight _ _).2 ⟨p, hp, hkey⟩) hp
      refine ⟨hjoin, ?_⟩
      intro accepts now later hn
      have hrest : (submissions ms ++ [task.id] ++ submissions later).Nodup := by simpa using hn
      have hstranger : s.Jobs (·.id ≠ task.id) := hjobs.mono fun hd he => hnew (he ▸ hd)
      -- whoever waits for the task goes together with the submission from now on
      have hlater : ∀ v ∈ p.waiters,
          let s' := (s.submit accepts now task).run later
          s'.Jobs (·.id ≠ task.id) ∧ s'.Together task.id v := by
        intro v hv
        have hdone : v ∈ submissions ms ++ [task.id] :=
          List.mem_append_left _ (hbooks.mem_of_waits ⟨p, hp, hv⟩)
        have hI := ledgerInvariant_together task.id v
        refine (hI.run (hI.dispatch ⟨⟨by simp, hdone⟩, ?_, ?_⟩ accepts now) hrest).2
        · rw [hjoin]
          exact hstranger.join hp task.id
        · rw [hjoin]
          exact hbooks.together_join hids hp hv hnew
      refine ⟨(hlater id (hagree.waits_self id p hp)).1.handed, ?_⟩
      intro v hv
      exact (hlater v hv).2.sent
    · intro hfree
      refine enqueue_of_new ?_
      cases hk : s.inFlight.get? task.key with
      | none => rfl
      | some id =>
        obtain ⟨p, hp, hkey⟩ := (hagree.mem_inFlight _ _).1 hk
        exact (hfree id p hp hkey).elim

/-- The only worker has the first of two tasks. -/
def Message.twins : List Message :=
  let submit := fun id content =>
    Message.submit (fun _ => true) 0 (Task.ofContent id "p" content 10)
  [submit 1 "a", submit 2 "b"]

/-- A third submission joins the second task, which times out once the first has ended. -/
theorem work_shared_twins :
    let s := (opened 1 {}).run Message.twins
    let task := Task.ofContent 3 "p" "b" 10
    let s' := (s.submit (fun _ => true) 1 task).run
      [.event (fun _ => true) 2 (.crashed 0 1 ""), .event (fun _ => true) 12 (.timedOut 1 2)]
    s.queue = [2] ∧ (∀ job ∈ s'.handed, job.2.id ≠ 3) ∧ s'.sent 3 = s'.sent 2 ∧
      s'.sent 2 = [.timedOut] ∧ s'.handed.map (·.2.id) = [1, 2] := by
  have h := work_shared (s := (opened 1 {}).run Message.twins) rfl (by decide +kernel)
  have hjoin := (h.2.2.2.2 (Task.ofContent 3 "p" "b" 10) (by decide +kernel)).1 2
    { task := Task.ofContent 2 "p" "b" 10, waiters := [2] } (by decide +kernel) rfl
  have hlater := hjoin.2 (fun _ => true) 1
    [.event (fun _ => true) 2 (.crashed 0 1 ""), .event (fun _ => true) 12 (.timedOut 1 2)]
    (by decide +kernel)
  exact ⟨by decide +kernel, hlater.1, hlater.2 2 (by simp), by decide +kernel, by decide +kernel⟩

end SourceIndex.Supervisor
