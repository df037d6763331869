/-
  The books of the pool account for every submission.

  * `Supervisor.Books Ended done`: the submissions `done` are those that wait for a task
    and those that were answered, each of them once, and every task on the books waits
    in the queue or is with a worker, up to the tasks of which `Ended` holds: these are
    about to be answered;
  * `Books.resolve`, `Books.retire`, `Books.dispatch`, `Books.enqueue`, `Books.note`,
    `Books.stop`: what each operation makes of that;
  * `Books.run`: the books account for every submission of a run;
  * `answered_once`: a submission waits for exactly one task and was sent nothing, or
    it waits for none and was sent exactly one answer; once nothing is queued or
    running, and after a shutdown, all were sent theirs.
-/
import SourceIndex.Proofs.Messages
import SourceIndex.Proofs.Supervisor
import SourceIndex.Proofs.Table

namespace SourceIndex.Supervisor

variable {s : Supervisor}

/-- The books account for the submissions `done`.  Workers are numbered in the order of
    their starts, and those that wait for work have none. -/
structure Books (Ended : TaskId → Prop) (done : List TaskId) (s : Supervisor) : Prop where
  tasks_nodup : s.tasks.keys.Nodup
  own : ∀ {id p}, s.tasks.get? id = some p → p.task.id = id
  known : ∀ id ∈ s.tasks.keys, id ∈ done
  ledger : (s.tasks.values.flatMap (·.waiters) ++ s.answers.map (·.1)).Perm done
  placed : ∀ id ∈ s.tasks.keys, Ended id ∨ id ∈ s.queue ∨ ∃ w, s.workers.get? w = some (.busy id)
  idle_nodup : s.idle.Nodup
  idle_lt : ∀ w ∈ s.idle, w < s.nextWorker
  worker_lt : ∀ w ∈ s.workers.keys, w < s.nextWorker
  idle_free : ∀ w ∈ s.idle, ∀ task, s.workers.get? w ≠ some (.busy task)

/-! ## Tasks that are dropped from the books -/

theorem mem_keys_resolve {id i : TaskId} {outcome : TaskResult} :
    i ∈ (s.resolve id outcome).tasks.keys ↔ i ≠ id ∧ i ∈ s.tasks.keys := by
  unfold resolve
  split
  · rename_i hnone
    refine ⟨fun hi => ⟨?_, hi⟩, fun hi => hi.2⟩
    rintro rfl
    exact Table.get?_eq_none_iff.1 hnone hi
  · exact Table.mem_keys_erase

theorem keys_stop (s : Supervisor) : s.stop.tasks.keys = [] := by
  have hleft : ∀ (ids : List TaskId) {s : Supervisor} {i : TaskId},
      i ∈ (cancelAll ids s).tasks.keys → i ∈ s.tasks.keys ∧ i ∉ ids := by
    intro ids
    induction ids with
    | nil => exact fun hi => ⟨hi, List.not_mem_nil⟩
    | cons id ids ih =>
      intro s i hi
      obtain ⟨hi, hids⟩ := ih hi
      obtain ⟨hne, hi⟩ := mem_keys_resolve.1 hi
      exact ⟨hi, fun hm => (List.mem_cons.1 hm).elim hne hids⟩
  refine List.eq_nil_iff_forall_not_mem.2 fun i hi => ?_
  obtain ⟨hi, hids⟩ := hleft s.tasks.keys hi
  exact hids hi

theorem keys_run_of_shutdown {ms : List Message} (hm : .shutdown ∈ ms) :
    (s.run ms).tasks.keys = [] := by
  induction ms generalizing s with
  | nil => cases hm
  | cons m ms ih =>
    cases m with
    | shutdown => exact keys_stop s
    | submit | event | disturb => exact ih ((List.mem_cons.1 hm).resolve_left (by simp))

namespace Books

variable {s : Supervisor} {Ended : TaskId → Prop} {done : List TaskId} {worker : WorkerId}
  {idle : List WorkerId} {task : TaskId} {p : Pending}

theorem mono (h : s.Books Ended done) {Ended' : TaskId → Prop}
    (hE : ∀ {id}, Ended id → Ended' id) : s.Books Ended' done :=
  { h with placed := fun id hid => (h.placed id hid).imp_left hE }

theorem congr (h : s.Books Ended done) {s' : Supervisor} (ht : s'.tasks = s.tasks)
    (ha : s'.answers = s.answers) (hq : s'.queue = s.queue) (hw : s'.workers = s.workers)
    (hi : s'.idle = s.idle) (hn : s'.nextWorker = s.nextWorker) : s'.Books Ended done := by
  constructor
  case tasks_nodup => rw [ht]; exact h.tasks_nodup
  case own => rw [ht]; exact h.own
  case known => rw [ht]; exact h.known
  case ledger => rw [ht, ha]; exact h.ledger
  case placed => rw [ht, hq, hw]; exact h.placed
  case idle_nodup => rw [hi]; exact h.idle_nodup
  case idle_lt => rw [hi, hn]; exact h.idle_lt
  case worker_lt => rw [hw, hn]; exact h.worker_lt
  case idle_free => rw [hi, hw]; exact h.idle_free

/-! ## Workers -/

theorem get?_nextWorker (h : s.Books Ended done) : s.workers.get? s.nextWorker = none :=
  Table.get?_eq_none_iff.2 fun hm => Nat.lt_irrefl _ (h.worker_lt _ hm)

theorem withWorker (h : s.Books Ended done) (starts : StartPlan) :
    (s.withWorker starts).Books Ended done := by
  have hnew := h.get?_nextWorker
  have hbusy : ∀ {w task}, s.workers.get? w = some (.busy task) →
      (s.workers.put s.nextWorker .idle).get? w = some (.busy task) := by
    intro w task hw
    rw [Table.get?_put, if_neg fun he => ?_]
    · exact hw
    · rw [← he, hnew] at hw
      cases hw
  exact { h with
    placed := fun id hid => (h.placed id hid).imp_right
      (Or.imp_right (Exists.imp fun w hw => hbusy hw))
    idle_nodup := by
      refine List.Nodup.append h.idle_nodup (List.nodup_singleton _) fun w hw hw' => ?_
      rw [List.mem_singleton.1 hw'] at hw
      exact Nat.lt_irrefl _ (h.idle_lt _ hw)
    idle_lt := fun w hw => by
      rcases List.mem_append.1 hw with hw | hw
      · exact Nat.lt_succ_of_lt (h.idle_lt w hw)
      · rw [List.mem_singleton.1 hw]
        exact Nat.lt_succ_self _
    worker_lt := fun w hw => by
      rcases Table.mem_keys_put.1 hw with rfl | hw
      · exact Nat.lt_succ_self _
      · exact Nat.lt_succ_of_lt (h.worker_lt w hw)
    idle_free := fun w hw task => by
      change (s.workers.put s.nextWorker .idle).get? w ≠ _
      rw [Table.get?_put]
      split
      · simp
      · rename_i hne
        rcases List.mem_append.1 hw with hw | hw
        · exact h.idle_free w hw task
        · exact (hne (List.mem_singleton.1 hw).symm).elim }

theorem withoutWorker (h : s.Books Ended done) (starts : StartPlan) :
    (s.withoutWorker starts).Books Ended done :=
  { h with
    idle_lt := fun w hw => Nat.lt_succ_of_lt (h.idle_lt w hw)
    worker_lt := fun w hw => Nat.lt_succ_of_lt (h.worker_lt w hw) }

theorem startWorker (h : s.Books Ended done) : s.startWorker.2.Books Ended done := by
  obtain ⟨starts, he | he⟩ := startWorker_cases s
  · rw [he]; exact h.withWorker starts
  · rw [he]; exact h.withoutWorker starts

theorem withIdle (h : s.Books Ended done) (hs : idle.Sublist s.idle) :
    ({ s with idle } : Supervisor).Books Ended done :=
  { h with
    idle_nodup := hs.nodup h.idle_nodup
    idle_lt := fun w hw => h.idle_lt w (hs.subset hw)
    idle_free := fun w hw => h.idle_free w (hs.subset hw) }

theorem dismiss (h : s.Books Ended done)
    (hw : ∀ task, s.workers.get? worker = some (.busy task) → Ended task) :
    (s.dismiss worker).Books Ended done := by
  refine { h.withIdle List.filter_sublist with
    placed := fun id hid => ?_
    worker_lt := fun w hm => h.worker_lt w (Table.mem_keys_erase.1 hm).2
    idle_free := fun w hm task => ?_ }
  · rcases h.placed id hid with he | hq | ⟨w, hb⟩
    · exact Or.inl he
    · exact Or.inr (Or.inl hq)
    · by_cases hne : worker = w
      · exact Or.inl (hw id (hne ▸ hb))
      · refine Or.inr (Or.inr ⟨w, ?_⟩)
        change (s.workers.erase worker).get? w = _
        rw [Table.get?_erase, if_neg hne, hb]
  · change (s.workers.erase worker).get? w ≠ _
    rw [Table.get?_erase]
    split
    · simp
    · exact h.idle_free w (List.mem_of_mem_filter hm) task

/-! ## Answers -/

/-- An answer moves all who wait for a task from one side of the ledger to the other. -/
theorem resolve (h : s.Books Ended done) (id : TaskId) (outcome : TaskResult) :
    (s.resolve id outcome).Books (fun i => Ended i ∧ i ≠ id) done := by
  unfold Supervisor.resolve
  split
  · rename_i hnone
    refine { h with placed := fun i hi => (h.placed i hi).imp_left fun he => ⟨he, ?_⟩ }
    rintro rfl
    exact Table.get?_eq_none_iff.1 hnone hi
  rename_i p hp
  have hvalues := Table.perm_values_erase h.tasks_nodup hp
  refine { h with
    tasks_nodup := Table.nodup_erase h.tasks_nodup id
    own := fun {i q} hq => ?_
    known := fun i hi => h.known i (Table.mem_keys_erase.1 hi).2
    ledger := ?_
    placed := fun i hi => ?_ }
  · rw [Table.get?_erase] at hq
    exact h.own (Option.ite_none_left_eq_some.1 hq).2
  · have hsent : (s.answers ++ p.waiters.map fun waiter => (waiter, outcome)).map (·.1) =
        s.answers.map (·.1) ++ p.waiters := by simp [Function.comp_def]
    rw [hsent, ← List.append_assoc]
    refine List.perm_append_comm.trans (List.Perm.trans ?_ h.ledger)
    rw [← List.append_assoc]
    exact (hvalues.symm.flatMap_right (·.waiters)).append_right _
  · obtain ⟨hne, hi⟩ := Table.mem_keys_erase.1 hi
    exact (h.placed i hi).imp_left fun he => ⟨he, hne⟩

theorem finish (h : s.Books Ended done) (id : TaskId) (outcome : TaskResult) :
    (s.finish id outcome).Books (fun i => Ended i ∧ i ≠ id) done := by
  refine resolve ?_ id outcome
  exact h.congr rfl rfl rfl rfl rfl rfl

theorem refuseAll (h : s.Books Ended done) (reason : String) (ids : List TaskId) :
    (Supervisor.refuseAll reason ids s).Books (fun i => Ended i ∧ i ∉ ids) done := by
  induction ids generalizing s Ended with
  | nil => exact h.mono fun he => ⟨he, List.not_mem_nil⟩
  | cons id ids ih =>
    refine (ih (resolve ?_ id _)).mono fun he => ⟨he.1.1, ?_⟩
    · exact h.congr rfl rfl rfl rfl rfl rfl
    · rw [List.mem_cons, not_or]
      exact ⟨he.1.2, he.2⟩

/-- A worker may be replaced if its task, should it have one, is about to be answered.
    If no worker is left, the tasks in the queue are answered. -/
theorem retire (h : s.Books Ended done)
    (hw : ∀ task, s.workers.get? worker = some (.busy task) → Ended task) :
    (s.retire worker).Books Ended done := by
  have hd := h.dismiss hw
  obtain ⟨starts, he | he | ⟨hempty, he⟩⟩ := retire_cases s worker
  · rw [he]
    exact hd.withWorker starts
  · rw [he]
    exact (hd.withoutWorker starts).congr rfl rfl rfl rfl rfl rfl
  · have hfree : ∀ w, (s.dismiss worker).workers.get? w = none := by
      intro w
      have hp : (s.dismiss worker).workers.pairs = [] := List.isEmpty_iff.1 hempty
      rw [Table.get?, hp]
      rfl
    have hgiven : ({ ((s.dismiss worker).withoutWorker starts).recount with queue := [] } :
        Supervisor).Books (fun i => Ended i ∨ i ∈ s.queue) done :=
      { hd.withoutWorker starts with
        placed := fun i hi => by
          rcases hd.placed i hi with he | hq | ⟨w, hb⟩
          · exact Or.inl (Or.inl he)
          · exact Or.inl (Or.inr hq)
          · rw [hfree w] at hb
            cases hb }
    rw [he]
    exact (hgiven.refuseAll _ _).mono fun hi => hi.1.resolve_right hi.2

/-! ## Handing out tasks -/

/-- A task that goes from the queue to a worker stays in its place on the books. -/
theorem assign (h : s.Books Ended done) {queue : List TaskId} (now : Nat)
    (hq : s.queue = task :: queue) (hi : s.idle = worker :: idle)
    (hp : s.tasks.get? task = some p) :
    (s.assign now worker p.task).Books Ended done := by
  have hmem : worker ∈ s.idle := hi ▸ List.mem_cons_self
  have hget : ∀ {w}, w ≠ worker →
      (s.workers.put worker (.busy p.task.id)).get? w = s.workers.get? w := by
    intro w hne
    rw [Table.get?_put, if_neg hne.symm]
  have hnew : ∀ w ∈ s.idle.tail, w ≠ worker := by
    rintro w hw rfl
    have hn := h.idle_nodup
    rw [hi] at hn hw
    exact (List.nodup_cons.1 hn).1 hw
  refine { h.withIdle s.idle.tail_sublist with
    placed := fun id hid => ?_
    worker_lt := fun w hw => ?_
    idle_free := fun w hw t => ?_ }
  · rcases h.placed id hid with he | hm | ⟨w, hb⟩
    · exact Or.inl he
    · rw [hq] at hm
      rcases List.mem_cons.1 hm with rfl | hm
      · refine Or.inr (Or.inr ⟨worker, ?_⟩)
        change (s.workers.put worker (.busy p.task.id)).get? worker = _
        rw [Table.get?_put, if_pos rfl, h.own hp]
      · refine Or.inr (Or.inl ?_)
        change id ∈ s.queue.tail
        rw [hq]
        exact hm
    · refine Or.inr (Or.inr ⟨w, ?_⟩)
      have hne : w ≠ worker := fun he => h.idle_free worker hmem id (he ▸ hb)
      exact (hget hne).trans hb
  · rcases Table.mem_keys_put.1 hw with rfl | hw
    · exact h.idle_lt w hmem
    · exact h.worker_lt w hw
  · change (s.workers.put worker (.busy p.task.id)).get? w ≠ _
    rw [hget (hnew w hw)]
    exact h.idle_free w (List.mem_of_mem_tail hw) t

theorem dispatch (h : s.Books (fun _ => False) done) (accepts : WorkerId → Bool) (now : Nat) :
    (s.dispatch accepts now).Books (fun _ => False) done := by
  refine dispatch_induction accepts now (P := Books (fun _ => False) done)
    (fun {s task queue} h hq ht => ?_)
    (fun h hi _ => h.withIdle (hi ▸ List.sublist_cons_self _ _))
    (fun h hq hi hp _ => h.assign now hq hi hp)
    (fun {s worker idle _} h hi _ _ => ?_)
    (fun h => h.congr rfl rfl rfl rfl rfl rfl) h
  · refine { h with placed := fun id hid => ?_ }
    rcases h.placed id hid with he | hm | hb
    · exact he.elim
    · rw [hq] at hm
      rcases List.mem_cons.1 hm with rfl | hm
      · exact (Table.get?_eq_none_iff.1 ht hid).elim
      · exact Or.inr (Or.inl hm)
    · exact Or.inr (Or.inr hb)
  · refine retire (h.withIdle (hi ▸ List.sublist_cons_self _ _)) fun task hb => ?_
    exact h.idle_free worker (hi ▸ List.mem_cons_self) task hb

/-! ## Messages -/

theorem joined (h : s.Books Ended done) {id : TaskId} (new : TaskId) (stats : PoolStats)
    (hp : s.tasks.get? id = some p) :
    ({ s with
      tasks := s.tasks.put id { p with waiters := p.waiters ++ [new] }
      stats } : Supervisor).Books Ended (done ++ [new]) := by
  have hkeys := Table.keys_put_old { p with waiters := p.waiters ++ [new] } hp
  obtain ⟨l₁, l₂, hold, hput, -⟩ := Table.exists_values_split hp
  refine { h with
    tasks_nodup := Table.nodup_put h.tasks_nodup _ _
    own := fun {i q} hq => ?_
    known := fun i hi => List.mem_append_left _ (h.known i (hkeys ▸ hi))
    ledger := ?_
    placed := fun i hi => h.placed i (hkeys ▸ hi) }
  · rcases Table.get?_of_put hq with ⟨rfl, rfl⟩ | ⟨-, hq⟩
    · have hown := h.own hp
      exact hown
    · exact h.own hq
  · refine List.Perm.trans ?_ (h.ledger.append_right [new])
    rw [hput, hold]
    simp only [List.flatMap_append, List.flatMap_cons, List.append_assoc]
    refine (List.Perm.refl _).append ((List.Perm.refl _).append ?_)
    rw [← List.append_assoc (l₂.flatMap _)]
    exact List.perm_append_comm

theorem withTask (h : s.Books Ended done) {task : Task} (hnew : task.id ∉ done) :
    (s.withTask task).Books Ended (done ++ [task.id]) := by
  have hkey : task.id ∉ s.tasks.keys := fun hm => hnew (h.known _ hm)
  refine { h with
    tasks_nodup := Table.nodup_put h.tasks_nodup _ _
    own := fun {i q} hq => ?_
    known := fun i hi => ?_
    ledger := ?_
    placed := fun i hi => ?_ }
  · rcases Table.get?_of_put hq with ⟨rfl, rfl⟩ | ⟨-, hq⟩
    · rfl
    · exact h.own hq
  · rcases Table.mem_keys_put.1 hi with rfl | hi
    · exact List.mem_append_right _ List.mem_cons_self
    · exact List.mem_append_left _ (h.known i hi)
  · refine List.Perm.trans ?_ (h.ledger.append_right [task.id])
    change ((s.tasks.put task.id { task, waiters := [task.id] }).values.flatMap _ ++ _).Perm _
    rw [Table.values_put_new _ hkey]
    simp only [List.flatMap_append, List.flatMap_cons, List.flatMap_nil, List.append_assoc]
    exact (List.Perm.refl _).append List.perm_append_comm
  · rcases Table.mem_keys_put.1 hi with rfl | hi
    · exact Or.inr (Or.inl (List.mem_append_right _ List.mem_cons_self))
    · exact (h.placed i hi).imp_right (Or.imp_left (List.mem_append_left _))

theorem enqueue (h : s.Books Ended done) {task : Task} (hnew : task.id ∉ done) :
    (s.enqueue task).Books Ended (done ++ [task.id]) := by
  rcases enqueue_cases s task with ⟨id, p, -, hp, he⟩ | ⟨-, he⟩ | ⟨-, starts, he | he⟩
  · rw [he]
    exact h.joined task.id _ hp
  · rw [he]
    exact h.withTask hnew
  · rw [he]
    exact (h.withWorker starts).withTask hnew
  · rw [he]
    refine { h.withoutWorker starts with
      known := fun i hi => List.mem_append_left _ (h.known i hi)
      ledger := ?_ }
    rw [List.map_append, ← List.append_assoc]
    exact h.ledger.append_right _

theorem freed (h : s.Books (fun _ => False) done) (stats : PoolStats)
    (hbusy : s.workers.get? worker = some (.busy task)) :
    (s.reclaim worker stats).Books (· = task) done := by
  have hgone : worker ∉ s.idle := fun hm => h.idle_free worker hm task hbusy
  have hlt : worker < s.nextWorker := h.worker_lt worker (Table.mem_keys_iff.2 ⟨_, hbusy⟩)
  refine { h with
    placed := fun id hid => ?_
    idle_nodup := ?_
    idle_lt := fun w hw => ?_
    worker_lt := fun w hw => ?_
    idle_free := fun w hw t => ?_ }
  · rcases h.placed id hid with he | hq | ⟨w, hb⟩
    · exact he.elim
    · exact Or.inr (Or.inl hq)
    · by_cases hne : worker = w
      · subst hne
        rw [hbusy] at hb
        cases hb
        exact Or.inl rfl
      · exact Or.inr (Or.inr ⟨w, by rw [get?_reclaim, if_neg hne, hb]⟩)
  · refine List.Nodup.append h.idle_nodup (List.nodup_singleton _) fun w hw hw' => ?_
    exact hgone (List.mem_singleton.1 hw' ▸ hw)
  · rcases List.mem_append.1 hw with hw | hw
    · exact h.idle_lt w hw
    · rwa [List.mem_singleton.1 hw]
  · rcases Table.mem_keys_put.1 hw with rfl | hw
    · exact hlt
    · exact h.worker_lt w hw
  · rw [get?_reclaim]
    split
    · simp
    · rename_i hne
      rcases List.mem_append.1 hw with hw | hw
      · exact h.idle_free w hw t
      · exact (hne (List.mem_singleton.1 hw).symm).elim

/-- An event from the worker of a task ends that task.  Its worker is free then or
    replaced. -/
theorem note (h : s.Books (fun _ => False) done) (event : PoolEvent) :
    (s.note event).Books (fun _ => False) done := by
  rcases note_cases s event with ⟨-, he⟩ | ⟨howns, ⟨said, -, -, he⟩ | ⟨-, he⟩⟩
  · rw [he]
    exact h
  · rw [he]
    exact ((h.freed _ (owns_iff.1 howns)).finish event.task _).mono fun hi => hi.2 hi.1
  · have hending : s.Books (· = event.task) done := h.mono False.elim
    have hretired : (({ s with stats := event.count s.stats } : Supervisor).retire
        event.worker).Books (· = event.task) done := by
      refine retire ?_ fun t hb => ?_
      · exact hending.congr rfl rfl rfl rfl rfl rfl
      · change s.workers.get? event.worker = _ at hb
        rw [owns_iff.1 howns] at hb
        cases hb
        rfl
    rw [he]
    exact (hretired.finish event.task _).mono fun hi => hi.2 hi.1

theorem stop (h : s.Books Ended done) : s.stop.Books (fun _ => False) done := by
  have hcancelled : ∀ (ids : List TaskId) {s : Supervisor}, s.Books Ended done →
      (cancelAll ids s).Books Ended done := by
    intro ids
    induction ids with
    | nil => exact id
    | cons id ids ih => exact fun hs => ih ((hs.resolve id .cancelled).mono And.left)
  have hc : (cancelAll s.tasks.keys { s with timers := {} }).Books Ended done := by
    refine hcancelled _ ?_
    exact h.congr rfl rfl rfl rfl rfl rfl
  exact { hc with
    placed := fun id hid => by
      rw [keys_stop] at hid
      cases hid
    idle_nodup := List.nodup_nil
    idle_lt := fun w hw => by cases hw
    worker_lt := fun w hw => by cases hw
    idle_free := fun w hw => by cases hw }

/-! ## Runs -/

theorem opened (count : Nat) (starts : StartPlan) :
    (Supervisor.opened count starts).Books (fun _ => False) [] := by
  refine opened_induction starts ?_ (fun h => h.startWorker) count
  constructor
  case ledger => exact List.Perm.refl _
  case idle_nodup => exact List.nodup_nil
  case tasks_nodup => exact List.nodup_nil
  case own => intro id p hp; cases hp
  all_goals intro x hx; cases hx

/-- The books account for every submission of a run. -/
theorem run (h : s.Books (fun _ => False) done) {ms : List Message}
    (hn : (done ++ submissions ms).Nodup) :
    (s.run ms).Books (fun _ => False) (done ++ submissions ms) :=
  run_induction
    (fun accepts now _ hnew h => (h.enqueue hnew).dispatch accepts now)
    (fun accepts now event h => (h.note event).dispatch accepts now)
    (fun h => h.stop)
    (fun _ _ h => h.congr rfl rfl rfl rfl rfl rfl) h hn

end Books

/-! ## Answers to submissions -/

/-- A submission waits for a task. -/
def Waits (s : Supervisor) (id task : TaskId) : Prop :=
  ∃ p, s.tasks.get? task = some p ∧ id ∈ p.waiters

/-- What a submission was sent. -/
def sent (s : Supervisor) (id : TaskId) : List TaskResult :=
  (s.answers.filter (·.1 = id)).map (·.2)

theorem length_sent (s : Supervisor) (id : TaskId) :
    (s.sent id).length = (s.answers.map (·.1)).count id := by
  rw [sent, List.length_map, List.count_eq_length_filter, List.filter_map, List.length_map]
  congr 1

namespace Books

variable {s : Supervisor} {Ended : TaskId → Prop} {done : List TaskId} {id : TaskId}

theorem exists_waits_iff (h : s.Books Ended done) :
    (∃ task, s.Waits id task) ↔ id ∈ s.tasks.values.flatMap (·.waiters) := by
  simp only [Waits, List.mem_flatMap, Table.mem_values, Table.mem_pairs_iff h.tasks_nodup]
  constructor
  · rintro ⟨task, p, hp, hid⟩
    exact ⟨p, ⟨task, hp⟩, hid⟩
  · rintro ⟨p, ⟨task, hp⟩, hid⟩
    exact ⟨task, p, hp, hid⟩

theorem count_ledger (h : s.Books Ended done) (hn : done.Nodup) (hid : id ∈ done) :
    (s.tasks.values.flatMap (·.waiters)).count id + (s.sent id).length = 1 := by
  rw [length_sent, ← List.count_append, h.ledger.count_eq, List.count_eq_one_of_mem hn hid]

theorem waits_unique (h : s.Books Ended done) (hn : done.Nodup) (hid : id ∈ done)
    {task task' : TaskId} (hw : s.Waits id task) (hw' : s.Waits id task') : task' = task := by
  obtain ⟨p, hp, hm⟩ := hw
  obtain ⟨p', hp', hm'⟩ := hw'
  by_contra hne
  obtain ⟨l₁, l₂, hvalues, -, hothers⟩ := Table.exists_values_split hp
  have hone : 0 < p.waiters.count id := List.count_pos_iff.2 hm
  have htwo : 0 < ((l₁ ++ l₂).flatMap (·.waiters)).count id :=
    List.count_pos_iff.2 (List.mem_flatMap.2 ⟨p', hothers hne hp', hm'⟩)
  have hsum := h.count_ledger hn hid
  rw [hvalues] at hsum
  simp only [List.flatMap_append, List.flatMap_cons, List.count_append] at hsum htwo
  omega

theorem waits_or_sent (h : s.Books Ended done) (hn : done.Nodup) (hid : id ∈ done) :
    (∃! task, s.Waits id task) ∧ s.sent id = [] ∨
      (∀ task, ¬ s.Waits id task) ∧ ∃ outcome, s.sent id = [outcome] := by
  have hsum := h.count_ledger hn hid
  by_cases hw : ∃ task, s.Waits id task
  · have hpos := List.count_pos_iff.2 (h.exists_waits_iff.1 hw)
    obtain ⟨task, hw⟩ := hw
    refine Or.inl ⟨⟨task, hw, fun task' hw' => h.waits_unique hn hid hw hw'⟩, ?_⟩
    exact List.eq_nil_of_length_eq_zero (by omega)
  · have hzero := List.count_eq_zero.2 fun hm => hw (h.exists_waits_iff.2 hm)
    exact Or.inr ⟨not_exists.1 hw, List.length_eq_one_iff.1 (by omega)⟩

theorem sent_of_no_tasks (h : s.Books Ended done) (hn : done.Nodup) (hid : id ∈ done)
    (hkeys : s.tasks.keys = []) : ∃ outcome, s.sent id = [outcome] := by
  rcases h.waits_or_sent hn hid with ⟨⟨task, ⟨p, hp, -⟩, -⟩, -⟩ | ⟨-, hsent⟩
  · have hm := Table.mem_keys_iff.2 ⟨p, hp⟩
    rw [hkeys] at hm
    cases hm
  · exact hsent

theorem no_tasks (h : s.Books (fun _ => False) done) (hq : s.queue = [])
    (hw : ∀ w task, s.owns w task = false) : s.tasks.keys = [] := by
  refine List.eq_nil_iff_forall_not_mem.2 fun task hm => ?_
  rcases h.placed task hm with he | hq' | ⟨w, hb⟩
  · exact he
  · rw [hq] at hq'
    cases hq'
  · simpa [owns, hb] using hw w task

end Books

/-- **Every submission is answered exactly once.**  Whatever messages the supervisor
    takes, a submission waits for exactly one task and was sent nothing, or waits for none
    and was sent one answer.  Once no task is queued or with a worker, or after a
    shutdown, all submissions were sent their answer. -/
theorem answered_once {count : Nat} {starts : StartPlan} {ms : List Message} {s : Supervisor}
    (hrun : (opened count starts).run ms = s) (hids : (submissions ms).Nodup) :
    (∀ id ∈ submissions ms,
      (∃! task, s.Waits id task) ∧ s.sent id = [] ∨
        (∀ task, ¬ s.Waits id task) ∧ ∃ outcome, s.sent id = [outcome]) ∧
    ((s.queue = [] ∧ ∀ w task, s.owns w task = false) ∨ .shutdown ∈ ms →
      ∀ id ∈ submissions ms, ∃ outcome, s.sent id = [outcome]) := by
  have h : s.Books (fun _ => False) (submissions ms) := hrun ▸ (Books.opened count starts).run hids
  refine ⟨fun id hid => h.waits_or_sent hids hid, fun hend id hid => ?_⟩
  refine h.sent_of_no_tasks hids hid ?_
  rcases hend with ⟨hq, hw⟩ | hstop
  · exact h.no_tasks hq hw
  · exact hrun ▸ keys_run_of_shutdown hstop

/-- One worker runs a task that a second submission joins, and a third one waits in the
    queue.  When the task times out no worker can be started, so the queue is given up,
    and so is the next submission.  The last one is running when the pool is shut down. -/
def Message.sample : List Message :=
  let accepts : WorkerId → Bool := fun _ => true
  let submit := fun id content => Message.submit accepts 0 (Task.ofContent id "p" content 10)
  [submit 1 "a", submit 2 "a", submit 3 "b", .disturb { refuse := 2, reason := "busy" } {},
    .event accepts 10 (.timedOut 0 1), .event accepts 11 (.crashed 0 1 "late"), submit 4 "b",
    submit 5 "b", .shutdown]

theorem answered_once_sample :
    (∀ id ∈ [1, 2, 3, 4, 5], ∃ outcome, ((opened 1 {}).run Message.sample).sent id = [outcome]) ∧
      ((opened 1 {}).run Message.sample).answers =
        [(3, .unavailable "busy"), (1, .timedOut), (2, .timedOut),
          (4, .unavailable "busy"), (5, .cancelled)] := by
  have hshut : Message.shutdown ∈ Message.sample := by simp [Message.sample]
  have h := answered_once (s := (opened 1 {}).run Message.sample) rfl (by decide +kernel)
  exact ⟨h.2 (Or.inr hshut), by decide +kernel⟩

end SourceIndex.Supervisor
