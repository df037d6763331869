/-
  The submissions that the pool has still to answer.

  * `Supervisor.waiting`: who waits on the books, and for which path;
  * `Supervisor.Shrinks`: nobody waits who did not before, and nothing was counted as a
    duplicate; `shrinks_dispatch`, `shrinks_note`, `shrinks_stop`: all but a submission
    does that;
  * `Pool.outstanding`: besides, the submissions on their way to the supervisor;
  * `InOrder.outstanding_step`: where no two of them are for the same path, an action of
    the pool adds none and counts no duplicate;
  * `InOrder.notMem_outstanding`: what has an outcome is not outstanding.
-/
import Mathlib.Data.List.Flatten
import SourceIndex.Proofs.Threads

namespace SourceIndex

/-! ## On the books -/

namespace Supervisor

variable {s s' s'' : Supervisor}

/-- The submissions that wait for a task, each with the path of the task. -/
def waiting (s : Supervisor) : List (String × TaskId) :=
  s.tasks.values.flatMap fun p => p.waiters.map fun waiter => (p.task.path, waiter)

theorem ids_waiting (s : Supervisor) :
    s.waiting.map (·.2) = s.tasks.values.flatMap (·.waiters) := by
  simp [waiting, List.map_flatMap, Function.comp_def]

/-- Nobody waits who did not before, and nothing was counted as a duplicate. -/
structure Shrinks (s s' : Supervisor) : Prop where
  waiting : s'.waiting.Sublist s.waiting
  deduplicated : s'.stats.deduplicated = s.stats.deduplicated

theorem Shrinks.trans (h : s.Shrinks s') (h' : s'.Shrinks s'') : s.Shrinks s'' :=
  ⟨h'.waiting.trans h.waiting, h'.deduplicated.trans h.deduplicated⟩

theorem shrinks_of_tasks (ht : s'.tasks = s.tasks)
    (hd : s'.stats.deduplicated = s.stats.deduplicated) : s.Shrinks s' := by
  refine ⟨?_, hd⟩
  rw [Supervisor.waiting, Supervisor.waiting, ht]

theorem shrinks_resolve (s : Supervisor) (id : TaskId) (outcome : TaskResult) :
    s.Shrinks (s.resolve id outcome) := by
  cases hp : s.tasks.get? id with
  | none =>
    rw [resolve_of_none hp]
    exact shrinks_of_tasks rfl rfl
  | some p =>
    rw [resolve, hp]
    refine ⟨?_, rfl⟩
    exact (List.filter_sublist.map Prod.snd).flatMap _

theorem shrinks_finish (s : Supervisor) (id : TaskId) (outcome : TaskResult) :
    s.Shrinks (s.finish id outcome) := by
  refine Shrinks.trans ?_ (shrinks_resolve _ id outcome)
  exact shrinks_of_tasks rfl rfl

theorem shrinks_refuseAll (reason : String) (ids : List TaskId) (s : Supervisor) :
    s.Shrinks (refuseAll reason ids s) := by
  induction ids generalizing s with
  | nil => exact shrinks_of_tasks rfl rfl
  | cons id ids ih =>
    let counted : Supervisor := { s with stats := { s.stats with failed := s.stats.failed + 1 } }
    have hcounted : s.Shrinks counted := shrinks_of_tasks rfl rfl
    exact (hcounted.trans (shrinks_resolve counted id (.unavailable reason))).trans (ih _)

theorem shrinks_retire (s : Supervisor) (worker : WorkerId) : s.Shrinks (s.retire worker) := by
  obtain ⟨starts, he | he | ⟨-, he⟩⟩ := retire_cases s worker
  · rw [he]
    exact shrinks_of_tasks rfl rfl
  · rw [he]
    exact shrinks_of_tasks rfl rfl
  · rw [he]
    refine Shrinks.trans ?_ (shrinks_refuseAll _ _ _)
    exact shrinks_of_tasks rfl rfl

theorem shrinks_dispatch (s : Supervisor) (accepts : WorkerId → Bool) (now : Nat) :
    s.Shrinks (s.dispatch accepts now) := by
  have hloop : s.Shrinks (dispatchLoop accepts now (s.queue.length + 2 * s.idle.length) s) := by
    refine dispatchLoop_induction (P := s.Shrinks) accepts now ?_ ?_ ?_ ?_ _
      (shrinks_of_tasks rfl rfl)
    · intro s₁ task queue hs hq ht
      exact hs.trans (shrinks_of_tasks rfl rfl)
    · intro s₁ worker idle hs hi hw
      exact hs.trans (shrinks_of_tasks rfl rfl)
    · intro s₁ task queue worker idle p state hs hq hi hp hw
      exact hs.trans (shrinks_of_tasks rfl rfl)
    · intro s₁ worker idle state hs hi hw ha
      refine (hs.trans ?_).trans (shrinks_retire _ worker)
      exact shrinks_of_tasks rfl rfl
  exact hloop.trans (shrinks_of_tasks rfl rfl)

theorem shrinks_note (s : Supervisor) (event : PoolEvent) : s.Shrinks (s.note event) := by
  have hcount : (event.count s.stats).deduplicated = s.stats.deduplicated := by
    rcases event with ⟨_, _, _ | _⟩ | _ | _ <;> rfl
  rcases note_cases s event with ⟨-, he⟩ | ⟨-, ⟨said, -, -, he⟩ | ⟨-, he⟩⟩
  · rw [he]
    exact shrinks_of_tasks rfl rfl
  · rw [he]
    refine Shrinks.trans ?_ (shrinks_finish _ _ _)
    exact shrinks_of_tasks rfl hcount
  · have hcounted : s.Shrinks { s with stats := event.count s.stats } :=
      shrinks_of_tasks rfl hcount
    rw [he]
    exact (hcounted.trans (shrinks_retire _ _)).trans (shrinks_finish _ _ _)

theorem shrinks_stop (s : Supervisor) : s.Shrinks s.stop ∧ s.stop.waiting = [] := by
  have hall : ∀ (ids : List TaskId) (s : Supervisor), s.Shrinks (cancelAll ids s) := by
    intro ids
    induction ids with
    | nil => exact fun s => shrinks_of_tasks rfl rfl
    | cons id ids ih => exact fun s => (shrinks_resolve s id .cancelled).trans (ih _)
  have hstart : s.Shrinks { s with timers := {} } := shrinks_of_tasks rfl rfl
  have hcancelled := hstart.trans (hall s.tasks.keys { s with timers := {} })
  refine ⟨hcancelled.trans (shrinks_of_tasks rfl rfl), ?_⟩
  have hpairs : s.stop.tasks.pairs = [] := List.map_eq_nil_iff.1 (keys_stop s)
  rw [Supervisor.waiting, Table.values, hpairs]
  rfl

/-- A submission for a path that nobody waits for is no duplicate. -/
theorem waiting_enqueue (hi : s.KeysAgree) {task : Task} (hnew : task.id ∉ s.tasks.keys)
    (hpath : task.path ∉ s.waiting.map (·.1)) :
    (s.enqueue task).waiting.Sublist (s.waiting ++ [(task.path, task.id)]) ∧
      (s.enqueue task).stats.deduplicated = s.stats.deduplicated := by
  have htask : (s.tasks.put task.id { task, waiters := [task.id] }).values.flatMap
      (fun p => p.waiters.map fun waiter => (p.task.path, waiter)) =
        s.waiting ++ [(task.path, task.id)] := by
    rw [Table.values_put_new _ hnew, List.flatMap_append, waiting]
    rfl
  rcases enqueue_cases s task with ⟨id, p, hkey, hp, -⟩ | ⟨-, he⟩ | ⟨-, starts, he | he⟩
  · -- whoever started the task that is joined waits for the same path
    obtain ⟨p', hp', hk⟩ := (hi.mem_inFlight _ _).1 hkey
    obtain rfl : p = p' := Option.some.inj (hp.symm.trans hp')
    refine (hpath (List.mem_map.2 ⟨(p.task.path, id), ?_, congrArg TaskKey.path hk⟩)).elim
    refine List.mem_flatMap.2 ⟨p, Table.mem_values_of_get? hp, ?_⟩
    exact List.mem_map.2 ⟨id, hi.waits_self id p hp, rfl⟩
  · rw [he]
    refine ⟨?_, rfl⟩
    rw [← htask]
    exact List.Sublist.refl _
  · rw [he]
    refine ⟨?_, rfl⟩
    rw [← htask]
    exact List.Sublist.refl _
  · rw [he]
    exact ⟨List.sublist_append_left _ _, rfl⟩

end Supervisor

/-! ## In the pool -/

/-- The submission that a command carries, with its path. -/
def PoolCommand.entry? : PoolCommand → Option (String × TaskId)
  | submit task => some (task.path, task.id)
  | shutdown => none

namespace Pool

variable {p p' : Pool} {done : List TaskId}

/-- The submissions that are not answered yet, each with its path. -/
def outstanding (p : Pool) : List (String × TaskId) :=
  p.supervisor.waiting ++ p.commands.filterMap PoolCommand.entry?

theorem ids_outstanding (p : Pool) :
    p.outstanding.map (·.2) = p.supervisor.tasks.values.flatMap (·.waiters) ++ p.awaiting := by
  have hcommands : ∀ commands : List PoolCommand,
      (commands.filterMap PoolCommand.entry?).map (·.2) =
        commands.filterMap PoolCommand.task? := by
    intro commands
    rw [List.map_filterMap]
    refine List.filterMap_congr fun command _ => ?_
    cases command <;> rfl
  rw [outstanding, List.map_append, Supervisor.ids_waiting, hcommands, awaiting]

theorem outstanding_submit {path content : String} {ticket : TaskId}
    (h : p.submit path content = .ok (ticket, p')) :
    p.Step (.submit path content) p' ∧ p'.outstanding = p.outstanding ++ [(path, ticket)] ∧
      p'.supervisor = p.supervisor ∧ p'.status = .running := by
  have hact : p.act (.submit path content) = some p' := by rw [act, h]
  refine ⟨step_of_act hact, ?_⟩
  unfold submit at h
  split at h
  · rename_i hrun
    cases h
    refine ⟨?_, rfl, hrun⟩
    simp only [outstanding, List.filterMap_append, ← List.append_assoc]
    rfl
  · cases h

theorem shrinks_withBooks {s : Supervisor} (h : p.supervisor.Shrinks s) :
    (p.withBooks s).outstanding.Sublist p.outstanding ∧
      (p.withBooks s).supervisor.stats.deduplicated = p.supervisor.stats.deduplicated :=
  ⟨h.waiting.append (List.Sublist.refl _), h.deduplicated⟩

namespace InOrder

/-- Where no two outstanding submissions are for the same path, an action of the pool
    adds none and counts no duplicate. -/
theorem outstanding_step (h : p.InOrder done) (hn : (p.outstanding.map (·.1)).Nodup)
    {action : PoolAction} (hs : p.Step action p')
    (hsubmit : ∀ path content, action ≠ .submit path content) (hdrop : action ≠ .drop) :
    p'.outstanding.Sublist p.outstanding ∧
      p'.supervisor.stats.deduplicated = p.supervisor.stats.deduplicated ∧
      (p'.status = p.status ∨ p'.outstanding = []) := by
  cases hs with
  | submit hrun => exact (hsubmit _ _ rfl).elim
  | drop => exact (hdrop rfl).elim
  | ask hrun =>
    have hsame : p.commands.filterMap PoolCommand.entry? ++
        [PoolCommand.shutdown].filterMap PoolCommand.entry? =
          p.commands.filterMap PoolCommand.entry? := List.append_nil _
    refine ⟨?_, rfl, Or.inl rfl⟩
    rw [outstanding, outstanding, List.filterMap_append, hsame]
  | @obey task commands hrun hc =>
    have hids := h.ids
    have hout : p.outstanding = p.supervisor.waiting ++
        (task.path, task.id) :: commands.filterMap PoolCommand.entry? := by
      rw [outstanding, hc]
      rfl
    have hnew : task.id ∉ p.supervisor.tasks.keys := by
      intro hk
      have hmem : task.id ∈ p.awaiting := by
        rw [awaiting, hc]
        exact List.mem_cons_self
      exact (List.nodup_append.1 hids).2.2 _ (h.books.kept.books.known _ hk) _ hmem rfl
    have hpath : task.path ∉ p.supervisor.waiting.map (·.1) := by
      intro hm
      rw [hout, List.map_append] at hn
      exact (List.nodup_append.1 hn).2.2 _ hm _ List.mem_cons_self rfl
    obtain ⟨hwaiting, hdup⟩ := Supervisor.waiting_enqueue h.books.keysAgree hnew hpath
    have hdispatch := Supervisor.shrinks_dispatch (p.supervisor.enqueue task) p.accepts p.now
    refine ⟨?_, hdispatch.deduplicated.trans hdup, Or.inl rfl⟩
    rw [hout, ← List.singleton_append, ← List.append_assoc]
    exact (hdispatch.waiting.trans hwaiting).append (List.Sublist.refl _)
  | stop hrun hc =>
    obtain ⟨hshrinks, hnone⟩ := Supervisor.shrinks_stop p.supervisor
    have hempty : p.supervisor.stop.waiting ++ [].filterMap PoolCommand.entry? = [] := by
      rw [hnone]
      rfl
    refine ⟨?_, hshrinks.deduplicated, Or.inr hempty⟩
    rw [outstanding, hempty]
    exact List.nil_sublist _
  | @hear event events hrun he =>
    have hhandle : p.supervisor.Shrinks (p.supervisor.handle p.accepts p.now event) :=
      (Supervisor.shrinks_note _ event).trans (Supervisor.shrinks_dispatch _ p.accepts p.now)
    obtain ⟨hout, hdup⟩ := shrinks_withBooks (p := { p with events }) hhandle
    exact ⟨hout, hdup, Or.inl rfl⟩
  | _ => exact ⟨List.Sublist.refl _, rfl, Or.inl rfl⟩

/-- What has an outcome is not outstanding, as long as the pool runs or has nothing
    outstanding. -/
theorem notMem_outstanding (h : p.InOrder done)
    (hstopped : p.status = .running ∨ p.outstanding = []) {id : TaskId}
    (hid : (p.outcome? id).isSome) {path : String} : (path, id) ∉ p.outstanding := by
  intro hm
  rcases hstopped with hrun | hnone
  · have hanswered : id ∈ p.supervisor.answers.map (·.1) := by
      unfold outcome? answer? at hid
      cases hf : p.supervisor.answers.find? (·.1 = id) with
      | none => simp [hf, hrun] at hid
      | some answer =>
        have he : answer.1 = id := by simpa using List.find?_some hf
        exact he ▸ List.mem_map_of_mem (List.mem_of_find?_eq_some hf)
    have hledger := h.books.kept.books.ledger
    obtain ⟨hdone, -, hapart⟩ := List.nodup_append.1 h.ids
    have hid' : id ∈ p.outstanding.map (·.2) := List.mem_map.2 ⟨_, hm, rfl⟩
    rw [ids_outstanding, List.mem_append] at hid'
    rcases hid' with hw | ha
    · exact (List.nodup_append.1 (hledger.nodup_iff.2 hdone)).2.2 id hw id hanswered rfl
    · exact hapart id (hledger.mem_iff.1 (List.mem_append_right _ hanswered)) id ha rfl
  · rw [hnone] at hm
    cases hm

theorem ids_outstanding_nodup (h : p.InOrder done) : (p.outstanding.map (·.2)).Nodup := by
  have hledger := h.books.kept.books.ledger
  obtain ⟨hdone, hawaiting, hapart⟩ := List.nodup_append.1 h.ids
  rw [ids_outstanding]
  refine List.nodup_append.2 ⟨(hledger.nodup_iff.2 hdone).of_append_left, hawaiting, ?_⟩
  intro id hid id' hid' he
  exact hapart id (hledger.mem_iff.1 (List.mem_append_left _ hid)) id' hid' he

end InOrder

theorem outstanding_start {settings : PoolSettings} {starts : StartPlan}
    (h : Pool.start settings starts = .ok p) :
    p.outstanding = [] ∧ p.supervisor.stats.deduplicated = 0 ∧ p.status = .running := by
  have hquiet : ∀ count, (Supervisor.opened count starts).tasks.pairs = [] ∧
      (Supervisor.opened count starts).stats.deduplicated = 0 := by
    refine Supervisor.opened_induction
      (P := fun s => s.tasks.pairs = [] ∧ s.stats.deduplicated = 0) starts ⟨rfl, rfl⟩ ?_
    intro s hs
    obtain ⟨starts, he | he⟩ := Supervisor.startWorker_cases s
    · rw [he]
      exact hs
    · rw [he]
      exact hs
  obtain ⟨s, hstart, rfl⟩ := eq_of_start h
  have hs : Supervisor.opened (max settings.workerCount 1) starts = s := congrArg Prod.snd hstart
  obtain ⟨htasks, hdup⟩ := hs ▸ hquiet (max settings.workerCount 1)
  refine ⟨?_, hdup, rfl⟩
  simp [outstanding, withBooks, Supervisor.waiting, Table.values, htasks]

end Pool

end SourceIndex
