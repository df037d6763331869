/-
  A pool whose parses neither crash nor run out of time.

  * `PoolAction.Calm`: all actions but shutdowns, timeouts and crashes;
  * `Supervisor.Staffed`: there is a worker, and every answer tells what the parser said;
  * `Pool.Wired`: a pool that is in order, runs and hears of nothing but results;
  * `Wired.act`, `Wired.submit`: calm actions and submissions keep it so.
-/
import SourceIndex.Proofs.Threads

namespace SourceIndex

/-- No shutdown, no timeout, no crash. -/
def PoolAction.Calm : PoolAction → Prop
  | .requestShutdown | .drop | .fire _ | .finish _ (.crashed _) => False
  | _ => True

instance (action : PoolAction) : Decidable action.Calm :=
  match action with
  | .requestShutdown | .drop | .fire _ | .finish _ (.crashed _) => .isFalse id
  | .submit _ _ | .takeCommand | .takeEvent | .wait _ | .receive _ | .finish _ (.returned _)
  | .leave _ | .advance _ | .plan _ => .isTrue trivial

/-! ## Workers and answers -/

namespace Supervisor

variable {s s' : Supervisor}

/-- There is a worker, and every answer so far tells what the parser said. -/
structure Staffed (s : Supervisor) : Prop where
  worker : ∃ w state, s.workers.get? w = some state
  said : ∀ answer ∈ s.answers, answer.2.said?.isSome

namespace Staffed

theorem handout (h : s.Staffed) {jobs : List (WorkerId × Task)} (hj : s.Handout jobs s') :
    s'.Staffed where
  worker := by
    obtain ⟨w, state, hw⟩ := h.worker
    by_cases hm : w ∈ jobs.map (·.1)
    · obtain ⟨job, hjob, rfl⟩ := List.mem_map.1 hm
      exact ⟨_, _, hj.busy job hjob⟩
    · exact ⟨w, state, by rw [hj.others w hm, hw]⟩
  said := by
    rw [hj.answers]
    exact h.said

theorem enqueue (h : s.Staffed) (task : Task) : (s.enqueue task).Staffed := by
  have hsome : s.workers.isEmpty ≠ true := by
    intro he
    obtain ⟨w, state, hw⟩ := h.worker
    rw [Table.isEmpty_iff.1 he w] at hw
    cases hw
  rcases s.enqueue_cases task with ⟨id, p, -, -, he⟩ | ⟨-, he⟩ | ⟨he, -⟩
  · rw [he]
    exact { h with }
  · rw [he]
    exact { h with }
  · exact (hsome he).elim

/-- A task that a worker has done is answered with what the parser said. -/
theorem finished (h : s.Staffed) (worker : WorkerId) (task : TaskId)
    (result : Except ParserError ParseResult) :
    (s.note (.finished worker task result)).Staffed := by
  rcases s.note_cases (.finished worker task result) with
    ⟨-, he⟩ | ⟨-, ⟨said, -, hsaid, he⟩ | ⟨hs, -⟩⟩
  · rw [he]
    exact h
  · obtain ⟨hworkers, -, -, hanswers⟩ := finish_spec
      (s.reclaim worker (PoolEvent.count s.stats (.finished worker task result))) task
      (PoolEvent.outcome (.finished worker task result))
    rw [he]
    constructor
    · exact ⟨worker, .idle, by simp [PoolEvent.worker, PoolEvent.task, hworkers, get?_reclaim]⟩
    · intro answer hm
      rcases hanswers answer hm with hm | hm
      · exact h.said answer hm
      · rw [hm, hsaid]
        rfl
  · cases result <;> cases hs

end Staffed

theorem exists_worker_of_startWorkers {n : Nat} (h : startWorkers n s = (true, s'))
    (hw : 0 < n ∨ ∃ w state, s.workers.get? w = some state) :
    ∃ w state, s'.workers.get? w = some state := by
  induction n generalizing s with
  | zero =>
    cases h
    exact hw.resolve_left (Nat.lt_irrefl 0)
  | succ n ih =>
    rw [startWorkers] at h
    obtain ⟨starts, he | he⟩ := startWorker_cases s
    · rw [he] at h
      exact ih h (Or.inr ⟨s.nextWorker, .idle, Table.get?_put_self _ _ _⟩)
    · rw [he] at h
      cases h

end Supervisor

/-! ## Calm pools -/

namespace Pool

variable {p p' : Pool} {id : TaskId}

/-- The pool is in order and runs, nobody has asked for a shutdown, and what it hears of
    are results of parses. -/
structure Wired (p : Pool) : Prop where
  inOrder : ∃ done, p.InOrder done
  running : p.status = .running
  command : .shutdown ∉ p.commands
  event : ∀ e ∈ p.events, ∃ w id said, e = .finished w id said
  staffed : p.supervisor.Staffed

namespace Wired

theorem start {settings : PoolSettings} {starts : StartPlan}
    (h : Pool.start settings starts = .ok p) : p.Wired := by
  have ho := InOrder.start h
  obtain ⟨s, hstart, rfl⟩ := eq_of_start h
  have hs : Supervisor.opened (max settings.workerCount 1) starts = s := congrArg Prod.snd hstart
  obtain ⟨hanswers, -⟩ := hs ▸ Supervisor.unused_opened (max settings.workerCount 1) starts
  refine ⟨⟨[], ho⟩, rfl, List.not_mem_nil, List.forall_mem_nil _, ?_, ?_⟩
  · exact Supervisor.exists_worker_of_startWorkers hstart (Or.inl (by omega))
  · change ∀ answer ∈ s.answers, answer.2.said?.isSome
    rw [hanswers]
    exact List.forall_mem_nil _

theorem submit (h : p.Wired) {path content : String} (hp : p.submit path content = .ok (id, p')) :
    p'.Wired := by
  unfold Pool.submit at hp
  split at hp
  · rename_i hrun
    cases hp
    obtain ⟨done, ho⟩ := h.inOrder
    refine { h with inOrder := (ho.step (.submit hrun)).1, command := ?_ }
    simpa using h.command
  · cases hp

/-- Handing out tasks answers nothing, as every idle worker takes what it is given. -/
theorem dispatch {s : Supervisor} (h : s.Staffed) (hlinked : p.Linked s) (hn : s.idle.Nodup)
    (hidle : ∀ w ∈ s.idle, s.workers.get? w = some .idle) :
    (s.dispatch p.accepts p.now).Staffed := by
  obtain ⟨jobs, hj⟩ := Supervisor.exists_handout hn p.now fun w hw =>
    (hlinked w _ (hidle w hw)).accepts
  exact h.handout hj

/-- Every calm action keeps the pool running, and every answer tells what the parser
    said. -/
theorem act (h : p.Wired) {action : PoolAction} (hcalm : action.Calm)
    (ha : p.act action = some p') : p'.Wired := by
  obtain ⟨done, ho⟩ := h.inOrder
  have hs := step_of_act ha
  have ho' := (ho.step hs).1
  cases hs with
  | ask | askInVain | drop | fire => cases hcalm
  | submit =>
    refine { h with inOrder := ho', command := ?_ }
    simpa using h.command
  | @obey task commands hrun hc =>
    have hk := ho.books.kept.enqueue (ho.notMem_done hc)
    refine ⟨ho', h.running, fun hm => h.command (hc ▸ List.mem_cons_of_mem _ hm), h.event, ?_⟩
    exact dispatch (h.staffed.enqueue task) (ho.linked_enqueue hrun task) hk.books.idle_nodup
      fun w => (hk.roster.mem_idle w).1
  | stop hrun hc => exact (h.command (hc ▸ List.mem_cons_self)).elim
  | @hear event events hrun he =>
    obtain ⟨worker, task, said, rfl⟩ := h.event event (he ▸ List.mem_cons_self)
    have hk := ho.books.kept.note (.finished worker task said)
    refine ⟨ho', h.running, h.command, fun e hm => h.event e (he ▸ List.mem_cons_of_mem _ hm), ?_⟩
    exact dispatch (p := { p with events }) (h.staffed.finished worker task said)
      (ho.linked_note hrun he) hk.books.idle_nodup fun w => (hk.roster.mem_idle w).1
  | @finish worker job inbox outcome hrun ht =>
    cases outcome with
    | crashed reason => cases hcalm
    | returned said =>
      refine { h with inOrder := ho', event := ?_ }
      intro e hm
      rcases List.mem_append.1 hm with hm | hm
      · exact h.event e hm
      · exact ⟨worker, job.id, said, List.mem_singleton.1 hm⟩
  | finishInVain outcome hrun => exact (hrun h.running).elim
  | wait | receive | leave | advance => exact { h with inOrder := ho' }
  | plan => exact { h with inOrder := ho', staffed := { h.staffed with } }

theorem said_of_outcome (h : p.Wired) {outcome : TaskResult} (ho : p.outcome? id = some outcome) :
    ∃ said, outcome.said? = some said := by
  unfold outcome? answer? at ho
  split at ho
  · rename_i outcome' ha
    cases ho
    obtain ⟨answer, hfind, rfl⟩ := Option.map_eq_some_iff.1 ha
    exact Option.isSome_iff_exists.1 (h.staffed.said answer (List.mem_of_find?_eq_some hfind))
  · rw [if_pos h.running] at ho
    cases ho

end Wired

end Pool

end SourceIndex
