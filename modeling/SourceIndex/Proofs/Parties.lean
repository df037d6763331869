/-
  Runs of the worker pool, action by action.

  The parties of the pool act in any order: callers submit, threads take jobs and end
  their parses as they like, timers go off, the supervisor takes what was sent to it.

  * `Pool.eq_of_start`: a pool that was just started;
  * `Pool.Step`: the outcomes of an action, one constructor each;
  * `Pool.run`: the pool after actions one after another;
  * `Pool.parses`: the parses that ended in a run, with their worker and their job;
  * `Pool.run_induction`: what each action keeps holds after a run.
-/
import SourceIndex.Pool.Basic

namespace SourceIndex

namespace ParseOutcome

/-- What the supervisor is told about a parse. -/
def event (worker : WorkerId) (task : TaskId) : ParseOutcome → PoolEvent
  | returned result => .finished worker task result
  | crashed reason => .crashed worker task reason

/-- What a thread is at after a parse. -/
def next : ParseOutcome → ThreadState
  | returned _ => .coming
  | crashed _ => .exited

end ParseOutcome

namespace Pool

variable {p p' : Pool}

/-- A pool that was just started has its workers, and nothing has been sent yet. -/
theorem eq_of_start {settings : PoolSettings} {starts : StartPlan}
    (h : Pool.start settings starts = .ok p) :
    ∃ s, Supervisor.startWorkers (max settings.workerCount 1) { starts } = (true, s) ∧
      p = withBooks
        { settings := { settings with workerCount := max settings.workerCount 1 } } s := by
  unfold Pool.start at h
  dsimp only at h
  split at h
  · rename_i s hstart
    cases h
    exact ⟨s, hstart, rfl⟩
  · cases h

/-- What an action does to the pool. -/
inductive Step (p : Pool) : PoolAction → Pool → Prop where
  | submit {path content : String} (hrun : p.status = .running) :
    Step p (.submit path content)
      { p with
        commands := p.commands ++
          [.submit (Task.ofContent (p.lastTask + 1) path content p.settings.taskTimeoutMs)]
        lastTask := p.lastTask + 1 }
  | ask (hrun : p.status = .running) :
    Step p .requestShutdown { p with commands := p.commands ++ [.shutdown] }
  | askInVain (hrun : p.status ≠ .running) : Step p .requestShutdown p
  | drop : Step p .drop { p with status := .dropped, commands := [], events := [] }
  | obey {task : Task} {commands : List PoolCommand} (hrun : p.status = .running)
    (hc : p.commands = .submit task :: commands) :
    Step p .takeCommand
      (({ p with commands } : Pool).withBooks (p.supervisor.submit p.accepts p.now task))
  | stop {commands : List PoolCommand} (hrun : p.status = .running)
    (hc : p.commands = .shutdown :: commands) :
    Step p .takeCommand
      { p with supervisor := p.supervisor.stop, status := .stopped, commands := [], events := [] }
  | hear {event : PoolEvent} {events : List PoolEvent} (hrun : p.status = .running)
    (he : p.events = event :: events) :
    Step p .takeEvent
      (({ p with events } : Pool).withBooks (p.supervisor.handle p.accepts p.now event))
  | wait {worker : WorkerId} (ht : p.threads.get? worker = some ⟨.coming, none⟩) :
    Step p (.wait worker) { p with threads := p.threads.put worker ⟨.waiting, none⟩ }
  | receive {worker : WorkerId} {state : ThreadState} {job : Task} (hfree : state.isFree = true)
    (ht : p.threads.get? worker = some ⟨state, some job⟩) :
    Step p (.receive worker) { p with threads := p.threads.put worker ⟨.parsing job, none⟩ }
  | finish {worker : WorkerId} {job : Task} {inbox : Option Task} (outcome : ParseOutcome)
    (hrun : p.status = .running) (ht : p.threads.get? worker = some ⟨.parsing job, inbox⟩) :
    Step p (.finish worker outcome)
      { p with
        threads := p.threads.put worker ⟨outcome.next, inbox⟩
        events := p.events ++ [outcome.event worker job.id] }
  | finishInVain {worker : WorkerId} {job : Task} {inbox : Option Task} (outcome : ParseOutcome)
    (hrun : p.status ≠ .running) (ht : p.threads.get? worker = some ⟨.parsing job, inbox⟩) :
    Step p (.finish worker outcome) { p with threads := p.threads.put worker ⟨.exited, inbox⟩ }
  | leave {worker : WorkerId} {state : ThreadState} (hfree : state.isFree = true)
    (ht : p.threads.get? worker = some ⟨state, none⟩)
    (hoff : p.supervisor.workers.contains worker = false) :
    Step p (.leave worker) { p with threads := p.threads.put worker ⟨.exited, none⟩ }
  | fire {task : TaskId} {timer : Timer} (hrun : p.status = .running)
    (ht : p.supervisor.timers.get? task = some timer) :
    Step p (.fire task)
      { p with
        supervisor :=
          { p.supervisor with
            timers := p.supervisor.timers.put task { timer with fired := true } }
        events := p.events ++ [.timedOut timer.worker task] }
  | advance (ms : Nat) : Step p (.advance ms) { p with now := p.now + ms }
  | plan (starts : StartPlan) :
    Step p (.plan starts) { p with supervisor := { p.supervisor with starts } }

theorem step_of_act {action : PoolAction} (h : p.act action = some p') : p.Step action p' := by
  cases action with
  | submit path content =>
    unfold act submit at h
    by_cases hrun : p.status = .running
    · simp only [if_pos hrun, Option.some.injEq] at h
      subst h
      exact .submit hrun
    · simp [if_neg hrun] at h
  | requestShutdown =>
    simp only [act, requestShutdown, Option.some.injEq] at h
    by_cases hrun : p.status = .running
    · rw [if_pos hrun] at h
      subst h
      exact .ask hrun
    · rw [if_neg hrun] at h
      subst h
      exact .askInVain hrun
  | drop =>
    cases h
    exact .drop
  | takeCommand =>
    rw [act] at h
    split at h
    · rename_i command commands hrun hc
      cases h
      cases command with
      | submit task => exact .obey hrun hc
      | shutdown => exact .stop hrun hc
    · cases h
  | takeEvent =>
    rw [act] at h
    split at h
    · rename_i event events hrun he
      cases h
      exact .hear hrun he
    · cases h
  | wait worker =>
    rw [act] at h
    split at h
    · rename_i ht
      cases h
      exact .wait ht
    · cases h
  | receive worker =>
    rw [act] at h
    split at h
    · rename_i state job ht
      split at h
      · rename_i hfree
        cases h
        exact .receive hfree ht
      · cases h
    · cases h
  | finish worker outcome =>
    rw [act] at h
    split at h
    · rename_i thread ht
      split at h
      · rename_i job hjob
        obtain ⟨state, inbox⟩ := thread
        cases hjob
        cases h
        unfold report
        by_cases hrun : p.status = .running
        · rw [if_pos hrun]
          cases outcome with
          | returned result => exact .finish (.returned result) hrun ht
          | crashed reason => exact .finish (.crashed reason) hrun ht
        · rw [if_neg hrun]
          exact .finishInVain outcome hrun ht
      · cases h
    · cases h
  | leave worker =>
    rw [act] at h
    split at h
    · rename_i state ht
      split at h
      · rename_i hgoes
        cases h
        simp only [Bool.and_eq_true, Bool.not_eq_true'] at hgoes
        exact .leave hgoes.1 ht hgoes.2
      · cases h
    · cases h
  | fire task =>
    rw [act] at h
    split at h
    · rename_i timer hrun ht
      split at h
      · cases h
        exact .fire hrun ht
      · cases h
    · cases h
  | advance ms =>
    cases h
    exact .advance ms
  | plan starts =>
    cases h
    exact .plan starts

/-! ## Runs -/

/-- Actions one after another, if each is possible in its turn. -/
def run (p : Pool) : List PoolAction → Option Pool
  | [] => some p
  | action :: actions => (p.act action).bind fun p => p.run actions

/-- The end of a parse. -/
structure Parse where
  worker : WorkerId
  job : Task
  outcome : ParseOutcome

/-- The parse that an action ends. -/
def parse? (p : Pool) : PoolAction → Option Parse
  | .finish worker outcome =>
    match p.threads.get? worker with
    | some ⟨.parsing job, _⟩ => some ⟨worker, job, outcome⟩
    | _ => none
  | _ => none

/-- The parses that end in a run. -/
def parses (p : Pool) : List PoolAction → List Parse
  | [] => []
  | action :: actions =>
    (p.parse? action).toList ++ ((p.act action).map fun p => p.parses actions).getD []

/-- What each action keeps holds after a run, where `log` are the parses that have
    ended. -/
theorem run_induction {P : List Parse → Pool → Prop}
    (hact : ∀ {log p action p'}, P log p → p.act action = some p' →
      P (log ++ (p.parse? action).toList) p') {actions : List PoolAction} (log : List Parse)
    (h : P log p) (hrun : p.run actions = some p') : P (log ++ p.parses actions) p' := by
  induction actions generalizing log p with
  | nil =>
    cases hrun
    simpa [parses] using h
  | cons action actions ih =>
    obtain ⟨p₁, h₁, hrun⟩ := Option.bind_eq_some_iff.1 hrun
    have hrest := ih _ (hact h h₁) hrun
    simpa [parses, h₁, List.append_assoc] using hrest

end Pool

end SourceIndex
