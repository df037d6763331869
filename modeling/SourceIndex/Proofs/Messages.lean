/-
  Runs of the supervisor of the pool, message by message.

  The supervisor takes one message after another until it is told to shut down.  The
  messages come in any order and say anything: events may be late, or name workers and
  tasks that are not on the books.

  * `Message`, `run`: what can happen to the books, and the books after messages;
  * `submissions`: the submissions that a run processes;
  * `Disturbed`: the timers change as allowed;
  * `run_induction`, `run_induction_of_disturbed`: what each message keeps holds after a
    run, where the submissions have different numbers.
-/
import Mathlib.Data.List.Nodup
import SourceIndex.Pool.Supervisor

namespace SourceIndex.Supervisor

/-- What happens to the books.  Where tasks are handed out then, `accepts` are the
    workers that take one, and `now` is the time. -/
inductive Message where
  | submit (accepts : WorkerId → Bool) (now : Nat) (task : Task)
  | event (accepts : WorkerId → Bool) (now : Nat) (event : PoolEvent)
  | shutdown
  /-- the system changes its mind on worker starts, or timers go off -/
  | disturb (starts : StartPlan) (timers : Table TaskId Timer)

/-- The books after messages one after another.  A shutdown is the last one. -/
def run (s : Supervisor) : List Message → Supervisor
  | [] => s
  | .submit accepts now task :: ms => (s.submit accepts now task).run ms
  | .event accepts now event :: ms => (s.handle accepts now event).run ms
  | .disturb starts timers :: ms => run { s with starts, timers } ms
  | .shutdown :: _ => s.stop

/-- The submissions among messages that are processed. -/
def submissions : List Message → List TaskId
  | [] => []
  | .submit _ _ task :: ms => task.id :: submissions ms
  | .event _ _ _ :: ms => submissions ms
  | .disturb _ _ :: ms => submissions ms
  | .shutdown :: _ => []

/-- The books of a pool that has just been started with `count` workers. -/
def opened (count : Nat) (starts : StartPlan) : Supervisor :=
  (startWorkers count { starts }).2

/-- Every change of the timers by `disturb` is one that `Allowed` speaks of. -/
def Disturbed (Allowed : Supervisor → Table TaskId Timer → Prop) : Supervisor → List Message → Prop
  | _, [] => True
  | s, .submit accepts now task :: ms => Disturbed Allowed (s.submit accepts now task) ms
  | s, .event accepts now event :: ms => Disturbed Allowed (s.handle accepts now event) ms
  | s, .disturb starts timers :: ms =>
    Allowed s timers ∧ Disturbed Allowed { s with starts, timers } ms
  | _, .shutdown :: _ => True

theorem disturbed_of_forall {Allowed : Supervisor → Table TaskId Timer → Prop}
    (h : ∀ s timers, Allowed s timers) (s : Supervisor) (ms : List Message) :
    Disturbed Allowed s ms := by
  induction ms generalizing s with
  | nil => trivial
  | cons m ms ih =>
    cases m with
    | submit accepts now task => exact ih _
    | event accepts now event => exact ih _
    | disturb starts timers => exact ⟨h s timers, ih _⟩
    | shutdown => trivial

section
variable {P : List TaskId → Supervisor → Prop}
  (hsubmit : ∀ {done s} accepts now {task}, task.id ∉ done → P done s →
    P (done ++ [task.id]) (s.submit accepts now task))
  (hevent : ∀ {done s} accepts now event, P done s → P done (s.handle accepts now event))
  (hstop : ∀ {done s}, P done s → P done s.stop) {ms : List Message} {done : List TaskId}
  {s : Supervisor}
include hsubmit hevent hstop

/-- What each message keeps holds after a run, where timers change as allowed.  `P done`
    speaks of books that have processed the submissions `done`. -/
theorem run_induction_of_disturbed {Allowed : Supervisor → Table TaskId Timer → Prop}
    (hdisturb : ∀ {done s} starts {timers}, Allowed s timers → P done s →
      P done { s with starts, timers }) (h : P done s) (hd : Disturbed Allowed s ms)
    (hn : (done ++ submissions ms).Nodup) : P (done ++ submissions ms) (s.run ms) := by
  induction ms generalizing done s with
  | nil => simpa [submissions, run] using h
  | cons m ms ih =>
    cases m with
    | submit accepts now task =>
      have he : done ++ submissions (.submit accepts now task :: ms) =
        done ++ [task.id] ++ submissions ms := by simp [submissions]
      rw [he] at hn ⊢
      have hnew : task.id ∉ done := fun hm =>
        (List.nodup_append.1 hn.of_append_left).2.2 _ hm _ List.mem_cons_self rfl
      exact ih (hsubmit accepts now hnew h) hd hn
    | event accepts now event => exact ih (hevent accepts now event h) hd hn
    | disturb starts timers => exact ih (hdisturb starts hd.1 h) hd.2 hn
    | shutdown => simpa [submissions, run] using hstop h

theorem run_induction
    (hdisturb : ∀ {done s} starts timers, P done s → P done { s with starts, timers })
    (h : P done s) (hn : (done ++ submissions ms).Nodup) : P (done ++ submissions ms) (s.run ms) :=
  run_induction_of_disturbed (P := P) hsubmit hevent hstop
    (fun starts _ _ h => hdisturb starts _ h) h
    (disturbed_of_forall (fun _ _ => True.intro) s ms) hn

end

/-- Workers are started one after another. -/
theorem opened_induction {P : Supervisor → Prop} (starts : StartPlan) (h : P { starts })
    (hstart : ∀ {s}, P s → P s.startWorker.2) (count : Nat) : P (opened count starts) := by
  suffices hall : ∀ n {s}, P s → P (startWorkers n s).2 from hall count h
  intro n
  induction n with
  | zero => exact id
  | succ n ih =>
    intro s hs
    have hs' := hstart hs
    rw [startWorkers]
    split
    · rename_i s₁ he
      exact ih (by rwa [he] at hs')
    · rename_i s₁ he
      rwa [he] at hs'

end SourceIndex.Supervisor
