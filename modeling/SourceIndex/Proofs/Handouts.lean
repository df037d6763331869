/-
  Handing a task to an idle worker never fails.

  The supervisor hands out tasks round by round, and threads, timers and callers go on
  between two rounds.  An idle worker need not wait at its inbox yet when its turn comes, as
  its thread may still be on its way there, and a timer may have gone off for a task that it
  has done.  Nevertheless it takes its job: the thread of a worker that crashed or was
  replaced is never that of an idle one.

  * `Supervisor.round?`: one round of handing out tasks;
  * `Desk`, `Desk.act`, `Desk.run`: the pool with the rounds as moves of their own, between
    which everybody else may act;
  * `Desk.sound_run`: what holds of it at any time;
  * `Desk.Ready`: what an idle worker is like at any time, `Sound.ready`;
  * `Desk.Sound.run_rounds`: every round hands out a task to an idle worker;
  * `Desk.exists_run`: runs of the pool are runs of this kind.
-/
import SourceIndex.Proofs.Threads

namespace SourceIndex

/-- Does the owner drop the pool? -/
def PoolAction.drops : PoolAction → Bool
  | drop => true
  | _ => false

/-- Why a job cannot be put into an inbox. -/
inductive Refusal where
  | full
  | disconnected
  deriving DecidableEq

/-- Why a job cannot be put into the inbox of a thread, if it cannot. -/
def Thread.refusal? (t : Thread) : Option Refusal :=
  if t.state = .exited then some .disconnected
  else if t.inbox.isSome then some .full
  else none

theorem Thread.accepts_eq_isNone (t : Thread) : t.accepts = t.refusal?.isNone := by
  rcases t with ⟨state, inbox⟩
  cases state <;> cases inbox <;> rfl

/-! ## Rounds -/

namespace Supervisor

variable {s s' : Supervisor} {done : List TaskId} {accepts : WorkerId → Bool} {now : Nat}

/-- One round of handing out tasks, if there are both a task and an idle worker. -/
def round? (accepts : WorkerId → Bool) (now : Nat) (s : Supervisor) : Option Supervisor :=
  match s.queue, s.idle with
  | task :: queue, worker :: idle =>
    match s.tasks.get? task with
    | none => some { s with queue }
    | some pending =>
      match s.workers.get? worker with
      | none => some { s with idle }
      | some _ =>
        if accepts worker then some (s.assign now worker pending.task)
        else some (({ s with idle } : Supervisor).retire worker)
  | _, _ => none

instance (s : Supervisor) : Decidable s.Settled :=
  inferInstanceAs (Decidable (s.queue = [] ∨ s.idle = []))

theorem round?_eq_none_iff : s.round? accepts now = none ↔ s.Settled := by
  unfold round? Settled
  cases s.queue with
  | nil => simp
  | cons task queue =>
    cases s.idle with
    | nil => simp
    | cons worker idle =>
      simp only [reduceCtorEq, or_self, iff_false]
      split
      · exact Option.some_ne_none _
      · split
        · exact Option.some_ne_none _
        · split <;> exact Option.some_ne_none _

theorem dispatchLoop_succ (accepts : WorkerId → Bool) (now n : Nat) (s : Supervisor) :
    dispatchLoop accepts now (n + 1) s =
      ((s.round? accepts now).map (dispatchLoop accepts now n)).getD s := by
  cases hq : s.queue with
  | nil => simp only [dispatchLoop, round?, hq, Option.map_none, Option.getD_none]
  | cons task queue =>
    cases hi : s.idle with
    | nil => simp only [dispatchLoop, round?, hq, hi, Option.map_none, Option.getD_none]
    | cons worker idle =>
      simp only [dispatchLoop, round?, hq, hi]
      cases s.tasks.get? task with
      | none => rfl
      | some pending =>
        cases s.workers.get? worker with
        | none => rfl
        | some state =>
          cases accepts worker with
          | true => rfl
          | false => rfl

/-- In the round the first task of the queue goes to the worker that has been idle for the
    longest time. -/
structure HandsOut (s : Supervisor) (now : Nat) (worker : WorkerId) (task : Task)
    (s' : Supervisor) : Prop where
  queue : s.queue = task.id :: s'.queue
  idle : s.idle = worker :: s'.idle
  known : ∃ waiters, s.tasks.get? task.id = some ⟨task, waiters⟩
  free : s.workers.get? worker = some .idle
  eq : s' = s.assign now worker task

/-- Where idle workers take what they are given, every round hands out a task. -/
theorem Kept.round? (h : s.Kept done) (haccepts : ∀ w ∈ s.idle, accepts w = true)
    (hr : s.round? accepts now = some s') : ∃ worker task, s.HandsOut now worker task s' := by
  unfold Supervisor.round? at hr
  split at hr
  · rename_i task queue worker idle hq hi
    obtain ⟨pending, hp⟩ := Table.mem_keys_iff.1 (h.mem_keys_of_queue (hq ▸ List.mem_cons_self))
    have hw := (h.roster.mem_idle worker).1 (hi ▸ List.mem_cons_self)
    rw [hp, hw] at hr
    dsimp only at hr
    rw [if_pos (haccepts worker (hi ▸ List.mem_cons_self))] at hr
    cases hr
    have hid := h.books.own hp
    refine ⟨worker, pending.task, ?_, ?_, ⟨pending.waiters, hid.symm ▸ hp⟩, hw, rfl⟩
    · rw [hid, Supervisor.assign, hq, List.tail_cons]
    · rw [Supervisor.assign, hi, List.tail_cons]
  · cases hr

theorem HandsOut.round?_eq {worker : WorkerId} {task : Task} (h : s.HandsOut now worker task s')
    (haccepts : accepts worker = true) : s.round? accepts now = some s' := by
  obtain ⟨waiters, hp⟩ := h.known
  simp only [Supervisor.round?, h.queue, h.idle, hp, h.free, haccepts, if_true]
  exact congrArg some h.eq.symm

end Supervisor

/-! ## Books one after another -/

namespace Pool

variable {p : Pool} {done : List TaskId}

/-- Only the last books count where jobs are handed out one after another. -/
theorem withBooks_withBooks {s₁ s₂ : Supervisor} {jobs₁ jobs₂ : List (WorkerId × Task)}
    (hkeys : s₂.workers.keys = s₁.workers.keys) (h₁ : s₁.handed = p.supervisor.handed ++ jobs₁)
    (h₂ : s₂.handed = s₁.handed ++ jobs₂) :
    (p.withBooks s₁).withBooks s₂ = p.withBooks s₂ := by
  have hspawned : spawn (p.withBooks s₁).threads s₂.workers.keys = (p.withBooks s₁).threads :=
    spawn_of_contains fun w hw => contains_withBooks p (hkeys ▸ hw)
  have hsecond : s₂.handed.drop (p.withBooks s₁).supervisor.handed.length = jobs₂ := by
    change s₂.handed.drop s₁.handed.length = jobs₂
    rw [h₂, List.drop_left]
  have hfirst : s₁.handed.drop p.supervisor.handed.length = jobs₁ := by rw [h₁, List.drop_left]
  have hboth : s₂.handed.drop p.supervisor.handed.length = jobs₁ ++ jobs₂ := by
    rw [h₂, h₁, List.append_assoc, List.drop_left]
  have hthreads : ((p.withBooks s₁).withBooks s₂).threads = (p.withBooks s₂).threads := by
    change (s₂.handed.drop (p.withBooks s₁).supervisor.handed.length).foldl deliver
      (spawn (p.withBooks s₁).threads s₂.workers.keys) = _
    rw [hspawned, hsecond]
    change jobs₂.foldl deliver ((s₁.handed.drop p.supervisor.handed.length).foldl deliver
      (spawn p.threads s₁.workers.keys)) = (s₂.handed.drop p.supervisor.handed.length).foldl deliver
        (spawn p.threads s₂.workers.keys)
    rw [hfirst, hboth, List.foldl_append, hkeys]
  unfold withBooks at hthreads ⊢
  dsimp only at hthreads ⊢
  rw [hthreads]

namespace Tended

variable {task : Task}

theorem link_idle (h : p.Tended done) (hrun : p.status = .running) {w : WorkerId}
    (hw : w ∈ p.supervisor.idle) : p.Link w .idle :=
  h.linked hrun w _ ((h.kept.roster.mem_idle w).1 hw)

theorem enqueue (h : p.Tended done) (hrun : p.status = .running) {commands : List PoolCommand}
    (hc : p.commands = .submit task :: commands) :
    (({ p with commands } : Pool).withBooks (p.supervisor.enqueue task)).Tended
      (done ++ [task.id]) := by
  have hawaiting : done ++ p.awaiting =
      done ++ [task.id] ++ ({ p with commands } : Pool).awaiting := by
    simp [awaiting, hc, PoolCommand.task?]
  obtain ⟨n, hlower, -, hframe⟩ := Supervisor.framed_enqueue p.supervisor task
  have hhanded : (p.supervisor.enqueue task).handed = p.supervisor.handed ++ [] :=
    hframe.handed.trans (List.append_nil _).symm
  refine tended_withBooks (h.kept.enqueue (h.notMem_done hc)) (hawaiting ▸ h.ids)
    (hawaiting ▸ h.le) ?_ ?_ hhanded (List.forall_mem_nil _) ?_
  · exact fun w hw => h.unborn w (Nat.le_trans hlower (hframe.next ▸ hw))
  · intro e he hreport
    exact hframe.next.symm ▸ Nat.lt_of_lt_of_le (h.reported e he hreport) hlower
  · intro w state hw
    exact (h.linked_enqueue hrun task w state hw).congr
      (thread_withBooks_of_notMem hhanded List.not_mem_nil) rfl

theorem note (h : p.Tended done) (hrun : p.status = .running) {event : PoolEvent}
    {events : List PoolEvent} (he : p.events = event :: events) :
    (({ p with events } : Pool).withBooks (p.supervisor.note event)).Tended done := by
  obtain ⟨n, hlower, -, hframe⟩ := Supervisor.framed_note p.supervisor event
  have hhanded : (p.supervisor.note event).handed = p.supervisor.handed ++ [] :=
    hframe.handed.trans (List.append_nil _).symm
  refine tended_withBooks (h.kept.note event) h.ids h.le ?_ ?_ hhanded (List.forall_mem_nil _) ?_
  · exact fun w hw => h.unborn w (Nat.le_trans hlower (hframe.next ▸ hw))
  · intro e hm hreport
    exact hframe.next.symm ▸
      Nat.lt_of_lt_of_le (h.reported e (he ▸ List.mem_cons_of_mem _ hm) hreport) hlower
  · intro w state hw
    exact (h.linked_note hrun he w state hw).congr
      (thread_withBooks_of_notMem hhanded List.not_mem_nil) rfl

theorem handsOut (h : p.Tended done) (hrun : p.status = .running) {worker : WorkerId}
    {s : Supervisor} (hs : p.supervisor.HandsOut p.now worker task s) :
    (p.withBooks s).Tended done := by
  obtain ⟨waiters, hp⟩ := hs.known
  have hmem : worker ∈ p.supervisor.idle := hs.idle ▸ List.mem_cons_self
  have hkept := h.kept.assign p.now hs.queue hs.idle hp hs.free
  have hnodup : ([(worker, task)].map (·.1)).Nodup := List.nodup_singleton _
  have heq := hs.eq
  subst heq
  have hhanded : (p.supervisor.assign p.now worker task).handed =
      p.supervisor.handed ++ [(worker, task)] := rfl
  refine tended_withBooks hkept h.ids h.le h.unborn h.reported hhanded ?_ ?_
  · intro job hjob
    rw [List.mem_singleton.1 hjob]
    exact h.kept.books.idle_lt worker hmem
  · intro w state hw
    rcases Table.get?_of_put hw with ⟨rfl, rfl⟩ | ⟨hne, hw⟩
    · exact (h.link_idle hrun hmem).deliver
        (thread_withBooks_of_mem hhanded hnodup List.mem_cons_self) rfl
    · refine (h.linked hrun w state hw).congr (thread_withBooks_of_notMem hhanded ?_) rfl
      exact fun hm => hne (List.mem_singleton.1 hm)

end Tended

end Pool

/-! ## The pool round by round -/

/-- The pool, and whether its supervisor is about to hand out tasks. -/
structure Desk where
  pool : Pool
  handing : Bool := false

namespace Desk

/-- What may happen next. -/
inductive Move where
  /-- somebody other than the supervisor acts -/
  | party (action : PoolAction)
  /-- the supervisor takes the next command -/
  | takeCommand
  /-- the supervisor takes the next event -/
  | takeEvent
  /-- the supervisor goes through one round of handing out tasks -/
  | round
  /-- the supervisor has no task to hand out any more, or nobody to take one -/
  | rest

/-- Is it a round? -/
def Move.isRound : Move → Bool
  | round => true
  | _ => false

/-- Is it the end of the rounds? -/
def Move.isRest : Move → Bool
  | rest => true
  | _ => false

/-- Carry out a move, if it is possible now.  The supervisor ends its rounds before it takes
    another message, and is not dropped amid them. -/
def act (d : Desk) : Move → Option Desk
  | .party action =>
    if action.bySupervisor || (d.handing && action.drops) then none
    else (d.pool.act action).map fun pool => { d with pool }
  | .takeCommand =>
    match d.handing, d.pool.status, d.pool.commands with
    | false, .running, .submit task :: commands =>
      some ⟨({ d.pool with commands } : Pool).withBooks (d.pool.supervisor.enqueue task), true⟩
    | false, .running, .shutdown :: commands =>
      some ⟨({ d.pool with commands } : Pool).obey .shutdown, false⟩
    | _, _, _ => none
  | .takeEvent =>
    match d.handing, d.pool.status, d.pool.events with
    | false, .running, event :: events =>
      some ⟨({ d.pool with events } : Pool).withBooks (d.pool.supervisor.note event), true⟩
    | _, _, _ => none
  | .round =>
    if d.handing then
      (d.pool.supervisor.round? d.pool.accepts d.pool.now).map fun s =>
        { d with pool := d.pool.withBooks s }
    else none
  | .rest =>
    if d.handing ∧ d.pool.supervisor.Settled then
      let s := d.pool.supervisor
      let stats := { s.stats with queued := s.queue.length }
      some ⟨{ d.pool with supervisor := { s with stats } }, false⟩
    else none

/-- Moves one after another, if each is possible in its turn. -/
def run (d : Desk) : List Move → Option Desk
  | [] => some d
  | move :: moves => (d.act move).bind fun d => d.run moves

theorem run_append (d : Desk) (ms ns : List Move) :
    d.run (ms ++ ns) = (d.run ms).bind fun d => d.run ns := by
  induction ms generalizing d with
  | nil => rfl
  | cons m ms ih =>
    rw [List.cons_append, run, run, Option.bind_assoc]
    exact congrArg _ (funext fun d => ih d)

/-- What a move does. -/
inductive Step (d : Desk) : Move → Desk → Prop where
  | party {action : PoolAction} {p : Pool} (hparty : action.bySupervisor = false)
    (hdrop : d.handing = true → action.drops = false) (hs : d.pool.Step action p) :
    Step d (.party action) { d with pool := p }
  | enqueue {task : Task} {commands : List PoolCommand} (hfree : d.handing = false)
    (hrun : d.pool.status = .running) (hc : d.pool.commands = .submit task :: commands) :
    Step d .takeCommand
      ⟨({ d.pool with commands } : Pool).withBooks (d.pool.supervisor.enqueue task), true⟩
  | stop {commands : List PoolCommand} (hfree : d.handing = false)
    (hrun : d.pool.status = .running) (hc : d.pool.commands = .shutdown :: commands) :
    Step d .takeCommand
      ⟨{ d.pool with
          supervisor := d.pool.supervisor.stop, status := .stopped, commands := [], events := [] },
        false⟩
  | note {event : PoolEvent} {events : List PoolEvent} (hfree : d.handing = false)
    (hrun : d.pool.status = .running) (he : d.pool.events = event :: events) :
    Step d .takeEvent
      ⟨({ d.pool with events } : Pool).withBooks (d.pool.supervisor.note event), true⟩
  | round {s : Supervisor} (hhanding : d.handing = true)
    (hr : d.pool.supervisor.round? d.pool.accepts d.pool.now = some s) :
    Step d .round { d with pool := d.pool.withBooks s }
  | rest (hhanding : d.handing = true) (hs : d.pool.supervisor.Settled) :
    Step d .rest
      ⟨{ d.pool with
          supervisor :=
            { d.pool.supervisor with
              stats :=
                { d.pool.supervisor.stats with queued := d.pool.supervisor.queue.length } } },
        false⟩

variable {d d' : Desk} {move : Move} {done : List TaskId} {p p' : Pool} {ms : List Move}
  {action : PoolAction}

theorem step_of_act (h : d.act move = some d') : d.Step move d' := by
  cases move with
  | party action =>
    rw [act] at h
    split at h
    · cases h
    · rename_i hguard
      rw [Bool.not_eq_true, Bool.or_eq_false_iff, Bool.and_eq_false_iff] at hguard
      obtain ⟨p, hp, rfl⟩ := Option.map_eq_some_iff.1 h
      refine .party hguard.1 (fun hhanding => ?_) (Pool.step_of_act hp)
      exact hguard.2.resolve_left (ne_false_of_eq_true hhanding)
  | takeCommand =>
    rw [act] at h
    split at h
    · rename_i task commands hfree hrun hc
      cases h
      exact .enqueue hfree hrun hc
    · rename_i commands hfree hrun hc
      cases h
      exact .stop hfree hrun hc
    · cases h
  | takeEvent =>
    rw [act] at h
    split at h
    · rename_i event events hfree hrun he
      cases h
      exact .note hfree hrun he
    · cases h
  | round =>
    rw [act] at h
    split at h
    · rename_i hhanding
      obtain ⟨s, hs, rfl⟩ := Option.map_eq_some_iff.1 h
      exact .round hhanding hs
    · cases h
  | rest =>
    rw [act] at h
    split at h
    · rename_i hready
      cases h
      exact .rest hready.1 hready.2
    · cases h

/-! ## What holds at any time -/

/-- The pool is as it should be, and only a running supervisor hands out tasks. -/
structure Sound (done : List TaskId) (d : Desk) : Prop where
  tended : d.pool.Tended done
  running : d.handing = true → d.pool.status = .running

namespace Sound

theorem accepts (h : d.Sound done) (hrun : d.pool.status = .running) :
    ∀ w ∈ d.pool.supervisor.idle, d.pool.accepts w = true :=
  fun _ hw => (h.tended.link_idle hrun hw).accepts

/-- A round hands out a task, whatever others have done since the last one. -/
theorem handsOut (h : d.Sound done) (hhanding : d.handing = true) {s : Supervisor}
    (hr : d.pool.supervisor.round? d.pool.accepts d.pool.now = some s) :
    ∃ worker task, d.pool.supervisor.HandsOut d.pool.now worker task s :=
  h.tended.kept.round? (h.accepts (h.running hhanding)) hr

theorem step (h : d.Sound done) (hs : d.Step move d') : ∃ done', d'.Sound done' := by
  cases hs with
  | @party action p hparty hdrop hs =>
    refine ⟨done, h.tended.party hs hparty, fun hhanding => ?_⟩
    have hrun := h.running hhanding
    cases hs with
    | obey | stop | hear => cases hparty
    | drop => cases hdrop hhanding
    | _ => exact hrun
  | enqueue hfree hrun hc => exact ⟨_, h.tended.enqueue hrun hc, fun _ => hrun⟩
  | stop hfree hrun hc => exact ⟨done, h.tended.stop, fun hon => Bool.noConfusion hon⟩
  | note hfree hrun he => exact ⟨done, h.tended.note hrun he, fun _ => hrun⟩
  | round hhanding hr =>
    have hrun := h.running hhanding
    obtain ⟨worker, task, hout⟩ := h.handsOut hhanding hr
    exact ⟨done, h.tended.handsOut hrun hout, fun _ => hrun⟩
  | rest hhanding hs =>
    have hkept := h.tended.kept
    refine ⟨done, { h.tended with kept := ?_, linked := fun hrun => ?_ },
      fun hon => Bool.noConfusion hon⟩
    · exact ⟨hkept.books.congr rfl rfl rfl rfl rfl rfl, { hkept.roster with }, hkept.counted⟩
    · exact Pool.Linked.congr (h.tended.linked hrun) rfl rfl

theorem run (h : d.Sound done) (hrun : d.run ms = some d') : ∃ done', d'.Sound done' := by
  induction ms generalizing d done with
  | nil =>
    cases hrun
    exact ⟨done, h⟩
  | cons m ms ih =>
    obtain ⟨d₁, h₁, hrun⟩ := Option.bind_eq_some_iff.1 hrun
    obtain ⟨done₁, hd₁⟩ := h.step (step_of_act h₁)
    exact ih hd₁ hrun

end Sound

theorem sound_run {settings : PoolSettings} {starts : StartPlan}
    (hstart : Pool.start settings starts = .ok p) (hrun : (Desk.mk p false).run ms = some d) :
    ∃ done, d.Sound done := by
  have hsound : (Desk.mk p false).Sound [] :=
    ⟨(Pool.InOrder.start hstart).toTended, fun hon => Bool.noConfusion hon⟩
  exact hsound.run hrun

/-! ## How many rounds there are -/

theorem queue_of_party (hs : p.Step action p') (hparty : action.bySupervisor = false) :
    p'.supervisor.queue = p.supervisor.queue ∧ p'.supervisor.idle = p.supervisor.idle := by
  cases hs with
  | obey | stop | hear => cases hparty
  | _ => exact ⟨rfl, rfl⟩

/-- Until the supervisor ends its rounds, each of them takes a task off the queue and a
    worker off the idle ones, and nothing else changes these. -/
theorem Sound.run_rounds (h : d.Sound done) (hhanding : d.handing = true)
    (hrest : ∀ m ∈ ms, m.isRest = false) (hrun : d.run ms = some d') :
    d'.handing = true ∧
      d'.pool.supervisor.queue = d.pool.supervisor.queue.drop (ms.countP Move.isRound) ∧
      d'.pool.supervisor.idle = d.pool.supervisor.idle.drop (ms.countP Move.isRound) ∧
      ms.countP Move.isRound ≤
        min d.pool.supervisor.queue.length d.pool.supervisor.idle.length := by
  induction ms generalizing d done with
  | nil =>
    cases hrun
    exact ⟨hhanding, rfl, rfl, Nat.zero_le _⟩
  | cons m ms ih =>
    obtain ⟨d₁, h₁, hrun⟩ := Option.bind_eq_some_iff.1 hrun
    have hs := step_of_act h₁
    obtain ⟨done₁, hd₁⟩ := h.step hs
    have hothers := fun m' hm => hrest m' (List.mem_cons_of_mem _ hm)
    cases hs with
    | party hparty hdrop hs =>
      obtain ⟨hqueue, hidle⟩ := queue_of_party hs hparty
      have hrounds := ih hd₁ hhanding hothers hrun
      dsimp only at hrounds
      rw [hqueue, hidle] at hrounds
      exact hrounds
    | enqueue hfree | stop hfree | note hfree =>
      rw [hfree] at hhanding
      cases hhanding
    | round _ hr =>
      obtain ⟨worker, task, hout⟩ := h.handsOut hhanding hr
      obtain ⟨hon, hqueue, hidle, hle⟩ := ih hd₁ hhanding hothers hrun
      refine ⟨hon, ?_, ?_, ?_⟩
      · rw [hqueue, hout.queue, List.countP_cons_of_pos rfl, List.drop_succ_cons]
        rfl
      · rw [hidle, hout.idle, List.countP_cons_of_pos rfl, List.drop_succ_cons]
        rfl
      · rw [hout.queue, hout.idle, List.countP_cons_of_pos rfl, List.length_cons, List.length_cons]
        have hboth := Nat.le_min.1 hle
        exact Nat.le_min.2 ⟨Nat.succ_le_succ hboth.1, Nat.succ_le_succ hboth.2⟩
    | rest => cases hrest _ List.mem_cons_self

theorem isSome_act_round (hhanding : d.handing = true) :
    (d.act .round).isSome = true ↔ ¬ d.pool.supervisor.Settled := by
  rw [act, if_pos hhanding, Option.isSome_map, Option.isSome_iff_ne_none, Ne,
    Supervisor.round?_eq_none_iff]

theorem isSome_act_rest (hhanding : d.handing = true) :
    (d.act .rest).isSome = true ↔ d.pool.supervisor.Settled := by
  rw [act]
  split
  · rename_i hready
    simp [hready.2]
  · rename_i hready
    have hopen : ¬ d.pool.supervisor.Settled := fun hs => hready ⟨hhanding, hs⟩
    simp [hopen]

/-! ## Runs of the pool -/

/-- Going round by round comes to the same as handing out the tasks at one go. -/
theorem exists_rounds {accepts : WorkerId → Bool} (n : Nat) (h : p.Tended done)
    (hrun : p.status = .running) (haccepts : ∀ w ∈ p.supervisor.idle, accepts w = true) :
    ∃ k, (Desk.mk p true).run (List.replicate k .round) =
      some ⟨p.withBooks (Supervisor.dispatchLoop accepts p.now n p.supervisor), true⟩ := by
  have hnone : (Desk.mk p true).run [] = some ⟨p.withBooks p.supervisor, true⟩ := by
    rw [Pool.withBooks_self h.housed, run]
  induction n generalizing p with
  | zero => exact ⟨0, hnone⟩
  | succ n ih =>
    by_cases hs : p.supervisor.Settled
    · rw [Supervisor.dispatchLoop_of_settled hs]
      exact ⟨0, hnone⟩
    · have hopen : p.supervisor.round? p.accepts p.now ≠ none :=
        Supervisor.round?_eq_none_iff.not.2 hs
      obtain ⟨s, hr⟩ := Option.ne_none_iff_exists'.1 hopen
      obtain ⟨worker, task, hout⟩ :=
        h.kept.round? (fun w hw => (h.link_idle hrun hw).accepts) hr
      have hothers : ∀ w ∈ s.idle, accepts w = true := fun w hw =>
        haccepts w (hout.idle ▸ List.mem_cons_of_mem _ hw)
      have htended := h.handsOut hrun hout
      obtain ⟨k, hk⟩ := ih htended hrun hothers (by rw [Pool.withBooks_self htended.housed, run])
      obtain ⟨-, -, hkeys, jobs, hjobs⟩ := Supervisor.dispatchLoop_of_accepts p.now n hothers
      have hfirst : s.handed = p.supervisor.handed ++ [(worker, task)] := by rw [hout.eq]; rfl
      refine ⟨k + 1, ?_⟩
      rw [List.replicate_succ, run, act, if_pos rfl, hr, Option.map_some, Option.bind_some, hk,
        Supervisor.dispatchLoop_succ,
        hout.round?_eq (haccepts worker (hout.idle ▸ List.mem_cons_self))]
      exact congrArg (fun p => some (Desk.mk p true)) (Pool.withBooks_withBooks hkeys hfirst hjobs)

/-- The supervisor, which has just changed its books, hands out tasks and rests. -/
theorem exists_dispatch {s : Supervisor} (h : (p.withBooks s).Tended done)
    (hrun : p.status = .running) (hh : s.handed = p.supervisor.handed) (hlinked : p.Linked s) :
    ∃ ms, (Desk.mk (p.withBooks s) true).run ms =
      some ⟨p.withBooks (s.dispatch p.accepts p.now), false⟩ := by
  have haccepts : ∀ w ∈ s.idle, p.accepts w = true := fun w hw =>
    (hlinked w _ ((h.kept.roster.mem_idle w).1 hw)).accepts
  have hstatus : (p.withBooks s).status = .running := hrun
  let fuel := s.queue.length + 2 * s.idle.length
  obtain ⟨k, hk⟩ := exists_rounds fuel h hstatus haccepts
  obtain ⟨-, -, hkeys, jobs, hjobs⟩ := Supervisor.dispatchLoop_of_accepts p.now fuel haccepts
  have hall := Pool.withBooks_withBooks (p := p) hkeys (hh.trans (List.append_nil _).symm) hjobs
  have hsettled : (Supervisor.dispatchLoop p.accepts p.now fuel s).Settled :=
    Supervisor.dispatchLoop_settles p.now haccepts (by omega)
  refine ⟨List.replicate k .round ++ [.rest], ?_⟩
  rw [run_append, hk]
  change ((Desk.mk ((p.withBooks s).withBooks
    (Supervisor.dispatchLoop p.accepts p.now fuel s)) true).run [.rest]) = _
  rw [hall, run, act, if_pos ⟨rfl, hsettled⟩]
  rfl

theorem exists_moves (h : p.InOrder done) (hact : p.act action = some p') :
    ∃ ms, (Desk.mk p false).run ms = some ⟨p', false⟩ := by
  by_cases hparty : action.bySupervisor = false
  · refine ⟨[.party action], ?_⟩
    simp only [run, act, hparty, hact, Bool.false_and, Bool.or_self, Bool.false_eq_true, if_false,
      Option.map_some, Option.bind_some]
  cases Pool.step_of_act hact with
  | @obey task commands hrun hc =>
    obtain ⟨n, -, -, hframe⟩ := Supervisor.framed_enqueue p.supervisor task
    obtain ⟨ms, hms⟩ := exists_dispatch (p := { p with commands }) (h.toTended.enqueue hrun hc) hrun
      hframe.handed ((h.linked_enqueue hrun task).congr rfl rfl)
    refine ⟨.takeCommand :: ms, ?_⟩
    simp only [hrun] at hms
    simp only [run, act, hrun, hc, Option.bind_some]
    exact hms
  | stop hrun hc =>
    refine ⟨[.takeCommand], ?_⟩
    simp only [run, act, hrun, hc, Option.bind_some]
    rfl
  | @hear event events hrun he =>
    obtain ⟨n, -, -, hframe⟩ := Supervisor.framed_note p.supervisor event
    obtain ⟨ms, hms⟩ := exists_dispatch (p := { p with events }) (h.toTended.note hrun he) hrun
      hframe.handed (h.linked_note hrun he)
    refine ⟨.takeEvent :: ms, ?_⟩
    simp only [hrun] at hms
    simp only [run, act, hrun, he, Option.bind_some]
    exact hms
  | _ => exact (hparty rfl).elim

/-- Every run of the pool is one where nobody acts between two rounds. -/
theorem exists_run {actions : List PoolAction} (h : p.InOrder done)
    (hrun : p.run actions = some p') :
    ∃ ms, (Desk.mk p false).run ms = some ⟨p', false⟩ := by
  induction actions generalizing p done with
  | nil =>
    cases hrun
    exact ⟨[], rfl⟩
  | cons action actions ih =>
    obtain ⟨p₁, h₁, hrun⟩ := Option.bind_eq_some_iff.1 hrun
    obtain ⟨done₁, hp₁⟩ := (h.step (Pool.step_of_act h₁)).1
    obtain ⟨ms, hms⟩ := exists_moves h h₁
    obtain ⟨ns, hns⟩ := ih hp₁ hrun
    exact ⟨ms ++ ns, by rw [run_append, hms, Option.bind_some, hns]⟩

/-! ## Hand-outs -/

/-- A worker takes a job if it is given one now.  Its thread waits at its empty inbox, or is
    on its way there, one step that it can take right now.  What the supervisor is still to
    hear about the worker is no report but a timer that went off late, and changes nothing. -/
structure Ready (d : Desk) (w : WorkerId) : Prop where
  thread : d.pool.threads.get? w = some ⟨.waiting, none⟩ ∨
    d.pool.threads.get? w = some ⟨.coming, none⟩ ∧
      ∃ d', d.act (.party (.wait w)) = some d' ∧ d'.pool.threads.get? w = some ⟨.waiting, none⟩
  takes : (d.pool.thread w).refusal? = none
  late : ∀ e ∈ d.pool.events, e.worker = w →
    (∃ task, e = .timedOut w task) ∧ d.pool.supervisor.note e = d.pool.supervisor

theorem Sound.ready (h : d.Sound done) (hon : d.pool.status = .running) {w : WorkerId}
    (hw : w ∈ d.pool.supervisor.idle) : d.Ready w := by
  have hidle := (h.tended.kept.roster.mem_idle w).1 hw
  obtain ⟨hfree, hinbox, hreports⟩ := (h.tended.link_idle hon hw).free
  obtain ⟨⟨state, inbox⟩, ht⟩ := Option.isSome_iff_exists.1
    (h.tended.housed w (Table.mem_keys_iff.2 ⟨_, hidle⟩))
  have hthread := Pool.thread_eq ht
  rw [hthread] at hfree hinbox
  cases hinbox
  refine ⟨?_, ?_, ?_⟩
  · cases state with
    | waiting => exact Or.inl ht
    | coming =>
      have hact : d.act (.party (.wait w)) =
          some ⟨{ d.pool with threads := d.pool.threads.put w ⟨.waiting, none⟩ }, d.handing⟩ := by
        simp only [act, Pool.act, ht, PoolAction.bySupervisor, PoolAction.drops, Bool.and_false,
          Bool.or_self, Bool.false_eq_true, if_false, Option.map_some]
      exact Or.inr ⟨ht, _, hact, Table.get?_put_self _ _ _⟩
    | parsing job | exited => cases hfree
  · rw [← Option.isNone_iff_eq_none, ← Thread.accepts_eq_isNone, ← Pool.accepts_eq]
    exact h.accepts hon w hw
  · rintro e he rfl
    constructor
    · cases e with
      | timedOut worker task => exact ⟨task, rfl⟩
      | finished worker task result | crashed worker task reason =>
        -- nothing that the worker itself sent is on its way
        have hmem : task ∈ Pool.reports d.pool.events worker :=
          Pool.mem_reports.2 ⟨_, he, rfl, rfl, rfl⟩
        rw [PoolEvent.worker] at hreports
        rw [hreports] at hmem
        cases hmem
    · rcases d.pool.supervisor.note_cases e with ⟨-, hnote⟩ | ⟨howns, -⟩
      · exact hnote
      · rw [Supervisor.owns_iff.1 howns] at hidle
        cases hidle

/-- Whoever acts in between, every idle worker takes a job, whether its thread waits at its
    inbox or is on its way there, and nothing that it sent is on its way.  So every round
    hands out a task, and there are as many rounds as there are tasks and idle workers for
    them. -/
theorem handout_never_fails {settings : PoolSettings} {starts : StartPlan} {p : Pool}
    {ms : List Move} (hstart : Pool.start settings starts = .ok p)
    (hrun : (Desk.mk p false).run ms = some d) (hon : d.pool.status = .running) :
    (∀ w ∈ d.pool.supervisor.idle, d.Ready w) ∧
    (∀ d', d.act .round = some d' → ∃ worker task s,
      d.pool.supervisor.HandsOut d.pool.now worker task s ∧ d.pool.accepts worker = true ∧
        d' = { d with pool := d.pool.withBooks s }) ∧
    (d.handing = true → ∀ ms' d', (∀ m ∈ ms', m.isRest = false) → d.run ms' = some d' →
      let most := min d.pool.supervisor.queue.length d.pool.supervisor.idle.length
      ms'.countP Move.isRound ≤ most ∧
        ((d'.act .round).isSome = true ↔ ms'.countP Move.isRound < most) ∧
        ((d'.act .rest).isSome = true ↔ ms'.countP Move.isRound = most)) ∧
    ∀ actions p', p.run actions = some p' →
      ∃ ms', (Desk.mk p false).run ms' = some ⟨p', false⟩ := by
  obtain ⟨done, h⟩ := sound_run hstart hrun
  refine ⟨fun w hw => h.ready hon hw, ?_, ?_, ?_⟩
  · intro d' hact
    cases step_of_act hact with
    | @round s hhanding hr =>
      obtain ⟨worker, task, hout⟩ := h.handsOut hhanding hr
      exact ⟨worker, task, s, hout, h.accepts hon worker (hout.idle ▸ List.mem_cons_self), rfl⟩
  · intro hhanding ms' d' hrest hmore
    obtain ⟨hhanding', hqueue, hidle, hle⟩ := h.run_rounds hhanding hrest hmore
    have hsettled : d'.pool.supervisor.Settled ↔ ms'.countP Move.isRound =
        min d.pool.supervisor.queue.length d.pool.supervisor.idle.length := by
      rw [Supervisor.Settled, hqueue, hidle, List.drop_eq_nil_iff, List.drop_eq_nil_iff]
      omega
    refine ⟨hle, ?_, ?_⟩
    · rw [isSome_act_round hhanding', hsettled]
      omega
    · rw [isSome_act_rest hhanding', hsettled]
  · intro actions p' hp'
    exact exists_run (Pool.InOrder.start hstart) hp'

/-- The worker of the sample has crashed on its first task, and the supervisor has just
    replaced it; one more task is queued. -/
def crash : List Move :=
  [.party (.submit "p" "a"), .takeCommand, .round, .party (.submit "p" "b"), .rest,
    .party (.receive 0), .takeCommand, .rest, .party (.finish 0 (.crashed "overflow")), .takeEvent]

/-- The new worker comes to its inbox, time passes, it gets the task and takes it at once. -/
def recovery : List Move :=
  [.party (.wait 1), .party (.advance 5), .round, .party (.receive 1)]

/-- The sample before tasks are handed out to the new worker. -/
def replaced : Desk :=
  ((Desk.mk Pool.sample false).run crash).get (by decide +kernel)

theorem handout_never_fails_sample :
    ∃ d, replaced.run recovery = some d ∧ replaced.handing = true ∧
      replaced.pool.supervisor.queue = [2] ∧ replaced.pool.supervisor.idle = [1] ∧
      replaced.pool.threads.get? 1 = some ⟨.coming, none⟩ ∧ replaced.Ready 1 ∧
      (∃ worker task s, replaced.pool.supervisor.HandsOut replaced.pool.now worker task s ∧
        replaced.pool.accepts worker = true) ∧
      (d.act .round).isSome = false ∧ (d.act .rest).isSome = true := by
  have hcheck : ((replaced.run recovery).any fun _ => decide (replaced.handing = true ∧
      replaced.pool.status = .running ∧ replaced.pool.supervisor.queue = [2] ∧
      replaced.pool.supervisor.idle = [1] ∧
      replaced.pool.threads.get? 1 = some ⟨.coming, none⟩ ∧
      (replaced.act .round).isSome = true)) = true := by
    decide +kernel
  obtain ⟨d, hmore, hcheck⟩ := (Option.any_eq_true _ _).1 hcheck
  obtain ⟨hhanding, hon, hqueue, hidle, hcoming, hround⟩ := of_decide_eq_true hcheck
  have hrun : (Desk.mk Pool.sample false).run crash = some replaced := (Option.some_get _).symm
  obtain ⟨hready, hrounds, hcount, -⟩ := handout_never_fails Pool.sample_started hrun hon
  obtain ⟨d₁, h₁⟩ := Option.isSome_iff_exists.1 hround
  obtain ⟨worker, task, s, hout, haccepts, -⟩ := hrounds d₁ h₁
  obtain ⟨-, hlast, hrest⟩ := hcount hhanding recovery d (by decide) hmore
  rw [hqueue, hidle] at hlast hrest
  refine ⟨d, hmore, hhanding, hqueue, hidle, hcoming, hready 1 (by simp [hidle]),
    ⟨worker, task, s, hout, haccepts⟩, ?_, ?_⟩
  · rw [Bool.eq_false_iff, Ne, hlast]
    decide
  · exact hrest.2 (by decide)

/-- The worker of the sample has done its task just in time, but the timer goes off before
    the supervisor hears of that. -/
def photoFinish : List Move :=
  [.party (.submit "p" "a"), .takeCommand, .round, .rest, .party (.receive 0),
    .party (.advance 30000), .party (.finish 0 (.returned (.ok ⟨[], 0⟩))), .party (.fire 1),
    .takeEvent]

/-- An idle worker need not wait at its inbox, neither when it was just started nor when it
    has just done a task, and an event about it may be on its way. -/
theorem idle_before_waiting :
    (¬ ∀ w ∈ Pool.sample.supervisor.idle, Pool.sample.threads.get? w = some ⟨.waiting, none⟩) ∧
      ∃ d, (Desk.mk Pool.sample false).run photoFinish = some d ∧ d.pool.status = .running ∧
        (¬ ∀ w ∈ d.pool.supervisor.idle, d.pool.threads.get? w = some ⟨.waiting, none⟩) ∧
        ¬ ∀ w ∈ d.pool.supervisor.idle, ∀ e ∈ d.pool.events, e.worker ≠ w := by
  have hcheck : (((Desk.mk Pool.sample false).run photoFinish).any fun d =>
      decide (d.pool.status = .running ∧
        (¬ ∀ w ∈ d.pool.supervisor.idle, d.pool.threads.get? w = some ⟨.waiting, none⟩) ∧
        ¬ ∀ w ∈ d.pool.supervisor.idle, ∀ e ∈ d.pool.events, e.worker ≠ w)) = true := by
    decide +kernel
  obtain ⟨d, hrun, hcheck⟩ := (Option.any_eq_true _ _).1 hcheck
  exact ⟨by decide +kernel, d, hrun, of_decide_eq_true hcheck⟩

end Desk

end SourceIndex
