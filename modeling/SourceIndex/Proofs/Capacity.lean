/-
  The pool keeps its number of workers.

  * `Supervisor.Hiring`: an attempt to start a worker, in place of one that went or, when
    a submission finds no worker at all, in place of none;
  * `Supervisor.hirings`: the attempts of a run, in order;
  * `Supervisor.Crew n`: what the attempts so far say about the workers on the books of a
    pool of `n` workers;
  * `Crew.hire`, `Crew.keep`: what an attempt makes of that, and what anything else does;
  * `capacity_kept`: there are never more workers than the pool was built with, and no
    fewer than that less the replacements that could not be started; no number is given
    to two workers.
-/
import SourceIndex.Proofs.Moments

namespace SourceIndex

theorem Table.size_eq {κ α : Type} (t : Table κ α) : t.size = t.keys.length :=
  (List.length_map _).symm

namespace Supervisor

variable {s : Supervisor} {m : Moment} {n : Nat} {log : List Moment}

/-! ## Attempts to start a worker -/

/-- An attempt to start a worker: the books just before it, and the worker whose place
    the new one is to take. -/
structure Hiring where
  books : Supervisor
  replaced : Option WorkerId

namespace Hiring

/-- No worker was started. -/
def failed (h : Hiring) : Bool :=
  !h.books.startWorker.1

/-- The worker that was started. -/
def started (h : Hiring) : List WorkerId :=
  h.books.startWorker.2.workers.keys.filter (· ∉ h.books.workers.keys)

end Hiring

/-- The attempt to start a worker at a moment.  Every attempt takes a new number. -/
def Moment.hirings (m : Moment) : List Hiring :=
  if m.after.nextWorker = m.before.nextWorker then []
  else
    match m.duty with
    | .take _ => [⟨m.before, none⟩]
    | .note event => [⟨m.before.dismiss event.worker, some event.worker⟩]
    | .round => m.before.idle.head?.toList.map fun worker => ⟨m.before.dismiss worker, some worker⟩
    | .stop => []

theorem Moment.hirings_of_next (h : m.after.nextWorker = m.before.nextWorker) : m.hirings = [] :=
  if_pos h

/-- The attempts to start a worker in a run. -/
def hirings (s : Supervisor) (ms : List Message) : List Hiring :=
  (s.moments ms).flatMap (·.hirings)

/-- The number of workers that went and could not be replaced. -/
def lapses (hs : List Hiring) : Nat :=
  hs.countP fun h => h.replaced.isSome && h.failed

/-! ## The workers of a pool -/

/-- The workers that a pool of `n` ever had. -/
def numbers (n : Nat) (hs : List Hiring) : List WorkerId :=
  List.range n ++ hs.flatMap (·.started)

/-- The workers on the books of a pool of `n` workers after the attempts `hs`.  It has
    its workers as long as it is `running`. -/
structure Crew (n : Nat) (running : Prop) (hs : List Hiring) (s : Supervisor) : Prop where
  nodup : s.workers.keys.Nodup
  counted : s.Counted
  le : s.workers.size ≤ n
  ge : running → n ≤ s.workers.size + lapses hs
  next : s.nextWorker = n + hs.length
  numbers_lt : ∀ w ∈ numbers n hs, w < s.nextWorker
  numbers_sorted : (numbers n hs).Pairwise (· < ·)
  known : s.workers.keys ⊆ numbers n hs

namespace Crew

variable {n : Nat} {running : Prop} {hs : List Hiring} {s s' : Supervisor} {worker : WorkerId}
  {state : WorkerState}

theorem keep (h : s.Crew n running hs) (hkeys : s'.workers.keys = s.workers.keys)
    (hnext : s'.nextWorker = s.nextWorker) (hc : s'.Counted) : s'.Crew n running hs := by
  have hsize : s'.workers.size = s.workers.size := by rw [Table.size_eq, Table.size_eq, hkeys]
  constructor
  case nodup => rw [hkeys]; exact h.nodup
  case counted => exact hc
  case le => rw [hsize]; exact h.le
  case ge => rw [hsize]; exact h.ge
  case next => rw [hnext]; exact h.next
  case numbers_lt => rw [hnext]; exact h.numbers_lt
  case numbers_sorted => exact h.numbers_sorted
  case known => rw [hkeys]; exact h.known

theorem put (h : s.Crew n running hs) (hw : s.workers.get? worker = some state)
    (state' : WorkerState) (hput : s'.workers = s.workers.put worker state')
    (hnext : s'.nextWorker = s.nextWorker) (hstaff : s'.stats.workers = s.stats.workers) :
    s'.Crew n running hs := by
  refine h.keep ?_ hnext ?_
  · rw [hput, Table.keys_put_old state' hw]
  · rw [Counted, hstaff, hput, Table.size_put_old state' hw]
    exact h.counted

/-- An attempt to start a worker after the one that is to be replaced went. -/
theorem hire (h : s.Crew n running hs) {b : Supervisor} {replaced : Option WorkerId}
    (hleft : b.workers.keys.Sublist s.workers.keys) (hnext : b.nextWorker = s.nextWorker)
    (hgone : b.workers.size + replaced.toList.length = s.workers.size)
    (hroom : b.workers.size < n) (hkeys : s'.workers.keys = b.startWorker.2.workers.keys)
    (hnext' : s'.nextWorker = s.nextWorker + 1) (hc : s'.Counted) :
    s'.Crew n running (hs ++ [⟨b, replaced⟩]) := by
  have hnew : b.nextWorker ∉ b.workers.keys := by
    intro hm
    have hlt := h.numbers_lt _ (h.known (hleft.subset hm))
    rw [hnext] at hlt
    exact Nat.lt_irrefl _ hlt
  have hnumbers : numbers n (hs ++ [⟨b, replaced⟩]) =
      numbers n hs ++ (Hiring.mk b replaced).started := by
    simp [numbers]
  have hlast : s'.nextWorker = n + (hs ++ [Hiring.mk b replaced]).length := by
    rw [hnext', h.next, List.length_append]
    rfl
  have hge := h.ge
  rw [Table.size_eq] at hgone hroom
  rw [Table.size_eq] at hgone hge
  obtain ⟨starts, he | he⟩ := startWorker_cases b
  · -- the new worker has the next number
    have hput : s'.workers.keys = b.workers.keys ++ [s.nextWorker] := by
      rw [hkeys, he, ← hnext]
      exact Table.keys_put_new _ hnew
    have hstarted : (Hiring.mk b replaced).started = [s.nextWorker] := by
      rw [Hiring.started, ← hkeys, hput, List.filter_append, ← hnext]
      simp [hnew]
    have hlapses : lapses (hs ++ [⟨b, replaced⟩]) = lapses hs := by
      simp [lapses, Hiring.failed, he]
    constructor
    case nodup =>
      rw [hput]
      refine List.Nodup.append (hleft.nodup h.nodup) (List.nodup_singleton _) fun w hw hw' => ?_
      rw [List.mem_singleton.1 hw', ← hnext] at hw
      exact hnew hw
    case counted => exact hc
    case le =>
      rw [Table.size_eq, hput, List.length_append, List.length_singleton]
      omega
    case ge =>
      rw [Table.size_eq, hput, hlapses, List.length_append, List.length_singleton]
      have hone : replaced.toList.length ≤ 1 := by cases replaced <;> simp
      intro hr
      have := hge hr
      omega
    case next => exact hlast
    case numbers_lt =>
      rw [hnumbers, hstarted, hnext']
      intro w hw
      rcases List.mem_append.1 hw with hw | hw
      · exact Nat.lt_succ_of_lt (h.numbers_lt w hw)
      · rw [List.mem_singleton.1 hw]
        exact Nat.lt_succ_self _
    case numbers_sorted =>
      rw [hnumbers, hstarted, List.pairwise_append]
      refine ⟨h.numbers_sorted, List.pairwise_singleton _ _, fun w hw w' hw' => ?_⟩
      rw [List.mem_singleton.1 hw']
      exact h.numbers_lt w hw
    case known =>
      rw [hnumbers, hstarted, hput]
      refine List.append_subset.2 ⟨?_, List.subset_append_right _ _⟩
      exact List.Subset.trans (List.Subset.trans hleft.subset h.known) (List.subset_append_left _ _)
  · -- the place stays empty
    have hput : s'.workers.keys = b.workers.keys := by
      rw [hkeys, he]
      rfl
    have hstarted : (Hiring.mk b replaced).started = [] := by
      rw [Hiring.started, ← hkeys, hput]
      simp
    have hlapses : lapses (hs ++ [⟨b, replaced⟩]) = lapses hs + replaced.toList.length := by
      cases replaced <;> simp [lapses, Hiring.failed, he]
    constructor
    case nodup => rw [hput]; exact hleft.nodup h.nodup
    case counted => exact hc
    case le =>
      rw [Table.size_eq, hput]
      omega
    case ge =>
      rw [Table.size_eq, hput, hlapses]
      intro hr
      have := hge hr
      omega
    case next => exact hlast
    case numbers_lt =>
      rw [hnumbers, hstarted, List.append_nil, hnext']
      exact fun w hw => Nat.lt_succ_of_lt (h.numbers_lt w hw)
    case numbers_sorted =>
      rw [hnumbers, hstarted, List.append_nil]
      exact h.numbers_sorted
    case known =>
      rw [hnumbers, hstarted, List.append_nil, hput]
      exact List.Subset.trans hleft.subset h.known

/-! ## Moments -/

/-- A submission leaves the workers as they are, or it finds none and has one started. -/
theorem staff_enqueue (hc : s.Counted) (task : Task) :
    (s.enqueue task).Counted ∧
      ((s.enqueue task).workers = s.workers ∧ (s.enqueue task).nextWorker = s.nextWorker ∨
        s.workers.isEmpty = true ∧ (s.enqueue task).workers = s.startWorker.2.workers ∧
          (s.enqueue task).nextWorker = s.nextWorker + 1) := by
  unfold Supervisor.enqueue
  dsimp only
  split
  · exact ⟨hc, Or.inl ⟨rfl, rfl⟩⟩
  · by_cases hw : s.workers.isEmpty = true
    · rw [if_pos hw]
      obtain ⟨starts, he | he⟩ := startWorker_cases s
      · rw [he]
        exact ⟨rfl, Or.inr ⟨hw, rfl, rfl⟩⟩
      · rw [he]
        exact ⟨hc, Or.inr ⟨hw, rfl, rfl⟩⟩
    · rw [if_neg hw]
      exact ⟨hc, Or.inl ⟨rfl, rfl⟩⟩

theorem workers_startWorker (s : Supervisor) :
    s.startWorker.2.workers =
      if s.starts.next.1 then s.workers.put s.nextWorker .idle else s.workers := by
  unfold startWorker
  rcases s.starts.next with ⟨started, starts⟩
  cases started <;> rfl

theorem keys_retire (s : Supervisor) (worker : WorkerId) :
    (s.retire worker).workers.keys = (s.dismiss worker).startWorker.2.workers.keys := by
  obtain ⟨starts, he | he⟩ := startWorker_cases (s.dismiss worker)
  · rw [retire_eq, he]
  · rw [retire_eq, he]
    dsimp only
    split
    · rw [(sameStaff_refuseAll _ _ _).workers]
      rfl
    · rfl

/-- A worker that goes leaves its place to a new one. -/
theorem retire (h : s.Crew n running hs) (hw : s.workers.get? worker = some state)
    (hkeys : s'.workers.keys = (s.retire worker).workers.keys)
    (hnext : s'.nextWorker = s.nextWorker + 1) (hc : s'.Counted) :
    s'.Crew n running (hs ++ [⟨s.dismiss worker, some worker⟩]) := by
  have hmem : worker ∈ s.workers.keys := Table.mem_keys_iff.2 ⟨state, hw⟩
  have hgone : (s.dismiss worker).workers.size + 1 = s.workers.size := by
    rw [Table.size_eq, Table.size_eq, (Table.perm_keys_erase h.nodup hmem).length_eq]
    rfl
  refine h.hire ?_ rfl hgone (by have := h.le; omega) ?_ hnext hc
  · exact List.filter_sublist.map _
  · rw [hkeys, keys_retire]

/-- A message that changes nothing about the running of the pool. -/
theorem congr {running' : Prop} (h : s.Crew n running hs) (hr : running' → running) :
    s.Crew n running' hs :=
  { h with ge := fun hr' => h.ge (hr hr') }

theorem enqueue (h : s.Crew n running hs) (hn : 0 < n) (task : Task) :
    (s.enqueue task).Crew n running
      (hs ++ (Moment.mk s (.take task) (s.enqueue task)).hirings) := by
  obtain ⟨hc, ⟨hw, hnext⟩ | ⟨hempty, hw, hnext⟩⟩ := staff_enqueue h.counted task
  · rw [Moment.hirings_of_next hnext, List.append_nil]
    exact h.keep (by rw [hw]) hnext hc
  · have hzero : s.workers.size = 0 := by
      rw [Table.size, List.isEmpty_iff.1 hempty]
      rfl
    have hone : (Moment.mk s (.take task) (s.enqueue task)).hirings = [⟨s, none⟩] := by
      simp [Moment.hirings, hnext]
    rw [hone]
    exact h.hire (List.Sublist.refl _) rfl rfl (by rw [hzero]; exact hn) (by rw [hw]) hnext hc

theorem keys_finish (s : Supervisor) (id : TaskId) (outcome : TaskResult) :
    (s.finish id outcome).workers = s.workers ∧ (s.finish id outcome).nextWorker = s.nextWorker ∧
      (s.finish id outcome).stats.workers = s.stats.workers := by
  let b : Supervisor := { s with
    timers := s.timers.erase id
    stats := { s.stats with active := s.stats.active - 1 } }
  exact ⟨(sameStaff_resolve b id outcome).workers, (framed_resolve b id outcome).next,
    (sameStaff_resolve b id outcome).staff⟩

theorem note (h : s.Crew n running hs) (event : PoolEvent) :
    (s.note event).Crew n running
      (hs ++ (Moment.mk s (.note event) (s.note event)).hirings) := by
  rcases note_cases s event with ⟨-, he⟩ | ⟨hown, ⟨said, -, -, he⟩ | ⟨-, he⟩⟩
  · rw [Moment.hirings_of_next (by rw [he]), List.append_nil, he]
    exact h
  · obtain ⟨hw, hnext, hstaff⟩ :=
      keys_finish (s.reclaim event.worker (event.count s.stats)) event.task event.outcome
    rw [Moment.hirings_of_next (by rw [he, hnext]; rfl), List.append_nil, he]
    exact h.put (owns_iff.1 hown) .idle hw hnext (hstaff.trans (event.workers_count s.stats))
  · let b : Supervisor := { s with stats := event.count s.stats }
    obtain ⟨hw, hnext, hstaff⟩ := keys_finish (b.retire event.worker) event.task event.outcome
    have hnext' : (s.note event).nextWorker = s.nextWorker + 1 := by
      rw [he, hnext, (framed_retire b event.worker).next]
    have hone : (Moment.mk s (.note event) (s.note event)).hirings =
        [⟨s.dismiss event.worker, some event.worker⟩] := by
      simp [Moment.hirings, hnext']
    rw [hone]
    refine h.retire (owns_iff.1 hown) ?_ hnext' ?_
    · rw [he, hw, keys_retire, keys_retire, workers_startWorker, workers_startWorker]
      rfl
    · rw [he, Counted, hstaff, hw]
      exact counted_retire b event.worker

theorem round (h : s.Crew n running hs) {accepts : WorkerId → Bool} {now : Nat}
    (hr : Round accepts now s s') :
    s'.Crew n running (hs ++ (Moment.mk s .round s').hirings) := by
  cases hr with
  | rest hs =>
    rw [Moment.hirings_of_next rfl, List.append_nil]
    exact h
  | skip | pass =>
    rw [Moment.hirings_of_next rfl, List.append_nil]
    exact h.keep rfl rfl h.counted
  | assign hq hi hp hw ha =>
    rw [Moment.hirings_of_next rfl, List.append_nil]
    exact h.put hw (.busy _) rfl rfl rfl
  | @retire worker idle state hi hw ha =>
    have hnext := (framed_retire s worker).next
    have hone : (Moment.mk s .round (s.retire worker)).hirings =
        [⟨s.dismiss worker, some worker⟩] := by
      simp [Moment.hirings, hnext, hi]
    rw [hone]
    exact h.retire hw rfl hnext (counted_retire s worker)

theorem stop (h : s.Crew n running hs) : s.stop.Crew n False hs := by
  have hnext := (framed_stop s).next
  exact {
    nodup := List.nodup_nil
    counted := rfl
    le := Nat.zero_le n
    ge := False.elim
    next := hnext.trans h.next
    numbers_lt := hnext ▸ h.numbers_lt
    numbers_sorted := h.numbers_sorted
    known := List.nil_subset _ }

theorem keys_startWorkers {count k : Nat} (hs : s.workers.keys = List.range k ∧ s.nextWorker = k)
    (h : startWorkers count s = (true, s')) :
    s'.workers.keys = List.range (k + count) ∧ s'.nextWorker = k + count := by
  induction count generalizing k s with
  | zero =>
    cases h
    exact hs
  | succ count ih =>
    rw [startWorkers] at h
    obtain ⟨starts, he | he⟩ := startWorker_cases s
    · rw [he] at h
      have hnew : s.nextWorker ∉ s.workers.keys := by
        rw [hs.1, hs.2, List.mem_range]
        exact Nat.lt_irrefl k
      rw [Nat.add_comm count, ← Nat.add_assoc]
      refine ih ⟨?_, congrArg (· + 1) hs.2⟩ h
      rw [withWorker, Table.keys_put_new _ hnew, hs.1, hs.2, List.range_succ]
    · rw [he] at h
      cases h

theorem opened (hs : s.workers.keys = List.range n) (hnext : s.nextWorker = n)
    (hc : s.Counted) : s.Crew n True [] := by
  have hnumbers : numbers n [] = List.range n := List.append_nil _
  have hsize : s.workers.size = n := by rw [Table.size_eq, hs, List.length_range]
  constructor
  case nodup => rw [hs]; exact List.nodup_range
  case counted => exact hc
  case le => exact Nat.le_of_eq hsize
  case ge => exact fun _ => Nat.le_of_eq hsize.symm
  case next => exact hnext
  case numbers_lt => rw [hnumbers, hnext]; exact fun w => List.mem_range.1
  case numbers_sorted => rw [hnumbers]; exact List.pairwise_lt_range
  case known => rw [hnumbers, hs]; exact List.Subset.refl _

end Crew

/-! ## Runs -/

/-- The workers of a pool of `n` after the moments `log`, and at each of them. -/
structure Manning (n : Nat) (log : List Moment) (s : Supervisor) : Prop where
  crew : s.Crew n (∀ m ∈ log, m.duty ≠ .stop) (log.flatMap (·.hirings))
  within : ∀ m ∈ log, m.before.workers.size ≤ n ∧ m.after.workers.size ≤ n

theorem Manning.snoc {s' : Supervisor} {duty : Duty} (h : s.Manning n log)
    (hcrew : s'.Crew n (duty ≠ .stop ∧ ∀ m ∈ log, m.duty ≠ .stop)
      (log.flatMap (·.hirings) ++ (Moment.mk s duty s').hirings)) :
    s'.Manning n (log ++ [⟨s, duty, s'⟩]) := by
  constructor
  case crew =>
    rw [List.flatMap_append, List.flatMap_singleton]
    refine hcrew.congr fun hr => ⟨hr _ (List.mem_append_right _ List.mem_cons_self), ?_⟩
    exact fun m hm => hr m (List.mem_append_left _ hm)
  case within =>
    intro m hm
    rcases List.mem_append.1 hm with hm | hm
    · exact h.within m hm
    · rw [List.mem_singleton.1 hm]
      exact ⟨h.crew.le, hcrew.le⟩

theorem Manning.run (hn : 0 < n) (h : s.Manning n log) (ms : List Message) :
    (s.run ms).Manning n (log ++ s.moments ms) := by
  let P : List TaskId → List Moment → Supervisor → Prop := fun _ log s => s.Manning n log
  change P ([] ++ submissions ms) _ _
  refine moments_induction ?_ ?_ ?_ ?_ ?_ ?_ h
  · intro _ log s task h
    exact h.snoc ((h.crew.congr And.right).enqueue hn task)
  · intro _ log s event h
    exact h.snoc ((h.crew.congr And.right).note event)
  · intro _ log s s' accepts now h hr
    exact h.snoc ((h.crew.congr And.right).round hr)
  · intro _ log s h
    exact ⟨h.crew.keep rfl rfl h.crew.counted, h.within⟩
  · intro _ log s h
    refine h.snoc ?_
    rw [Moment.hirings_of_next (framed_stop s).next, List.append_nil]
    exact h.crew.stop.congr fun hr => hr.1 rfl
  · intro _ log s starts timers h
    exact ⟨h.crew.keep rfl rfl h.crew.counted, h.within⟩

theorem shutdown_of_stop {ms : List Message} (hm : m ∈ s.moments ms) (hstop : m.duty = .stop) :
    .shutdown ∈ ms := by
  have hrounds : ∀ {accepts now n s}, m ∉ rounds accepts now n s := by
    intro accepts now n s hm
    obtain ⟨k, -, rfl⟩ := List.mem_map.1 hm
    cases hstop
  induction ms generalizing s with
  | nil => cases hm
  | cons message ms ih =>
    cases message with
    | submit | event =>
      simp only [moments, List.mem_append, List.mem_singleton, hrounds, or_false] at hm
      rcases hm with rfl | hm
      · cases hstop
      · exact List.mem_cons_of_mem _ (ih hm)
    | disturb starts timers => exact List.mem_cons_of_mem _ (ih hm)
    | shutdown => exact List.mem_cons_self

end Supervisor

theorem Pool.manning_start {settings : PoolSettings} {starts : StartPlan} {p : Pool}
    (h : Pool.start settings starts = .ok p) :
    p.supervisor.workers.keys = List.range (max settings.workerCount 1) ∧
      p.supervisor.Manning (max settings.workerCount 1) [] := by
  obtain ⟨s, hstart, rfl⟩ := eq_of_start h
  have hopened : Supervisor.opened (max settings.workerCount 1) starts = s :=
    congrArg Prod.snd hstart
  have hc : s.Counted := hopened ▸ (Supervisor.Kept.opened _ starts).counted
  obtain ⟨hkeys, hnext⟩ := Supervisor.Crew.keys_startWorkers ⟨rfl, rfl⟩ hstart
  rw [Nat.zero_add] at hkeys hnext
  refine ⟨hkeys, ?_, List.forall_mem_nil _⟩
  exact (Supervisor.Crew.opened hkeys hnext hc).congr fun _ => trivial

namespace Supervisor

/-- **The pool keeps its number of workers.**  Whatever messages the supervisor takes, and
    whichever worker starts fail: there are never more workers than the pool was built
    with.  Until a shutdown those that are missing are at most as many as the replacements
    that could not be started, so that none is missing if every start succeeds.  The workers
    that were ever started have growing numbers.  The books of the pool are those after some
    messages, at any time. -/
theorem capacity_kept {settings : PoolSettings} {starts : StartPlan} {p : Pool}
    (hstart : Pool.start settings starts = .ok p) :
    let n := max settings.workerCount 1
    p.supervisor.workers.keys = List.range n ∧
    (∀ ms,
      let s := p.supervisor.run ms
      let hired := p.supervisor.hirings ms
      s.workers.size ≤ n ∧ s.stats.workers = s.workers.size ∧
      (∀ m ∈ p.supervisor.moments ms, m.before.workers.size ≤ n ∧ m.after.workers.size ≤ n) ∧
      (.shutdown ∉ ms → n - s.workers.size ≤ lapses hired) ∧
      (.shutdown ∉ ms → (∀ h ∈ hired, h.failed = false) → s.workers.size = n) ∧
      s.nextWorker = n + hired.length ∧
      (numbers n hired).Pairwise (· < ·) ∧ s.workers.keys ⊆ numbers n hired) ∧
    ∀ actions p', p.run actions = some p' → ∃ ms starts, p'.Driven p.supervisor ms starts := by
  intro n
  obtain ⟨hkeys, hbegin⟩ := Pool.manning_start hstart
  refine ⟨hkeys, fun ms => ?_, fun actions p' hrun => ?_⟩
  · intro s hired
    have hn : 0 < n := Nat.lt_of_lt_of_le Nat.one_pos (Nat.le_max_right _ 1)
    have h := hbegin.run hn ms
    have hge : .shutdown ∉ ms → n ≤ s.workers.size + lapses hired := fun hms =>
      h.crew.ge fun m hm hstop => hms (shutdown_of_stop hm hstop)
    refine ⟨h.crew.le, h.crew.counted, h.within, fun hms => ?_, fun hms hall => ?_, h.crew.next,
      h.crew.numbers_sorted, h.crew.known⟩
    · have := hge hms
      omega
    · have hnone : lapses hired = 0 := by
        rw [lapses, List.countP_eq_zero]
        intro h hm
        simp [hall h hm]
      have hle : s.workers.size ≤ n := h.crew.le
      have := hge hms
      omega
  · exact Pool.driven_run hstart hrun

/-- Two workers get a task each; one crashes and the other one takes too long. -/
def Message.accidents : List Message :=
  let submit := fun id path => Message.submit (fun _ => true) 0 (Task.ofContent id path "" 10)
  [submit 1 "a", submit 2 "b", .event (fun _ => true) 1 (.crashed 0 1 ""),
    .event (fun _ => true) 10 (.timedOut 1 2)]

/-- No worker can be started any more.  One worker does not take its task and the other
    one takes too long with it.  The last submission finds no worker and has one started. -/
def Message.shortage : List Message :=
  let submit := fun id path => Message.submit (· ≠ 2) 20 (Task.ofContent id path "" 10)
  [.disturb { refuse := 2 } {}, submit 3 "c", .event (· ≠ 2) 30 (.timedOut 3 3), submit 4 "d"]

/-- Both workers are replaced after the accidents; in the shortage both are lost. -/
theorem capacity_kept_shortage :
    ∃ p, Pool.start { workerCount := 2 } {} = .ok p ∧
      (p.supervisor.run Message.accidents).workers.keys = [2, 3] ∧
      (p.supervisor.run Message.accidents).workers.size = 2 ∧
      let ms := Message.accidents ++ Message.shortage
      let hired := p.supervisor.hirings ms
      (p.supervisor.run ms).workers.keys = [6] ∧ lapses hired = 2 ∧
        2 - (p.supervisor.run ms).workers.size ≤ 2 ∧ numbers 2 hired = [0, 1, 2, 3, 6] ∧
        (numbers 2 hired).Pairwise (· < ·) := by
  obtain ⟨p, hstart, hp⟩ : ∃ p, Pool.start { workerCount := 2 } {} = .ok p ∧
      p.supervisor = opened 2 {} := ⟨_, rfl, rfl⟩
  obtain ⟨-, h, -⟩ := capacity_kept hstart
  have hcalm : ∀ m ∈ (opened 2 {}).hirings Message.accidents, m.failed = false := by decide +kernel
  have hlapses : lapses ((opened 2 {}).hirings (Message.accidents ++ Message.shortage)) = 2 := by
    decide +kernel
  refine ⟨p, hstart, ?_, ?_, ?_, ?_, ?_, ?_, ?_⟩
  · rw [hp]
    decide +kernel
  · refine (h Message.accidents).2.2.2.2.1 ?_ (hp ▸ hcalm)
    simp [Message.accidents]
  · rw [hp]
    decide +kernel
  · rw [hp]
    exact hlapses
  · have hless := (h (Message.accidents ++ Message.shortage)).2.2.2.1 (by
      simp [Message.accidents, Message.shortage])
    rw [hp, hlapses] at hless
    rw [hp]
    exact hless
  · rw [hp]
    decide +kernel
  · exact (h (Message.accidents ++ Message.shortage)).2.2.2.2.2.2.1

end Supervisor

end SourceIndex
