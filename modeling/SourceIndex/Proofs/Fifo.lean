/-
  Tasks are handed out in the order in which they were queued.

  * `Supervisor.enqueued`: the tasks that a run puts into the queue, in that order;
  * `Supervisor.dispatches`: the tasks that a run hands out, each with the books as they
    were just before;
  * `Supervisor.InLine line`: the tasks of `line` that are not in the queue any more stand
    before those that are, and were handed out in this order or answered;
  * `InLine.round`, `InLine.enqueue`, `InLine.noHandout`: what each step makes of that;
  * `handed_in_order`: the tasks handed out are in the order of the queue, no task twice,
    and what was queued before a task was handed out or answered before it.
-/
import SourceIndex.Proofs.Moments

namespace SourceIndex.Supervisor

variable {s s' : Supervisor} {ids line : List TaskId} {id : TaskId} {accepts : WorkerId → Bool}
  {now : Nat}

/-! ## What is queued and what is handed out -/

/-- A task that is handed to a worker, and the books just before that. -/
structure Dispatched where
  books : Supervisor
  job : WorkerId × Task

namespace Moment

/-- The task that is put into the queue. -/
def queued (m : Moment) : List TaskId :=
  match m.duty with
  | .take _ => m.after.queue.drop m.before.queue.length
  | _ => []

/-- The task that is handed out. -/
def handouts (m : Moment) : List Dispatched :=
  (m.after.handed.drop m.before.handed.length).map fun job => ⟨m.before, job⟩

theorem handouts_of_eq {m : Moment} (h : m.after.handed = m.before.handed) : m.handouts = [] := by
  simp [handouts, h]

end Moment

/-- The tasks that a run puts into the queue, in that order. -/
def enqueued (s : Supervisor) (ms : List Message) : List TaskId :=
  (s.moments ms).flatMap (·.queued)

/-- The tasks that a run hands out, in that order. -/
def dispatches (s : Supervisor) (ms : List Message) : List Dispatched :=
  (s.moments ms).flatMap (·.handouts)

/-! ## Steps that hand out nothing -/

/-- No task is handed out.  The queue stays as it is, or it is given up and its tasks
    leave the books. -/
structure NoHandout (s s' : Supervisor) : Prop where
  handed : s'.handed = s.handed
  sent : ∀ id, s.sent id ≠ [] → s'.sent id ≠ []
  keys : s'.tasks.keys ⊆ s.tasks.keys
  queue : s'.queue = s.queue ∨ s'.queue = [] ∧ ∀ id ∈ s.queue, id ∉ s'.tasks.keys

namespace NoHandout

variable {s s' s'' : Supervisor}

theorem of_eq (hh : s'.handed = s.handed) (ha : s'.answers = s.answers) (ht : s'.tasks = s.tasks)
    (hq : s'.queue = s.queue) : s.NoHandout s' where
  handed := hh
  sent id h := by rwa [Supervisor.sent, ha]
  keys := by rw [ht]; exact fun _ => id
  queue := Or.inl hq

theorem trans (h : s.NoHandout s') (h' : s'.NoHandout s'') : s.NoHandout s'' where
  handed := h'.handed.trans h.handed
  sent id hid := h'.sent id (h.sent id hid)
  keys := List.Subset.trans h'.keys h.keys
  queue := by
    rcases h.queue with hq | ⟨hq, hoff⟩
    · rw [← hq]
      exact h'.queue
    · refine Or.inr ⟨?_, fun id hid hm => hoff id hid (h'.keys hm)⟩
      rcases h'.queue with hq' | hq'
      · exact hq'.trans hq
      · exact hq'.1

theorem resolve (s : Supervisor) (id : TaskId) (outcome : TaskResult) :
    s.NoHandout (s.resolve id outcome) := by
  cases hp : s.tasks.get? id with
  | none =>
    rw [resolve_of_none hp]
    exact of_eq rfl rfl rfl rfl
  | some p =>
    constructor
    case handed => rw [Supervisor.resolve, hp]
    case sent =>
      intro i hi
      rw [sent_resolve hp]
      exact List.append_ne_nil_of_left_ne_nil hi _
    case keys => exact fun i hi => (mem_keys_resolve.1 hi).2
    case queue => exact Or.inl (sameStaff_resolve s id outcome).queue

theorem finish (s : Supervisor) (id : TaskId) (outcome : TaskResult) :
    s.NoHandout (s.finish id outcome) := by
  refine trans ?_ (resolve _ id outcome)
  exact of_eq rfl rfl rfl rfl

theorem refuseAll (reason : String) (ids : List TaskId) (s : Supervisor) :
    s.NoHandout (Supervisor.refuseAll reason ids s) := by
  induction ids generalizing s with
  | nil => exact of_eq rfl rfl rfl rfl
  | cons id ids ih =>
    have hcounted : s.NoHandout { s with stats := { s.stats with failed := s.stats.failed + 1 } } :=
      of_eq rfl rfl rfl rfl
    exact (hcounted.trans (resolve _ id _)).trans (ih _)

end NoHandout

theorem notMem_keys_refuseAll (reason : String) (hid : id ∈ ids) :
    id ∉ (refuseAll reason ids s).tasks.keys := by
  induction ids generalizing s with
  | nil => cases hid
  | cons i ids ih =>
    by_cases hm : id ∈ ids
    · exact ih hm
    · have he : id = i := (List.mem_cons.1 hid).resolve_right hm
      intro hkey
      exact (mem_keys_resolve.1 ((NoHandout.refuseAll reason ids _).keys hkey)).1 he

namespace NoHandout

theorem retire (s : Supervisor) (worker : WorkerId) : s.NoHandout (s.retire worker) := by
  obtain ⟨starts, he | he | ⟨-, he⟩⟩ := retire_cases s worker
  · rw [he]
    exact of_eq rfl rfl rfl rfl
  · rw [he]
    exact of_eq rfl rfl rfl rfl
  · have hrest := refuseAll s.starts.reason s.queue
      { ((s.dismiss worker).withoutWorker starts).recount with queue := [] }
    rw [he]
    exact {
      handed := hrest.handed
      sent := hrest.sent
      keys := hrest.keys
      queue := Or.inr ⟨(sameStaff_refuseAll _ _ _).queue,
        fun id hid => notMem_keys_refuseAll _ hid⟩ }

theorem note (s : Supervisor) (event : PoolEvent) : s.NoHandout (s.note event) := by
  rcases note_cases s event with ⟨-, he⟩ | ⟨-, ⟨said, -, -, he⟩ | ⟨-, he⟩⟩
  · rw [he]
    exact of_eq rfl rfl rfl rfl
  · rw [he]
    refine trans ?_ (finish _ _ _)
    exact of_eq rfl rfl rfl rfl
  · have hcounted : s.NoHandout { s with stats := event.count s.stats } :=
      of_eq rfl rfl rfl rfl
    rw [he]
    exact (hcounted.trans (retire _ event.worker)).trans (finish _ _ _)

theorem stop (s : Supervisor) : s.NoHandout s.stop := by
  have hall : ∀ (ids : List TaskId) (s : Supervisor), s.NoHandout (cancelAll ids s) := by
    intro ids
    induction ids with
    | nil => exact fun s => of_eq rfl rfl rfl rfl
    | cons id ids ih => exact fun s => (resolve s id .cancelled).trans (ih _)
  have hcancelled := hall s.tasks.keys { s with timers := {} }
  exact {
    handed := hcancelled.handed
    sent := hcancelled.sent
    keys := hcancelled.keys
    queue := Or.inr ⟨rfl, fun id _ => by simp [keys_stop]⟩ }

end NoHandout

/-! ## The line -/

/-- A property of the ledger survives a round. -/
theorem LedgerInvariant.round {P : List TaskId → Supervisor → Prop} (hP : LedgerInvariant P)
    {done : List TaskId} (h : P done s) (hr : Round accepts now s s') : P done s' := by
  cases hr with
  | rest => exact h
  | skip => exact hP.same h ⟨rfl, rfl, rfl, rfl⟩
  | pass => exact hP.same h ⟨rfl, rfl, rfl, rfl⟩
  | assign hq hi hp hw ha => exact hP.assign now _ hp h
  | retire => exact ledger_retire hP.same (fun id => hP.resolve id _) _ h rfl

/-- Every task of `line` is on the books or was answered. -/
structure Tracked (line done : List TaskId) (s : Supervisor) : Prop where
  keysAgree : s.KeysAgree
  jobs : s.Jobs (·.id ∈ done)
  accounted : ∀ id ∈ line, id ∈ s.tasks.keys ∨ s.sent id ≠ []

theorem ledgerInvariant_tracked (line : List TaskId) :
    LedgerInvariant fun done s => s.Tracked line done := by
  have hI := ledgerInvariant_keysAgree
  constructor
  case same =>
    intro done s s' h hs
    obtain ⟨hagree, hjobs⟩ := hI.same ⟨h.keysAgree, h.jobs⟩ hs
    refine ⟨hagree, hjobs, ?_⟩
    simp only [sent, hs.tasks, hs.answers]
    exact h.accounted
  case resolve =>
    intro done s id outcome h
    obtain ⟨hagree, hjobs⟩ := hI.resolve id outcome ⟨h.keysAgree, h.jobs⟩
    refine ⟨hagree, hjobs, fun i hi => ?_⟩
    rcases h.accounted i hi with hkey | hsent
    · by_cases he : i = id
      · -- whoever waits for a task is sent its answer, and the task itself is among them
        subst he
        obtain ⟨p, hp⟩ := Table.mem_keys_iff.1 hkey
        have hcount : 0 < p.waiters.count i := List.count_pos_iff.2 (h.keysAgree.waits_self i p hp)
        refine Or.inr ?_
        rw [sent_resolve hp]
        refine List.append_ne_nil_of_right_ne_nil _ (List.ne_nil_of_length_pos ?_)
        rwa [List.length_replicate]
      · exact Or.inl (mem_keys_resolve.2 ⟨he, hkey⟩)
    · exact Or.inr ((NoHandout.resolve s id outcome).sent i hsent)
  case assign =>
    intro done s id p now worker hp h
    obtain ⟨hagree, hjobs⟩ := hI.assign now worker hp ⟨h.keysAgree, h.jobs⟩
    exact ⟨hagree, hjobs, h.accounted⟩
  case enqueue =>
    intro done s task hnew h
    obtain ⟨hagree, hjobs⟩ := hI.enqueue hnew ⟨h.keysAgree, h.jobs⟩
    refine ⟨hagree, hjobs, fun i hi => ?_⟩
    rcases enqueue_cases s task with ⟨id, p, -, hp, he⟩ | ⟨-, he⟩ | ⟨-, starts, he | he⟩
    · rw [he]
      exact (h.accounted i hi).imp_left fun hm => Table.mem_keys_put.2 (Or.inr hm)
    · rw [he]
      exact (h.accounted i hi).imp_left fun hm => Table.mem_keys_put.2 (Or.inr hm)
    · rw [he]
      exact (h.accounted i hi).imp_left fun hm => Table.mem_keys_put.2 (Or.inr hm)
    · rw [he]
      refine (h.accounted i hi).imp_right fun hsent => ?_
      simp only [sent, List.filter_append, List.map_append]
      exact List.append_ne_nil_of_left_ne_nil hsent _

/-- The tasks that were handed out, in that order. -/
def handedIds (s : Supervisor) : List TaskId :=
  s.handed.map (·.2.id)

/-- `line` are the tasks that were ever in the queue, in the order in which they came.
    Those that left it came before all that are still there, and each of them was handed
    out, in this order, or answered. -/
structure InLine (line done : List TaskId) (s : Supervisor) : Prop extends s.Tracked line done where
  past : ∃ gone, line = gone ++ s.queue ∧ s.handedIds.Sublist gone ∧
    ∀ id ∈ gone, id ∈ s.handedIds ∨ s.sent id ≠ []
  sublist : line.Sublist done

namespace InLine

variable {s s' : Supervisor} {line done : List TaskId} {task : Task}

theorem noHandout (h : s.InLine line done) (hs : s.NoHandout s') (ht : s'.Tracked line done) :
    s'.InLine line done := by
  obtain ⟨gone, hline, hsub, hgone⟩ := h.past
  have hids : s'.handedIds = s.handedIds := congrArg (List.map _) hs.handed
  have hstill : ∀ id ∈ gone, id ∈ s'.handedIds ∨ s'.sent id ≠ [] := fun id hid =>
    hids ▸ (hgone id hid).imp_right (hs.sent id)
  refine { ht with past := ?_, sublist := h.sublist }
  rcases hs.queue with hq | ⟨hq, hoff⟩
  · exact ⟨gone, by rw [hq, hline], hids ▸ hsub, hstill⟩
  · -- the queue is given up, so its tasks are off the books and were answered
    refine ⟨line, by simp [hq], hids ▸ hsub.trans (hline ▸ List.sublist_append_left _ _), ?_⟩
    intro id hid
    rcases List.mem_append.1 (hline ▸ hid) with hm | hm
    · exact hstill id hm
    · exact Or.inr ((ht.accounted id hid).resolve_left (hoff id hm))

/-- The first task of the queue leaves it, as it is handed out or was answered. -/
theorem advance (h : s.InLine line done) {task : TaskId} {queue : List TaskId}
    (hq : s.queue = task :: queue) (hq' : s'.queue = queue) (ht : s'.Tracked line done)
    (hsent : ∀ id, s.sent id ≠ [] → s'.sent id ≠ [])
    (hids : s'.handedIds = s.handedIds ∧ s'.sent task ≠ [] ∨
      s'.handedIds = s.handedIds ++ [task]) : s'.InLine line done := by
  obtain ⟨gone, hline, hsub, hgone⟩ := h.past
  refine { ht with past := ⟨gone ++ [task], by simp [hline, hq, hq'], ?_, ?_⟩
                   sublist := h.sublist }
  · rcases hids with ⟨hids, -⟩ | hids
    · rw [hids]
      exact hsub.trans (List.sublist_append_left _ _)
    · rw [hids]
      exact hsub.append (List.Sublist.refl _)
  · have hkept : ∀ id ∈ s.handedIds, id ∈ s'.handedIds := by
      intro id hid
      rcases hids with ⟨hids, -⟩ | hids
      · rwa [hids]
      · rw [hids]
        exact List.mem_append_left _ hid
    intro id hid
    rcases List.mem_append.1 hid with hid | hid
    · exact (hgone id hid).imp (hkept id) (hsent id)
    · rw [List.mem_singleton.1 hid]
      rcases hids with ⟨-, hanswer⟩ | hids
      · exact Or.inr hanswer
      · exact Or.inl (by simp [hids])

theorem mem_line (h : s.InLine line done) (hid : id ∈ s.queue) : id ∈ line := by
  obtain ⟨gone, hline, -, -⟩ := h.past
  rw [hline]
  exact List.mem_append_right _ hid

theorem round (h : s.InLine line done) (hr : Round accepts now s s') : s'.InLine line done := by
  have ht := (ledgerInvariant_tracked line).round h.toTracked hr
  cases hr with
  | rest => exact h
  | skip hq hnone =>
    refine h.advance hq rfl ht (fun id hid => hid) (Or.inl ⟨rfl, ?_⟩)
    refine (h.accounted _ (h.mem_line (hq ▸ List.mem_cons_self))).resolve_left ?_
    exact Table.get?_eq_none_iff.1 hnone
  | pass =>
    exact h.noHandout (.of_eq rfl rfl rfl rfl) ht
  | assign hq hi hp hw ha =>
    refine h.advance hq (congrArg List.tail hq) ht (fun id hid => hid) (Or.inr ?_)
    simp [handedIds, Supervisor.assign, (h.jobs.tasks _ _ hp).1]
  | retire => exact h.noHandout (.retire s _) ht

theorem congr (h : s.InLine line done) (hs : s.SameLedger s') (hq : s'.queue = s.queue) :
    s'.InLine line done :=
  h.noHandout (.of_eq hs.handed hs.answers hs.tasks hq)
    ((ledgerInvariant_tracked line).same h.toTracked hs)

theorem note (h : s.InLine line done) (event : PoolEvent) : (s.note event).InLine line done :=
  h.noHandout (.note s event) ((ledgerInvariant_tracked line).note h.toTracked event)

theorem stop (h : s.InLine line done) : s.stop.InLine line done :=
  h.noHandout (.stop s) ((ledgerInvariant_tracked line).stop h.toTracked)

theorem withTask (h : s.InLine line done)
    (ht : (s.withTask task).Tracked line (done ++ [task.id])) :
    (s.withTask task).InLine (line ++ [task.id]) (done ++ [task.id]) := by
  obtain ⟨gone, hline, hsub, hgone⟩ := h.past
  refine { ht with accounted := ?_, past := ⟨gone, ?_, hsub, hgone⟩, sublist := ?_ }
  · intro id hid
    rcases List.mem_append.1 hid with hid | hid
    · exact ht.accounted id hid
    · rw [List.mem_singleton.1 hid]
      exact Or.inl (Table.mem_keys_put.2 (Or.inl rfl))
  · rw [hline, List.append_assoc]
    rfl
  · exact h.sublist.append (List.Sublist.refl _)

/-- A submission that joins no work under way takes its place at the end of the line,
    unless it is refused at once. -/
theorem enqueue (h : s.InLine line done) (hnew : task.id ∉ done) :
    (s.enqueue task).InLine (line ++ (s.enqueue task).queue.drop s.queue.length)
      (done ++ [task.id]) := by
  have ht := (ledgerInvariant_tracked line).enqueue hnew h.toTracked
  have hdone : line.Sublist (done ++ [task.id]) :=
    h.sublist.trans (List.sublist_append_left _ _)
  rcases enqueue_cases s task with ⟨id, p, -, hp, he⟩ | ⟨-, he⟩ | ⟨-, starts, he | he⟩
  · rw [he] at ht ⊢
    rw [List.drop_length, List.append_nil]
    exact { ht with past := h.past, sublist := hdone }
  · rw [he] at ht ⊢
    have hlast : (s.withTask task).queue.drop s.queue.length = [task.id] := List.drop_left
    rw [hlast]
    exact h.withTask ht
  · rw [he] at ht ⊢
    have hlast : ((s.withWorker starts).withTask task).queue.drop s.queue.length = [task.id] :=
      List.drop_left
    have hworker : (s.withWorker starts).InLine line done := h.congr ⟨rfl, rfl, rfl, rfl⟩ rfl
    rw [hlast]
    exact hworker.withTask ht
  · rw [he] at ht ⊢
    have hqueue : (s.withoutWorker starts).queue.drop s.queue.length = [] := List.drop_length
    obtain ⟨gone, hline, hsub, hgone⟩ := h.past
    refine { ht with accounted := ?_, past := ⟨gone, ?_, hsub, ?_⟩, sublist := ?_ }
    · simpa [withoutWorker] using ht.accounted
    · simpa [withoutWorker] using hline
    · refine fun id hid => (hgone id hid).imp_right fun hsent => ?_
      simp only [sent, List.filter_append, List.map_append]
      exact List.append_ne_nil_of_left_ne_nil hsent _
    · simpa [withoutWorker] using hdone

end InLine

/-! ## The log of what is handed out -/

theorem Round.handed_cases (hr : Round accepts now s s') :
    s'.handed = s.handed ∨ ∃ task queue worker p, s.queue = task :: queue ∧
      s.tasks.get? task = some p ∧ s'.handed = s.handed ++ [(worker, p.task)] := by
  cases hr with
  | rest => exact Or.inl rfl
  | skip => exact Or.inl rfl
  | pass => exact Or.inl rfl
  | assign hq hi hp hw ha => exact Or.inr ⟨_, _, _, _, hq, hp, rfl⟩
  | retire => exact Or.inl (NoHandout.retire s _).handed

/-- `outs` are what was handed out so far, and the books of each have those logged that
    came before it. -/
structure Logs (outs : List Dispatched) (s : Supervisor) : Prop where
  total : s.handed = outs.map (·.job)
  books : ∀ i d, outs[i]? = some d → d.books.handed = (outs.take i).map (·.job)

namespace Logs

variable {outs : List Dispatched} {s s' : Supervisor}

theorem congr (h : Logs outs s) (hs : s'.handed = s.handed) : Logs outs s' :=
  ⟨hs.trans h.total, h.books⟩

theorem snoc (h : Logs outs s) {job : WorkerId × Task} (hs : s'.handed = s.handed ++ [job]) :
    Logs (outs ++ [⟨s, job⟩]) s' := by
  refine ⟨by simp [hs, h.total], ?_⟩
  intro i d hd
  rcases Nat.lt_trichotomy i outs.length with hi | hi | hi
  · rw [List.getElem?_append_left hi] at hd
    rw [List.take_append_of_le_length (by omega), h.books i d hd]
  · subst hi
    rw [List.getElem?_append_right (Nat.le_refl _), Nat.sub_self] at hd
    cases hd
    rw [List.take_left, h.total]
  · rw [List.getElem?_eq_none (by simp only [List.length_append, List.length_singleton]; omega)]
      at hd
    cases hd

end Logs

/-- Whatever stands before a task in the line was handed out or answered before it. -/
def Dispatched.InTurn (line : List TaskId) (d : Dispatched) : Prop :=
  ∃ gone rest, line = gone ++ d.job.2.id :: rest ∧
    ∀ id ∈ gone, id ∈ d.books.handedIds ∨ d.books.sent id ≠ []

theorem Dispatched.InTurn.append {d : Dispatched} (h : d.InTurn line) (more : List TaskId) :
    d.InTurn (line ++ more) := by
  obtain ⟨gone, rest, hline, hgone⟩ := h
  exact ⟨gone, rest ++ more, by simp [hline], hgone⟩

/-- The line after the moments `log`, with what they handed out. -/
structure Served (done : List TaskId) (log : List Moment) (s : Supervisor) : Prop where
  inLine : s.InLine (log.flatMap (·.queued)) done
  logs : Logs (log.flatMap (·.handouts)) s
  inTurn : ∀ d ∈ log.flatMap (·.handouts), d.InTurn (log.flatMap (·.queued))

namespace Served

variable {done : List TaskId} {log : List Moment} {s s' : Supervisor} {duty : Duty}

theorem congr (h : s.Served done log) (hs : s.SameLedger s') (hq : s'.queue = s.queue) :
    s'.Served done log :=
  ⟨h.inLine.congr hs hq, h.logs.congr hs.handed, h.inTurn⟩

theorem snoc (h : s.Served done log) {done' : List TaskId}
    (hline : s'.InLine (log.flatMap (·.queued) ++ (Moment.mk s duty s').queued) done')
    (hhanded : s'.handed = s.handed) : s'.Served done' (log ++ [⟨s, duty, s'⟩]) := by
  have houts : (Moment.mk s duty s').handouts = [] := Moment.handouts_of_eq hhanded
  constructor
  case inLine => simpa using hline
  case logs => simpa [houts] using h.logs.congr hhanded
  case inTurn =>
    intro d hd
    rw [List.flatMap_append, List.flatMap_singleton, houts, List.append_nil] at hd
    rw [List.flatMap_append]
    exact (h.inTurn d hd).append _

theorem noHandout (h : s.Served done log) (hduty : ∀ task, duty ≠ .take task) (hs : s.NoHandout s')
    (hline : s'.InLine (log.flatMap (·.queued)) done) :
    s'.Served done (log ++ [⟨s, duty, s'⟩]) := by
  refine h.snoc ?_ hs.handed
  cases duty with
  | take task => exact (hduty task rfl).elim
  | note | round | stop => simpa [Moment.queued] using hline

theorem enqueue (h : s.Served done log) {task : Task} (hnew : task.id ∉ done) :
    (s.enqueue task).Served (done ++ [task.id]) (log ++ [⟨s, .take task, s.enqueue task⟩]) := by
  refine h.snoc (h.inLine.enqueue hnew) ?_
  rcases enqueue_cases s task with ⟨id, p, -, -, he⟩ | ⟨-, he⟩ | ⟨-, starts, he | he⟩ <;>
    rw [he] <;> rfl

theorem round (h : s.Served done log) (hr : Round accepts now s s') :
    s'.Served done (log ++ [⟨s, .round, s'⟩]) := by
  have hline := h.inLine.round hr
  rcases hr.handed_cases with he | ⟨task, queue, worker, p, hq, hp, he⟩
  · refine h.snoc ?_ he
    simpa [Moment.queued] using hline
  · have houts : (Moment.mk s .round s').handouts = [⟨s, (worker, p.task)⟩] := by
      simp [Moment.handouts, he]
    constructor
    case inLine => simpa [Moment.queued] using hline
    case logs => simpa [houts] using h.logs.snoc he
    case inTurn =>
      rw [List.flatMap_append, List.flatMap_append, List.flatMap_singleton,
        List.flatMap_singleton, houts]
      intro d hd
      rcases List.mem_append.1 hd with hd | hd
      · exact (h.inTurn d hd).append _
      · -- the task is the first one of the queue, and the line before it is gone
        obtain ⟨gone, hgone, -, hpast⟩ := h.inLine.past
        rw [List.mem_singleton.1 hd]
        refine Dispatched.InTurn.append ⟨gone, queue, ?_, hpast⟩ _
        rw [hgone, hq, (h.inLine.jobs.tasks task p hp).1]

theorem opened (count : Nat) (starts : StartPlan) :
    (Supervisor.opened count starts).Served [] [] := by
  obtain ⟨hagree, hjobs⟩ := keysAgree_opened count starts
  have hempty : (Supervisor.opened count starts).queue = [] ∧
      (Supervisor.opened count starts).handed = [] := by
    refine opened_induction (P := fun s => s.queue = [] ∧ s.handed = []) starts ⟨rfl, rfl⟩ ?_ count
    intro s hs
    obtain ⟨starts, he | he⟩ := startWorker_cases s
    · rw [he]
      exact hs
    · rw [he]
      exact hs
  constructor
  case inLine =>
    refine ⟨⟨hagree, hjobs, List.forall_mem_nil _⟩, ⟨[], ?_, ?_, List.forall_mem_nil _⟩, ?_⟩
    · simp [hempty.1]
    · simp [handedIds, hempty.2]
    · exact List.Sublist.refl _
  case logs => exact ⟨by simp [hempty.2], by simp⟩
  case inTurn => exact List.forall_mem_nil _

theorem run (h : s.Served done log) {ms : List Message} (hn : (done ++ submissions ms).Nodup) :
    (s.run ms).Served (done ++ submissions ms) (log ++ s.moments ms) := by
  refine moments_induction (P := fun done log s => done.Nodup → s.Served done log)
    ?_ ?_ ?_ ?_ ?_ ?_ (fun _ => h) hn
  · intro done log s task h hn
    have hnew : task.id ∉ done := fun hm =>
      (List.nodup_append.1 hn).2.2 _ hm _ List.mem_cons_self rfl
    exact (h hn.of_append_left).enqueue hnew
  · intro done log s event h hn
    exact (h hn).noHandout (fun _ => by simp) (.note s event) ((h hn).inLine.note event)
  · intro done log s s' accepts now h hr hn
    exact (h hn).round hr
  · intro done log s h hn
    exact (h hn).congr ⟨rfl, rfl, rfl, rfl⟩ rfl
  · intro done log s h hn
    exact (h hn).noHandout (fun _ => by simp) (.stop s) (h hn).inLine.stop
  · intro done log s starts timers h hn
    exact (h hn).congr ⟨rfl, rfl, rfl, rfl⟩ rfl

end Served

/-! ## The order of the line -/

/-- What is taken from a line in its order stands at growing places. -/
theorem pairwise_idxOf (hn : line.Nodup) (hs : ids.Sublist line) :
    ids.Pairwise fun id id' => line.idxOf id < line.idxOf id' := by
  refine List.Pairwise.sublist hs (List.pairwise_iff_getElem.2 ?_)
  intro i j hi hj hlt
  rwa [hn.idxOf_getElem, hn.idxOf_getElem]

/-- What has a place before that of `id` stands in the part of the line before `id`. -/
theorem mem_of_idxOf_lt {gone rest : List TaskId} {earlier : TaskId}
    (hn : (gone ++ id :: rest).Nodup)
    (hlt : (gone ++ id :: rest).idxOf earlier < (gone ++ id :: rest).idxOf id) :
    earlier ∈ gone := by
  have hid : id ∉ gone := fun hm =>
    (List.nodup_append.1 hn).2.2 id hm id List.mem_cons_self rfl
  by_contra hm
  rw [List.idxOf_append_of_notMem hid, List.idxOf_append_of_notMem hm, List.idxOf_cons_self] at hlt
  omega

/-- **Tasks are handed out first in, first out.**  Whatever messages the supervisor takes,
    whichever workers crash, are replaced or cannot be started: the tasks handed out stand
    at growing places of the line, which has every task that was queued, in that order and
    once.  When a task is handed out, whatever was queued before it was handed out before
    or has been answered. -/
theorem handed_in_order {count : Nat} {starts : StartPlan} {ms : List Message} {s : Supervisor}
    (hrun : (opened count starts).run ms = s) (hids : (submissions ms).Nodup) :
    let line := (opened count starts).enqueued ms
    let outs := (opened count starts).dispatches ms
    line.Nodup ∧ line.Sublist (submissions ms) ∧
    s.handed = outs.map (·.job) ∧ s.handedIds ⊆ line ∧
    s.handedIds.Pairwise (fun id id' => line.idxOf id < line.idxOf id') ∧
    ∀ i d, outs[i]? = some d →
      d.books.handed = (outs.take i).map (·.job) ∧
      ∀ earlier ∈ line, line.idxOf earlier < line.idxOf d.job.2.id →
        (∃ d' ∈ outs.take i, d'.job.2.id = earlier) ∨ d.books.sent earlier ≠ [] := by
  intro line outs
  have h : s.Served (submissions ms) ((opened count starts).moments ms) :=
    hrun ▸ (Served.opened count starts).run hids
  have hn : line.Nodup := h.inLine.sublist.nodup hids
  have hhanded : s.handedIds.Sublist line := by
    obtain ⟨gone, hgone, hsub, -⟩ := h.inLine.past
    change line = _ at hgone
    rw [hgone]
    exact hsub.trans (List.sublist_append_left _ _)
  refine ⟨hn, h.inLine.sublist, h.logs.total, hhanded.subset, pairwise_idxOf hn hhanded, ?_⟩
  intro i d hd
  refine ⟨h.logs.books i d hd, fun earlier _ hlt => ?_⟩
  obtain ⟨gone, rest, hsplit, hgone⟩ := h.inTurn d (List.mem_of_getElem? hd)
  change line = _ at hsplit
  rw [hsplit] at hn hlt
  rcases hgone earlier (mem_of_idxOf_lt hn hlt) with hm | hm
  · rw [handedIds, h.logs.books i d hd, List.map_map] at hm
    exact Or.inl (List.mem_map.1 hm)
  · exact Or.inr hm

/-- Two workers are busy when two more tasks come and one submission joins the first of
    them.  One worker crashes, and the one in its place does not take the task, so that a
    third one gets it.  No worker can be started for the next two that crash or time out, so
    the last task in the queue is given up.  A last submission finds a worker again. -/
def Message.shifts : List Message :=
  let accepts : WorkerId → Bool := (· ≠ 2)
  let submit := fun id path => Message.submit accepts 0 (Task.ofContent id path "" 10)
  [submit 1 "a", submit 2 "b", submit 3 "c", submit 4 "c", submit 5 "d",
    .event accepts 1 (.crashed 0 1 ""), .disturb { refuse := 2, reason := "busy" } {},
    .event accepts 10 (.timedOut 1 2), .event accepts 11 (.crashed 3 3 ""), submit 6 "e"]

/-- The task that was given up was answered before a later one was handed out. -/
theorem handed_in_order_shifts :
    let s₀ := opened 2 {}
    let s := s₀.run Message.shifts
    s₀.enqueued Message.shifts = [1, 2, 3, 5, 6] ∧ s.handedIds = [1, 2, 3, 6] ∧
      s.handedIds.Pairwise (fun id id' => [1, 2, 3, 5, 6].idxOf id < [1, 2, 3, 5, 6].idxOf id') ∧
      ∀ d, (s₀.dispatches Message.shifts)[3]? = some d →
        d.job.2.id = 6 ∧ d.books.sent 5 = [.unavailable "busy"] ∧
        ∀ earlier ∈ [1, 2, 3, 5],
          (∃ d' ∈ (s₀.dispatches Message.shifts).take 3, d'.job.2.id = earlier) ∨
            d.books.sent earlier ≠ [] := by
  have h := handed_in_order (s := (opened 2 {}).run Message.shifts) rfl (by decide +kernel)
  have hline : (opened 2 {}).enqueued Message.shifts = [1, 2, 3, 5, 6] := by decide +kernel
  have hlast : ((opened 2 {}).dispatches Message.shifts)[3]?.all (fun d =>
      d.job.2.id = 6 ∧ d.books.sent 5 = [.unavailable "busy"]) = true := by decide +kernel
  simp only [hline] at h
  refine ⟨hline, by decide +kernel, h.2.2.2.2.1, fun d hd => ?_⟩
  rw [hd] at hlast
  obtain ⟨hjob, hsent⟩ := of_decide_eq_true hlast
  refine ⟨hjob, hsent, fun earlier hm => (h.2.2.2.2.2 3 d hd).2 earlier ?_ ?_⟩
  · revert earlier
    decide
  · rw [hjob]
    revert earlier
    decide

end SourceIndex.Supervisor
