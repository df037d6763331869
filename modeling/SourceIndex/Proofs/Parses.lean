/-
  Where the answers of the pool come from.

  Let `Job` hold of the submissions made so far, told apart by their numbers, and
  `Found key said` if the parser said `said`, a result or an error, about a revision
  with that key.

  * `Supervisor.Traced`, `Pool.Traced`: everything that the pool holds stems from such
    submissions, and whatever it tells them the parser to have said was said about the
    key it stands under;
  * `Pool.Traced.act`: every action of the pool keeps this, where a parse that ends is
    among those that `Found` speaks of;
  * `Pool.Traced.submit`: so does a submission, which has a number of its own.
-/
import SourceIndex.Proofs.Parties
import SourceIndex.Proofs.Supervisor
import SourceIndex.Proofs.Table

namespace SourceIndex

section
variable (Job : Task → Prop) (Found : TaskKey → Except ParserError ParseResult → Prop)

/-- The parser said so about the submission with a number. -/
def FoundFor (id : TaskId) (said : Except ParserError ParseResult) : Prop :=
  ∃ task, Job task ∧ task.id = id ∧ Found task.key said

/-- What is on the books stems from submissions, and answers that tell what the parser
    said are right. -/
structure Supervisor.Traced (s : Supervisor) : Prop where
  task : ∀ {id p}, s.tasks.get? id = some p → Job p.task ∧ p.task.id = id
  waiter : ∀ {id p}, s.tasks.get? id = some p → ∀ w ∈ p.waiters,
    ∃ task, Job task ∧ task.id = w ∧ task.key = p.task.key
  inFlight : ∀ {key id}, s.inFlight.get? key = some id →
    ∃ task, Job task ∧ task.id = id ∧ task.key = key
  answer : ∀ {id outcome said}, (id, outcome) ∈ s.answers → outcome.said? = some said →
    FoundFor Job Found id said
  handed : ∀ {w task}, (w, task) ∈ s.handed → Job task

/-- The jobs of a thread stem from submissions. -/
def Thread.Traced (t : Thread) : Prop :=
  (∀ task, t.inbox = some task → Job task) ∧ ∀ task, t.state = .parsing task → Job task

/-- What the pool holds stems from submissions, and what the parser said is right. -/
structure Pool.Traced (p : Pool) : Prop where
  inj : ∀ {t t'}, Job t → Job t' → t.id = t'.id → t = t'
  le : ∀ {t}, Job t → t.id ≤ p.lastTask
  supervisor : p.supervisor.Traced Job Found
  command : ∀ {task}, .submit task ∈ p.commands → Job task
  event : ∀ {w id said}, .finished w id said ∈ p.events → FoundFor Job Found id said
  thread : ∀ {w t}, p.threads.get? w = some t → t.Traced Job

end

section
variable {Job : Task → Prop} {Found : TaskKey → Except ParserError ParseResult → Prop}

theorem FoundFor.mono {Job' : Task → Prop}
    {Found' : TaskKey → Except ParserError ParseResult → Prop} {id : TaskId}
    {said : Except ParserError ParseResult} (h : FoundFor Job Found id said)
    (hj : ∀ {t}, Job t → Job' t)
    (hf : ∀ {key said}, Found key said → Found' key said) : FoundFor Job' Found' id said :=
  h.imp fun _ ht => ⟨hj ht.1, ht.2.1, hf ht.2.2⟩

namespace Supervisor

variable {s : Supervisor}

namespace Traced

variable {task : Task}

theorem mono (h : s.Traced Job Found) {Job' : Task → Prop}
    {Found' : TaskKey → Except ParserError ParseResult → Prop} (hj : ∀ {t}, Job t → Job' t)
    (hf : ∀ {key said}, Found key said → Found' key said) : s.Traced Job' Found' where
  task hp := ⟨hj (h.task hp).1, (h.task hp).2⟩
  waiter hp w hw := (h.waiter hp w hw).imp fun _ ht => ⟨hj ht.1, ht.2⟩
  inFlight hk := (h.inFlight hk).imp fun _ ht => ⟨hj ht.1, ht.2⟩
  answer hm hs := (h.answer hm hs).mono hj hf
  handed hm := hj (h.handed hm)

theorem congr (h : s.Traced Job Found) {s' : Supervisor} (ht : s'.tasks = s.tasks)
    (hi : s'.inFlight = s.inFlight) (ha : s'.answers = s.answers) (hh : s'.handed = s.handed) :
    s'.Traced Job Found where
  task hp := h.task (ht ▸ hp)
  waiter hp := h.waiter (ht ▸ hp)
  inFlight hk := h.inFlight (hi ▸ hk)
  answer hm := h.answer (ha ▸ hm)
  handed hm := h.handed (hh ▸ hm)

theorem resolve (h : s.Traced Job Found) (id : TaskId) {outcome : TaskResult}
    (hfound : ∀ p said, s.tasks.get? id = some p → outcome.said? = some said →
      Found p.task.key said) : (s.resolve id outcome).Traced Job Found := by
  unfold Supervisor.resolve
  split
  · exact h
  rename_i p hp
  have hold : ∀ {id' p'}, (s.tasks.erase id).get? id' = some p' → s.tasks.get? id' = some p' := by
    intro id' p' hp'
    rw [Table.get?_erase] at hp'
    exact (Option.ite_none_left_eq_some.1 hp').2
  refine ⟨fun hp' => h.task (hold hp'), fun hp' => h.waiter (hold hp'), fun {key id'} hk => ?_,
    fun {w outcome' said} hm hs => ?_, h.handed⟩
  · dsimp only at hk
    split at hk
    · rw [Table.get?_erase] at hk
      exact h.inFlight (Option.ite_none_left_eq_some.1 hk).2
    · exact h.inFlight hk
  · rcases List.mem_append.1 hm with hm | hm
    · exact h.answer hm hs
    · obtain ⟨w, hw, he⟩ := List.mem_map.1 hm
      cases he
      obtain ⟨task, hjob, hid, hkey⟩ := h.waiter hp w hw
      exact ⟨task, hjob, hid, hkey ▸ hfound p said hp hs⟩

theorem refuseAll (h : s.Traced Job Found) (reason : String) (ids : List TaskId) :
    (Supervisor.refuseAll reason ids s).Traced Job Found := by
  induction ids generalizing s with
  | nil => exact h
  | cons id ids ih =>
    refine ih (Traced.resolve ?_ id fun p said _ hs => ?_)
    · exact h.congr rfl rfl rfl rfl
    · cases hs

theorem retire (h : s.Traced Job Found) (worker : WorkerId) :
    (s.retire worker).Traced Job Found := by
  obtain ⟨starts, he | he | ⟨-, he⟩⟩ := s.retire_cases worker
  · rw [he]
    exact h.congr rfl rfl rfl rfl
  · rw [he]
    exact h.congr rfl rfl rfl rfl
  · rw [he]
    refine refuseAll ?_ _ _
    exact h.congr rfl rfl rfl rfl

theorem dispatch (h : s.Traced Job Found) (accepts : WorkerId → Bool) (now : Nat) :
    (s.dispatch accepts now).Traced Job Found := by
  refine dispatch_induction accepts now (fun h _ _ => h.congr rfl rfl rfl rfl)
    (fun h _ _ => h.congr rfl rfl rfl rfl) (fun h _ _ hp _ => ?_) (fun h _ _ _ => retire ?_ _)
    (fun h => h.congr rfl rfl rfl rfl) h
  · refine { h.congr rfl rfl rfl rfl with handed := fun hm => ?_ }
    rcases List.mem_append.1 hm with hm | hm
    · exact h.handed hm
    · cases List.mem_singleton.1 hm
      exact (h.task hp).1
  · exact h.congr rfl rfl rfl rfl

theorem withTask (h : s.Traced Job Found) (ht : Job task) : (s.withTask task).Traced Job Found := by
  refine { h.congr rfl rfl rfl rfl with
    task := fun hq => ?_, waiter := fun hq w hw => ?_, inFlight := fun hq => ?_ }
  · rcases Table.get?_of_put hq with ⟨rfl, rfl⟩ | ⟨-, hq⟩
    · exact ⟨ht, rfl⟩
    · exact h.task hq
  · rcases Table.get?_of_put hq with ⟨-, rfl⟩ | ⟨-, hq⟩
    · exact ⟨task, ht, (List.mem_singleton.1 hw).symm, rfl⟩
    · exact h.waiter hq w hw
  · rcases Table.get?_of_put hq with ⟨rfl, rfl⟩ | ⟨-, hq⟩
    · exact ⟨task, ht, rfl, rfl⟩
    · exact h.inFlight hq

/-- A submission may join a task with the same key. -/
theorem joined (h : s.Traced Job Found) {id : TaskId} {p : Pending} (hp : s.tasks.get? id = some p)
    (ht : Job task) (hkey : task.key = p.task.key) (stats : PoolStats) :
    Traced Job Found { s with
      tasks := s.tasks.put id { p with waiters := p.waiters ++ [task.id] }
      stats } := by
  refine { h.congr rfl rfl rfl rfl with task := fun hq => ?_, waiter := fun hq w hw => ?_ }
  · rcases Table.get?_of_put hq with ⟨rfl, rfl⟩ | ⟨-, hq⟩
    · have htask := h.task hp
      exact htask
    · exact h.task hq
  · rcases Table.get?_of_put hq with ⟨-, rfl⟩ | ⟨-, hq⟩
    · rcases List.mem_append.1 hw with hw | hw
      · exact h.waiter hp w hw
      · exact ⟨task, ht, (List.mem_singleton.1 hw).symm, hkey⟩
    · exact h.waiter hq w hw

theorem cancelAll (ids : List TaskId) (h : s.Traced Job Found) :
    (Supervisor.cancelAll ids s).Traced Job Found := by
  induction ids generalizing s with
  | nil => exact h
  | cons id ids ih => exact ih (h.resolve id fun p said _ hs => by cases hs)

theorem stop (h : s.Traced Job Found) : s.stop.Traced Job Found := by
  have hall : (Supervisor.cancelAll s.tasks.keys { s with timers := {} }).Traced Job Found :=
    cancelAll _ (h.congr rfl rfl rfl rfl)
  exact hall.congr rfl rfl rfl rfl

section
variable (hinj : ∀ {t t'}, Job t → Job t' → t.id = t'.id → t = t')
include hinj

theorem enqueue (h : s.Traced Job Found) (ht : Job task) : (s.enqueue task).Traced Job Found := by
  rcases s.enqueue_cases task with ⟨id, p, hk, hp, he⟩ | ⟨-, he⟩ | ⟨-, starts, he | he⟩
  · obtain ⟨hjob, hid⟩ := h.task hp
    obtain ⟨other, hother, hid', hkey⟩ := h.inFlight hk
    have hsame : p.task.key = task.key := by
      rw [hinj hjob hother (hid.trans hid'.symm), hkey]
    exact he ▸ h.joined hp ht hsame.symm _
  · exact he ▸ h.withTask ht
  · rw [he]
    refine withTask ?_ ht
    exact h.congr rfl rfl rfl rfl
  · rw [he]
    refine { h.congr rfl rfl rfl rfl with answer := fun hm hs => ?_ }
    rcases List.mem_append.1 hm with hm | hm
    · exact h.answer hm hs
    · cases List.mem_singleton.1 hm
      cases hs

theorem finish (h : s.Traced Job Found) {id : TaskId} {outcome : TaskResult}
    (hfound : ∀ said, outcome.said? = some said → FoundFor Job Found id said) :
    (s.finish id outcome).Traced Job Found := by
  refine resolve ?_ id fun p said hp hs => ?_
  · exact h.congr rfl rfl rfl rfl
  · obtain ⟨task, hjob, hid, hf⟩ := hfound said hs
    obtain ⟨hjob', hid'⟩ := h.task hp
    rw [hinj hjob' hjob (hid'.trans hid.symm)]
    exact hf

theorem note (h : s.Traced Job Found) {event : PoolEvent}
    (hevent : ∀ {w id said}, event = .finished w id said → FoundFor Job Found id said) :
    (s.note event).Traced Job Found := by
  rcases s.note_cases event with ⟨-, he⟩ | ⟨-, ⟨said, hevent', hsaid, he⟩ | ⟨hsaid, he⟩⟩
  · rw [he]
    exact h
  · rw [he]
    refine finish hinj ?_ fun said' hs => ?_
    · exact h.congr rfl rfl rfl rfl
    · rw [hsaid] at hs
      cases hs
      exact hevent hevent'
  · rw [he]
    refine finish hinj (retire ?_ _) fun said hs => ?_
    · exact h.congr rfl rfl rfl rfl
    · rw [hsaid] at hs
      cases hs

end

end Traced

end Supervisor

namespace Pool

variable {p p' : Pool} {t : Thread} {threads : Table WorkerId Thread} {w : WorkerId}

theorem submit_eq_error {path content : String} {error : PoolError}
    (h : p.submit path content = .error error) : error = .shutDown ∧ p.status ≠ .running := by
  unfold submit at h
  split at h
  · cases h
  · rename_i hs
    cases h
    exact ⟨rfl, hs⟩

theorem traced_idle (hi : ∀ task, t.inbox = some task → Job task)
    (hs : ∀ task, t.state ≠ .parsing task) : t.Traced Job :=
  ⟨hi, fun task ht => (hs task ht).elim⟩

theorem traced_put (h : ∀ {w t}, threads.get? w = some t → t.Traced Job) {worker : WorkerId}
    {thread : Thread} (ht : thread.Traced Job) (hw : (threads.put worker thread).get? w = some t) :
    t.Traced Job := by
  rcases Table.get?_of_put hw with ⟨-, rfl⟩ | ⟨-, hw⟩
  · exact ht
  · exact h hw

theorem traced_spawn (workers : List WorkerId) (h : ∀ {w t}, threads.get? w = some t → t.Traced Job)
    (hw : (spawn threads workers).get? w = some t) : t.Traced Job := by
  unfold spawn at hw
  induction workers generalizing threads with
  | nil => exact h hw
  | cons worker workers ih =>
    refine ih (fun hw => ?_) hw
    dsimp only at hw
    split at hw
    · exact h hw
    · refine traced_put h (traced_idle (fun _ hi => ?_) fun _ hs => ?_) hw
      · cases hi
      · cases hs

theorem traced_deliver {jobs : List (WorkerId × Task)}
    (h : ∀ {w t}, threads.get? w = some t → t.Traced Job) (hjobs : ∀ job ∈ jobs, Job job.2)
    (hw : (jobs.foldl deliver threads).get? w = some t) : t.Traced Job := by
  induction jobs generalizing threads with
  | nil => exact h hw
  | cons job jobs ih =>
    refine ih (fun hw => ?_) (fun job' hj => hjobs job' (List.mem_cons_of_mem _ hj)) hw
    refine traced_put h ⟨fun task hj => ?_, fun task hj => ?_⟩ hw
    · cases hj
      exact hjobs job List.mem_cons_self
    · cases hold : threads.get? job.1 with
      | none =>
        rw [hold] at hj
        cases hj
      | some thread =>
        rw [hold] at hj
        exact (h hold).2 task hj

namespace Traced

variable {id : TaskId}

theorem mono (h : p.Traced Job Found) {Found' : TaskKey → Except ParserError ParseResult → Prop}
    (hf : ∀ {key said}, Found key said → Found' key said) : p.Traced Job Found' :=
  { h with
    supervisor := h.supervisor.mono id hf
    event := fun hm => (h.event hm).mono id hf }

theorem withBooks (h : p.Traced Job Found) {s : Supervisor} (hs : s.Traced Job Found) :
    (p.withBooks s).Traced Job Found where
  inj := h.inj
  le := h.le
  supervisor := hs
  command := h.command
  event := h.event
  thread hw := traced_deliver (fun hw => traced_spawn _ h.thread hw)
    (fun _ hj => hs.handed (List.mem_of_mem_drop hj)) hw

theorem start {settings : PoolSettings} {starts : StartPlan}
    (h : Pool.start settings starts = .ok p) : p.Traced (fun _ => False) Found := by
  have hworkers : ∀ n {s : Supervisor}, s.Traced (fun _ => False) Found →
      (Supervisor.startWorkers n s).2.Traced (fun _ => False) Found := by
    intro n
    induction n with
    | zero => exact id
    | succ n ih =>
      intro s hs
      unfold Supervisor.startWorkers
      obtain ⟨starts, he | he⟩ := s.startWorker_cases
      · rw [he]
        refine ih ?_
        exact hs.congr rfl rfl rfl rfl
      · rw [he]
        exact hs.congr rfl rfl rfl rfl
  have hempty : ∀ starts, ({ starts } : Supervisor).Traced (fun _ => False) Found := fun starts =>
    ⟨nofun, nofun, nofun, nofun, nofun⟩
  have hs := hworkers (max settings.workerCount 1) (hempty starts)
  obtain ⟨s, hstart, rfl⟩ := eq_of_start h
  rw [hstart] at hs
  refine withBooks
    ⟨False.elim, False.elim, hempty {}, fun hm => ?_, fun hm => ?_, fun hw => ?_⟩ hs
  · cases hm
  · cases hm
  · cases hw

/-- A submission is told what the parser said about it. -/
theorem found_of_outcome (h : p.Traced Job Found) {outcome : TaskResult}
    {said : Except ParserError ParseResult} (ho : p.outcome? id = some outcome)
    (hs : outcome.said? = some said) : FoundFor Job Found id said := by
  unfold outcome? at ho
  split at ho
  · rename_i outcome' ha
    cases ho
    obtain ⟨answer, hf, he⟩ := Option.map_eq_some_iff.1 ha
    obtain ⟨id', outcome'⟩ := answer
    cases he
    obtain rfl : id' = id := by simpa using List.find?_some hf
    exact h.supervisor.answer (List.mem_of_find?_eq_some hf) hs
  · split at ho
    · cases ho
    · cases ho
      cases hs

theorem submit (h : p.Traced Job Found) {path content : String}
    (hp : p.submit path content = .ok (id, p')) :
    ∃ task, task.id = id ∧ task.path = path ∧ task.content = content ∧
      task.hash = .ofText content ∧ p'.Traced (fun t => Job t ∨ t = task) Found := by
  unfold Pool.submit at hp
  split at hp
  · cases hp
    refine ⟨.ofContent (p.lastTask + 1) path content p.settings.taskTimeoutMs, rfl, rfl, rfl, rfl,
      fun {t t'} ht ht' hid => ?_, fun {t} ht => ?_, h.supervisor.mono Or.inl id, fun hm => ?_,
      fun hm => (h.event hm).mono Or.inl id, fun hw => ?_⟩
    · rcases ht with ht | rfl
      · rcases ht' with ht' | rfl
        · exact h.inj ht ht' hid
        · exact (Nat.not_succ_le_self _ (hid ▸ h.le ht)).elim
      · rcases ht' with ht' | rfl
        · exact (Nat.not_succ_le_self _ (hid ▸ h.le ht')).elim
        · rfl
    · rcases ht with ht | rfl
      · exact Nat.le_succ_of_le (h.le ht)
      · exact Nat.le_refl _
    · rcases List.mem_append.1 hm with hm | hm
      · exact Or.inl (h.command hm)
      · cases List.mem_singleton.1 hm
        exact Or.inr rfl
    · obtain ⟨hinbox, hstate⟩ := h.thread hw
      exact ⟨fun t ht => Or.inl (hinbox t ht), fun t ht => Or.inl (hstate t ht)⟩
  · cases hp

/-- Every action of the pool but a submission keeps track, where a parse that ends is
    one that was found. -/
theorem act (h : p.Traced Job Found) {action : PoolAction}
    (hsubmit : ∀ path content, action ≠ .submit path content)
    (hfound : ∀ w t job said, action = .finish w (.returned said) →
      p.threads.get? w = some t → t.state = .parsing job → Found job.key said)
    (ha : p.act action = some p') : p'.Traced Job Found := by
  have hidle : ∀ {worker state inbox} next, p.threads.get? worker = some ⟨state, inbox⟩ →
      (∀ task, next ≠ .parsing task) → ∀ {w t},
        (p.threads.put worker ⟨next, inbox⟩).get? w = some t → t.Traced Job := by
    intro worker state inbox next ht hnext w t hw
    refine traced_put h.thread (traced_idle ?_ hnext) hw
    exact (h.thread ht).1
  cases step_of_act ha with
  | submit => exact (hsubmit _ _ rfl).elim
  | ask =>
    refine { h with command := fun hm => ?_ }
    rcases List.mem_append.1 hm with hm | hm
    · exact h.command hm
    · cases List.mem_singleton.1 hm
  | askInVain => exact h
  | drop => exact { h with command := nofun, event := nofun }
  | @obey task commands hrun hc =>
    have hrest : ({ p with commands } : Pool).Traced Job Found :=
      { h with command := fun hm => h.command (hc ▸ List.mem_cons_of_mem _ hm) }
    have htask : Job task := h.command (hc ▸ List.mem_cons_self)
    exact hrest.withBooks ((h.supervisor.enqueue h.inj htask).dispatch _ _)
  | stop => exact { h with supervisor := h.supervisor.stop, command := nofun, event := nofun }
  | @hear event events hrun he =>
    have hrest : ({ p with events } : Pool).Traced Job Found :=
      { h with event := fun hm => h.event (he ▸ List.mem_cons_of_mem _ hm) }
    refine hrest.withBooks ((h.supervisor.note h.inj fun {w id said} hf => ?_).dispatch _ _)
    refine h.event (w := w) ?_
    rw [he, hf]
    exact List.mem_cons_self
  | receive hfree ht =>
    refine { h with thread := traced_put h.thread ⟨fun task hj => ?_, fun task hj => ?_⟩ }
    · cases hj
    · cases hj
      exact (h.thread ht).1 _ rfl
  | @finish worker job inbox outcome hrun ht =>
    cases outcome with
    | returned said =>
      refine { h with thread := hidle _ ht (fun _ hs => by cases hs), event := fun hm => ?_ }
      rcases List.mem_append.1 hm with hm | hm
      · exact h.event hm
      · cases List.mem_singleton.1 hm
        exact ⟨job, (h.thread ht).2 job rfl, rfl, hfound worker _ job said rfl ht rfl⟩
    | crashed reason =>
      refine { h with thread := hidle _ ht (fun _ hs => by cases hs), event := fun hm => ?_ }
      rcases List.mem_append.1 hm with hm | hm
      · exact h.event hm
      · cases List.mem_singleton.1 hm
  | finishInVain _ _ ht | wait ht | leave _ ht =>
    exact { h with thread := hidle _ ht (fun _ hs => by cases hs) }
  | fire =>
    refine { h with supervisor := h.supervisor.congr rfl rfl rfl rfl, event := fun hm => ?_ }
    rcases List.mem_append.1 hm with hm | hm
    · exact h.event hm
    · cases List.mem_singleton.1 hm
  | advance => exact { h with }
  | plan => exact { h with supervisor := h.supervisor.congr rfl rfl rfl rfl }

end Traced

end Pool

end

end SourceIndex
