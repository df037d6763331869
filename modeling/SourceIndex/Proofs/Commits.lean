/-
  The commits of a run, and the requests that make them.

  * `Commit`, `Chronicle.commitLog`: the commits of a run, in order, each with the
    request that makes it;
  * `Continues`: after a run the committed rows are those that the files of its commits
    leave, and the store has counted the commits;
  * `Chronicle.commitsBy`, `Chronicle.commitsBeside`: the commits of one request, and
    those of all others;
  * `follow`: what each step of a request keeps, given what it commits, holds after a
    run.
-/
import SourceIndex.Proofs.Orderly

namespace SourceIndex

/-- A commit: the request that makes it, and its files. -/
structure Commit where
  request : RequestId
  files : List Prepared

namespace Coordinator

variable {c c' : MemoryCoordinator} {x : Happening}

/-- The commit that a happening makes, if it makes one. -/
def commit? (c : MemoryCoordinator) : Happening → Option Commit
  | .act (.turn t) =>
    (c.requests.get? t.request).bind fun r => (c.commitOf? r).map fun files => ⟨t.request, files⟩
  | _ => none

theorem commit?_turn {id : RequestId} {place : Nat} {r : Request Transaction}
    (hr : c.requests.get? id = some r) :
    c.commit? (.act (.turn ⟨id, place⟩)) = (c.commitOf? r).map fun files => ⟨id, files⟩ := by
  rw [commit?, hr]
  rfl

theorem commits_eq (c : MemoryCoordinator) (x : Happening) :
    c.commits x = (c.commit? x).toList.flatMap Commit.files := by
  cases x with
  | disturb rejected faults => rfl
  | act action =>
    cases action with
    | turn t =>
      rw [commits, commit?]
      cases c.requests.get? t.request with
      | none => rfl
      | some r =>
        rw [Option.bind_some]
        refine (c.commitsOf_eq r).trans ?_
        cases c.commitOf? r with
        | none => rfl
        | some files => exact (List.append_nil files).symm
    | _ => rfl

theorem request_of_commit? {k : Commit} (hk : c.commit? x = some k) :
    ∃ place, x = .act (.turn ⟨k.request, place⟩) := by
  unfold commit? at hk
  split at hk
  · rename_i t
    obtain ⟨r, -, hk⟩ := Option.bind_eq_some_iff.1 hk
    obtain ⟨files, -, rfl⟩ := Option.map_eq_some_iff.1 hk
    exact ⟨t.place, rfl⟩
  · cases hk

/-- What a run never changes: the settings, the chunker, and whether the store has
    savepoints. -/
structure SameRules (c c' : MemoryCoordinator) : Prop where
  settings : c'.settings = c.settings
  chunker : c'.chunker = c.chunker
  savepoints : c'.store.store.rules.savepoints = c.store.store.rules.savepoints

theorem SameRules.refl (c : MemoryCoordinator) : SameRules c c := ⟨rfl, rfl, rfl⟩

theorem SameRules.trans {c'' : MemoryCoordinator} (h : SameRules c c') (h' : SameRules c' c'') :
    SameRules c c'' :=
  ⟨h'.settings.trans h.settings, h'.chunker.trans h.chunker, h'.savepoints.trans h.savepoints⟩

theorem Orderly.undergo_store (h : Orderly c) (hx : c.undergo x = some c') :
    c'.store.store.commits = c.store.store.commits + (c.commit? x).toList.length ∧
      c'.store.store.rules.savepoints = c.store.store.rules.savepoints := by
  cases x with
  | disturb rejected faults => cases hx; exact ⟨rfl, rfl⟩
  | act action =>
    cases change_of_act hx with
    | @moved t r r' c₁ hr hs =>
      have hm := h.move hr hs
      refine ⟨?_, congrArg WriteRules.savepoints hm.rules⟩
      rw [commit?, hr, Option.bind_some]
      refine hm.commits.trans ?_
      cases c.commitOf? r <;> rfl
    | _ => exact ⟨rfl, rfl⟩

theorem Orderly.undergo_rules (h : Orderly c) (hx : c.undergo x = some c') : SameRules c c' :=
  ⟨(h.undergo_rows hx).1, (h.undergo_rows hx).2.1, (h.undergo_store hx).2⟩

end Coordinator

namespace Chronicle

open Coordinator

variable {s s₁ s' : Chronicle} {x : Happening} {xs ys : List Happening} {id : RequestId}
  {path content : String}

/-- The commits of a run, in order. -/
def commitLog (s : Chronicle) : List Happening → List Commit :=
  s.gather fun c x => (c.commit? x).toList

/-- The committed rows are those that the files of the commits leave, each compared
    with the rows before it, and the store has counted the commits. -/
structure Continues (s : Chronicle) (log : List Commit) (s' : Chronicle) : Prop
    extends SameRules s.coordinator s'.coordinator where
  orderly : Orderly s'.coordinator
  commits : s'.coordinator.store.store.commits = s.coordinator.store.store.commits + log.length
  writes : s'.record.writes = s.record.writes ++ log.flatMap Commit.files
  coherent : Coherent s.coordinator.settings.incremental s.coordinator.chunker s.coordinator.rows
    (log.flatMap Commit.files)
  rows_eq :
    s'.coordinator.rows = replay s.coordinator.chunker s.coordinator.rows (log.flatMap Commit.files)

theorem Continues.refl (h : Orderly s.coordinator) : s.Continues [] s :=
  ⟨.refl _, h, rfl, (List.append_nil _).symm, trivial, rfl⟩

theorem Continues.trans {log log' : List Commit} (h : s.Continues log s₁)
    (h' : s₁.Continues log' s') : s.Continues (log ++ log') s' where
  toSameRules := h.toSameRules.trans h'.toSameRules
  orderly := h'.orderly
  commits := by rw [h'.commits, h.commits, List.length_append, Nat.add_assoc]
  writes := by rw [h'.writes, h.writes, List.flatMap_append, List.append_assoc]
  coherent := by
    have hc := h'.coherent
    rw [h.settings, h.chunker, h.rows_eq] at hc
    rw [List.flatMap_append]
    exact coherent_append.2 ⟨h.coherent, hc⟩
  rows_eq := by rw [h'.rows_eq, h.chunker, h.rows_eq, List.flatMap_append, replay_append]

theorem continues_step (h : Orderly s.coordinator) (hx : s.step x = some s') :
    s.Continues (s.coordinator.commit? x).toList s' := by
  obtain ⟨c', hc, rfl⟩ := Option.map_eq_some_iff.1 hx
  obtain ⟨-, -, hcoherent, -, hrows⟩ := h.undergo_rows hc
  rw [commits_eq] at hcoherent hrows
  exact ⟨h.undergo_rules hc, h.undergo hc, (h.undergo_store hc).1,
    congrArg (s.record.writes ++ ·) (s.coordinator.commits_eq x), hcoherent, hrows⟩

/-- **A run** changes the committed rows by the files of its commits. -/
theorem continues_run (h : Orderly s.coordinator) (hx : s.run xs = some s') :
    s.Continues (s.commitLog xs) s' := by
  induction xs generalizing s with
  | nil => cases hx; exact .refl h
  | cons x xs ih =>
    obtain ⟨s₁, hs, hx⟩ := Option.bind_eq_some_iff.1 hx
    have h₁ := continues_step h hs
    rw [commitLog, gather_cons hs]
    exact h₁.trans (ih h₁.orderly hx)

theorem request_of_index (hx : s.step (.act (.index path content)) = some s₁) :
    s₁.coordinator.requests.get? s₁.coordinator.lastRequest =
      some (.file path content .arriving) := by
  obtain ⟨c, hc, rfl⟩ := Option.map_eq_some_iff.1 hx
  cases hc
  exact Table.get?_put_self _ _ _

theorem request_of_batch {files : List (String × String)}
    (hx : s.step (.act (.batch files)) = some s₁) :
    s₁.coordinator.requests.get? s₁.coordinator.lastRequest = some (.ofFiles files) := by
  obtain ⟨c, hc, rfl⟩ := Option.map_eq_some_iff.1 hx
  cases hc
  exact Table.get?_put_self _ _ _

/-! ## The commits of one request -/

/-- The commits of one request, each with its files. -/
def commitsBy (s : Chronicle) (id : RequestId) (xs : List Happening) : List (List Prepared) :=
  ((s.commitLog xs).filter fun k => k.request = id).map Commit.files

/-- The commits of all other requests. -/
def commitsBeside (s : Chronicle) (id : RequestId) (xs : List Happening) : List (List Prepared) :=
  ((s.commitLog xs).filter fun k => k.request ≠ id).map Commit.files

theorem commitsBy_append (hx : s.run xs = some s₁) :
    s.commitsBy id (xs ++ ys) = s.commitsBy id xs ++ s₁.commitsBy id ys := by
  rw [commitsBy, commitLog, gather_append hx, List.filter_append, List.map_append]
  rfl

theorem commitsBy_turn {place : Nat} {r : Request Transaction}
    (hr : s.coordinator.requests.get? id = some r)
    (hx : s.step (.act (.turn ⟨id, place⟩)) = some s₁) :
    s.commitsBy id (.act (.turn ⟨id, place⟩) :: xs) =
      (s.coordinator.commitOf? r).toList ++ s₁.commitsBy id xs := by
  rw [commitsBy, commitLog, gather_cons hx, commit?_turn hr, List.filter_append, List.map_append]
  cases s.coordinator.commitOf? r <;> simp [commitsBy, commitLog]

theorem commitsBy_other (hne : ∀ place, x ≠ .act (.turn ⟨id, place⟩)) (hx : s.step x = some s₁) :
    s.commitsBy id (x :: xs) = s₁.commitsBy id xs := by
  rw [commitsBy, commitLog, gather_cons hx, List.filter_append, List.map_append]
  cases hk : s.coordinator.commit? x with
  | none => rfl
  | some k =>
    have hid : k.request ≠ id := fun he => by
      obtain ⟨place, rfl⟩ := request_of_commit? hk
      exact hne place (he ▸ rfl)
    simp [commitsBy, commitLog, hid]

theorem mem_flatten_commitsBy {f : Prepared} (hf : f ∈ (s.commitsBy id xs).flatten) :
    f ∈ (s.commitLog xs).flatMap Commit.files := by
  obtain ⟨files, hfiles, hf⟩ := List.mem_flatten.1 hf
  obtain ⟨k, hk, rfl⟩ := List.mem_map.1 hfiles
  exact List.mem_flatMap.2 ⟨k, (List.mem_filter.1 hk).1, hf⟩

/-- A path that the other requests do not commit is committed as the request does. -/
theorem filter_commitLog (h : path ∉ (s.commitsBeside id xs).flatten.map (·.path)) :
    ((s.commitLog xs).flatMap Commit.files).filter (·.path = path) =
      (s.commitsBy id xs).flatten.filter (·.path = path) := by
  have hother : ∀ k ∈ s.commitLog xs, k.request ≠ id → ∀ f ∈ k.files, f.path ≠ path := by
    rintro k hk hne f hf rfl
    refine h (List.mem_map_of_mem (List.mem_flatten.2 ⟨k.files, ?_, hf⟩))
    exact List.mem_map_of_mem (List.mem_filter.2 ⟨hk, decide_eq_true hne⟩)
  rw [commitsBy]
  generalize s.commitLog xs = log at hother
  induction log with
  | nil => rfl
  | cons k log ih =>
    rw [List.forall_mem_cons] at hother
    have ih := ih hother.2
    rw [List.flatMap_cons, List.filter_append, ih, List.filter_cons]
    by_cases hk : k.request = id
    · simp [hk]
    · have hnil : k.files.filter (·.path = path) = [] :=
        List.filter_eq_nil_iff.2 fun f hf hp => hother.1 hk f hf (of_decide_eq_true hp)
      simp [hk, hnil]

theorem Continues.dump_untouched (hc : s.Continues (s₁.commitLog xs) s')
    (hs : s.coordinator.rows.Sound) (hother : path ∉ (s₁.commitsBeside id xs).flatten.map (·.path))
    (hown : path ∉ (s₁.commitsBy id xs).flatten.map (·.path)) :
    s'.coordinator.rows.dump path = s.coordinator.rows.dump path := by
  rw [hc.rows_eq]
  refine hc.coherent.dump_replay hs fun hm => ?_
  obtain ⟨f, hf, rfl⟩ := List.mem_map.1 hm
  have hmem : f ∈ ((s₁.commitLog xs).flatMap Commit.files).filter (·.path = f.path) :=
    List.mem_filter.2 ⟨hf, decide_eq_true rfl⟩
  rw [filter_commitLog hother] at hmem
  exact hown (List.mem_map_of_mem (List.mem_filter.1 hmem).1)

theorem commitLog_of_commitsBy (h : s.commitsBy id xs = []) :
    (s.commitLog xs).flatMap Commit.files = (s.commitsBeside id xs).flatten ∧
      (s.commitLog xs).length = (s.commitsBeside id xs).length := by
  have hall : (s.commitLog xs).filter (fun k => k.request ≠ id) = s.commitLog xs := by
    refine List.filter_eq_self.2 fun k hk => decide_eq_true fun he => ?_
    have hm : k.files ∈ s.commitsBy id xs :=
      List.mem_map_of_mem (List.mem_filter.2 ⟨hk, decide_eq_true he⟩)
    rw [h] at hm
    cases hm
  rw [commitsBeside, hall, List.length_map]
  exact ⟨List.flatMap_def, rfl⟩

theorem length_commitLog (s : Chronicle) (id : RequestId) (xs : List Happening) :
    (s.commitLog xs).length = (s.commitsBeside id xs).length + (s.commitsBy id xs).length := by
  rw [commitsBeside, commitsBy, List.length_map, List.length_map]
  induction s.commitLog xs with
  | nil => rfl
  | cons k log ih => by_cases hk : k.request = id <;> simp [hk, ih] <;> omega

section
variable {I : MemoryCoordinator → Prop}
  (hkeep : ∀ {x c c'}, x ∈ xs → Orderly c → I c → c.undergo x = some c' → I c')
include hkeep

/-- **What each step of a request keeps**, given what it commits, holds of the request
    after a run, whatever else happens.  `I` is what all happenings of the run keep. -/
theorem follow {P : List (List Prepared) → Request Transaction → Prop}
    (hstep : ∀ {c r r' c' done}, Orderly c → I c → c.requests.get? id = some r →
      RequestStep c r r' c' → P done r → P (done ++ (c.commitOf? r).toList) r')
    (h : Orderly s.coordinator) (hi : I s.coordinator) {r : Request Transaction}
    (hr : s.coordinator.requests.get? id = some r) (done : List (List Prepared)) (hp : P done r)
    (hx : s.run xs = some s') :
    ∃ r', s'.coordinator.requests.get? id = some r' ∧ P (done ++ s.commitsBy id xs) r' := by
  induction xs generalizing s r done with
  | nil =>
    cases hx
    exact ⟨r, hr, (List.append_nil done).symm ▸ hp⟩
  | cons x xs ih =>
    obtain ⟨s₁, hs, hx⟩ := Option.bind_eq_some_iff.1 hx
    obtain ⟨c₁, hc, he⟩ := Option.map_eq_some_iff.1 hs
    have h₁ := h.undergo hc
    have hi₁ := hkeep List.mem_cons_self h hi hc
    subst he
    have ih := @ih ⟨c₁, s.record.note s.coordinator x⟩
      fun hm => hkeep (List.mem_cons_of_mem x hm)
    rcases h.undergo_of_request hc hr with ⟨place, r', c₂, rfl, ht, rfl⟩ | ⟨hother, hr'⟩
    · rw [commitsBy_turn hr hs, ← List.append_assoc]
      exact ih h₁ hi₁ (Table.get?_put_self _ _ _) _ (hstep h hi hr ht hp) hx
    · rw [commitsBy_other hother hs]
      exact ih h₁ hi₁ hr' done hp hx

theorem follow_batch {P : List (List Prepared) → BatchPhase Transaction → Prop}
    (hstep : ∀ {c phase phase' c' done}, Orderly c → I c →
      (Request.batch phase).Faithful c.settings.incremental c.chunker c.rows →
      BatchStep c phase phase' c' → P done phase →
      P (done ++ (c.commitOf? (.batch phase)).toList) phase')
    (h : Orderly s.coordinator) (hi : I s.coordinator) {phase : BatchPhase Transaction}
    (hr : s.coordinator.requests.get? id = some (.batch phase)) (done : List (List Prepared))
    (hp : P done phase) (hx : s.run xs = some s') :
    ∃ phase', s'.coordinator.requests.get? id = some (.batch phase') ∧
      P (done ++ s.commitsBy id xs) phase' := by
  let Q : List (List Prepared) → Request Transaction → Prop := fun done r =>
    ∃ phase, r = .batch phase ∧ P done phase
  have hturn : ∀ {c r r' c' done}, Orderly c → I c → c.requests.get? id = some r →
      RequestStep c r r' c' → Q done r → Q (done ++ (c.commitOf? r).toList) r' := by
    rintro c r r' c' done ho hi hr hs ⟨phase, rfl, hp⟩
    cases hs with
    | batch hs =>
      exact ⟨_, rfl, hstep ho hi (ho.faithful _ (Table.mem_values_of_get? hr)) hs hp⟩
  obtain ⟨r', hr', phase', rfl, hp'⟩ := follow (P := Q) hkeep hturn h hi hr done ⟨phase, rfl, hp⟩ hx
  exact ⟨phase', hr', hp'⟩

end

theorem follow_file {P : List (List Prepared) → FilePhase Transaction → Prop}
    (hstep : ∀ {c phase phase' c' done}, FileStep c path content phase phase' c' → P done phase →
      P (done ++ (Coordinator.commitOf? c (.file path content phase)).toList) phase')
    (h : Orderly s.coordinator) {phase : FilePhase Transaction}
    (hr : s.coordinator.requests.get? id = some (.file path content phase))
    (done : List (List Prepared)) (hp : P done phase) (hx : s.run xs = some s') :
    ∃ phase', s'.coordinator.requests.get? id = some (.file path content phase') ∧
      P (done ++ s.commitsBy id xs) phase' := by
  let Q : List (List Prepared) → Request Transaction → Prop := fun done r =>
    ∃ phase, r = .file path content phase ∧ P done phase
  have hturn : ∀ {c : MemoryCoordinator} {r r' c' done}, Orderly c → True →
      c.requests.get? id = some r → RequestStep c r r' c' → Q done r →
      Q (done ++ (c.commitOf? r).toList) r' := by
    rintro c r r' c' done - - - hs ⟨phase, rfl, hp⟩
    cases hs with
    | file hs => exact ⟨_, rfl, hstep hs hp⟩
  obtain ⟨r', hr', phase', rfl, hp'⟩ := follow (I := fun _ => True) (P := Q)
    (fun _ _ _ _ => trivial) hturn h trivial hr done ⟨phase, rfl, hp⟩ hx
  exact ⟨phase', hr', hp'⟩

end Chronicle

end SourceIndex
