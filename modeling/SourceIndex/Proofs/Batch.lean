/-
  A batch is written as a whole.

  * `BatchPhase.Account`: what the commits of a batch and its report say of each other,
    in every phase;
  * `BatchPhase.Answers`: a file that is to be written is reported in the end;
  * `BatchPhase.Isolates`: on a store with savepoints and without faults, the file is
    written just if its path can be, whatever becomes of the others;
  * `Opened.batch_atomic`: what a batch leaves behind.
-/
import SourceIndex.Proofs.Commits
import SourceIndex.Proofs.Faultless
import SourceIndex.Proofs.Origin

namespace SourceIndex

variable {τ : Type}

/-! ## Reports and commits -/

/-- The report of a batch whose files are not committed: so far it has only skipped
    files, and no file that failed to be written is among those still wanted.  Without
    savepoints, none has. -/
structure BatchReport.Uncommitted (supported : Bool) (files : List Prepared)
    (report : BatchReport) : Prop where
  skipped : ∀ r ∈ report.succeeded, r.mode = .skipped
  failed : ∀ e ∈ report.failed, e.kind = .storageWriteFailure →
    supported = true ∧ e.path ∉ files.map (·.path)

namespace BatchReport.Uncommitted

variable {supported : Bool} {files files' : List Prepared} {report : BatchReport}

theorem fail (h : report.Uncommitted supported files) {error : IndexError}
    (he : error.kind = .storageWriteFailure →
      supported = true ∧ error.path ∉ files.map (·.path)) :
    (report.fail error).Uncommitted supported files where
  skipped := h.skipped
  failed e hm := by
    rcases List.mem_append.1 hm with hm | hm
    · exact h.failed e hm
    · rw [List.mem_singleton.1 hm]
      exact he

theorem succeed (h : report.Uncommitted supported files) {file : FileReport}
    (hf : file.mode = .skipped) : (report.succeed file).Uncommitted supported files where
  skipped r hm := by
    rcases List.mem_append.1 hm with hm | hm
    · exact h.skipped r hm
    · rw [List.mem_singleton.1 hm]
      exact hf
  failed := h.failed

theorem subset (h : report.Uncommitted supported files) (hs : ∀ f ∈ files', f ∈ files) :
    report.Uncommitted supported files' where
  skipped := h.skipped
  failed e hm hk := by
    refine (h.failed e hm hk).imp_right fun hn hp => hn ?_
    obtain ⟨f, hf, he⟩ := List.mem_map.1 hp
    exact he ▸ List.mem_map_of_mem (hs f hf)

theorem start (h : report.Uncommitted false files) (supported : Bool) (files' : List Prepared) :
    report.Uncommitted supported files' where
  skipped := h.skipped
  failed e hm hk := by cases (h.failed e hm hk).1

end BatchReport.Uncommitted

/-- The files that a batch has gathered when it is about to write them. -/
def Request.gathered? {τ : Type} : Request τ → Option (List Prepared)
  | .batch (.opening _ ready _) => some ready
  | _ => none

theorem Request.eq_of_gathered? {r : Request τ} {ready : List Prepared}
    (h : r.gathered? = some ready) : ∃ held report, r = .batch (.opening held ready report) := by
  cases r with
  | file => cases h
  | batch phase =>
    cases phase with
    | opening held ready' report => cases h; exact ⟨held, report, rfl⟩
    | _ => cases h

/-- The report of a batch that is done. -/
def Request.report? {τ : Type} : Request τ → Option BatchReport
  | .batch (.done report) => some report
  | _ => none

theorem Request.eq_of_report? {r : Request τ} {report : BatchReport} (h : r.report? = some report) :
    r = .batch (.done report) := by
  cases r with
  | file => cases h
  | batch phase =>
    cases phase with
    | done report' => cases h; rfl
    | _ => cases h

/-- The file is one that the caller asked for. -/
def Prepared.Asked (asked : List (String × String)) (f : Prepared) : Prop :=
  (f.path, f.content) ∈ asked

/-- The slot is for a file that the caller asked for. -/
structure Slot.Asked (asked : List (String × String)) (slot : Slot) : Prop where
  mem : (slot.path, slot.content) ∈ asked
  proper : slot.stage.Proper slot.path slot.content

/-- The file is one that the caller asked for, with the number of its chunks. -/
structure Prepared.Measured (asked : List (String × String)) (chunker : Chunker)
    (w : Prepared × Nat) : Prop where
  asked : w.1.Asked asked
  chunks : w.2 = (w.1.written chunker {}).1

/-- The report of a batch that is over, and the files of its commits: it has made one
    commit at most, whose files are just those that it reports as written.  If it has
    made one, the files that failed to be written are others, and without savepoints
    there are none. -/
structure BatchReport.Accounts (asked : List (String × String)) (chunker : Chunker)
    (supported : Bool) (done : List (List Prepared)) (report : BatchReport) : Prop where
  once : done.length ≤ 1
  nodup : (done.flatten.map (·.path)).Nodup
  asked : ∀ f ∈ done.flatten, f.Asked asked
  succeeded : ∀ r ∈ report.succeeded, r.mode = .skipped ∨
    ∃ f ∈ done.flatten, r = f.report (f.written chunker {}).1
  reported : ∀ f ∈ done.flatten, f.report (f.written chunker {}).1 ∈ report.succeeded
  failed : done ≠ [] → ∀ e ∈ report.failed, e.kind = .storageWriteFailure →
    supported = true ∧ e.path ∉ done.flatten.map (·.path)

namespace BatchReport

variable {asked : List (String × String)} {chunker : Chunker} {supported : Bool}
  {report : BatchReport}

theorem accounts_nil (h : ∀ r ∈ report.succeeded, r.mode = .skipped) :
    report.Accounts asked chunker supported [] where
  once := Nat.zero_le _
  nodup := List.nodup_nil
  asked := List.forall_mem_nil _
  succeeded r hr := Or.inl (h r hr)
  reported := List.forall_mem_nil _
  failed hne := (hne rfl).elim

theorem Uncommitted.accounts {written : List (Prepared × Nat)}
    (h : report.Uncommitted supported (written.map (·.1)))
    (hn : ((written.map (·.1)).map (·.path)).Nodup)
    (hw : ∀ w ∈ written, Prepared.Measured asked chunker w) :
    Accounts asked chunker supported [written.map (·.1)] { report with
      succeeded := report.succeeded ++ written.map fun w => w.1.report w.2 } where
  once := Nat.le_refl _
  nodup := by rwa [List.flatten_singleton]
  asked := by
    rw [List.flatten_singleton]
    exact List.forall_mem_map.2 fun w hm => (hw w hm).asked
  succeeded r hr := by
    rw [List.flatten_singleton]
    rcases List.mem_append.1 hr with hr | hr
    · exact Or.inl (h.skipped r hr)
    · obtain ⟨w, hm, rfl⟩ := List.mem_map.1 hr
      exact Or.inr ⟨w.1, List.mem_map_of_mem hm, by rw [(hw w hm).chunks]⟩
  reported := by
    rw [List.flatten_singleton]
    refine List.forall_mem_map.2 fun w hm => List.mem_append_right _ ?_
    rw [← (hw w hm).chunks]
    exact List.mem_map_of_mem (f := fun w => Prepared.report w.1 w.2) hm
  failed _ := by
    rw [List.flatten_singleton]
    exact h.failed

end BatchReport

/-- What the report of a batch and its commits say of each other, in every phase. -/
def BatchPhase.Account (asked : List (String × String)) (chunker : Chunker) (supported : Bool)
    (done : List (List Prepared)) : BatchPhase Transaction → Prop
  | .arriving todo slots report =>
    done = [] ∧ (∀ e ∈ todo, e ∈ asked) ∧ (∀ s ∈ slots, s.Asked asked) ∧ report.Uncommitted false []
  | .preparing _ slots ready report =>
    done = [] ∧ (∀ s ∈ slots, s.Asked asked) ∧ (∀ f ∈ ready, f.Asked asked) ∧
      report.Uncommitted false ready
  | .opening _ ready report =>
    done = [] ∧ (∀ f ∈ ready, f.Asked asked) ∧ report.Uncommitted false ready
  | .writing _ _ todo _ _ written report =>
    done = [] ∧ (∀ w ∈ written, Prepared.Measured asked chunker w) ∧
      (∀ f ∈ todo, f.Asked asked) ∧ report.Uncommitted supported (written.map (·.1) ++ todo)
  | .committing _ _ written report =>
    done = [] ∧ (∀ w ∈ written, Prepared.Measured asked chunker w) ∧
      report.Uncommitted supported (written.map (·.1))
  | .undoing _ _ report => done = [] ∧ ∀ r ∈ report.succeeded, r.mode = .skipped
  | .trimming _ written report =>
    done = [written.map (·.1)] ∧ ((written.map (·.1)).map (·.path)).Nodup ∧
      (∀ w ∈ written, Prepared.Measured asked chunker w) ∧
      report.Uncommitted supported (written.map (·.1))
  | .closing _ report | .done report => report.Accounts asked chunker supported done

/-- The report says that the file could not be written. -/
def BatchReport.Fails (report : BatchReport) (f : Prepared) : Prop :=
  ∃ fault, f.writeFailure fault ∈ report.failed

/-- The file has to be written, is written or is reported as failed; in the end it is
    reported as written or as failed. -/
def BatchPhase.Answers (f : Prepared) : BatchPhase Transaction → Prop
  | .arriving _ _ _ | .preparing _ _ _ _ => False
  | .opening _ ready _ => f ∈ ready
  | .writing _ _ todo _ _ written report => f ∈ written.map (·.1) ++ todo ∨ report.Fails f
  | .committing _ _ written report | .trimming _ written report =>
    f ∈ written.map (·.1) ∨ report.Fails f
  | .undoing _ _ report => report.Fails f
  | .closing _ report | .done report =>
    report.Fails f ∨ ∃ chunks, f.report chunks ∈ report.succeeded

/-- The file is reported as failed if its path is among those rejected, and is among the
    files that are written otherwise. -/
def BatchReport.Splits (rejected : List String) (f : Prepared) (written : List Prepared)
    (report : BatchReport) : Prop :=
  f.path ∈ rejected ∧ report.Fails f ∨ f.path ∉ rejected ∧ f ∈ written

/-- The file has to be written behind a savepoint, or has been sorted. -/
def BatchPhase.Isolates (rejected : List String) (f : Prepared) : BatchPhase Transaction → Prop
  | .arriving _ _ _ | .preparing _ _ _ _ | .undoing _ _ _ => False
  | .opening _ ready _ => f ∈ ready
  | .writing _ _ todo _ savepoints written report =>
    savepoints = true ∧ (f ∈ todo ∨ report.Splits rejected f (written.map (·.1)))
  | .committing _ _ written report | .trimming _ written report =>
    report.Splits rejected f (written.map (·.1))
  | .closing _ report | .done report =>
    f.path ∈ rejected ∧ report.Fails f ∨
      f.path ∉ rejected ∧ ∃ chunks, f.report chunks ∈ report.succeeded

namespace Coordinator

variable {c c' : MemoryCoordinator} {asked : List (String × String)} {chunker : Chunker}
  {supported : Bool} {done : List (List Prepared)} {phase phase' : BatchPhase Transaction}
  {f : Prepared}

/-- A step of a batch keeps its report and its commits in accord. -/
theorem BatchStep.account (hb : c.backend = FaultyStore.backend) (hchunker : c.chunker = chunker)
    (hsupported : c.store.store.rules.savepoints = supported)
    (hf : (Request.batch phase).Faithful c.settings.incremental c.chunker c.rows)
    (h : BatchStep c phase phase' c') (ha : phase.Account asked chunker supported done) :
    phase'.Account asked chunker supported
      (done ++ (c.commitOf? (.batch phase)).toList) := by
  have hnone : ∀ {r : Request Transaction}, done = [] → c.commitOf? r = none →
      done ++ (c.commitOf? r).toList = [] := by
    rintro r rfl hr
    rw [hr]
    rfl
  cases h with
  | arrived =>
    obtain ⟨hd, -, hslots, hp⟩ := ha
    exact ⟨hnone hd rfl, hslots, List.forall_mem_nil _, hp⟩
  | refused =>
    obtain ⟨hd, htodo, hslots, hp⟩ := ha
    exact ⟨hnone hd rfl, (List.forall_mem_cons.1 htodo).2, hslots, hp.fail nofun⟩
  | leased =>
    obtain ⟨hd, htodo, hslots, hp⟩ := ha
    refine ⟨hnone hd rfl, (List.forall_mem_cons.1 htodo).2, ?_, hp⟩
    exact List.forall_mem_append.2
      ⟨hslots, List.forall_mem_singleton.2 ⟨(List.forall_mem_cons.1 htodo).1, trivial⟩⟩
  | nothing =>
    obtain ⟨hd, -, -, hp⟩ := ha
    rw [hnone hd rfl]
    exact BatchReport.accounts_nil hp.skipped
  | gathered =>
    obtain ⟨hd, -, hready, hp⟩ := ha
    exact ⟨hnone hd rfl, hready, hp⟩
  | prepared hs =>
    obtain ⟨hd, hslots, hready, hp⟩ := ha
    simp only [List.forall_mem_append, List.forall_mem_cons] at hslots
    refine ⟨hnone hd rfl, ?_, hready, hp⟩
    simp only [List.forall_mem_append, List.forall_mem_cons]
    exact ⟨hslots.1, ⟨hslots.2.1.mem, hs.proper⟩, hslots.2.2⟩
  | failed hs =>
    obtain ⟨hd, hslots, hready, hp⟩ := ha
    simp only [List.forall_mem_append, List.forall_mem_cons] at hslots
    have hproper := hslots.2.1.proper
    rw [hs] at hproper
    refine ⟨hnone hd rfl, List.forall_mem_append.2 ⟨hslots.1, hslots.2.2⟩, hready, ?_⟩
    exact hp.fail fun he => (hproper.2.2 he).elim
  | skipped hs =>
    obtain ⟨hd, hslots, hready, hp⟩ := ha
    simp only [List.forall_mem_append, List.forall_mem_cons] at hslots
    have hproper := hslots.2.1.proper
    rw [hs] at hproper
    exact ⟨hnone hd rfl, List.forall_mem_append.2 ⟨hslots.1, hslots.2.2⟩, hready,
      hp.succeed hproper.2⟩
  | ready hs =>
    obtain ⟨hd, hslots, hready, hp⟩ := ha
    simp only [List.forall_mem_append, List.forall_mem_cons] at hslots
    have hproper := hslots.2.1.proper
    rw [hs] at hproper
    refine ⟨hnone hd rfl, List.forall_mem_append.2 ⟨hslots.1, hslots.2.2⟩,
      List.forall_mem_append.2 ⟨hready, List.forall_mem_singleton.2 ?_⟩, hp.start _ _⟩
    rw [Prepared.Asked, hproper.1, hproper.2]
    exact hslots.2.1.mem
  | unopened =>
    obtain ⟨hd, -, hp⟩ := ha
    rw [hnone hd rfl]
    exact BatchReport.accounts_nil hp.skipped
  | opened =>
    obtain ⟨hd, hready, hp⟩ := ha
    exact ⟨hnone hd rfl, List.forall_mem_nil _, hready, hp.start _ _⟩
  | wroteAll =>
    obtain ⟨hd, hwritten, -, hp⟩ := ha
    exact ⟨hnone hd rfl, hwritten, hp.subset fun f hf => List.mem_append_left _ hf⟩
  | @wrote _ tx file _ _ _ _ _ _ _ _ chunks hm hw =>
    obtain ⟨hd, hwritten, htodo, hp⟩ := ha
    obtain ⟨-, hcount, -⟩ := markFile_write_spec hb hm hw
    have hchunks : chunks = (file.written chunker {}).1 := by
      rw [← hchunker]
      exact (congrArg Prod.fst (hcount _ rfl)).trans (file.written_fst _ _ _)
    refine ⟨hnone hd rfl, List.forall_mem_append.2 ⟨hwritten, List.forall_mem_singleton.2
      ⟨(List.forall_mem_cons.1 htodo).1, hchunks⟩⟩, (List.forall_mem_cons.1 htodo).2, ?_⟩
    simpa using hp
  | @tookBack _ _ file rest _ _ written _ state₁ _ _ _ hm =>
    obtain ⟨hd, hwritten, htodo, hp⟩ := ha
    refine ⟨hnone hd rfl, hwritten, (List.forall_mem_cons.1 htodo).2, ?_⟩
    have hrest : ∀ f ∈ written.map (·.1) ++ rest, f ∈ written.map (·.1) ++ file :: rest :=
      fun f hf => List.mem_append.2 ((List.mem_append.1 hf).imp_right (List.mem_cons_of_mem file))
    refine (hp.subset hrest).fail fun _ => ⟨?_, ?_⟩
    · obtain ⟨tx₁, s₁⟩ := state₁
      exact hsupported ▸ ((markFile_spec hb hm).2.2 rfl).1
    · -- the files of a batch have different paths
      have hn := hf.1.nodup
      rw [List.map_append, List.map_cons] at hn
      rw [List.map_append]
      exact (List.nodup_cons.1 (List.perm_middle.nodup_iff.1 hn)).1
  | gaveUp =>
    obtain ⟨hd, -, -, hp⟩ := ha
    exact ⟨hnone hd rfl, hp.skipped⟩
  | undone =>
    rw [hnone ha.1 rfl]
    exact BatchReport.accounts_nil ha.2
  | uncommitted hc =>
    obtain ⟨hd, -, hp⟩ := ha
    rw [hnone hd (by rw [commitOf?, hc]; rfl)]
    exact BatchReport.accounts_nil hp.skipped
  | committed hc =>
    obtain ⟨rfl, hwritten, hp⟩ := ha
    refine ⟨?_, hf.1.nodup, hwritten, hp⟩
    rw [commitOf?, hc]
    rfl
  | @trimmed _ written report =>
    obtain ⟨rfl, hn, hwritten, hp⟩ := ha
    exact hp.accounts hn hwritten
  | closed => exact (List.append_nil done).symm ▸ ha

theorem fails_undone {report : BatchReport} {file : Prepared} {fault : Fault}
    {others : List Prepared} (hf : f ∈ file :: others) :
    (undone report file fault others).Fails f := by
  rcases List.mem_cons.1 hf with rfl | hf
  · exact ⟨_, List.mem_append_right _ List.mem_cons_self⟩
  · exact ⟨_, List.mem_append_right _ (List.mem_cons_of_mem _ (List.mem_map_of_mem hf))⟩

/-- Once a batch has a file to write, it reports on it. -/
theorem BatchStep.answers (h : BatchStep c phase phase' c') (ha : phase.Answers f) :
    phase'.Answers f := by
  -- a report that only grows keeps what it says
  have hkeep : ∀ {report : BatchReport} {more : List IndexError}, report.Fails f →
      BatchReport.Fails { report with failed := report.failed ++ more } f := by
    rintro report more ⟨fault, hfault⟩
    exact ⟨fault, List.mem_append_left _ hfault⟩
  have hmore : ∀ {report : BatchReport} {files : List Prepared} {fault : Fault}, f ∈ files →
      BatchReport.Fails
        { report with failed := report.failed ++ files.map (·.writeFailure fault) } f :=
    fun hf => ⟨_, List.mem_append_right _ (List.mem_map_of_mem hf)⟩
  cases h with
  | arrived | refused | leased | nothing | gathered | prepared | failed | skipped | ready =>
    cases ha
  | unopened => exact Or.inl (hmore ha)
  | opened => exact Or.inl ha
  | wroteAll => exact ha.imp_left fun hf => by simpa using hf
  | wrote => exact ha.imp_left fun hf => by simpa using hf
  | tookBack =>
    rcases ha with hf | hf
    · rcases List.mem_append.1 hf with hf | hf
      · exact Or.inl (List.mem_append_left _ hf)
      · rcases List.mem_cons.1 hf with rfl | hf
        · exact Or.inr ⟨_, List.mem_append_right _ (List.mem_singleton_self _)⟩
        · exact Or.inl (List.mem_append_right _ hf)
    · exact Or.inr (hkeep hf)
  | gaveUp =>
    rcases ha with hf | hf
    · exact fails_undone (List.perm_middle.mem_iff.1 hf)
    · exact hkeep hf
  | undone => exact Or.inl ha
  | uncommitted =>
    rcases ha with hf | hf
    · refine Or.inl ?_
      obtain ⟨w, hw, rfl⟩ := List.mem_map.1 hf
      exact ⟨_, List.mem_append_right _ (List.mem_map_of_mem hw)⟩
    · exact Or.inl (hkeep hf)
  | committed => exact ha
  | trimmed =>
    rcases ha with hf | hf
    · obtain ⟨w, hw, rfl⟩ := List.mem_map.1 hf
      exact Or.inr ⟨w.2, List.mem_append_right _ (List.mem_map_of_mem hw)⟩
    · exact Or.inl hf
  | closed => exact ha

/-- On a store with savepoints and without faults, each file of a batch is sorted on its
    own. -/
theorem BatchStep.isolates (ho : Orderly c) (hfaults : c.store.faults = [])
    (hsavepoints : c.store.store.rules.savepoints = true)
    (hf : (Request.batch phase).Faithful c.settings.incremental c.chunker c.rows)
    (h : BatchStep c phase phase' c') (ha : phase.Isolates c.store.store.rules.rejected f) :
    phase'.Isolates c.store.store.rules.rejected f := by
  have hb := ho.backend
  -- a file that is sorted stays so
  have hkeep : ∀ {report : BatchReport} {written : List Prepared} (more : List Prepared)
      (errors : List IndexError), report.Splits c.store.store.rules.rejected f written →
      BatchReport.Splits c.store.store.rules.rejected f (written ++ more)
        { report with failed := report.failed ++ errors } := by
    rintro report written more errors (⟨hr, fault, hm⟩ | ⟨hr, hm⟩)
    · exact Or.inl ⟨hr, fault, List.mem_append_left _ hm⟩
    · exact Or.inr ⟨hr, List.mem_append_left _ hm⟩
  cases phase with
  | arriving | preparing | undoing => cases ha
  | writing held tx todo index savepoints written report =>
    obtain ⟨rfl, ha⟩ := ha
    cases todo with
    | nil =>
      cases h
      exact ha.resolve_left List.not_mem_nil
    | cons file rest =>
      rcases h.write_faultless hb hfaults hsavepoints ho.sound hf with
        ⟨hr, tx', rfl⟩ | ⟨hr, tx', fault, rfl⟩
      · refine ⟨rfl, ?_⟩
        rw [List.map_append]
        rcases ha with hm | ha
        · rcases List.mem_cons.1 hm with rfl | hm
          · exact Or.inr (Or.inr ⟨hr, List.mem_append_right _ List.mem_cons_self⟩)
          · exact Or.inl hm
        · exact Or.inr (by simpa using hkeep [file] [] ha)
      · refine ⟨rfl, ?_⟩
        rcases ha with hm | ha
        · rcases List.mem_cons.1 hm with rfl | hm
          · exact Or.inr (Or.inl ⟨hr, fault, List.mem_append_right _ List.mem_cons_self⟩)
          · exact Or.inl hm
        · exact Or.inr (by simpa [BatchReport.fail] using hkeep [] [file.writeFailure fault] ha)
  | opening =>
    cases h with
    | unopened _ hopen =>
      rw [hb, FaultyStore.openTransaction_faultless hfaults] at hopen
      cases hopen
    | opened => exact ⟨rfl, Or.inl ha⟩
  | committing =>
    cases h with
    | uncommitted hcommit =>
      rw [hb, FaultyStore.commit_faultless hfaults] at hcommit
      cases hcommit
    | committed => exact ha
  | trimming =>
    cases h
    refine ha.imp_right (And.imp_right fun hm => ?_)
    obtain ⟨w, hw, rfl⟩ := List.mem_map.1 hm
    exact ⟨w.2, List.mem_append_right _ (List.mem_map_of_mem hw)⟩
  | closing => cases h; exact ha
  | done => cases h

end Coordinator

/-! ## What a batch leaves behind -/

/-- Written in a transaction over rows that hold for its path what `rows` hold, the file
    leaves for its path what `rows'` hold. -/
def Coordinator.Rewrites (c : MemoryCoordinator) (f : Prepared) (chunks : Nat)
    (rows rows' : Rows) : Prop :=
  ∃ tx tx' store store',
    (f.write c.backend c.chunker).run (tx, store) = (.ok chunks, tx', store') ∧
      tx.working.Sound ∧ tx.working.dump f.path = rows.dump f.path ∧
      rows'.dump f.path = tx'.working.dump f.path

theorem Coordinator.rewrites_of_fits {c : MemoryCoordinator} {policy : DiffPolicy} {f : Prepared}
    {rows rows₁ rows' : Rows} (hb : c.backend = FaultyStore.backend) (hs : rows₁.Sound)
    (hf : f.Fits policy rows₁) (hdump : rows₁.dump f.path = rows.dump f.path)
    (hrows : rows'.dump f.path = (f.rowsAfter c.chunker rows₁).dump f.path) :
    c.Rewrites f (f.written c.chunker rows₁).1 rows rows' := by
  refine ⟨{ working := rows₁ }, { working := f.rowsAfter c.chunker rows₁ }, {}, {}, ?_, hs, hdump,
    hrows⟩
  rw [hb]
  exact (f.carries_write _).succeeds rfl
    ⟨hs.toWellFormed, List.not_mem_nil, fun previous hp => hf.file?_eq.trans hp⟩

namespace Chronicle

open Coordinator

variable {s s₁ s' : Chronicle} {xs : List Happening} {id : RequestId}
  {files : List (String × String)} {report : BatchReport}

/-- The report of a batch that is over, and its commits since it came. -/
theorem accounts_of_done (h : Orderly s.coordinator)
    (hr : s.coordinator.requests.get? id = some (.ofFiles files)) (hx : s.run xs = some s')
    (hdone : s'.coordinator.requests.get? id = some (.batch (.done report))) :
    report.Accounts files s.coordinator.chunker s.coordinator.store.store.rules.savepoints
      (s.commitsBy id xs) := by
  obtain ⟨phase, hr', hp⟩ := follow_batch (I := SameRules s.coordinator)
    (P := fun done phase => phase.Account files s.coordinator.chunker
      s.coordinator.store.store.rules.savepoints done)
    (fun _ ho hi hx => hi.trans (ho.undergo_rules hx))
    (fun ho hi hf hs hp => hs.account ho.backend hi.chunker hi.savepoints hf hp) h (.refl _) hr
    [] ⟨rfl, fun e he => he, List.forall_mem_nil _, List.forall_mem_nil _, List.forall_mem_nil _⟩ hx
  rw [hdone] at hr'
  cases hr'
  exact hp

/-- What is stored for a path that is reported as written, and that nobody else has
    written, is what the write makes of the rows of the path as they were. -/
theorem Continues.dump_written {supported : Bool} {path : String}
    (hc : s.Continues (s₁.commitLog xs) s') (hs : s.coordinator.rows.Sound)
    (ha : report.Accounts files s.coordinator.chunker supported (s₁.commitsBy id xs))
    (hpath : path ∉ (s₁.commitsBeside id xs).flatten.map (·.path)) {r : FileReport}
    (hr : r ∈ report.succeeded) (hrpath : r.path = path) (hmode : r.mode ≠ .skipped) :
    ∃ f rows, f ∈ s'.record.writes ∧ f.path = path ∧ (path, f.content) ∈ files ∧
      rows.Sound ∧ rows.dump path = s.coordinator.rows.dump path ∧
      f.Fits s.coordinator.settings.incremental rows ∧
      r = f.report (f.written s.coordinator.chunker rows).1 ∧
      s'.coordinator.rows.dump path = (f.rowsAfter s.coordinator.chunker rows).dump path := by
  obtain ⟨f, hf, he⟩ := (ha.succeeded r hr).resolve_left hmode
  obtain rfl : f.path = path := by rw [← hrpath, he]; rfl
  have honce := (filter_commitLog hpath).trans (filter_path_eq ha.nodup hf)
  obtain ⟨rows, hsound, hdump, hfits, hrows⟩ := hc.coherent.dump_of_once hs honce
  refine ⟨f, rows, ?_, rfl, ha.asked f hf, hsound, hdump, hfits, ?_, hc.rows_eq ▸ hrows⟩
  · rw [hc.writes]
    exact List.mem_append_right _ (mem_flatten_commitsBy hf)
  · rw [he, f.written_fst s.coordinator.chunker {} rows]

/-- In a run the request has the files `ready` to write, in the state `s'`, after which
    the happenings `rest` come. -/
def Gathers (s : Chronicle) (id : RequestId) (xs : List Happening) (ready : List Prepared)
    (s' : Chronicle) (rest : List Happening) : Prop :=
  ∃ before held report, xs = before ++ rest ∧ s.run before = some s' ∧
    s'.coordinator.requests.get? id = some (.batch (.opening held ready report))

section
variable {s₂ : Chronicle} {ready : List Prepared} {rest : List Happening}
  (h : Orderly s.coordinator) (hx : s.run xs = some s') (hg : s.Gathers id xs ready s₂ rest)
  (hdone : s'.coordinator.requests.get? id = some (.batch (.done report))) {f : Prepared}
  (hf : f ∈ ready)
include h hx hg hdone hf

theorem answers_of_done : report.Fails f ∨ ∃ chunks, f.report chunks ∈ report.succeeded := by
  obtain ⟨before, held, early, rfl, hbefore, hopening⟩ := hg
  obtain ⟨phase, hr, hp⟩ := follow_batch (I := fun _ => True) (P := fun _ phase => phase.Answers f)
    (fun _ _ _ _ => trivial) (fun _ _ _ hs hp => hs.answers hp) (orderly_run h hbefore) trivial
    hopening [] hf (run_of_append hx hbefore)
  rw [hdone] at hr
  cases hr
  exact hp

/-- On a store with savepoints and without faults, it is reported as failed if its path is
    rejected and as written otherwise. -/
theorem sorted_of_done (hsavepoints : s₂.coordinator.store.store.rules.savepoints = true)
    (hfaults : s₂.coordinator.store.faults = []) (hcalm : ∀ x ∈ rest, x.disturbs = false) :
    f.path ∈ s₂.coordinator.store.store.rules.rejected ∧ report.Fails f ∨
      f.path ∉ s₂.coordinator.store.store.rules.rejected ∧
        ∃ chunks, f.report chunks ∈ report.succeeded := by
  obtain ⟨before, held, early, rfl, hbefore, hopening⟩ := hg
  obtain ⟨phase, hr, hp⟩ := follow_batch (I := Faultless s₂.coordinator)
    (P := fun _ phase => phase.Isolates s₂.coordinator.store.store.rules.rejected f)
    (fun hm ho hi hx => ho.undergo_faultless hi (hcalm _ hm) hx)
    (fun ho hi hf hs hp => by
      rw [← hi.rules] at hp hsavepoints ⊢
      exact hs.isolates ho hi.faults hsavepoints hf hp)
    (orderly_run h hbefore) ⟨rfl, hfaults⟩ hopening [] hf (run_of_append hx hbefore)
  rw [hdone] at hr
  cases hr
  exact hp

end

/-- **A batch is written as a whole.**  Take a path that no other request commits while
    the batch is under way.  If the batch reports it as written, then what is stored for
    it is what its own write makes of what was stored before; otherwise, and if its
    write failed, what was stored before still is.  With savepoints a file fails just if
    its own path is rejected.  Without savepoints, if a write fails then nothing is
    committed and every file that was to be written is reported as failed.  The batch
    makes one commit at most. -/
theorem Opened.batch_atomic {start s₀ s₁ s₂ : Chronicle} {xs ys : List Happening}
    (h : start.Opened) (hxs : start.run xs = some s₀)
    (hask : s₀.step (.act (.batch files)) = some s₁) (hid : id = s₁.coordinator.lastRequest)
    (hys : s₁.run ys = some s₂)
    (hdone : s₂.coordinator.requests.get? id = some (.batch (.done report))) :
    (∀ path ∉ (s₁.commitsBeside id ys).flatten.map (·.path),
      (∀ r ∈ report.succeeded, r.path = path → r.mode ≠ .skipped →
        ∃ (f : Prepared) (chunks : Nat), r = f.report chunks ∧ f.path = path ∧
          (path, f.content) ∈ files ∧ s₂.record.Found ⟨path, .ofText f.content⟩ f.parsed ∧
          f.Fits s₀.coordinator.settings.incremental s₀.coordinator.rows ∧
          s₀.coordinator.Rewrites f chunks s₀.coordinator.rows s₂.coordinator.rows) ∧
      ((∀ r ∈ report.succeeded, r.path = path → r.mode = .skipped) →
        s₂.coordinator.rows.dump path = s₀.coordinator.rows.dump path) ∧
      ∀ e ∈ report.failed, e.path = path → e.kind = .storageWriteFailure →
        s₂.coordinator.rows.dump path = s₀.coordinator.rows.dump path) ∧
    (s₀.coordinator.store.store.rules.savepoints = true →
      ∀ {ready s rest}, s₁.Gathers id ys ready s rest → s.coordinator.store.faults = [] →
        (∀ x ∈ rest, x.disturbs = false) → ∀ f ∈ ready,
        f.path ∈ s.coordinator.store.store.rules.rejected ∧
            (∃ e ∈ report.failed, e.path = f.path ∧ e.kind = .storageWriteFailure) ∨
          f.path ∉ s.coordinator.store.store.rules.rejected ∧
            ∃ chunks, f.report chunks ∈ report.succeeded) ∧
    (s₀.coordinator.store.store.rules.savepoints = false →
      (∃ e ∈ report.failed, e.kind = .storageWriteFailure) →
      s₂.coordinator.rows = replay s₀.coordinator.chunker s₀.coordinator.rows
        (s₁.commitsBeside id ys).flatten ∧
      s₂.coordinator.store.store.commits =
        s₀.coordinator.store.store.commits + (s₁.commitsBeside id ys).length ∧
      (∀ r ∈ report.succeeded, r.mode = .skipped) ∧
      ∀ {ready s rest}, s₁.Gathers id ys ready s rest →
        ∀ f ∈ ready, ∃ e ∈ report.failed, e.path = f.path ∧ e.kind = .storageWriteFailure) ∧
    s₂.coordinator.store.store.commits ≤
      s₀.coordinator.store.store.commits + (s₁.commitsBeside id ys).length + 1 := by
  have h₀ := orderly_run h.orderly hxs
  have hfound := (((h.traced.run hxs).step hask).run hys).writes
  have hcome := continues_step h₀ hask
  have h₁ := hcome.orderly
  have ha := accounts_of_done h₁ (hid ▸ request_of_batch hask) hys hdone
  rw [hcome.chunker, hcome.savepoints] at ha
  have hc : s₀.Continues (s₁.commitLog ys) s₂ := hcome.trans (continues_run h₁ hys)
  refine ⟨fun path hpath => ⟨fun r hr hrpath hmode => ?_, fun hskipped => ?_, fun e he hp hk => ?_⟩,
    fun hsome {ready s rest} hg hfaults hcalm f hf => ?_, fun hnone hfailed => ?_, ?_⟩
  · obtain ⟨f, rows, hf, rfl, hasked, hsound, hdump, hfits, hreport, hstored⟩ :=
      hc.dump_written h₀.sound ha hpath hr hrpath hmode
    have hprior := hsound.prior_congr h₀.sound.toWellFormed hdump.symm
    exact ⟨f, _, hreport, rfl, hasked, (hfound f hf).2, hfits.congr hprior,
      rewrites_of_fits h₀.backend hsound hfits hdump hstored⟩
  · refine hc.dump_untouched h₀.sound hpath fun hm => ?_
    obtain ⟨f, hf, rfl⟩ := List.mem_map.1 hm
    exact f.mode_ne_skipped (hskipped _ (ha.reported f hf) rfl)
  · refine hc.dump_untouched h₀.sound hpath fun hm => ?_
    refine (ha.failed (fun hnil => ?_) e he hk).2 (hp ▸ hm)
    rw [hnil] at hm
    cases hm
  · have hsame : s.coordinator.store.store.rules.savepoints = true := by
      obtain ⟨before, -, -, -, hbefore, -⟩ := hg
      rw [(continues_run h₁ hbefore).savepoints, hcome.savepoints]
      exact hsome
    refine (sorted_of_done h₁ hys hg hdone hf hsame hfaults hcalm).imp_left (And.imp_right ?_)
    rintro ⟨fault, hfault⟩
    exact ⟨_, hfault, rfl, rfl⟩
  · obtain ⟨e, he, hk⟩ := hfailed
    have hnil : s₁.commitsBy id ys = [] := by
      by_contra hne
      cases hnone.symm.trans (ha.failed hne e he hk).1
    obtain ⟨hfiles, hlength⟩ := commitLog_of_commitsBy hnil
    have hskipped : ∀ r ∈ report.succeeded, r.mode = .skipped := fun r hr => by
      refine (ha.succeeded r hr).resolve_right ?_
      rintro ⟨f, hf, -⟩
      rw [hnil] at hf
      cases hf
    refine ⟨hfiles ▸ hc.rows_eq, hlength ▸ hc.commits, hskipped, fun hg f hf => ?_⟩
    rcases answers_of_done h₁ hys hg hdone hf with ⟨fault, hfault⟩ | ⟨chunks, hreport⟩
    · exact ⟨_, hfault, rfl, rfl⟩
    · exact (f.mode_ne_skipped (hskipped _ hreport)).elim
  · have hcount := hc.commits
    have hlength := s₁.length_commitLog id ys
    have honce := ha.once
    omega

/-- Three files are to be written, and the store rejects the one in the middle. -/
theorem Opened.batch_atomic_sample :
    let symbols : List Symbol := [.ofLines "f" .function 1 1]
    let before : List Happening := Happening.turns 1 4 ++
      [0, 1, 2].flatMap (fun place => List.replicate 3 (.act (.turn ⟨1, place⟩))) ++
      Happening.parse 0 symbols ++ Happening.parse 0 symbols ++ Happening.parse 0 symbols ++
      Happening.turns 1 10
    ∃ s₀ s₁ s s₂ ready report, sample.Opened ∧ sample.run [.disturb ["b"] []] = some s₀ ∧
      s₀.step (.act (.batch [("a", "fn f"), ("b", "fn g"), ("c", "fn h")])) = some s₁ ∧
      s₁.run (before ++ Happening.turns 1 8) = some s₂ ∧
      s₂.coordinator.requests.get? 1 = some (.batch (.done report)) ∧
      s₁.Gathers 1 (before ++ Happening.turns 1 8) ready s (Happening.turns 1 8) ∧
      ready.map (·.path) = ["a", "b", "c"] ∧ report.succeeded.map (·.path) = ["a", "c"] ∧
      report.failed.map (·.path) = ["b"] ∧
      (∀ f ∈ ready, f.path ≠ "b" → ∃ chunks, f.report chunks ∈ report.succeeded) ∧
      (∃ f chunks, f.path = "c" ∧
        s₀.coordinator.Rewrites f chunks s₀.coordinator.rows s₂.coordinator.rows) ∧
      s₂.coordinator.rows.dump "b" = s₀.coordinator.rows.dump "b" ∧
      s₂.coordinator.store.store.commits ≤ 1 := by
  intro symbols before
  have hcheck : (sample.run [.disturb ["b"] []]).any (fun s₀ =>
      (s₀.step (.act (.batch [("a", "fn f"), ("b", "fn g"), ("c", "fn h")]))).any fun s₁ =>
        (s₁.run (before ++ Happening.turns 1 8)).any fun s₂ => (s₁.run before).any fun s =>
          ((s.coordinator.requests.get? 1).bind Request.gathered?).any fun ready =>
            ((s₂.coordinator.requests.get? 1).bind Request.report?).any fun report =>
              decide (s₁.coordinator.lastRequest = 1 ∧
                (s₁.commitsBeside 1 (before ++ Happening.turns 1 8)).isEmpty = true ∧
                s₀.coordinator.store.store.rules.savepoints = true ∧
                s₀.coordinator.store.store.commits = 0 ∧ s.coordinator.store.faults = [] ∧
                s.coordinator.store.store.rules.rejected = ["b"] ∧
                ready.map (·.path) = ["a", "b", "c"] ∧
                report.succeeded.map (fun r => (r.path, r.mode)) = [("a", .full), ("c", .full)] ∧
                report.failed.map (·.path) = ["b"])) = true := by
    decide +kernel
  obtain ⟨s₀, hs₀, hcheck⟩ := (Option.any_eq_true _ _).1 hcheck
  obtain ⟨s₁, hs₁, hcheck⟩ := (Option.any_eq_true _ _).1 hcheck
  obtain ⟨s₂, hs₂, hcheck⟩ := (Option.any_eq_true _ _).1 hcheck
  obtain ⟨s, hs, hcheck⟩ := (Option.any_eq_true _ _).1 hcheck
  obtain ⟨ready, hgathered, hcheck⟩ := (Option.any_eq_true _ _).1 hcheck
  obtain ⟨report, hreport, hcheck⟩ := (Option.any_eq_true _ _).1 hcheck
  obtain ⟨hid, hbeside, hsavepoints, hcommits, hfaults, hrejected, hready, hsucceeded, hfailed⟩ :=
    of_decide_eq_true hcheck
  obtain ⟨r, hr, hgathered⟩ := Option.bind_eq_some_iff.1 hgathered
  obtain ⟨held, early, rfl⟩ := Request.eq_of_gathered? hgathered
  obtain ⟨r', hr', hreport⟩ := Option.bind_eq_some_iff.1 hreport
  rw [Request.eq_of_report? hreport] at hr'
  have hg : s₁.Gathers 1 (before ++ Happening.turns 1 8) ready s (Happening.turns 1 8) :=
    ⟨before, held, early, rfl, hs, hr⟩
  obtain ⟨hpaths, hsorted, -, hcount⟩ :=
    sample_started.opened.batch_atomic hs₀ hs₁ hid.symm hs₂ hr'
  rw [List.isEmpty_iff.1 hbeside] at hpaths hcount
  have hc : ("c", WriteMode.full) ∈ report.succeeded.map (fun r => (r.path, r.mode)) := by
    rw [hsucceeded]
    decide
  obtain ⟨c, hmem, hc⟩ := List.mem_map.1 hc
  rw [Prod.mk.injEq] at hc
  refine ⟨s₀, s₁, s, s₂, ready, report, sample_started.opened, hs₀, hs₁, hs₂, hr', hg, hready, ?_,
    hfailed, fun f hf hne => ?_, ?_, ?_, ?_⟩
  · have hfst := congrArg (List.map Prod.fst) hsucceeded
    rwa [List.map_map] at hfst
  · refine ((hsorted hsavepoints hg hfaults (by decide +kernel) f hf).resolve_left ?_).2
    rw [hrejected]
    exact fun hf => hne (List.mem_singleton.1 hf.1)
  · obtain ⟨f, chunks, -, hpath, -, -, -, hrewrites⟩ :=
      (hpaths "c" List.not_mem_nil).1 c hmem hc.1 (by rw [hc.2]; decide)
    exact ⟨f, chunks, hpath, hrewrites⟩
  · refine (hpaths "b" List.not_mem_nil).2.1 fun r hr hrb => ?_
    have hm : (r.path, r.mode) ∈ report.succeeded.map (fun r => (r.path, r.mode)) :=
      List.mem_map_of_mem (f := fun r : FileReport => (r.path, r.mode)) hr
    rw [hsucceeded, hrb] at hm
    simp at hm
  · rw [hcommits] at hcount
    exact hcount

end Chronicle

end SourceIndex
