/-
  The steps of requests, case by case.

  Nothing is assumed of the store here: every case names the calls that it makes and
  what they answered.

  * `Coordinator.StageStep`: a step in preparing a file;
  * `Coordinator.FileStep`, `Coordinator.BatchStep`: a step of a request for one file
    and for many files;
  * `stageStep`, `fileStep`, `batchStep`: every step is one of these;
  * `Stage.Proper`: what a preparation comes to.
-/
import SourceIndex.Coordinator.Basic

namespace SourceIndex

/-- A preparation that is over comes to something about its own file, and does not fail
    for want of a lease or of a write. -/
def Stage.Proper (path content : String) : Stage → Prop
  | .settled (.error error) =>
    error.path = path ∧ error.kind ≠ .pathBusy ∧ error.kind ≠ .storageWriteFailure
  | .settled (.ok (.skipped report)) => report.path = path ∧ report.mode = .skipped
  | .settled (.ok (.ready file)) => file.path = path ∧ file.content = content
  | _ => True

namespace Coordinator

variable {σ τ : Type} {stage stage' : Stage} {phase' : BatchPhase τ} {place : Nat}
  {held : List String} {report : BatchReport} {slots : List Slot}

/-! ## Preparing a file -/

/-- A step in preparing a file. -/
inductive StageStep (c : Coordinator σ τ) (path content : String) :
    Stage → Stage → Coordinator σ τ → Prop where
  | unreadFile {fault : Fault} {store : σ}
      (h : c.backend.findFile path c.store = (.error fault, store)) :
      StageStep c path content .fresh (.settled (.error (.storageRead path fault)))
        { c with store }
  | absent {store : σ} (h : c.backend.findFile path c.store = (.ok none, store)) :
      StageStep c path content .fresh (.loaded ⟨none, []⟩) { c with store }
  | located {file : FileRecord} {store : σ}
      (h : c.backend.findFile path c.store = (.ok (some file), store)) :
      StageStep c path content .fresh (.located file) { c with store }
  | unreadSymbols {file : FileRecord} {fault : Fault} {store : σ}
      (h : c.backend.findSymbols file.id c.store = (.error fault, store)) :
      StageStep c path content (.located file) (.settled (.error (.storageRead path fault)))
        { c with store }
  | loaded {file : FileRecord} {symbols : List SymbolRecord} {store : σ}
      (h : c.backend.findSymbols file.id c.store = (.ok symbols, store)) :
      StageStep c path content (.located file) (.loaded ⟨some file, symbols⟩) { c with store }
  | unchanged {prior : Prior}
      (h : prior.previous.map (·.contentHash) = some (.ofText content)) :
      StageStep c path content (.loaded prior)
        (.settled (.ok (.skipped (.unchangedContent path prior.symbols.length)))) c
  | cached {prior : Prior} {parsed : ParseResult} {cache : Cache ParseResult}
      (h : prior.previous.map (·.contentHash) ≠ some (.ofText content))
      (hget : c.cache.get c.now (.ofContent path content) = (some parsed, cache)) :
      StageStep c path content (.loaded prior)
        (.settled (.ok (.ready (c.prepared path content prior parsed true 0)))) { c with cache }
  | uncached {prior : Prior} {cache : Cache ParseResult}
      (h : prior.previous.map (·.contentHash) ≠ some (.ofText content))
      (hget : c.cache.get c.now (.ofContent path content) = (none, cache)) :
      StageStep c path content (.loaded prior) (.submitting prior 1) { c with cache }
  | refused {prior : Prior} {attempt : Nat} {error : PoolError}
      (h : c.pool.submit path content = .error error) :
      StageStep c path content (.submitting prior attempt)
        (.settled (.error (.parseFailure path attempt error))) c
  | submitted {prior : Prior} {attempt : Nat} {ticket : TaskId} {pool : Pool}
      (h : c.pool.submit path content = .ok (ticket, pool)) :
      StageStep c path content (.submitting prior attempt) (.awaiting prior attempt ticket)
        { c with pool }
  | parsed {prior : Prior} {attempt : Nat} {ticket : TaskId} {result : ParseResult}
      (h : c.pool.outcome? ticket = some (.ok result)) :
      StageStep c path content (.awaiting prior attempt ticket) (.parsed prior attempt result) c
  | retried {prior : Prior} {attempt : Nat} {ticket : TaskId} {outcome : TaskResult}
      {error : PoolError} (h : c.pool.outcome? ticket = some outcome)
      (he : outcome.toExcept = .error error) (ht : error.isTransient = true)
      (hlt : attempt < c.settings.pool.maxRetries + 1) :
      StageStep c path content (.awaiting prior attempt ticket) (.submitting prior (attempt + 1)) c
  | gaveUp {prior : Prior} {attempt : Nat} {ticket : TaskId} {outcome : TaskResult}
      {error : PoolError} (h : c.pool.outcome? ticket = some outcome)
      (he : outcome.toExcept = .error error)
      (hlast : error.isTransient = true → c.settings.pool.maxRetries + 1 ≤ attempt) :
      StageStep c path content (.awaiting prior attempt ticket)
        (.settled (.error (.parseFailure path attempt error))) c
  | stored {prior : Prior} {attempt : Nat} {result : ParseResult} :
      StageStep c path content (.parsed prior attempt result)
        (.settled (.ok (.ready (c.prepared path content prior result false attempt))))
        { c with cache := c.cache.set c.now (.ofContent path content) result }

variable {c c' : Coordinator σ τ} {path content : String}

theorem stageStep (h : c.prepare path content stage = some (stage', c')) :
    StageStep c path content stage stage' c' := by
  cases stage with
  | fresh =>
    rw [prepare] at h
    rcases hf : c.backend.findFile path c.store with ⟨fault | _ | file, store⟩
    · rw [hf] at h; cases h; exact .unreadFile hf
    · rw [hf] at h; cases h; exact .absent hf
    · rw [hf] at h; cases h; exact .located hf
  | located file =>
    rw [prepare] at h
    rcases hf : c.backend.findSymbols file.id c.store with ⟨fault | symbols, store⟩
    · rw [hf] at h; cases h; exact .unreadSymbols hf
    · rw [hf] at h; cases h; exact .loaded hf
  | loaded prior =>
    rw [prepare] at h
    dsimp only at h
    split at h
    · rename_i he
      cases h
      exact .unchanged he
    · rename_i he
      rcases hg : c.cache.get c.now (.ofContent path content) with ⟨_ | parsed, cache⟩
      · rw [hg] at h; cases h; exact .uncached he hg
      · rw [hg] at h; cases h; exact .cached he hg
  | submitting prior attempt =>
    rw [prepare] at h
    rcases hs : c.pool.submit path content with error | ⟨ticket, pool⟩
    · rw [hs] at h; cases h; exact .refused hs
    · rw [hs] at h; cases h; exact .submitted hs
  | awaiting prior attempt ticket =>
    rw [prepare] at h
    cases ho : c.pool.outcome? ticket with
    | none => rw [ho] at h; cases h
    | some outcome =>
      rw [ho, Option.some.injEq] at h
      unfold Stage.afterAttempt at h
      cases he : outcome.toExcept with
      | ok result =>
        rw [he] at h
        cases h
        cases outcome with
        | ok result' => cases he; exact .parsed ho
        | _ => cases he
      | error error =>
        rw [he] at h
        dsimp only at h
        split at h
        · rename_i hr
          rw [Bool.and_eq_true, decide_eq_true_eq] at hr
          cases h
          exact .retried ho he hr.1 hr.2
        · rename_i hr
          rw [Bool.and_eq_true, decide_eq_true_eq, not_and, Nat.not_lt] at hr
          cases h
          exact .gaveUp ho he hr
  | parsed prior attempt result => cases h; exact .stored
  | settled outcome => cases h

theorem StageStep.proper (h : StageStep c path content stage stage' c') :
    stage'.Proper path content := by
  cases h with
  | unreadFile | unreadSymbols => exact ⟨rfl, nofun, nofun⟩
  | unchanged | cached | stored => exact ⟨rfl, rfl⟩
  | @refused _ _ error | @gaveUp _ _ _ _ error =>
    refine ⟨rfl, ?_, ?_⟩ <;> cases error <;> exact nofun
  | _ => trivial

/-! ## Steps for one file -/

/-- A step of a request for one file. -/
inductive FileStep (c : Coordinator σ τ) (path content : String) :
    FilePhase τ → FilePhase τ → Coordinator σ τ → Prop where
  | refused (h : path ∈ c.leases) :
      FileStep c path content .arriving (.done (.error (.pathBusy path))) c
  | leased (h : path ∉ c.leases) :
      FileStep c path content .arriving (.preparing .fresh)
        { c with leases := c.leases ++ [path] }
  | prepared {stage stage' : Stage} {c' : Coordinator σ τ}
      (h : StageStep c path content stage stage' c') :
      FileStep c path content (.preparing stage) (.preparing stage') c'
  | failed {error : IndexError} :
      FileStep c path content (.preparing (.settled (.error error))) (.closing (.error error)) c
  | skipped {report : FileReport} :
      FileStep c path content (.preparing (.settled (.ok (.skipped report))))
        (.closing (.ok report)) c
  | ready {file : Prepared} :
      FileStep c path content (.preparing (.settled (.ok (.ready file)))) (.opening file) c
  | unopened {file : Prepared} {fault : Fault} {store : σ} (hfree : c.backend.free c.store = true)
      (h : c.backend.openTransaction c.store = (.error fault, store)) :
      FileStep c path content (.opening file) (.closing (.error (file.writeFailure fault)))
        { c with store }
  | opened {file : Prepared} {tx : τ} {store : σ} (hfree : c.backend.free c.store = true)
      (h : c.backend.openTransaction c.store = (.ok tx, store)) :
      FileStep c path content (.opening file) (.writing file tx) { c with store }
  | unwritten {file : Prepared} {tx tx' : τ} {fault : Fault} {store : σ}
      (h : (file.write c.backend c.chunker).run (tx, c.store) = (.error fault, tx', store)) :
      FileStep c path content (.writing file tx) (.undoing file tx' fault) { c with store }
  | wrote {file : Prepared} {tx tx' : τ} {chunks : Nat} {store : σ}
      (h : (file.write c.backend c.chunker).run (tx, c.store) = (.ok chunks, tx', store)) :
      FileStep c path content (.writing file tx) (.committing file tx' chunks) { c with store }
  | uncommitted {file : Prepared} {tx : τ} {chunks : Nat} {fault : Fault} {store : σ}
      (h : c.backend.commit tx c.store = (.error fault, store)) :
      FileStep c path content (.committing file tx chunks)
        (.closing (.error (file.writeFailure fault))) { c with store }
  | committed {file : Prepared} {tx : τ} {chunks : Nat} {store : σ}
      (h : c.backend.commit tx c.store = (.ok (), store)) :
      FileStep c path content (.committing file tx chunks) (.trimming file chunks) { c with store }
  | undone {file : Prepared} {tx : τ} {cause : Fault} {ended : Except Fault Unit} {store : σ}
      (h : c.backend.rollback tx c.store = (ended, store)) :
      FileStep c path content (.undoing file tx cause)
        (.closing (.error (file.writeFailure cause))) { c with store }
  | trimmed {file : Prepared} {chunks : Nat} :
      FileStep c path content (.trimming file chunks) (.closing (.ok (file.report chunks)))
        (c.trim file)
  | closed {outcome : Except IndexError FileReport} {tallies : Tallies}
      (hok : ∀ report, outcome = .ok report → tallies = c.tallies.succeed report)
      (herror : ∀ error, outcome = .error error → tallies = c.tallies.fail 1) :
      FileStep c path content (.closing outcome) (.done outcome)
        { c.release [path] with tallies }

theorem lease?_eq_none (h : c.lease? path = none) : path ∈ c.leases := by
  simpa [lease?] using h

theorem lease?_eq_some (h : c.lease? path = some c') :
    path ∉ c.leases ∧ c' = { c with leases := c.leases ++ [path] } := by
  unfold lease? at h
  split at h
  · cases h
  · rename_i hfree
    rw [List.contains_eq_mem, decide_eq_true_eq] at hfree
    exact ⟨hfree, (Option.some.inj h).symm⟩

theorem turnFile_preparing (hstage : ∀ outcome, stage ≠ .settled outcome) :
    c.turnFile path content (.preparing stage) =
      (c.prepare path content stage).map fun r => (.preparing r.1, r.2) := by
  cases stage with
  | settled outcome => exact (hstage outcome rfl).elim
  | _ => rfl

theorem fileStep {phase phase' : FilePhase τ}
    (h : c.turnFile path content phase = some (phase', c')) :
    FileStep c path content phase phase' c' := by
  cases phase with
  | arriving =>
    rw [turnFile] at h
    cases hl : c.lease? path with
    | none =>
      rw [hl] at h
      cases h
      exact .refused (lease?_eq_none hl)
    | some c₁ =>
      rw [hl] at h
      obtain ⟨hfree, rfl⟩ := lease?_eq_some hl
      cases h
      exact .leased hfree
  | preparing stage =>
    by_cases hstage : ∀ outcome, stage ≠ .settled outcome
    · rw [turnFile_preparing hstage] at h
      obtain ⟨⟨stage', c₁⟩, hp, he⟩ := Option.map_eq_some_iff.1 h
      cases he
      exact .prepared (stageStep hp)
    · obtain ⟨outcome, rfl⟩ : ∃ outcome, stage = .settled outcome := by
        simpa using hstage
      rcases outcome with error | report | file
      · cases h; exact .failed
      · cases h; exact .skipped
      · cases h; exact .ready
  | opening file =>
    rw [turnFile] at h
    split at h
    · rename_i hfree
      rcases ho : c.backend.openTransaction c.store with ⟨fault | tx, store⟩
      · rw [ho] at h; cases h; exact .unopened hfree ho
      · rw [ho] at h; cases h; exact .opened hfree ho
    · cases h
  | writing file tx =>
    rw [turnFile] at h
    rcases hw : (file.write c.backend c.chunker).run (tx, c.store) with ⟨fault | chunks, tx', store⟩
    · rw [hw] at h; cases h; exact .unwritten hw
    · rw [hw] at h; cases h; exact .wrote hw
  | committing file tx chunks =>
    rw [turnFile] at h
    rcases hc : c.backend.commit tx c.store with ⟨fault | _, store⟩
    · rw [hc] at h; cases h; exact .uncommitted hc
    · rw [hc] at h; cases h; exact .committed hc
  | undoing file tx cause =>
    rw [turnFile] at h
    rcases hc : c.backend.rollback tx c.store with ⟨ended, store⟩
    rw [hc] at h
    cases h
    exact .undone hc
  | trimming file chunks => cases h; exact .trimmed
  | closing outcome =>
    cases h
    exact .closed (fun report he => by rw [he]) fun error he => by rw [he]
  | done outcome => cases h

/-! ## Steps for a batch -/

/-- A step of a request for a batch. -/
inductive BatchStep (c : Coordinator σ τ) :
    BatchPhase τ → BatchPhase τ → Coordinator σ τ → Prop where
  | arrived {held : List Slot} {report : BatchReport} :
      BatchStep c (.arriving [] held report) (.preparing (held.map (·.path)) held [] report) c
  | refused {path content : String} {todo : List (String × String)} {held : List Slot}
      {report : BatchReport} (h : path ∈ c.leases) :
      BatchStep c (.arriving ((path, content) :: todo) held report)
        (.arriving todo held (report.fail (.pathBusy path))) c
  | leased {path content : String} {todo : List (String × String)} {held : List Slot}
      {report : BatchReport} (h : path ∉ c.leases) :
      BatchStep c (.arriving ((path, content) :: todo) held report)
        (.arriving todo (held ++ [{ path := path, content := content }]) report)
        { c with leases := c.leases ++ [path] }
  | nothing {held : List String} {report : BatchReport} :
      BatchStep c (.preparing held [] [] report) (.closing held report) c
  | gathered {held : List String} {ready : List Prepared} {report : BatchReport}
      (h : ready ≠ []) :
      BatchStep c (.preparing held [] ready report) (.opening held ready report) c
  | prepared {held : List String} {before after : List Slot} {slot : Slot} {ready : List Prepared}
      {report : BatchReport} {stage : Stage} {c' : Coordinator σ τ}
      (h : StageStep c slot.path slot.content slot.stage stage c') :
      BatchStep c (.preparing held (before ++ slot :: after) ready report)
        (.preparing held (before ++ { slot with stage } :: after) ready report) c'
  | failed {held : List String} {before after : List Slot} {slot : Slot} {ready : List Prepared}
      {report : BatchReport} {error : IndexError} (h : slot.stage = .settled (.error error)) :
      BatchStep c (.preparing held (before ++ slot :: after) ready report)
        (.preparing held (before ++ after) ready (report.fail error)) c
  | skipped {held : List String} {before after : List Slot} {slot : Slot} {ready : List Prepared}
      {report : BatchReport} {file : FileReport}
      (h : slot.stage = .settled (.ok (.skipped file))) :
      BatchStep c (.preparing held (before ++ slot :: after) ready report)
        (.preparing held (before ++ after) ready (report.succeed file)) c
  | ready {held : List String} {before after : List Slot} {slot : Slot} {ready : List Prepared}
      {report : BatchReport} {file : Prepared} (h : slot.stage = .settled (.ok (.ready file))) :
      BatchStep c (.preparing held (before ++ slot :: after) ready report)
        (.preparing held (before ++ after) (ready ++ [file]) report) c
  | unopened {held : List String} {ready : List Prepared} {report : BatchReport} {fault : Fault}
      {store : σ} (hfree : c.backend.free c.store = true)
      (h : c.backend.openTransaction c.store = (.error fault, store)) :
      BatchStep c (.opening held ready report)
        (.closing held { report with
          failed := report.failed ++ ready.map (·.writeFailure (.storage fault.message)) })
        { c with store }
  | opened {held : List String} {ready : List Prepared} {report : BatchReport} {tx : τ}
      {store : σ} (hfree : c.backend.free c.store = true)
      (h : c.backend.openTransaction c.store = (.ok tx, store)) :
      BatchStep c (.opening held ready report) (.writing held tx ready 0 true [] report)
        { c with store }
  | wroteAll {held : List String} {tx : τ} {index : Nat} {savepoints : Bool}
      {written : List (Prepared × Nat)} {report : BatchReport} :
      BatchStep c (.writing held tx [] index savepoints written report)
        (.committing held tx written report) c
  | wrote {held : List String} {tx : τ} {file : Prepared} {rest : List Prepared} {index : Nat}
      {savepoints marked : Bool} {written : List (Prepared × Nat)} {report : BatchReport}
      {state₁ state₂ : τ × σ} {chunks : Nat}
      (hmark : c.markFile savepoints index (tx, c.store) = (marked, state₁))
      (h : (file.write c.backend c.chunker).run state₁ = (.ok chunks, state₂)) :
      BatchStep c (.writing held tx (file :: rest) index savepoints written report)
        (.writing held state₂.1 rest (index + 1) marked (written ++ [(file, chunks)]) report)
        { c with store := state₂.2 }
  /-- the file is not written, and its savepoint takes back what was -/
  | tookBack {held : List String} {tx : τ} {file : Prepared} {rest : List Prepared} {index : Nat}
      {savepoints : Bool} {written : List (Prepared × Nat)} {report : BatchReport}
      {state₁ state₂ state₃ : τ × σ} {fault : Fault}
      (hmark : c.markFile savepoints index (tx, c.store) = (true, state₁))
      (h : (file.write c.backend c.chunker).run state₁ = (.error fault, state₂))
      (hback : (c.backend.rollbackTo (savepointName index)).run state₂ = (.ok (), state₃)) :
      BatchStep c (.writing held tx (file :: rest) index savepoints written report)
        (.writing held state₃.1 rest (index + 1) true written
          (report.fail (file.writeFailure fault))) { c with store := state₃.2 }
  /-- the file is not written, and there is no savepoint to go back to -/
  | gaveUp {held : List String} {tx : τ} {file : Prepared} {rest : List Prepared} {index : Nat}
      {savepoints marked : Bool} {written : List (Prepared × Nat)} {report : BatchReport}
      {state₁ state₂ state₃ : τ × σ} {fault : Fault}
      (hmark : c.markFile savepoints index (tx, c.store) = (marked, state₁))
      (h : (file.write c.backend c.chunker).run state₁ = (.error fault, state₂))
      (hback : marked = false ∧ state₃ = state₂ ∨ marked = true ∧ ∃ cause,
        (c.backend.rollbackTo (savepointName index)).run state₂ = (.error cause, state₃)) :
      BatchStep c (.writing held tx (file :: rest) index savepoints written report)
        (.undoing held state₃.1 (undone report file fault (written.map (·.1) ++ rest)))
        { c with store := state₃.2 }
  | undone {held : List String} {tx : τ} {report : BatchReport} {ended : Except Fault Unit}
      {store : σ} (h : c.backend.rollback tx c.store = (ended, store)) :
      BatchStep c (.undoing held tx report) (.closing held report) { c with store }
  | uncommitted {held : List String} {tx : τ} {written : List (Prepared × Nat)}
      {report : BatchReport} {fault : Fault} {store : σ}
      (h : c.backend.commit tx c.store = (.error fault, store)) :
      BatchStep c (.committing held tx written report)
        (.closing held { report with
          failed := report.failed ++ written.map (·.1.writeFailure (.storage fault.message)) })
        { c with store }
  | committed {held : List String} {tx : τ} {written : List (Prepared × Nat)}
      {report : BatchReport} {store : σ} (h : c.backend.commit tx c.store = (.ok (), store)) :
      BatchStep c (.committing held tx written report) (.trimming held written report)
        { c with store }
  | trimmed {held : List String} {written : List (Prepared × Nat)} {report : BatchReport} :
      BatchStep c (.trimming held written report)
        (.closing held { report with
          succeeded := report.succeeded ++ written.map fun w => w.1.report w.2 })
        (written.foldl (fun c w => c.trim w.1) c)
  | closed {held : List String} {report : BatchReport} :
      BatchStep c (.closing held report) (.done report)
        { c.release held with
          tallies := (report.succeeded.foldl Tallies.succeed c.tallies).fail
            report.failed.length }

theorem batchStep_writeNext {tx : τ} {file : Prepared} {rest : List Prepared} {index : Nat}
    {savepoints : Bool} {written : List (Prepared × Nat)}
    (h : c.writeNext held tx file rest index savepoints written report = (phase', c')) :
    BatchStep c (.writing held tx (file :: rest) index savepoints written report) phase' c' := by
  unfold writeNext at h
  rcases hm : c.markFile savepoints index (tx, c.store) with ⟨marked, state₁⟩
  rw [hm] at h
  dsimp only at h
  rcases hw : (file.write c.backend c.chunker).run state₁ with ⟨fault | chunks, state₂⟩
  · rw [hw] at h
    cases marked with
    | false =>
      cases h
      exact .gaveUp hm hw (Or.inl ⟨rfl, rfl⟩)
    | true =>
      dsimp only at h
      rcases hr : (c.backend.rollbackTo (savepointName index)).run state₂ with
        ⟨cause | _, state₃⟩
      · rw [hr] at h; cases h; exact .gaveUp hm hw (Or.inr ⟨rfl, cause, hr⟩)
      · rw [hr] at h; cases h; exact .tookBack hm hw hr
  · rw [hw] at h; cases h; exact .wrote hm hw

theorem pick_eq_some {before after : List Slot} {slot : Slot}
    (h : pick slots place = some (before, slot, after)) : slots = before ++ slot :: after := by
  unfold pick at h
  split at h
  · cases h
  · rename_i hd
    cases h
    rw [← hd, List.take_append_drop]

theorem batchStep_slot {ready : List Prepared} (hs : slots ≠ [])
    (h : c.turnBatch place (.preparing held slots ready report) = some (phase', c')) :
    BatchStep c (.preparing held slots ready report) phase' c' := by
  rw [turnBatch] at h
  · cases hp : pick slots place with
    | none => rw [hp] at h; cases h
    | some found =>
      obtain ⟨before, slot, after⟩ := found
      rw [hp] at h
      obtain rfl := pick_eq_some hp
      dsimp only at h
      cases hst : slot.stage with
      | settled outcome =>
        rw [hst] at h
        rcases outcome with error | file | file
        · cases h; exact .failed hst
        · cases h; exact .skipped hst
        · cases h; exact .ready hst
      | _ =>
        rw [hst] at h
        obtain ⟨⟨stage', c₁⟩, hp, he⟩ := Option.map_eq_some_iff.1 h
        cases he
        rw [← hst] at hp
        exact .prepared (stageStep hp)
  · exact hs

theorem batchStep {phase : BatchPhase τ} (h : c.turnBatch place phase = some (phase', c')) :
    BatchStep c phase phase' c' := by
  cases phase with
  | arriving todo held report =>
    cases todo with
    | nil => cases h; exact .arrived
    | cons entry todo =>
      obtain ⟨path, content⟩ := entry
      rw [turnBatch] at h
      cases hl : c.lease? path with
      | none =>
        rw [hl] at h
        cases h
        exact .refused (lease?_eq_none hl)
      | some c₁ =>
        rw [hl] at h
        obtain ⟨hfree, rfl⟩ := lease?_eq_some hl
        cases h
        exact .leased hfree
  | preparing held slots ready report =>
    cases slots with
    | nil =>
      rw [turnBatch] at h
      split at h
      · rename_i he
        obtain rfl := List.isEmpty_iff.1 he
        cases h
        exact .nothing
      · rename_i he
        cases h
        exact .gathered fun hr => he (List.isEmpty_iff.2 hr)
    | cons slot slots => exact batchStep_slot (List.cons_ne_nil _ _) h
  | opening held ready report =>
    rw [turnBatch] at h
    split at h
    · rename_i hfree
      rcases ho : c.backend.openTransaction c.store with ⟨fault | tx, store⟩
      · rw [ho] at h; cases h; exact .unopened hfree ho
      · rw [ho] at h; cases h; exact .opened hfree ho
    · cases h
  | writing held tx todo index savepoints written report =>
    cases todo with
    | nil => cases h; exact .wroteAll
    | cons file rest =>
      rw [turnBatch, Option.some.injEq] at h
      exact batchStep_writeNext h
  | undoing held tx report =>
    rw [turnBatch] at h
    rcases hc : c.backend.rollback tx c.store with ⟨ended, store⟩
    rw [hc] at h
    cases h
    exact .undone hc
  | committing held tx written report =>
    rw [turnBatch] at h
    rcases hc : c.backend.commit tx c.store with ⟨fault | _, store⟩
    · rw [hc] at h; cases h; exact .uncommitted hc
    · rw [hc] at h; cases h; exact .committed hc
  | trimming held written report => cases h; exact .trimmed
  | closing held report => cases h; exact .closed
  | done report => cases h

end Coordinator

end SourceIndex
