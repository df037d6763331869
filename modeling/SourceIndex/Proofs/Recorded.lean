/-
  A store whose transactions record the calls made on them.

  * `WriteCall`, `Recorded`: the calls on a transaction, and a transaction with all calls
    made on it so far and whether each succeeded;
  * `Backend.recorded`: the calls of any store, recorded;
  * `Mirrors`, `mirrors_write`: a write to the recording store answers what the write to
    the store itself does, and records its calls;
  * `Coordinator.forget`: the coordinator over the store itself, `forget_after`: it goes
    through the same events.
-/
import SourceIndex.Proofs.AnyStore
import SourceIndex.Proofs.Writing

namespace SourceIndex

/-! ## Recorded calls -/

/-- A call on a transaction. -/
inductive WriteCall where
  | upsertFile (path content : String)
  | insertSymbols (file : FileId) (symbols : List Symbol)
  | deleteSymbol (symbol : SymbolId)
  | deleteChunks (symbol : SymbolId)
  | deleteContents (file : FileId)
  | deleteFileLevel (file : FileId)
  | insertChunks (file : FileId) (chunks : List Chunk) (owners : List (Option SymbolId))
  | savepoint (name : String)
  | rollbackTo (name : String)

/-- Does the call write rows? -/
def WriteCall.writes : WriteCall → Bool
  | savepoint _ | rollbackTo _ => false
  | _ => true

/-- A transaction and the calls made on it, each with whether it succeeded. -/
structure Recorded (τ : Type) where
  tx : τ
  calls : List (WriteCall × Bool) := []

variable {σ τ : Type}

/-- Did a call return a value that passes the test? -/
def succeeded {α : Type} (test : α → Bool) : Except Fault α → Bool
  | .ok a => test a
  | .error _ => false

/-- A call that is recorded. -/
def recordCall {α : Type} (call : WriteCall) (m : Writing σ τ α)
    (test : α → Bool := fun _ => true) : Writing σ (Recorded τ) α := fun (t, s) =>
  let (outcome, tx, s) := m.run (t.tx, s)
  (outcome, { tx, calls := t.calls ++ [(call, succeeded test outcome)] }, s)

theorem run_recordCall {α : Type} (call : WriteCall) (m : Writing σ τ α) (test : α → Bool)
    (t : Recorded τ) (s : σ) :
    (recordCall call m test).run (t, s) = ((m.run (t.tx, s)).1,
      ⟨(m.run (t.tx, s)).2.1, t.calls ++ [(call, succeeded test (m.run (t.tx, s)).1)]⟩,
      (m.run (t.tx, s)).2.2) := rfl

/-- The calls of a store, recorded.  A savepoint has succeeded if there is one. -/
def Backend.recorded (b : Backend σ τ) : Backend σ (Recorded τ) where
  findFile := b.findFile
  findSymbols := b.findSymbols
  free := b.free
  openTransaction s :=
    let (opened, s) := b.openTransaction s
    (opened.map fun tx => { tx }, s)
  upsertFile path content := recordCall (.upsertFile path content) (b.upsertFile path content)
  insertSymbols file symbols :=
    recordCall (.insertSymbols file symbols) (b.insertSymbols file symbols)
  deleteSymbol symbol := recordCall (.deleteSymbol symbol) (b.deleteSymbol symbol)
  deleteChunks symbol := recordCall (.deleteChunks symbol) (b.deleteChunks symbol)
  deleteContents file := recordCall (.deleteContents file) (b.deleteContents file)
  deleteFileLevel file := recordCall (.deleteFileLevel file) (b.deleteFileLevel file)
  insertChunks file chunks owners :=
    recordCall (.insertChunks file chunks owners) (b.insertChunks file chunks owners)
  savepoint name := recordCall (.savepoint name) (b.savepoint name) id
  rollbackTo name := recordCall (.rollbackTo name) (b.rollbackTo name)
  commit t := b.commit t.tx
  rollback t := b.rollback t.tx

/-! ## Writes -/

/-- A computation on the recording store answers what the one on the store does.  What it
    records are writes, and if it succeeds all of them succeeded. -/
structure Mirrors {α : Type} (m' : Writing σ (Recorded τ) α) (m : Writing σ τ α) : Prop where
  same : ∀ t s, m.run (t.tx, s) =
    ((m'.run (t, s)).1, (m'.run (t, s)).2.1.tx, (m'.run (t, s)).2.2)
  calls : ∀ t s, ∃ own, (m'.run (t, s)).2.1.calls = t.calls ++ own ∧
    (∀ e ∈ own, e.1.writes = true) ∧ ∀ a, (m'.run (t, s)).1 = .ok a → ∀ e ∈ own, e.2 = true

namespace Mirrors

variable {α β : Type} {m : Writing σ τ α} {m' : Writing σ (Recorded τ) α}

theorem pure (a : α) : Mirrors (Pure.pure a : Writing σ (Recorded τ) α) (Pure.pure a) where
  same _ _ := rfl
  calls t _ := ⟨[], (List.append_nil t.calls).symm, List.forall_mem_nil _,
    fun _ _ => List.forall_mem_nil _⟩

theorem bind (hm : Mirrors m' m) {k : α → Writing σ τ β} {k' : α → Writing σ (Recorded τ) β}
    (hk : ∀ a, Mirrors (k' a) (k a)) : Mirrors (m' >>= k') (m >>= k) where
  same t s := by
    rw [Carries.run_bind, Carries.run_bind, hm.same t s]
    rcases m'.run (t, s) with ⟨fault | a, t₁, s₁⟩
    · rfl
    · exact (hk a).same t₁ s₁
  calls t s := by
    obtain ⟨own, hcalls, hwrites, hok⟩ := hm.calls t s
    rw [Carries.run_bind]
    rcases hr : m'.run (t, s) with ⟨fault | a, t₁, s₁⟩
    · rw [hr] at hcalls
      exact ⟨own, hcalls, hwrites, fun _ h => by cases h⟩
    · rw [hr] at hcalls hok
      obtain ⟨own', hcalls', hwrites', hok'⟩ := (hk a).calls t₁ s₁
      refine ⟨own ++ own', ?_, List.forall_mem_append.2 ⟨hwrites, hwrites'⟩, fun b hb => ?_⟩
      · rw [← List.append_assoc, ← hcalls]
        exact hcalls'
      · exact List.forall_mem_append.2 ⟨hok a rfl, hok' b hb⟩

theorem recorded {call : WriteCall} (hw : call.writes = true) (m : Writing σ τ α) :
    Mirrors (recordCall call m) m where
  same _ _ := rfl
  calls t s := by
    refine ⟨[(call, _)], rfl, List.forall_mem_singleton.2 hw, fun a ha => ?_⟩
    have hr : (m.run (t.tx, s)).1 = .ok a := ha
    refine List.forall_mem_singleton.2 ?_
    change succeeded _ (m.run (t.tx, s)).1 = true
    rw [hr]
    rfl

end Mirrors

section
variable (b : Backend σ τ) (chunker : Chunker)

theorem mirrors_writeSymbols (file : FileId) (content : String) (symbols : List Symbol)
    (topLevel : Bool) :
    Mirrors (Prepared.writeSymbols b.recorded chunker file content symbols topLevel)
      (Prepared.writeSymbols b chunker file content symbols topLevel) := by
  unfold Prepared.writeSymbols
  split
  · exact Mirrors.pure 0
  · exact (Mirrors.recorded rfl _).bind fun ids =>
      (Mirrors.recorded rfl _).bind fun _ => Mirrors.pure _

theorem mirrors_refreshFileLevel (file : FileId) (content : String) (symbols : List Symbol) :
    Mirrors (Prepared.refreshFileLevel b.recorded chunker file content symbols)
      (Prepared.refreshFileLevel b chunker file content symbols) := by
  unfold Prepared.refreshFileLevel
  refine (Mirrors.recorded rfl _).bind fun _ => ?_
  dsimp only
  split
  · exact Mirrors.pure 0
  · exact (Mirrors.recorded rfl _).bind fun _ => Mirrors.pure _

theorem mirrors_dropSymbols (ids : List SymbolId) :
    Mirrors (Prepared.dropSymbols b.recorded ids) (Prepared.dropSymbols b ids) := by
  induction ids with
  | nil => exact Mirrors.pure ()
  | cons id ids ih =>
    exact (Mirrors.recorded rfl _).bind fun _ => (Mirrors.recorded rfl _).bind fun _ => ih

/-- **Writing a file** to the recording store records its calls, and answers the same. -/
theorem mirrors_write (f : Prepared) :
    Mirrors (f.write b.recorded chunker) (f.write b chunker) := by
  have hfull : Mirrors (f.writeFull b.recorded chunker) (f.writeFull b chunker) :=
    (Mirrors.recorded rfl _).bind fun file => (Mirrors.recorded rfl _).bind fun _ =>
      mirrors_writeSymbols b chunker file _ _ _
  have hincremental : ∀ previous, Mirrors (f.writeIncremental b.recorded chunker previous)
      (f.writeIncremental b chunker previous) := fun previous =>
    (mirrors_dropSymbols b _).bind fun _ => (mirrors_writeSymbols b chunker _ _ _ _).bind fun _ =>
      (mirrors_refreshFileLevel b chunker _ _ _).bind fun _ =>
        (Mirrors.recorded rfl _).bind fun _ => Mirrors.pure _
  unfold Prepared.write
  cases f.mode with
  | incremental =>
    cases f.previous with
    | none => exact hfull
    | some previous => exact hincremental previous
  | full | skipped => exact hfull

end

/-! ## The same run without a record -/

namespace Table

variable {κ α β : Type}

/-- The table with every value changed. -/
def map (g : α → β) (t : Table κ α) : Table κ β :=
  ⟨t.pairs.map fun p => (p.1, g p.2)⟩

variable [DecidableEq κ]

theorem get?_map (g : α → β) (t : Table κ α) (k : κ) : (t.map g).get? k = (t.get? k).map g := by
  obtain ⟨ps⟩ := t
  change find? k (ps.map fun p => (p.1, g p.2)) = (find? k ps).map g
  induction ps with
  | nil => rfl
  | cons p ps ih =>
    by_cases hp : p.1 = k
    · simp [find?, hp]
    · simp [find?, hp, ih]

theorem map_put (g : α → β) (t : Table κ α) (k : κ) (v : α) :
    (t.put k v).map g = (t.map g).put k (g v) := by
  obtain ⟨ps⟩ := t
  change (⟨(putIn k v ps).map fun p => (p.1, g p.2)⟩ : Table κ β) =
    ⟨putIn k (g v) (ps.map fun p => (p.1, g p.2))⟩
  congr 1
  induction ps with
  | nil => rfl
  | cons p ps ih =>
    by_cases hp : p.1 = k
    · simp [putIn, hp]
    · simp [putIn, hp, ih]

end Table

/-- The same phase with other transactions. -/
def FilePhase.map {τ' : Type} (g : τ → τ') : FilePhase τ → FilePhase τ'
  | .arriving => .arriving
  | .preparing stage => .preparing stage
  | .opening file => .opening file
  | .writing file tx => .writing file (g tx)
  | .committing file tx chunks => .committing file (g tx) chunks
  | .undoing file tx cause => .undoing file (g tx) cause
  | .trimming file chunks => .trimming file chunks
  | .closing outcome => .closing outcome
  | .done outcome => .done outcome

/-- The same phase with other transactions. -/
def BatchPhase.map {τ' : Type} (g : τ → τ') : BatchPhase τ → BatchPhase τ'
  | .arriving todo held report => .arriving todo held report
  | .preparing held slots ready report => .preparing held slots ready report
  | .opening held ready report => .opening held ready report
  | .writing held tx todo index savepoints written report =>
    .writing held (g tx) todo index savepoints written report
  | .undoing held tx report => .undoing held (g tx) report
  | .committing held tx written report => .committing held (g tx) written report
  | .trimming held written report => .trimming held written report
  | .closing held report => .closing held report
  | .done report => .done report

/-- The same request with other transactions. -/
def Request.map {τ' : Type} (g : τ → τ') : Request τ → Request τ'
  | .file path content phase => .file path content (phase.map g)
  | .batch phase => .batch (phase.map g)

namespace Coordinator

/-- The coordinator over the store itself. -/
def forget (b : Backend σ τ) (d : Coordinator σ (Recorded τ)) : Coordinator σ τ where
  backend := b
  settings := d.settings
  chunker := d.chunker
  pool := d.pool
  cache := d.cache
  store := d.store
  leases := d.leases
  tallies := d.tallies
  requests := d.requests.map (Request.map Recorded.tx)
  lastRequest := d.lastRequest

variable {b : Backend σ τ} {d : Coordinator σ (Recorded τ)}

@[simp] theorem backend_forget : (d.forget b).backend = b := rfl

@[simp] theorem chunker_forget : (d.forget b).chunker = d.chunker := rfl

@[simp] theorem store_forget : (d.forget b).store = d.store := rfl

theorem forget_prepare (hb : d.backend = b.recorded) (path content : String) (stage : Stage) :
    (d.forget b).prepare path content stage =
      (d.prepare path content stage).map fun r => (r.1, r.2.forget b) := by
  cases stage with
  | fresh =>
    rcases hf : b.findFile path d.store with ⟨fault | _ | file, store⟩ <;>
      simp [prepare, forget, hb, Backend.recorded, hf]
  | located file =>
    rcases hf : b.findSymbols file.id d.store with ⟨fault | symbols, store⟩ <;>
      simp [prepare, forget, hb, Backend.recorded, hf]
  | loaded prior =>
    by_cases he : prior.previous.map (·.contentHash) =
        some (CacheKey.ofContent path content).hash
    · rw [prepare, prepare, if_pos he, if_pos he]
      rfl
    · rcases hg : d.cache.get d.pool.now (.ofContent path content) with ⟨_ | parsed, cache⟩ <;>
        simp [prepare, forget, now, prepared, he, hg]
  | submitting prior attempt =>
    rcases hs : d.pool.submit path content with error | ⟨ticket, pool⟩ <;>
      simp [prepare, forget, hs]
  | awaiting prior attempt ticket =>
    rcases ho : d.pool.outcome? ticket with _ | outcome <;> simp [prepare, forget, ho]
  | parsed prior attempt result => rfl
  | settled outcome => rfl

theorem forget_turnFile (hb : d.backend = b.recorded) (path content : String)
    (phase : FilePhase (Recorded τ)) :
    (d.forget b).turnFile path content (phase.map Recorded.tx) =
      (d.turnFile path content phase).map fun r => (r.1.map Recorded.tx, r.2.forget b) := by
  cases phase with
  | arriving =>
    by_cases hl : path ∈ d.leases <;>
      simp [turnFile, FilePhase.map, lease?, forget, hl]
  | preparing stage =>
    by_cases hstage : ∀ outcome, stage ≠ .settled outcome
    · rw [FilePhase.map, turnFile_preparing hstage, turnFile_preparing hstage,
        forget_prepare hb, Option.map_map, Option.map_map]
      rfl
    · obtain ⟨outcome, rfl⟩ : ∃ outcome, stage = .settled outcome := by simpa using hstage
      rcases outcome with error | report | file <;> rfl
  | opening file =>
    by_cases hfree : b.free d.store = true
    · rcases ho : b.openTransaction d.store with ⟨fault | tx, store⟩ <;>
        simp [turnFile, FilePhase.map, forget, hb, Backend.recorded, hfree, ho, Except.map]
    · simp [turnFile, FilePhase.map, forget, hb, Backend.recorded, hfree]
  | writing file tx =>
    have hsame := (mirrors_write b d.chunker file).same tx d.store
    rcases hw : (file.write b.recorded d.chunker).run (tx, d.store) with
      ⟨fault | chunks, tx', store⟩ <;>
      rw [hw] at hsame <;> simp [turnFile, FilePhase.map, forget, hb, hw, hsame]
  | committing file tx chunks =>
    rcases hc : b.commit tx.tx d.store with ⟨fault | _, store⟩ <;>
      simp [turnFile, FilePhase.map, forget, hb, Backend.recorded, hc]
  | undoing file tx cause => simp [turnFile, FilePhase.map, forget, hb, Backend.recorded]
  | trimming file chunks => rfl
  | closing outcome => rfl
  | done outcome => rfl

theorem forget_markFile (hb : d.backend = b.recorded) (savepoints : Bool) (index : Nat)
    (t : Recorded τ) (s : σ) :
    (d.forget b).markFile savepoints index (t.tx, s) =
      ((d.markFile savepoints index (t, s)).1, (d.markFile savepoints index (t, s)).2.1.tx,
        (d.markFile savepoints index (t, s)).2.2) := by
  cases savepoints with
  | false => rfl
  | true =>
    have hsame : (b.savepoint (savepointName index)).run (t.tx, s) =
        (((b.recorded.savepoint (savepointName index)).run (t, s)).1,
          ((b.recorded.savepoint (savepointName index)).run (t, s)).2.1.tx,
          ((b.recorded.savepoint (savepointName index)).run (t, s)).2.2) := rfl
    rcases hm : (b.recorded.savepoint (savepointName index)).run (t, s) with
      ⟨fault | supported, t', s'⟩ <;>
      rw [hm] at hsame <;> simp [markFile, forget, hb, hm, hsame]

theorem forget_writeNext (hb : d.backend = b.recorded) (held : List String) (t : Recorded τ)
    (file : Prepared) (rest : List Prepared) (index : Nat) (savepoints : Bool)
    (written : List (Prepared × Nat)) (report : BatchReport) :
    (d.forget b).writeNext held t.tx file rest index savepoints written report =
      ((d.writeNext held t file rest index savepoints written report).1.map Recorded.tx,
        (d.writeNext held t file rest index savepoints written report).2.forget b) := by
  have hmark := forget_markFile hb savepoints index t d.store
  rcases hm : d.markFile savepoints index (t, d.store) with ⟨marked, t₁, s₁⟩
  rw [hm] at hmark
  have hwrite := (mirrors_write b d.chunker file).same t₁ s₁
  rcases hw : (file.write b.recorded d.chunker).run (t₁, s₁) with ⟨fault | chunks, t₂, s₂⟩
  · rw [hw] at hwrite
    cases marked with
    | false =>
      simp [writeNext, hmark, hm, hb, hw, hwrite, BatchPhase.map]
      rfl
    | true =>
      have hback : (b.rollbackTo (savepointName index)).run (t₂.tx, s₂) =
          (((b.recorded.rollbackTo (savepointName index)).run (t₂, s₂)).1,
            ((b.recorded.rollbackTo (savepointName index)).run (t₂, s₂)).2.1.tx,
            ((b.recorded.rollbackTo (savepointName index)).run (t₂, s₂)).2.2) := rfl
      rcases hr : (b.recorded.rollbackTo (savepointName index)).run (t₂, s₂) with
        ⟨cause | _, t₃, s₃⟩ <;> rw [hr] at hback <;>
        simp [writeNext, hmark, hm, hb, hw, hwrite, hr, hback, BatchPhase.map] <;> rfl
  · rw [hw] at hwrite
    simp [writeNext, hmark, hm, hb, hw, hwrite, BatchPhase.map]
    rfl

theorem forget_trims (written : List (Prepared × Nat)) (d : Coordinator σ (Recorded τ)) :
    written.foldl (fun c w => c.trim w.1) (d.forget b) =
      (written.foldl (fun d w => d.trim w.1) d).forget b := by
  induction written generalizing d with
  | nil => rfl
  | cons w written ih => exact ih (d.trim w.1)

theorem forget_turnBatch (hb : d.backend = b.recorded) (place : Nat)
    (phase : BatchPhase (Recorded τ)) :
    (d.forget b).turnBatch place (phase.map Recorded.tx) =
      (d.turnBatch place phase).map fun r => (r.1.map Recorded.tx, r.2.forget b) := by
  cases phase with
  | arriving todo held report =>
    cases todo with
    | nil => rfl
    | cons entry todo =>
      by_cases hl : entry.1 ∈ d.leases <;>
        simp [turnBatch, BatchPhase.map, lease?, forget, hl]
  | preparing held slots ready report =>
    cases slots with
    | nil => cases ready <;> rfl
    | cons slot slots =>
      rw [BatchPhase.map, turnBatch, turnBatch]
      rcases pick (slot :: slots) place with _ | ⟨before, slot', after⟩
      · rfl
      dsimp only
      cases hst : slot'.stage with
      | settled outcome => rcases outcome with error | file | file <;> rfl
      | _ =>
        dsimp only
        rw [forget_prepare hb, Option.map_map, Option.map_map]
        rfl
      all_goals exact List.cons_ne_nil _ _
  | opening held ready report =>
    by_cases hfree : b.free d.store = true
    · rcases ho : b.openTransaction d.store with ⟨fault | tx, store⟩ <;>
        simp [turnBatch, BatchPhase.map, forget, hb, Backend.recorded, hfree, ho, Except.map]
    · simp [turnBatch, BatchPhase.map, forget, hb, Backend.recorded, hfree]
  | writing held tx todo index savepoints written report =>
    cases todo with
    | nil => rfl
    | cons file rest =>
      rw [BatchPhase.map, turnBatch, turnBatch, forget_writeNext hb]
      rfl
  | undoing held tx report => simp [turnBatch, BatchPhase.map, forget, hb, Backend.recorded]
  | committing held tx written report =>
    rcases hc : b.commit tx.tx d.store with ⟨fault | _, store⟩ <;>
      simp [turnBatch, BatchPhase.map, forget, hb, Backend.recorded, hc]
  | trimming held written report =>
    rw [BatchPhase.map, turnBatch, turnBatch, forget_trims]
    rfl
  | closing held report => rfl
  | done report => rfl

theorem forget_turn (hb : d.backend = b.recorded) (t : Turn) :
    (d.forget b).turn t = (d.turn t).map (forget b) := by
  have hget : (d.forget b).requests.get? t.request =
      (d.requests.get? t.request).map (Request.map Recorded.tx) := Table.get?_map _ _ _
  rw [turn, turn, hget]
  rcases d.requests.get? t.request with _ | ⟨path, content, phase⟩ | phase
  · rfl
  · simp only [Option.map_some, Request.map]
    rw [forget_turnFile hb, Option.map_map, Option.map_map]
    congr 1
    funext r
    simp [forget, Table.map_put, Request.map]
  · simp only [Option.map_some, Request.map]
    rw [forget_turnBatch hb, Option.map_map, Option.map_map]
    congr 1
    funext r
    simp [forget, Table.map_put, Request.map]

theorem forget_receive (r : Request (Recorded τ)) :
    ((d.forget b).receive (r.map Recorded.tx)).2 = (d.receive r).2.forget b := by
  simp [receive, forget, Table.map_put]

/-- An event does the same with and without a record. -/
theorem forget_meet (hb : d.backend = b.recorded) (e : Event σ) :
    (d.forget b).meet e = (d.meet e).map (forget b) := by
  cases e with
  | shift store => rfl
  | act action =>
    cases action with
    | index path content => exact congrArg some (forget_receive (.ofFile path content))
    | batch files => exact congrArg some (forget_receive (.ofFiles files))
    | turn t => exact forget_turn hb t
    | pool action =>
      cases action with
      | submit | drop => rfl
      | _ =>
        simp only [meet, act, Option.map_map]
        rfl
    | invalidate path => rfl
    | clearCache =>
      by_cases hdown : d.pool.isShutDown = true <;> simp [meet, act, forget, hdown]

/-- **The calls of any run can be recorded**: over the recording store the same events lead
    to the same coordinator, but for the record. -/
theorem forget_after (hb : d.backend = b.recorded) (es : List (Event σ)) :
    (d.forget b).after es = (d.after es).map (forget b) := by
  induction es generalizing d with
  | nil => rfl
  | cons e es ih =>
    rw [after, after, forget_meet hb]
    cases hm : d.meet e with
    | none => rfl
    | some d₁ => exact ih ((change_of_meet hm).setup.1.trans hb)

theorem forget_start {settings : Settings} {chunker : Option Chunker} {store : σ}
    {starts : StartPlan} {c₀ : Coordinator σ τ}
    (h : start b settings chunker store starts = .ok c₀) :
    ∃ d₀, start b.recorded settings chunker store starts = .ok d₀ ∧ d₀.forget b = c₀ := by
  unfold start at h ⊢
  cases hs : settings.check with
  | error fault => rw [hs] at h; cases h
  | ok settings' =>
    rw [hs] at h
    dsimp only [bind, Except.bind] at h ⊢
    cases hp : Pool.start settings'.pool starts with
    | error error => rw [hp] at h; cases h
    | ok pool =>
      rw [hp] at h
      cases h
      exact ⟨_, rfl, rfl⟩

end Coordinator

end SourceIndex
