/-
  How a file is written.

  The calls that write a file change the working copy of a transaction and
  nothing else, and each of them may fail.  If none fails, the working copy is
  changed as plain functions on rows say.

  * `Carries m needs change`: the computation `m` inside a transaction carries out
    `change` on its rows, or fails; on a store without faults it succeeds, given what
    it `needs` of the paths that cannot be written and of the rows;
  * `Prepared.rowsAfter`: the rows after a file is written;
  * `carries_write`: what writing a file does;
  * `notMem_rejected_of_write`: a file is only written if its path can be.
-/
import SourceIndex.Proofs.Rows

namespace SourceIndex

variable {s : FaultyStore}

theorem FaultyStore.trip_of_no_faults (h : s.faults = []) (call : StoreCall) :
    s.trip call = (none, s) := by
  unfold trip
  rw [h]
  simp only [StoreFault.trip, Option.map_none, ← h]

/-- An operation of a transaction fails and leaves the transaction as it is, or does
    what it says. -/
theorem FaultyStore.within_spec {α : Type} {call : StoreCall}
    {op : WriteRules → Transaction → Except Fault (α × Transaction)} {tx tx' : Transaction}
    {s' : FaultyStore} {r : Except Fault α} (h : (within call op).run (tx, s) = (r, tx', s')) :
    s'.store = s.store ∧ ((∃ fault, r = .error fault ∧ tx' = tx) ∨
      ∃ a, r = .ok a ∧ op s.store.rules tx = .ok (a, tx')) := by
  have hs : (s.trip call).2.store = s.store := rfl
  dsimp only [within, ExceptT.run] at h
  rcases ht : s.trip call with ⟨_ | fault, s''⟩
  · rw [ht] at h hs
    rw [← hs]
    dsimp only at h
    cases ho : op s''.store.rules tx with
    | error fault =>
      rw [ho] at h
      cases h
      exact ⟨rfl, Or.inl ⟨fault, rfl, rfl⟩⟩
    | ok value =>
      rw [ho] at h
      cases h
      exact ⟨rfl, Or.inr ⟨_, rfl, rfl⟩⟩
  · rw [ht] at h hs
    cases h
    exact ⟨hs, Or.inl ⟨fault, rfl, rfl⟩⟩

/-- The computation carries out a change of the rows or fails.  It leaves the
    savepoints and, faults apart, the store as they are, and on a store without faults it
    succeeds, given what it needs. -/
structure Carries {α : Type} (m : Writing FaultyStore Transaction α)
    (needs : List String → Rows → Prop) (change : Rows → α × Rows) : Prop where
  savepoints : ∀ tx s, (m.run (tx, s)).2.1.savepoints = tx.savepoints
  store : ∀ tx s, (m.run (tx, s)).2.2.store = s.store
  working : ∀ {tx s a}, (m.run (tx, s)).1 = .ok a →
    (a, (m.run (tx, s)).2.1.working) = change tx.working
  faultless : ∀ tx {s}, s.faults = [] → (m.run (tx, s)).2.2 = s
  succeeds : ∀ {tx s}, s.faults = [] → needs s.store.rules.rejected tx.working →
    m.run (tx, s) =
      (.ok (change tx.working).1, ({ tx with working := (change tx.working).2 }, s))

namespace Carries

variable {α β : Type} {m : Writing FaultyStore Transaction α}
  {needs : List String → Rows → Prop} {change : Rows → α × Rows}

theorem run_bind {σ τ : Type} (m : Writing σ τ α) (k : α → Writing σ τ β) (state : τ × σ) :
    (m >>= k).run state =
      match m.run state with
      | (.ok a, state) => (k a).run state
      | (.error fault, state) => (.error fault, state) := by
  simp only [ExceptT.run, Bind.bind, ExceptT.bind, ExceptT.mk, StateT.bind, ExceptT.bindCont]
  cases m state with
  | mk outcome state => cases outcome <;> rfl

theorem pure (a : α) : Carries (Pure.pure a) (fun _ _ => True) fun rows => (a, rows) where
  savepoints _ _ := rfl
  store _ _ := rfl
  working h := by cases h; rfl
  faultless _ _ _ := rfl
  succeeds _ _ := rfl

theorem bind (hm : Carries m needs change) {k : α → Writing FaultyStore Transaction β}
    {needs' : α → List String → Rows → Prop} {change' : α → Rows → β × Rows}
    (hk : ∀ a, Carries (k a) (needs' a) (change' a)) :
    Carries (m >>= k)
      (fun rejected rows => needs rejected rows ∧
        needs' (change rows).1 rejected (change rows).2)
      fun rows => change' (change rows).1 (change rows).2 where
  savepoints tx s := by
    rw [run_bind]
    have hs := hm.savepoints tx s
    cases hr : m.run (tx, s) with
    | mk r state =>
      rw [hr] at hs
      cases r with
      | error fault => exact hs
      | ok a => exact ((hk a).savepoints state.1 state.2).trans hs
  store tx s := by
    rw [run_bind]
    have hs := hm.store tx s
    cases hr : m.run (tx, s) with
    | mk r state =>
      rw [hr] at hs
      cases r with
      | error fault => exact hs
      | ok a => exact ((hk a).store state.1 state.2).trans hs
  working {tx s b} := by
    rw [run_bind]
    have hw := @hm.working tx s
    cases hr : m.run (tx, s) with
    | mk r state =>
      rw [hr] at hw
      cases r with
      | error fault => intro h; cases h
      | ok a =>
        intro h
        rw [← hw rfl]
        exact @Carries.working _ _ _ _ (hk a) state.1 state.2 b h
  faultless tx s hf := by
    rw [run_bind]
    have hs := hm.faultless tx hf
    cases hr : m.run (tx, s) with
    | mk r state =>
      rw [hr] at hs
      cases r with
      | error fault => exact hs
      | ok a => exact ((hk a).faultless state.1 (hs ▸ hf)).trans hs
  succeeds {tx s} hf hn := by
    rw [run_bind, hm.succeeds hf hn.1]
    exact (hk _).succeeds hf hn.2

theorem weaken (hm : Carries m needs change) {needs' : List String → Rows → Prop}
    {change' : Rows → α × Rows} (hn : ∀ rejected rows, needs' rejected rows → needs rejected rows)
    (hc : ∀ rows, change rows = change' rows) : Carries m needs' change' :=
  { hm with
    working := fun h => (hm.working h).trans (hc _)
    succeeds := fun hf h => by rw [← hc]; exact hm.succeeds hf (hn _ _ h) }

/-- An operation of a transaction carries out what it does if no check fails. -/
theorem within (call : StoreCall)
    {op : WriteRules → Transaction → Except Fault (α × Transaction)}
    (hop : ∀ {rules tx r}, op rules tx = .ok r →
      r = ((change tx.working).1, { tx with working := (change tx.working).2 }))
    (hok : ∀ {rules tx}, needs rules.rejected tx.working → ∃ r, op rules tx = .ok r) :
    Carries (FaultyStore.within call op) needs change := by
  constructor
  · intro tx s
    rcases hm : (FaultyStore.within call op).run (tx, s) with ⟨r, tx', s'⟩
    obtain ⟨-, ⟨fault, -, rfl⟩ | ⟨a, -, ho⟩⟩ := FaultyStore.within_spec hm
    · rfl
    · exact congrArg (·.2.savepoints) (hop ho)
  · intro tx s
    rcases hm : (FaultyStore.within call op).run (tx, s) with ⟨r, tx', s'⟩
    exact (FaultyStore.within_spec hm).1
  · intro tx s a
    rcases hm : (FaultyStore.within call op).run (tx, s) with ⟨r, tx', s'⟩
    obtain ⟨-, ⟨fault, rfl, -⟩ | ⟨b, rfl, ho⟩⟩ := FaultyStore.within_spec hm
    · intro h
      cases h
    · intro h
      cases h
      exact congrArg (fun r => (r.1, r.2.working)) (hop ho)
  · intro tx s hf
    simp only [FaultyStore.within, ExceptT.run, FaultyStore.trip_of_no_faults hf]
    cases op s.store.rules tx <;> rfl
  · intro tx s hf hn
    obtain ⟨r, ho⟩ := hok hn
    simp only [FaultyStore.within, ExceptT.run, FaultyStore.trip_of_no_faults hf, ho]
    rw [hop ho]

theorem run_spec (hm : Carries m needs change) {tx tx' : Transaction} {s' : FaultyStore}
    {r : Except Fault α} (h : m.run (tx, s) = (r, tx', s')) :
    tx'.savepoints = tx.savepoints ∧ s'.store = s.store ∧
      ∀ a, r = .ok a → (a, tx'.working) = change tx.working := by
  have h₁ := hm.savepoints tx s
  have h₂ := hm.store tx s
  have h₃ := @Carries.working _ _ _ _ hm tx s
  rw [h] at h₁ h₂ h₃
  exact ⟨h₁, h₂, fun a ha => h₃ ha⟩

end Carries

/-! ## The calls of the store in memory -/

section
open FaultyStore

variable {rules : WriteRules} {tx : Transaction} {file : FileId}

theorem checkPath_ok_iff {path : String} :
    Transaction.checkPath rules path = .ok () ↔ path ∉ rules.rejected := by
  rw [Transaction.checkPath, List.contains_eq_mem]
  by_cases h : path ∈ rules.rejected <;> simp [h]

/-- The file is stored, and its rows can be written. -/
def Rows.Admits (file : FileId) (rejected : List String) (rows : Rows) : Prop :=
  ∃ record, rows.files.get? file = some record ∧ record.path ∉ rejected

theorem checkFile_ok (hf : tx.working.Admits file rules.rejected) :
    Transaction.checkFile rules tx file = .ok () := by
  obtain ⟨record, hg, hr⟩ := hf
  rw [Transaction.checkFile, hg]
  exact checkPath_ok_iff.2 hr

theorem carries_upsertFile (path content : String) :
    Carries (backend.upsertFile path content) (fun rejected _ => path ∉ rejected)
      (·.upsertFile path content) := by
  change Carries (within .upsertFile fun rules tx => tx.upsertFile rules path content) _ _
  refine .within _ (fun {rules tx r} h => ?_) fun hr => ?_
  · simp only [Transaction.upsertFile, bind, Except.bind, pure, Except.pure] at h
    split at h <;> cases h
    rfl
  · simp [Transaction.upsertFile, checkPath_ok_iff.2 hr, bind, Except.bind, pure, Except.pure]

theorem carries_insertSymbols (file : FileId) (ss : List Symbol) :
    Carries (backend.insertSymbols file ss) (Rows.Admits file) (·.insertSymbols file ss) := by
  change Carries (within .insertSymbols fun rules tx => tx.insertSymbols rules file ss) _ _
  refine .within _ (fun {rules tx r} h => ?_) fun hf => ?_
  · simp only [Transaction.insertSymbols, bind, Except.bind, pure, Except.pure] at h
    split at h <;> cases h
    rfl
  · simp [Transaction.insertSymbols, checkFile_ok hf, bind, Except.bind, pure, Except.pure]

theorem carries_deleteSymbol (id : SymbolId) :
    Carries (backend.deleteSymbol id) (fun _ _ => True)
      fun rows => ((), rows.deleteSymbol id) := by
  change Carries (within .deleteSymbol fun _ tx => .ok ((), tx.deleteSymbol id)) _ _
  exact .within _ (fun h => (Except.ok.inj h).symm) fun _ => ⟨_, rfl⟩

theorem carries_deleteChunks (id : SymbolId) :
    Carries (backend.deleteChunks id) (fun _ _ => True)
      fun rows => ((), rows.deleteChunks id) := by
  change Carries (within .deleteChunks fun _ tx => .ok ((), tx.deleteChunks id)) _ _
  exact .within _ (fun h => (Except.ok.inj h).symm) fun _ => ⟨_, rfl⟩

theorem carries_checked (call : StoreCall) {change : Rows → Rows}
    {op : WriteRules → Transaction → Except Fault Transaction} {holds : Prop}
    (hop : ∀ {rules tx}, op rules tx = .ok { tx with working := change tx.working } ∨
      ∃ fault, op rules tx = .error fault)
    (hok : ∀ {rules tx}, holds → Transaction.checkFile rules tx file = .ok () →
      ∃ tx', op rules tx = .ok tx') :
    Carries (within call fun rules tx => unit (op rules tx))
      (fun rejected rows => holds ∧ rows.Admits file rejected) fun rows => ((), change rows) := by
  refine .within _ (fun {rules tx r} h => ?_) fun {rules tx} hf => ?_
  · rcases @hop rules tx with ho | ⟨fault, ho⟩
    · rw [ho] at h
      exact (Except.ok.inj h).symm
    · rw [ho] at h
      cases h
  · obtain ⟨tx', ho⟩ := hok hf.1 (checkFile_ok hf.2)
    exact ⟨((), tx'), by rw [ho]; rfl⟩

theorem carries_deleteContents (file : FileId) :
    Carries (backend.deleteContents file)
      (fun rejected rows => True ∧ rows.Admits file rejected)
      fun rows => ((), rows.deleteContents file) := by
  change Carries (within .deleteContents fun rules tx => unit (tx.deleteContents rules file)) _ _
  refine carries_checked .deleteContents (fun {rules tx} => ?_) fun {rules tx} _ h => ?_
  · unfold Transaction.deleteContents
    cases Transaction.checkFile rules tx file
    · exact Or.inr ⟨_, rfl⟩
    · exact Or.inl rfl
  · rw [Transaction.deleteContents, h]
    exact ⟨_, rfl⟩

theorem carries_deleteFileLevel (file : FileId) :
    Carries (backend.deleteFileLevel file)
      (fun rejected rows => True ∧ rows.Admits file rejected)
      fun rows => ((), rows.deleteFileLevel file) := by
  change Carries (within .deleteFileLevel fun rules tx => unit (tx.deleteFileLevel rules file)) _ _
  refine carries_checked .deleteFileLevel (fun {rules tx} => ?_) fun {rules tx} _ h => ?_
  · unfold Transaction.deleteFileLevel
    cases Transaction.checkFile rules tx file
    · exact Or.inr ⟨_, rfl⟩
    · exact Or.inl rfl
  · rw [Transaction.deleteFileLevel, h]
    exact ⟨_, rfl⟩

theorem carries_insertChunks (file : FileId) (chunks : List Chunk)
    (owners : List (Option SymbolId)) :
    Carries (backend.insertChunks file chunks owners)
      (fun rejected rows => chunks.length = owners.length ∧ rows.Admits file rejected)
      fun rows => ((), rows.insertChunks file (chunks.zip owners)) := by
  change Carries (within .insertChunks fun rules tx =>
    unit (tx.insertChunks rules file chunks owners)) _ _
  refine carries_checked .insertChunks (fun {rules tx} => ?_) fun {rules tx} hl h => ?_
  · unfold Transaction.insertChunks
    cases Transaction.checkFile rules tx file with
    | error fault => exact Or.inr ⟨_, rfl⟩
    | ok =>
      by_cases hl : chunks.length = owners.length
      · exact Or.inl (by simp [hl, bind, Except.bind, pure, Except.pure])
      · exact Or.inr ⟨_, by simp [hl, bind, Except.bind, throw, throwThe, MonadExceptOf.throw]; rfl⟩
  · rw [Transaction.insertChunks, h]
    exact ⟨_, by simp [hl, bind, Except.bind, pure, Except.pure]; rfl⟩

end

/-! ## Writing a file -/

namespace Prepared

variable (chunker : Chunker) {tx tx' : Transaction} {s' : FaultyStore}

/-- The rows after symbols and their chunks are written; the number of chunks. -/
def symbolRows (file : FileId) (content : String) (symbols : List Symbol) (topLevel : Bool)
    (rows : Rows) : Nat × Rows :=
  if symbols.isEmpty && !topLevel then (0, rows)
  else
    let chunks := (chunker content symbols).filter fun c => topLevel || c.symbolIndex.isSome
    let owners := chunks.map fun c => c.symbolIndex.bind fun i =>
      (rows.insertSymbols file symbols).1[i]?
    (chunks.length, (rows.insertSymbols file symbols).2.insertChunks file (chunks.zip owners))

/-- The rows after the chunks outside every symbol are written anew; their number. -/
def fileLevelRows (file : FileId) (content : String) (symbols : List Symbol) (rows : Rows) :
    Nat × Rows :=
  let chunks := (chunker content symbols).filter (·.symbolIndex.isNone)
  (chunks.length,
    (rows.deleteFileLevel file).insertChunks file (chunks.zip (chunks.map fun _ => none)))

/-- The rows after the changed symbols of a file are written; the number of chunks. -/
def incrementalRows (f : Prepared) (previous : FileRecord) (rows : Rows) : Nat × Rows :=
  let owned := symbolRows chunker previous.id f.content (f.diff.added ++ f.diff.modified) false
    (rows.dropAll (f.diff.affectedIds ++ f.diff.replacedIds))
  let loose := fileLevelRows chunker previous.id f.content f.parsed.symbols owned.2
  (owned.1 + loose.1, (loose.2.upsertFile f.path f.content).2)

/-- The rows after all of a file is written anew; the number of chunks. -/
def fullRows (f : Prepared) (rows : Rows) : Nat × Rows :=
  let stored := rows.upsertFile f.path f.content
  symbolRows chunker stored.1 f.content f.parsed.symbols true (stored.2.deleteContents stored.1)

/-- The rows after a file is written; the number of chunks. -/
def written (f : Prepared) (rows : Rows) : Nat × Rows :=
  match f.mode, f.previous with
  | .incremental, some previous => f.incrementalRows chunker previous rows
  | _, _ => f.fullRows chunker rows

/-- The rows after a file is written. -/
def rowsAfter (f : Prepared) (rows : Rows) : Rows := (f.written chunker rows).2

theorem carries_writeSymbols (file : FileId) (content : String) (symbols : List Symbol)
    (topLevel : Bool) :
    Carries (writeSymbols FaultyStore.backend chunker file content symbols topLevel)
      (Rows.Admits file) (symbolRows chunker file content symbols topLevel) := by
  unfold writeSymbols symbolRows
  split
  · exact (Carries.pure 0).weaken (fun _ _ _ => trivial) fun _ => rfl
  · refine ((carries_insertSymbols file symbols).bind fun ids =>
      (carries_insertChunks file _ _).bind fun _ => Carries.pure _).weaken
        (fun rejected rows hf => ⟨hf, ⟨by simp, ?_⟩, trivial⟩) fun _ => rfl
    rw [Rows.Admits, (Rows.insertSymbols_files rows file symbols).1]
    exact hf

theorem carries_refreshFileLevel (file : FileId) (content : String) (symbols : List Symbol) :
    Carries (refreshFileLevel FaultyStore.backend chunker file content symbols)
      (Rows.Admits file) (fileLevelRows chunker file content symbols) := by
  unfold refreshFileLevel fileLevelRows
  generalize (chunker content symbols).filter (·.symbolIndex.isNone) = chunks
  have hinsert : Carries
      (if chunks.isEmpty then pure 0
        else do
          FaultyStore.backend.insertChunks file chunks (chunks.map fun _ => none)
          pure chunks.length)
      (Rows.Admits file)
      fun rows => (chunks.length,
        rows.insertChunks file (chunks.zip (chunks.map fun _ => none))) := by
    split
    · rename_i he
      rw [List.isEmpty_iff] at he
      subst he
      exact (Carries.pure 0).weaken (fun _ _ _ => trivial) fun _ => rfl
    · exact ((carries_insertChunks file _ _).bind fun _ => Carries.pure _).weaken
        (fun rejected rows hf => ⟨⟨by simp, hf⟩, trivial⟩) fun _ => rfl
  exact ((carries_deleteFileLevel file).bind fun _ => hinsert).weaken
    (fun rejected rows hf => ⟨⟨trivial, hf⟩, hf⟩) fun _ => rfl

theorem carries_dropSymbols (ids : List SymbolId) :
    Carries (dropSymbols FaultyStore.backend ids) (fun _ _ => True)
      fun rows => ((), rows.dropAll ids) := by
  induction ids with
  | nil => exact Carries.pure ()
  | cons id ids ih =>
    have hone := (carries_deleteChunks id).bind fun _ => (carries_deleteSymbol id).bind fun _ => ih
    exact hone.weaken (fun _ _ _ => ⟨trivial, trivial, trivial⟩) fun _ => rfl

theorem symbolRows_files (file : FileId) (content : String) (symbols : List Symbol)
    (topLevel : Bool) (rows : Rows) :
    (symbolRows chunker file content symbols topLevel rows).2.files = rows.files ∧
      (symbolRows chunker file content symbols topLevel rows).2.paths = rows.paths := by
  unfold symbolRows
  split
  · exact ⟨rfl, rfl⟩
  · obtain ⟨h₁, h₂⟩ := Rows.insertChunks_files (rows.insertSymbols file symbols).2 file _
    obtain ⟨h₃, h₄⟩ := Rows.insertSymbols_files rows file symbols
    exact ⟨h₁.trans h₃, h₂.trans h₄⟩

theorem fileLevelRows_files (file : FileId) (content : String) (symbols : List Symbol)
    (rows : Rows) :
    (fileLevelRows chunker file content symbols rows).2.files = rows.files ∧
      (fileLevelRows chunker file content symbols rows).2.paths = rows.paths :=
  Rows.insertChunks_files (rows.deleteFileLevel file) file _

theorem carries_writeIncremental (f : Prepared) (previous : FileRecord) :
    Carries (f.writeIncremental FaultyStore.backend chunker previous)
      (fun rejected rows => f.path ∉ rejected ∧ rows.Admits previous.id rejected)
      (f.incrementalRows chunker previous) := by
  refine ((carries_dropSymbols _).bind fun _ => (carries_writeSymbols chunker _ _ _ _).bind fun _ =>
    (carries_refreshFileLevel chunker _ _ _).bind fun _ => (carries_upsertFile _ _).bind fun _ =>
      Carries.pure _).weaken (fun rejected rows hf => ⟨trivial, ?_, ?_, hf.1, trivial⟩)
        fun _ => rfl
  · rw [Rows.Admits, (rows.dropAll_files _).1]
    exact hf.2
  · rw [Rows.Admits, (symbolRows_files chunker _ _ _ _ _).1, (rows.dropAll_files _).1]
    exact hf.2

theorem carries_writeFull (f : Prepared) :
    Carries (f.writeFull FaultyStore.backend chunker)
      (fun rejected rows => f.path ∉ rejected ∧ (rows.upsertFile f.path f.content).2.Admits
        (rows.upsertFile f.path f.content).1 rejected) (f.fullRows chunker) :=
  ((carries_upsertFile _ _).bind fun file => (carries_deleteContents file).bind fun _ =>
    carries_writeSymbols chunker file _ _ _).weaken
      (fun _ _ hf => ⟨hf.1, ⟨trivial, hf.2⟩, hf.2⟩) fun _ => rfl

theorem mode_ne_skipped (f : Prepared) : f.mode ≠ .skipped := by
  unfold mode
  split <;> exact nofun

theorem write_cases (f : Prepared) :
    (∃ previous, f.previous = some previous ∧
      f.write FaultyStore.backend chunker =
        f.writeIncremental FaultyStore.backend chunker previous ∧
      f.written chunker = f.incrementalRows chunker previous) ∨
    f.write FaultyStore.backend chunker = f.writeFull FaultyStore.backend chunker ∧
      f.written chunker = f.fullRows chunker := by
  unfold write written
  cases f.mode <;> cases f.previous <;> simp

theorem written_fst (f : Prepared) (rows rows' : Rows) :
    (f.written chunker rows).1 = (f.written chunker rows').1 := by
  have hsymbols : ∀ (file file' : FileId) (symbols : List Symbol) (topLevel : Bool)
      (rows rows' : Rows), (symbolRows chunker file f.content symbols topLevel rows).1 =
        (symbolRows chunker file' f.content symbols topLevel rows').1 := by
    intro file file' symbols topLevel rows rows'
    unfold symbolRows
    split <;> rfl
  rcases f.write_cases chunker with ⟨previous, -, -, he⟩ | ⟨-, he⟩
  · rw [he]
    exact congrArg (· + _) (hsymbols _ _ _ _ _ _)
  · rw [he]
    exact hsymbols _ _ _ _ _ _

/-- **Writing a file** carries out `written` or fails.  It succeeds on a store without
    faults if its path can be written and the file that it was compared with is
    stored. -/
theorem carries_write (f : Prepared) :
    Carries (f.write FaultyStore.backend chunker)
      (fun rejected rows => rows.WellFormed ∧ f.path ∉ rejected ∧
        ∀ previous, f.previous = some previous → rows.file? f.path = some previous)
      (f.written chunker) := by
  rcases f.write_cases chunker with ⟨previous, hp, hwrite, hwritten⟩ | ⟨hwrite, hwritten⟩
  · rw [hwrite, hwritten]
    refine (f.carries_writeIncremental chunker previous).weaken
      (fun rejected rows ⟨hw, hr, hstored⟩ => ⟨hr, previous, ?_⟩) fun _ => rfl
    obtain ⟨hpath, -, hget, -⟩ := hw.file? (hstored previous hp)
    exact ⟨hget, hpath ▸ hr⟩
  · rw [hwrite, hwritten]
    refine (f.carries_writeFull chunker).weaken
      (fun rejected rows ⟨hw, hr, _⟩ => ⟨hr, ?_⟩) fun _ => rfl
    exact ⟨_, ((hw.upsertFile f.path f.content).file?
      (Rows.file?_upsertFile_self hw f.path f.content)).2.2.1, hr⟩

/-- A computation of two parts that succeeds does so in both. -/
theorem run_bind_ok {α β : Type} {m : Writing FaultyStore Transaction α}
    {k : α → Writing FaultyStore Transaction β} {state state' : Transaction × FaultyStore} {b : β}
    (h : (m >>= k).run state = (.ok b, state')) :
    ∃ a state₁, m.run state = (.ok a, state₁) ∧ (k a).run state₁ = (.ok b, state') := by
  rw [Carries.run_bind] at h
  rcases hm : m.run state with ⟨fault | a, state₁⟩
  · rw [hm] at h
    cases h
  · rw [hm] at h
    exact ⟨a, state₁, rfl, h⟩

theorem notMem_rejected_of_upsertFile {path content : String} {file : FileId}
    (h : (FaultyStore.backend.upsertFile path content).run (tx, s) = (.ok file, tx', s')) :
    path ∉ s.store.rules.rejected := by
  change (FaultyStore.within .upsertFile fun rules tx =>
    tx.upsertFile rules path content).run (tx, s) = _ at h
  obtain ⟨-, ⟨fault, he, -⟩ | ⟨a, -, hop⟩⟩ := FaultyStore.within_spec h
  · cases he
  · refine checkPath_ok_iff.1 ?_
    simp only [Transaction.upsertFile, bind, Except.bind] at hop
    split at hop
    · cases hop
    · assumption

/-- A file is only written if its path can be. -/
theorem notMem_rejected_of_write {f : Prepared} {chunks : Nat}
    (h : (f.write FaultyStore.backend chunker).run (tx, s) = (.ok chunks, tx', s')) :
    f.path ∉ s.store.rules.rejected := by
  rcases f.write_cases chunker with ⟨previous, -, hwrite, -⟩ | ⟨hwrite, -⟩
  · rw [hwrite] at h
    obtain ⟨_, ⟨tx₁, s₁⟩, h₁, h⟩ := run_bind_ok h
    obtain ⟨_, ⟨tx₂, s₂⟩, h₂, h⟩ := run_bind_ok h
    obtain ⟨_, ⟨tx₃, s₃⟩, h₃, h⟩ := run_bind_ok h
    obtain ⟨_, ⟨tx₄, s₄⟩, h₄, -⟩ := run_bind_ok h
    have hs₁ := ((carries_dropSymbols _).run_spec h₁).2.1
    have hs₂ := ((carries_writeSymbols chunker _ _ _ _).run_spec h₂).2.1
    have hs₃ := ((carries_refreshFileLevel chunker _ _ _).run_spec h₃).2.1
    rw [← hs₁, ← hs₂, ← hs₃]
    exact notMem_rejected_of_upsertFile h₄
  · rw [hwrite] at h
    obtain ⟨_, ⟨tx₁, s₁⟩, h₁, -⟩ := run_bind_ok h
    exact notMem_rejected_of_upsertFile h₁

end Prepared

end SourceIndex
