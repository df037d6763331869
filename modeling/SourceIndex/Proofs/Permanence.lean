/-
  Numbers of rows are permanent.

  * `StoreSession.after`: the session after some operations;
  * `Transaction.Step`: what an operation of a transaction that succeeds can do: write
    to the working copy, remember it, or return to a copy that was remembered;
  * `Rows.Precedes`: rows after which numbers keep their meaning: a number that was
    handed out before stands for the same row or for none;
  * `StoreSession.Anchored`: every copy of the rows that a transaction holds comes
    after the committed rows.  The copies need not come after each other, as a return
    to a savepoint also takes the last numbers back;
  * `numbers_permanent`: every copy is in order, and the committed rows of a session
    come one after another.
-/
import SourceIndex.Proofs.Writing

namespace SourceIndex

variable {tx tx' : Transaction}

/-- The session after some operations. -/
def StoreSession.after (s : StoreSession) (ops : List StoreOp) : StoreSession :=
  ops.foldl (fun s op => (op.run s).2) s

theorem StoreSession.after_append (s : StoreSession) (ops ops' : List StoreOp) :
    s.after (ops ++ ops') = (s.after ops).after ops' :=
  List.foldl_append

/-! ## What an operation of a transaction does -/

/-- One write to rows.  Symbols and chunks are only stored for files that are there. -/
inductive Rows.Write (rows : Rows) : Rows → Prop where
  | upsertFile (path content : String) : Write rows (rows.upsertFile path content).2
  | insertSymbols {file : FileId} (stored : file ∈ rows.files.keys) (symbols : List Symbol) :
    Write rows (rows.insertSymbols file symbols).2
  | deleteSymbol (symbol : SymbolId) : Write rows (rows.deleteSymbol symbol)
  | deleteChunks (symbol : SymbolId) : Write rows (rows.deleteChunks symbol)
  | deleteContents (file : FileId) : Write rows (rows.deleteContents file)
  | deleteFileLevel (file : FileId) : Write rows (rows.deleteFileLevel file)
  | insertChunks {file : FileId} (stored : file ∈ rows.files.keys)
    (owned : List (Chunk × Option SymbolId)) : Write rows (rows.insertChunks file owned)

namespace Transaction

variable {rules : WriteRules} {tx : Transaction}

theorem mem_files_of_checkFile {file : FileId} (h : checkFile rules tx file = .ok ()) :
    file ∈ tx.working.files.keys := by
  rw [checkFile] at h
  cases hf : tx.working.files.get? file with
  | none =>
    rw [hf] at h
    cases h
  | some record => exact Table.mem_keys_iff.2 ⟨record, hf⟩

/-- The savepoints up to the latest one with a name are the first ones, and the last
    of them has the name. -/
theorem upTo?_eq_some {name : String} {savepoints found : List (String × Rows)}
    (h : upTo? name savepoints = some found) :
    found <+: savepoints ∧ ∃ rows, found.getLast? = some (name, rows) := by
  unfold upTo? at h
  have hsuffix := List.dropWhile_suffix (fun p : String × Rows => decide (p.1 ≠ name))
    (l := savepoints.reverse)
  cases hd : savepoints.reverse.dropWhile (fun p => decide (p.1 ≠ name)) with
  | nil =>
    rw [hd] at h
    cases h
  | cons p ps =>
    rw [hd] at h hsuffix
    cases h
    have hp : p.1 = name := by
      have := List.head?_dropWhile_not (fun p : String × Rows => decide (p.1 ≠ name))
        savepoints.reverse
      rw [hd] at this
      simpa using this
    refine ⟨?_, p.2, ?_⟩
    · rwa [← List.reverse_suffix, List.reverse_reverse]
    · rw [List.getLast?_reverse, List.head?_cons, ← hp]

/-- What an operation that succeeds can do to a transaction. -/
inductive Step (tx : Transaction) : Transaction → Prop where
  | write {rows : Rows} (h : tx.working.Write rows) : Step tx { tx with working := rows }
  /-- savepoints are not supported -/
  | pass : Step tx tx
  | mark (name : String) :
    Step tx { tx with savepoints := tx.savepoints ++ [(name, tx.working)] }
  | back {savepoints : List (String × Rows)} {name : String} {rows : Rows}
    (earlier : savepoints <+: tx.savepoints) (last : savepoints.getLast? = some (name, rows)) :
    Step tx { working := rows, savepoints }

end Transaction

/-- A computation that succeeds does so part by part. -/
theorem exists_of_bind_eq_ok {α β : Type} {first : Except Fault α} {rest : α → Except Fault β}
    {b : β} (h : (first >>= rest) = .ok b) : ∃ a, first = .ok a ∧ rest a = .ok b := by
  cases first with
  | error fault => cases h
  | ok a => exact ⟨a, rfl, h⟩

/-- An operation that succeeds takes one step. -/
theorem TransactionOp.step_of_run {rules : WriteRules} {op : TransactionOp}
    {reply : TransactionReply} (h : op.run rules tx = .ok (reply, tx')) : tx.Step tx' := by
  cases op with
  | upsertFile path content =>
    obtain ⟨_, hop, h⟩ := exists_of_bind_eq_ok h
    obtain ⟨_, -, hop⟩ := exists_of_bind_eq_ok hop
    cases hop; cases h
    exact .write (.upsertFile path content)
  | insertSymbols file symbols =>
    obtain ⟨_, hop, h⟩ := exists_of_bind_eq_ok h
    obtain ⟨_, hcheck, hop⟩ := exists_of_bind_eq_ok hop
    cases hop; cases h
    exact .write (.insertSymbols (Transaction.mem_files_of_checkFile hcheck) symbols)
  | deleteSymbol symbol =>
    cases h
    exact .write (.deleteSymbol symbol)
  | deleteChunks symbol =>
    cases h
    exact .write (.deleteChunks symbol)
  | deleteContents file =>
    obtain ⟨_, hop, h⟩ := exists_of_bind_eq_ok h
    obtain ⟨_, -, hop⟩ := exists_of_bind_eq_ok hop
    cases hop; cases h
    exact .write (.deleteContents file)
  | deleteFileLevel file =>
    obtain ⟨_, hop, h⟩ := exists_of_bind_eq_ok h
    obtain ⟨_, -, hop⟩ := exists_of_bind_eq_ok hop
    cases hop; cases h
    exact .write (.deleteFileLevel file)
  | insertChunks file chunks owners =>
    obtain ⟨_, hop, h⟩ := exists_of_bind_eq_ok h
    obtain ⟨_, hcheck, hop⟩ := exists_of_bind_eq_ok hop
    by_cases hlength : chunks.length = owners.length
    · simp only [hlength, ne_eq, not_true, if_false] at hop
      cases hop; cases h
      exact .write (.insertChunks (Transaction.mem_files_of_checkFile hcheck) _)
    · simp only [ne_eq, hlength, not_false_eq_true, if_true] at hop
      cases hop
  | savepoint name =>
    by_cases hs : rules.savepoints = true
    · simp only [run, Transaction.savepoint, hs, if_true] at h
      cases h
      exact .mark name
    · simp only [run, Transaction.savepoint, hs] at h
      cases h
      exact .pass
  | rollbackTo name =>
    obtain ⟨_, hop, h⟩ := exists_of_bind_eq_ok h
    rw [Transaction.rollbackTo] at hop
    cases hu : Transaction.upTo? name tx.savepoints with
    | none =>
      rw [hu] at hop
      cases hop
    | some found =>
      obtain ⟨hearlier, rows, hlast⟩ := Transaction.upTo?_eq_some hu
      rw [hu] at hop
      simp only [hlast] at hop
      cases hop; cases h
      exact .back hearlier hlast

/-! ## Rows in order -/

namespace Rows

variable {rows rows' rows'' : Rows}

/-- Rows that are well formed, where also no file and no path stands twice. -/
structure Tidy (rows : Rows) : Prop extends WellFormed rows where
  files_nodup : rows.files.keys.Nodup
  paths_nodup : rows.paths.keys.Nodup

theorem Tidy.empty : Tidy {} where
  toWellFormed := .empty
  files_nodup := List.nodup_nil
  paths_nodup := List.nodup_nil

theorem Tidy.upsertFile (h : rows.Tidy) (path content : String) :
    (rows.upsertFile path content).2.Tidy where
  toWellFormed := h.toWellFormed.upsertFile path content
  files_nodup := by
    unfold Rows.upsertFile
    split <;> exact Table.nodup_put h.files_nodup _ _
  paths_nodup := by
    unfold Rows.upsertFile
    split
    · exact h.paths_nodup
    · exact Table.nodup_put h.paths_nodup _ _

theorem Write.tidy (hw : rows.Write rows') (h : rows.Tidy) : rows'.Tidy := by
  cases hw with
  | upsertFile path content => exact h.upsertFile path content
  | insertSymbols hf symbols =>
    obtain ⟨hfiles, hpaths⟩ := insertSymbols_files rows _ symbols
    exact ⟨h.toWellFormed.insertSymbols hf symbols, hfiles ▸ h.files_nodup, hpaths ▸ h.paths_nodup⟩
  | deleteSymbol id => exact ⟨h.toWellFormed.deleteSymbol id, h.files_nodup, h.paths_nodup⟩
  | deleteChunks id => exact ⟨h.toWellFormed.deleteChunks id, h.files_nodup, h.paths_nodup⟩
  | deleteContents file => exact ⟨h.toWellFormed.deleteContents file, h.files_nodup, h.paths_nodup⟩
  | deleteFileLevel file =>
    exact ⟨h.toWellFormed.deleteFileLevel file, h.files_nodup, h.paths_nodup⟩
  | insertChunks hf owned =>
    obtain ⟨hfiles, hpaths⟩ := insertChunks_files rows _ owned
    exact ⟨h.toWellFormed.insertChunks hf owned, hfiles ▸ h.files_nodup, hpaths ▸ h.paths_nodup⟩

/-! ## Rows that come later -/

/-- The numbers of the first rows keep their meaning in the second ones: a file keeps
    its number and path, and a number of a symbol or chunk that was handed out by then
    stands for the row it stood for, or for none. -/
structure Precedes (rows rows' : Rows) : Prop where
  lastFile : rows.lastFile ≤ rows'.lastFile
  lastSymbol : rows.lastSymbol ≤ rows'.lastSymbol
  lastChunk : rows.lastChunk ≤ rows'.lastChunk
  file : ∀ {id f}, rows.files.get? id = some f →
    ∃ f', rows'.files.get? id = some f' ∧ f'.path = f.path
  symbol : ∀ {id r}, rows'.symbols.get? id = some r → id ≤ rows.lastSymbol →
    rows.symbols.get? id = some r
  chunk : ∀ {id c}, rows'.chunks.get? id = some c → id ≤ rows.lastChunk →
    rows.chunks.get? id = some c

namespace Precedes

theorem refl (rows : Rows) : rows.Precedes rows where
  lastFile := Nat.le_refl _
  lastSymbol := Nat.le_refl _
  lastChunk := Nat.le_refl _
  file hf := ⟨_, hf, rfl⟩
  symbol hr _ := hr
  chunk hc _ := hc

theorem trans (h : rows.Precedes rows') (h' : rows'.Precedes rows'') : rows.Precedes rows'' where
  lastFile := Nat.le_trans h.lastFile h'.lastFile
  lastSymbol := Nat.le_trans h.lastSymbol h'.lastSymbol
  lastChunk := Nat.le_trans h.lastChunk h'.lastChunk
  file hf := by
    obtain ⟨f', hf', hpath⟩ := h.file hf
    obtain ⟨f'', hf'', hpath'⟩ := h'.file hf'
    exact ⟨f'', hf'', hpath'.trans hpath⟩
  symbol hr hle := h.symbol (h'.symbol hr (Nat.le_trans hle h.lastSymbol)) hle
  chunk hc hle := h.chunk (h'.chunk hc (Nat.le_trans hle h.lastChunk)) hle

theorem upsertFile (h : rows.WellFormed) (path content : String) :
    rows.Precedes (rows.upsertFile path content).2 := by
  cases hf : rows.file? path with
  | some file =>
    rw [h.upsertFile_old hf]
    refine { refl rows with file := fun {id f} hid => ?_ }
    rw [Table.get?_put]
    split
    · rename_i he
      subst he
      rw [(h.file? hf).2.2.1] at hid
      cases hid
      exact ⟨_, rfl, (h.file? hf).1.symm⟩
    · exact ⟨f, hid, rfl⟩
  | none =>
    rw [h.upsertFile_new hf]
    refine { refl rows with lastFile := Nat.le_succ _, file := fun {id f} hid => ⟨f, ?_, rfl⟩ }
    -- the new number is not one of a stored file
    rw [Table.get?_put, if_neg, hid]
    rintro rfl
    exact h.next_notMem (Table.mem_keys_iff.2 ⟨f, hid⟩)

theorem insertSymbol (rows : Rows) (file : FileId) (symbol : Symbol) :
    rows.Precedes (rows.insertSymbol file symbol) :=
  { refl rows with
    lastSymbol := Nat.le_succ _
    symbol := fun {id r} hr hle => by
      have hne : rows.lastSymbol + 1 ≠ id := by
        rintro rfl
        exact Nat.not_succ_le_self _ hle
      rwa [Rows.insertSymbol, Table.get?_put, if_neg hne] at hr }

theorem insertSymbols (rows : Rows) (file : FileId) (symbols : List Symbol) :
    rows.Precedes (rows.insertSymbols file symbols).2 := by
  unfold Rows.insertSymbols
  induction symbols generalizing rows with
  | nil => exact refl rows
  | cons symbol symbols ih => exact (insertSymbol rows file symbol).trans (ih _)

theorem insertChunk (rows : Rows) (file : FileId) (chunk : Chunk) (owner : Option SymbolId) :
    rows.Precedes (rows.insertChunk file chunk owner) :=
  { refl rows with
    lastChunk := Nat.le_succ _
    chunk := fun {id c} hc hle => by
      have hne : rows.lastChunk + 1 ≠ id := by
        rintro rfl
        exact Nat.not_succ_le_self _ hle
      rwa [Rows.insertChunk, Table.get?_put, if_neg hne] at hc }

theorem insertChunks (rows : Rows) (file : FileId) (owned : List (Chunk × Option SymbolId)) :
    rows.Precedes (rows.insertChunks file owned) := by
  unfold Rows.insertChunks
  induction owned generalizing rows with
  | nil => exact refl rows
  | cons o owned ih => exact (insertChunk rows file o.1 o.2).trans (ih _)

theorem of_subset {symbols : Table SymbolId SymbolRecord} {chunks : Table ChunkId StoredChunk}
    (hs : ∀ {id r}, symbols.get? id = some r → rows.symbols.get? id = some r)
    (hc : ∀ {id c}, chunks.get? id = some c → rows.chunks.get? id = some c) :
    rows.Precedes { rows with symbols, chunks } :=
  { refl rows with symbol := fun hr _ => hs hr, chunk := fun h _ => hc h }

theorem of_write (hw : rows.Write rows') (h : rows.WellFormed) : rows.Precedes rows' := by
  cases hw with
  | upsertFile path content => exact upsertFile h path content
  | insertSymbols _ symbols => exact insertSymbols rows _ symbols
  | deleteSymbol id => exact of_subset Table.get?_of_erase fun hc => hc
  | deleteChunks | deleteFileLevel =>
    exact of_subset (fun hr => hr) (Table.get?_of_keep h.chunks_nodup)
  | deleteContents file =>
    exact of_subset (Table.get?_of_keep h.symbols_nodup) (Table.get?_of_keep h.chunks_nodup)
  | insertChunks _ owned => exact insertChunks rows _ owned

end Precedes

end Rows

/-! ## Sessions -/

/-- The copies of the rows that a transaction holds: the one it works on, and those of
    its savepoints. -/
def Transaction.copies (tx : Transaction) : List Rows :=
  tx.working :: tx.savepoints.map (·.2)

/-- A step writes to the copy that the transaction works on, or takes up copies that it
    holds. -/
theorem Transaction.Step.mem_copies (h : tx.Step tx') {rows : Rows} (hr : rows ∈ tx'.copies) :
    rows ∈ tx.copies ∨ tx.working.Write rows := by
  simp only [copies, List.mem_cons, List.mem_map] at hr ⊢
  cases h with
  | write hw => grind
  | pass => exact Or.inl hr
  | mark name => grind
  | back hearlier hlast =>
    have hmem := hearlier.subset (List.mem_of_getLast? hlast)
    have hsub := hearlier.subset
    grind

theorem Store.failWrites_eq (store : Store) (path : String) :
    store.failWrites path =
      { store with
        rules := { store.rules with
          rejected := if store.rules.rejected.contains path then store.rules.rejected
            else store.rules.rejected ++ [path] } } := by
  unfold failWrites
  split <;> rfl

namespace StoreSession

variable {s : StoreSession}

/-- The committed rows are in order, and so are the copies that the open transaction
    holds, each of which comes after the committed rows. -/
structure Anchored (s : StoreSession) : Prop where
  committed : s.store.committed.Tidy
  copies : ∀ {tx}, s.open? = some tx → ∀ rows ∈ tx.copies,
    rows.Tidy ∧ s.store.committed.Precedes rows

/-- An operation that needs a transaction finds one, or changes nothing. -/
theorem onTransaction_induction {P : StoreReply × StoreSession → Prop}
    {act : Transaction → StoreReply × StoreSession} (hnone : s.open? = none → P (.noTransaction, s))
    (hsome : ∀ tx, s.open? = some tx → P (act tx)) : P (s.onTransaction act) := by
  unfold onTransaction
  cases ho : s.open? with
  | none => exact hnone ho
  | some tx => exact hsome tx ho

theorem Anchored.of_none (hc : s.store.committed.Tidy) (ho : s.open? = none) : s.Anchored where
  committed := hc
  copies htx := by
    rw [ho] at htx
    cases htx

/-- The session is followed by one that is anchored, with rows that come later. -/
def Leads (s s' : StoreSession) : Prop :=
  s'.Anchored ∧ s.store.committed.Precedes s'.store.committed

theorem Anchored.leads_refl (h : s.Anchored) : s.Leads s :=
  ⟨h, .refl _⟩

theorem Anchored.leads_abandon (h : s.Anchored) :
    s.Leads { store := s.store.abandon, open? := none } :=
  ⟨.of_none h.committed rfl, .refl _⟩

theorem Anchored.leads_commit (h : s.Anchored) (htx : s.open? = some tx) :
    s.Leads { store := s.store.commit tx, open? := none } := by
  obtain ⟨htidy, hprecedes⟩ := h.copies htx tx.working List.mem_cons_self
  exact ⟨.of_none htidy rfl, hprecedes⟩

theorem Anchored.leads_within (h : s.Anchored) (htx : s.open? = some tx) (hstep : tx.Step tx') :
    s.Leads { s with open? := some tx' } := by
  refine ⟨⟨h.committed, fun htx' rows hr => ?_⟩, .refl _⟩
  cases htx'
  obtain ⟨htidy, hprecedes⟩ := h.copies htx tx.working List.mem_cons_self
  rcases hstep.mem_copies hr with hr | hw
  · exact h.copies htx rows hr
  · exact ⟨hw.tidy htidy, hprecedes.trans (.of_write hw htidy.toWellFormed)⟩

theorem Anchored.leads_run (h : s.Anchored) (op : StoreOp) : s.Leads (op.run s).2 := by
  cases op with
  | dump | counts | findFile | findSymbols | analyze => exact h.leads_refl
  | clearFailures => exact ⟨⟨h.committed, h.copies⟩, .refl _⟩
  | failWrites path =>
    rw [StoreOp.run, Store.failWrites_eq]
    exact ⟨⟨h.committed, h.copies⟩, .refl _⟩
  | openTransaction =>
    rw [StoreOp.run]
    cases ho : s.open? with
    | some tx => exact h.leads_refl
    | none =>
      refine ⟨⟨h.committed, fun htx rows hr => ?_⟩, .refl _⟩
      cases htx
      cases List.mem_singleton.1 hr
      exact ⟨h.committed, .refl _⟩
  | commit =>
    exact onTransaction_induction (P := fun r => s.Leads r.2) (fun _ => h.leads_refl)
      fun tx htx => h.leads_commit htx
  | rollback | drop =>
    exact onTransaction_induction (P := fun r => s.Leads r.2) (fun _ => h.leads_refl)
      fun tx _ => h.leads_abandon
  | within op =>
    refine onTransaction_induction (P := fun r => s.Leads r.2) (fun _ => h.leads_refl)
      fun tx htx => ?_
    cases hrun : op.run s.store.rules tx with
    | error fault => exact h.leads_refl
    | ok result => exact h.leads_within htx (TransactionOp.step_of_run hrun)

theorem Anchored.leads_after (h : s.Anchored) (ops : List StoreOp) : s.Leads (s.after ops) := by
  induction ops generalizing s with
  | nil => exact h.leads_refl
  | cons op ops ih =>
    obtain ⟨hstep, hprecedes⟩ := h.leads_run op
    obtain ⟨hafter, hprecedes'⟩ := ih hstep
    exact ⟨hafter, hprecedes.trans hprecedes'⟩

end StoreSession

/-! ## What numbers stand for -/

namespace Rows

variable {rows rows' rows'' : Rows}

/-- Paths and files are inverse to each other, every row is kept under its own number,
    belongs to a file that is there, and has a number that was handed out.  The
    fingerprint of a file is that of its content. -/
structure Keyed (rows : Rows) : Prop where
  nodup : rows.files.keys.Nodup ∧ rows.paths.keys.Nodup ∧ rows.symbols.keys.Nodup ∧
    rows.chunks.keys.Nodup
  path_iff : ∀ path id, rows.paths.get? path = some id ↔
    ∃ f, rows.files.get? id = some f ∧ f.id = id ∧ f.path = path
  file : ∀ id f, rows.files.get? id = some f →
    f.id = id ∧ f.contentHash = .ofText f.content ∧ 1 ≤ id ∧ id ≤ rows.lastFile
  symbol : ∀ id r, rows.symbols.get? id = some r →
    r.id = id ∧ r.fileId ∈ rows.files.keys ∧ 1 ≤ id ∧ id ≤ rows.lastSymbol
  chunk : ∀ id c, rows.chunks.get? id = some c →
    c.id = id ∧ c.fileId ∈ rows.files.keys ∧ 1 ≤ id ∧ id ≤ rows.lastChunk

theorem Tidy.keyed (h : rows.Tidy) : rows.Keyed where
  nodup := ⟨h.files_nodup, h.paths_nodup, h.symbols_nodup, h.chunks_nodup⟩
  path_iff path id := by
    constructor
    · intro hp
      obtain ⟨content, hf⟩ := h.file_of_path hp
      exact ⟨_, hf, rfl, rfl⟩
    · rintro ⟨f, hf, -, rfl⟩
      exact h.path_of_file hf
  file id f hf := by
    obtain ⟨content, hf'⟩ := h.file_of_path (h.path_of_file hf)
    rw [hf, Option.some.injEq] at hf'
    rw [hf']
    exact ⟨rfl, rfl, h.file_le hf⟩
  symbol id r hr := ⟨h.symbol_id hr, h.symbol_file hr, h.symbol_le hr⟩
  chunk id c hc := ⟨h.chunk_id hc, h.chunk_file hc, h.chunk_le hc⟩

/-- From the first rows to the second ones files stay and keep their paths, a number of
    a symbol or chunk that stands for a row in both stands for the same row, and the last
    numbers do not decrease. -/
structure Retained (rows rows' : Rows) : Prop where
  file : ∀ id f, rows.files.get? id = some f →
    ∃ f', rows'.files.get? id = some f' ∧ f'.path = f.path
  symbol : ∀ id r r', rows.symbols.get? id = some r → rows'.symbols.get? id = some r' → r' = r
  chunk : ∀ id c c', rows.chunks.get? id = some c → rows'.chunks.get? id = some c' → c' = c
  counters : rows.lastFile ≤ rows'.lastFile ∧ rows.lastSymbol ≤ rows'.lastSymbol ∧
    rows.lastChunk ≤ rows'.lastChunk

theorem Precedes.retained (h : rows.Precedes rows') (hw : rows.WellFormed) :
    rows.Retained rows' where
  file _ _ hf := h.file hf
  symbol id r r' hr hr' := by
    have hold := h.symbol hr' (hw.symbol_le hr).2
    rw [hr] at hold
    exact (Option.some.inj hold).symm
  chunk id c c' hc hc' := by
    have hold := h.chunk hc' (hw.chunk_le hc).2
    rw [hc] at hold
    exact (Option.some.inj hold).symm
  counters := ⟨h.lastFile, h.lastSymbol, h.lastChunk⟩

/-- A number of a symbol or chunk that is gone in the second rows stays gone in the
    third ones. -/
structure StayGone (rows rows' rows'' : Rows) : Prop where
  symbol : ∀ id ∈ rows.symbols.keys, id ∉ rows'.symbols.keys → id ∉ rows''.symbols.keys
  chunk : ∀ id ∈ rows.chunks.keys, id ∉ rows'.chunks.keys → id ∉ rows''.chunks.keys

theorem Precedes.stayGone (hw : rows.WellFormed) (h : rows.Precedes rows')
    (h' : rows'.Precedes rows'') : rows.StayGone rows' rows'' where
  symbol id hid hgone hback := by
    obtain ⟨r, hr⟩ := Table.mem_keys_iff.1 hback
    have hle := Nat.le_trans (hw.symbol_keys_le id hid) h.lastSymbol
    exact hgone (Table.mem_keys_iff.2 ⟨r, h'.symbol hr hle⟩)
  chunk id hid hgone hback := by
    obtain ⟨c, hc⟩ := Table.mem_keys_iff.1 hback
    have hle := Nat.le_trans (hw.chunk_keys_le id hid) h.lastChunk
    exact hgone (Table.mem_keys_iff.2 ⟨c, h'.chunk hc hle⟩)

end Rows

/-- A session on a store without rows. -/
def StoreSession.fresh (savepoints : Bool) : StoreSession :=
  { store := { rules := { savepoints } } }

theorem StoreSession.fresh_anchored (savepoints : Bool) : (fresh savepoints).Anchored :=
  .of_none .empty rfl

/-- **Numbers of rows are permanent.**  Whatever is done in a session, with failures,
    savepoints, commits and transactions that are given up: the committed rows, the copy
    that a transaction works on and those of its savepoints are keyed as they should be.
    From a point of the session to a later one a number that stands for a committed row
    keeps its meaning, and one that has lost its row does not get another one. -/
theorem StoreSession.numbers_permanent (savepoints : Bool) (first second third : List StoreOp) :
    let s₁ := (fresh savepoints).after first
    let s₂ := (fresh savepoints).after (first ++ second)
    let s₃ := (fresh savepoints).after (first ++ second ++ third)
    s₁.store.committed.Keyed ∧ (∀ tx ∈ s₁.open?, ∀ rows ∈ tx.copies, rows.Keyed) ∧
      s₁.store.committed.Retained s₂.store.committed ∧
      s₁.store.committed.StayGone s₂.store.committed s₃.store.committed := by
  intro s₁ s₂ s₃
  have h₁ : s₁.Anchored := ((fresh_anchored savepoints).leads_after first).1
  have h₁₂ : s₁.Leads s₂ := by
    rw [show s₂ = s₁.after second from after_append ..]
    exact h₁.leads_after second
  have h₂₃ : s₂.Leads s₃ := by
    rw [show s₃ = s₂.after third from after_append ..]
    exact h₁₂.1.leads_after third
  have hw := h₁.committed.toWellFormed
  exact ⟨h₁.committed.keyed, fun tx htx rows hr => (h₁.copies htx rows hr).1.keyed,
    h₁₂.2.retained hw, h₁₂.2.stayGone hw h₂₃.2⟩

end SourceIndex
