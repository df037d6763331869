/-
  Writes to paths that are rejected.

  * `TransactionOp.check`, `TransactionOp.written?`: what an operation checks before it
    writes, and what it writes; `run_of_written` says that this is all it does;
  * `Table.DiffersOn`, `Rows.Disturbs`: rows that are inserted, replaced or deleted, and the
    paths of their files;
  * `TransactionOp.target?`: the path whose rows an operation is checked for;
    `target?_of_disturbs`: it disturbs the rows of no other path, unless it goes by the
    number of a symbol;
  * `StoreSession.rejected_unless_by_symbol`: an operation that would disturb a row of a
    rejected path fails and changes nothing, but those that go by the number of a symbol are
    carried out;
  * `StoreSession.rejection_bypassed`: a symbol of a rejected path that is deleted.
-/
import SourceIndex.Proofs.Erasure

namespace SourceIndex

/-! ## What operations check and write -/

namespace TransactionOp

/-- What an operation needs in order to write. -/
def check (rules : WriteRules) (tx : Transaction) : TransactionOp → Except Fault Unit
  | upsertFile path _ => Transaction.checkPath rules path
  | insertSymbols file _ | deleteContents file | deleteFileLevel file =>
    Transaction.checkFile rules tx file
  | insertChunks file chunks owners => do
    Transaction.checkFile rules tx file
    let given := chunks.length
    let owned := owners.length
    if given ≠ owned then
      throw (.invalidOperation s!"{given} chunks but {owned} owner ids")
  | deleteSymbol _ | deleteChunks _ | savepoint _ | rollbackTo _ => .ok ()

/-- What an operation that writes answers, and the rows after it. -/
def written? (rows : Rows) : TransactionOp → Option (TransactionReply × Rows)
  | upsertFile path content =>
    some (.file (rows.upsertFile path content).1, (rows.upsertFile path content).2)
  | insertSymbols file symbols =>
    some (.symbols (rows.insertSymbols file symbols).1, (rows.insertSymbols file symbols).2)
  | deleteSymbol symbol => some (.done, rows.deleteSymbol symbol)
  | deleteChunks symbol => some (.done, rows.deleteChunks symbol)
  | deleteContents file => some (.done, rows.deleteContents file)
  | deleteFileLevel file => some (.done, rows.deleteFileLevel file)
  | insertChunks file chunks owners =>
    some (.done, rows.insertChunks file (chunks.zip owners))
  | savepoint _ | rollbackTo _ => none

variable {op : TransactionOp} {rules : WriteRules} {tx tx' : Transaction} {reply : TransactionReply}

/-- An operation that writes fails its check, or puts what it writes in the place of the
    working copy. -/
theorem run_of_written {rows : Rows} (h : op.written? tx.working = some (reply, rows)) :
    op.run rules tx = (op.check rules tx).map fun _ => (reply, { tx with working := rows }) := by
  cases op with
  | upsertFile path content =>
    cases h
    simp only [run, Transaction.upsertFile, check]
    cases Transaction.checkPath rules path <;> rfl
  | insertSymbols file symbols =>
    cases h
    simp only [run, Transaction.insertSymbols, check]
    cases Transaction.checkFile rules tx file <;> rfl
  | deleteSymbol symbol =>
    cases h
    rfl
  | deleteChunks symbol =>
    cases h
    rfl
  | deleteContents file =>
    cases h
    simp only [run, Transaction.deleteContents, check]
    cases Transaction.checkFile rules tx file <;> rfl
  | deleteFileLevel file =>
    cases h
    simp only [run, Transaction.deleteFileLevel, check]
    cases Transaction.checkFile rules tx file <;> rfl
  | insertChunks file chunks owners =>
    cases h
    simp only [run, Transaction.insertChunks, check]
    cases Transaction.checkFile rules tx file with
    | error fault => rfl
    | ok _ =>
      by_cases hlength : chunks.length = owners.length
      · simp only [hlength, ne_eq, not_true, if_false]
        rfl
      · simp only [ne_eq, hlength, not_false_eq_true, if_true]
        rfl
  | savepoint | rollbackTo => cases h

theorem eq_of_written {result : TransactionReply × Rows} (h : op.written? tx.working = some result)
    (hrun : op.run rules tx = .ok (reply, tx')) : tx' = { tx with working := result.2 } := by
  rw [run_of_written h] at hrun
  cases hcheck : op.check rules tx with
  | error fault =>
    rw [hcheck] at hrun
    cases hrun
  | ok _ =>
    rw [hcheck] at hrun
    cases hrun
    rfl

theorem eq_of_savepoint {name : String} (hrun : (savepoint name).run rules tx = .ok (reply, tx')) :
    tx' = (tx.savepoint rules name).2 :=
  (congrArg Prod.snd (Except.ok.inj hrun)).symm

end TransactionOp

theorem Transaction.savepoint_working (rules : WriteRules) (tx : Transaction) (name : String) :
    (tx.savepoint rules name).2.working = tx.working := by
  unfold savepoint
  split <;> rfl

/-! ## Rows that are changed -/

namespace Table

variable {κ α : Type} [DecidableEq κ] {t : Table κ α} {v w : α} {k : κ}

/-- The value is in one of the tables, under a key whose value differs between the two: it
    is inserted or deleted, it is replaced, or it replaces another one. -/
def DiffersOn (t t' : Table κ α) (v : α) : Prop :=
  ∃ k, t.get? k ≠ t'.get? k ∧ (t.get? k = some v ∨ t'.get? k = some v)

theorem not_differsOn_self (t : Table κ α) (v : α) : ¬ t.DiffersOn t v := by
  rintro ⟨k, hne, -⟩
  exact hne rfl

theorem DiffersOn.of_put (h : t.DiffersOn (t.put k w) v) : v = w ∨ t.get? k = some v := by
  obtain ⟨k', hne, hv⟩ := h
  rw [get?_put] at hne hv
  by_cases hk : k = k'
  · subst hk
    rw [if_pos rfl] at hv
    exact hv.symm.imp_left fun hw => (Option.some.inj hw).symm
  · rw [if_neg hk] at hne
    exact (hne rfl).elim

/-- Only values that fail the test are dropped. -/
theorem DiffersOn.of_keep (hn : t.keys.Nodup) {test : α → Bool} (h : t.DiffersOn (t.keep test) v) :
    test v = false := by
  obtain ⟨k, hne, hv⟩ := h
  rw [get?_keep hn] at hne hv
  have hold : t.get? k = some v := hv.elim id fun hv => (Option.filter_eq_some_iff.1 hv).1
  by_contra htest
  rw [hold, Option.filter_some, if_pos (Bool.not_eq_false _ ▸ htest)] at hne
  exact hne rfl

theorem find?_append_of_some {ps : List (κ × α)} (h : find? k ps = some v) (qs : List (κ × α)) :
    find? k (ps ++ qs) = some v := by
  induction ps with
  | nil => cases h
  | cons p ps ih =>
    rw [List.cons_append, find?]
    rw [find?] at h
    by_cases hk : p.1 = k
    · rwa [if_pos hk] at h ⊢
    · rw [if_neg hk] at h ⊢
      exact ih h

theorem DiffersOn.of_append {key : α → κ} {new : List α}
    (h : t.DiffersOn ⟨t.pairs ++ new.map fun v => (key v, v)⟩ v) : v ∈ new := by
  obtain ⟨k, hne, hv⟩ := h
  cases hold : t.get? k with
  | some w =>
    rw [hold, get?, find?_append_of_some hold] at hne
    exact (hne rfl).elim
  | none =>
    have hadded := mem_of_get? (hv.resolve_left (by simp [hold]))
    rcases List.mem_append.1 hadded with hmem | hmem
    · exact absurd (List.mem_map_of_mem hmem) (get?_eq_none_iff.1 hold)
    · obtain ⟨w, hw, heq⟩ := List.mem_map.1 hmem
      cases heq
      exact hw

end Table

namespace Rows

variable {rows rows' : Rows} {path : String} {file : FileId}

/-- The path of a file. -/
def pathOf? (rows : Rows) (file : FileId) : Option String :=
  (rows.files.get? file).map (·.path)

/-- A row of the file with the path is inserted, replaced or deleted. -/
inductive Disturbs (rows rows' : Rows) (path : String) : Prop where
  | file {f : FileRecord} (changed : rows.files.DiffersOn rows'.files f) (of : f.path = path)
  | symbol {r : SymbolRecord} (changed : rows.symbols.DiffersOn rows'.symbols r)
    (of : rows.pathOf? r.fileId = some path)
  | chunk {c : StoredChunk} (changed : rows.chunks.DiffersOn rows'.chunks c)
    (of : rows.pathOf? c.fileId = some path)

theorem not_disturbs_self (rows : Rows) (path : String) : ¬ rows.Disturbs rows path := by
  rintro (⟨h, -⟩ | ⟨h, -⟩ | ⟨h, -⟩) <;> exact Table.not_differsOn_self _ _ h

/-- Where only symbols and chunks of one file change, rows of its path are disturbed. -/
theorem Disturbs.pathOf? (h : rows.Disturbs rows' path) (hfiles : rows'.files = rows.files)
    (hsymbols : ∀ r, rows.symbols.DiffersOn rows'.symbols r → r.fileId = file)
    (hchunks : ∀ c, rows.chunks.DiffersOn rows'.chunks c → c.fileId = file) :
    rows.pathOf? file = some path := by
  cases h with
  | file hf =>
    rw [hfiles] at hf
    exact (Table.not_differsOn_self _ _ hf).elim
  | symbol hr hpath => rwa [hsymbols _ hr] at hpath
  | chunk hc hpath => rwa [hchunks _ hc] at hpath

namespace WellFormed

theorem path_of_upsertFile (h : rows.WellFormed) {stored content : String}
    (hd : rows.Disturbs (rows.upsertFile stored content).2 path) : stored = path := by
  obtain ⟨hsymbols, hchunks, -⟩ := upsertFile_symbols rows stored content
  cases hd with
  | symbol hr =>
    rw [hsymbols] at hr
    exact (Table.not_differsOn_self _ _ hr).elim
  | chunk hc =>
    rw [hchunks] at hc
    exact (Table.not_differsOn_self _ _ hc).elim
  | @file f hf hpath =>
    cases hold : rows.file? stored with
    | some old =>
      rw [h.upsertFile_old hold] at hf
      rcases hf.of_put with rfl | hf
      · exact hpath
      · -- the row in its place is that of the same path
        rw [(h.file? hold).2.2.1] at hf
        cases hf
        exact (h.file? hold).1.symm.trans hpath
    | none =>
      rw [h.upsertFile_new hold] at hf
      rcases hf.of_put with rfl | hf
      · exact hpath
      · exact (h.next_notMem (Table.mem_keys_iff.2 ⟨f, hf⟩)).elim

theorem pathOf?_of_insertSymbols (h : rows.WellFormed) {symbols : List Symbol}
    (hd : rows.Disturbs (rows.insertSymbols file symbols).2 path) :
    rows.pathOf? file = some path := by
  rw [insertSymbols_eq file symbols h.symbol_keys_le] at hd
  exact hd.pathOf? rfl (fun r hr => (mem_newRecords hr.of_append).2.2)
    fun c hc => (Table.not_differsOn_self _ _ hc).elim

theorem pathOf?_of_insertChunks (h : rows.WellFormed) {owned : List (Chunk × Option SymbolId)}
    (hd : rows.Disturbs (rows.insertChunks file owned) path) : rows.pathOf? file = some path := by
  rw [insertChunks_eq file owned h.chunk_keys_le] at hd
  exact hd.pathOf? rfl (fun r hr => (Table.not_differsOn_self _ _ hr).elim)
    fun c hc => (mem_newChunks hc.of_append).2.2.1

theorem pathOf?_of_deleteContents (h : rows.WellFormed)
    (hd : rows.Disturbs (rows.deleteContents file) path) : rows.pathOf? file = some path :=
  hd.pathOf? rfl (fun r hr => by simpa using hr.of_keep h.symbols_nodup)
    fun c hc => by simpa using hc.of_keep h.chunks_nodup

theorem pathOf?_of_deleteFileLevel (h : rows.WellFormed)
    (hd : rows.Disturbs (rows.deleteFileLevel file) path) : rows.pathOf? file = some path :=
  hd.pathOf? rfl (fun r hr => (Table.not_differsOn_self _ _ hr).elim) fun c hc => by
    have htest := hc.of_keep h.chunks_nodup
    simp only [Bool.or_eq_false_iff] at htest
    simpa using htest.1

end WellFormed

end Rows

/-! ## The path an operation is checked for -/

namespace TransactionOp

variable {op : TransactionOp} {rules : WriteRules} {tx : Transaction} {path : String}
  {reply : TransactionReply}

/-- Does the operation name its rows by the number of a symbol? -/
def bySymbol : TransactionOp → Bool
  | deleteSymbol _ | deleteChunks _ => true
  | _ => false

/-- The path whose rows the operation is checked for. -/
def target? (rows : Rows) : TransactionOp → Option String
  | upsertFile path _ => some path
  | insertSymbols file _ | deleteContents file | deleteFileLevel file | insertChunks file _ _ =>
    rows.pathOf? file
  | deleteSymbol _ | deleteChunks _ | savepoint _ | rollbackTo _ => none

theorem checkFile_of_rejected {file : FileId} (hfile : tx.working.pathOf? file = some path)
    (hpath : path ∈ rules.rejected) :
    Transaction.checkFile rules tx file = .error (.storage s!"write rejected for {path}") := by
  obtain ⟨record, hrecord, rfl⟩ := Option.map_eq_some_iff.1 hfile
  rw [Transaction.checkFile, hrecord]
  exact if_pos (List.contains_iff_mem.2 hpath)

theorem check_of_rejected (htarget : op.target? tx.working = some path)
    (hpath : path ∈ rules.rejected) :
    op.check rules tx = .error (.storage s!"write rejected for {path}") := by
  cases op with
  | upsertFile stored content =>
    cases htarget
    exact if_pos (List.contains_iff_mem.2 hpath)
  | insertSymbols | deleteContents | deleteFileLevel => exact checkFile_of_rejected htarget hpath
  | insertChunks file chunks owners =>
    rw [check, checkFile_of_rejected htarget hpath]
    rfl
  | deleteSymbol | deleteChunks | savepoint | rollbackTo => cases htarget

/-- An operation that does not go by the number of a symbol disturbs only rows that it is
    checked for. -/
theorem target?_of_disturbs {rows rows' : Rows} (h : rows.WellFormed) (hop : op.bySymbol = false)
    (hw : op.written? rows = some (reply, rows')) (hd : rows.Disturbs rows' path) :
    op.target? rows = some path := by
  cases op with
  | upsertFile stored content =>
    cases hw
    exact congrArg some (h.path_of_upsertFile hd)
  | insertSymbols =>
    cases hw
    exact h.pathOf?_of_insertSymbols hd
  | deleteContents =>
    cases hw
    exact h.pathOf?_of_deleteContents hd
  | deleteFileLevel =>
    cases hw
    exact h.pathOf?_of_deleteFileLevel hd
  | insertChunks =>
    cases hw
    exact h.pathOf?_of_insertChunks hd
  | deleteSymbol | deleteChunks => cases hop
  | savepoint | rollbackTo => cases hw

/-- Under some rules the operation inserts, replaces or deletes a row of the file with the
    path.  A content that is stored replaces the row of the file also if it is the same. -/
def Touches (op : TransactionOp) (tx : Transaction) (path : String) : Prop :=
  (∃ content, op = upsertFile path content) ∨
    ∃ rules reply tx', op.run rules tx = .ok (reply, tx') ∧ tx.working.Disturbs tx'.working path

theorem not_disturbs_savepoint {name : String} {tx' : Transaction}
    (hrun : (savepoint name).run rules tx = .ok (reply, tx')) :
    ¬ tx.working.Disturbs tx'.working path := by
  rw [eq_of_savepoint hrun, Transaction.savepoint_working]
  exact Rows.not_disturbs_self tx.working path

/-- An operation that touches rows of a path, and neither goes by the number of a symbol nor
    returns to a savepoint, writes and is checked for the path. -/
theorem target?_of_touches (h : tx.working.WellFormed) (hop : op.bySymbol = false)
    (hback : ∀ name, op ≠ rollbackTo name) (ht : op.Touches tx path) :
    (∃ result, op.written? tx.working = some result) ∧ op.target? tx.working = some path := by
  rcases ht with ⟨content, rfl⟩ | ⟨rules, reply, tx', hrun, hd⟩
  · exact ⟨⟨_, rfl⟩, rfl⟩
  · cases hw : op.written? tx.working with
    | some result =>
      cases eq_of_written hw hrun
      exact ⟨⟨_, rfl⟩, target?_of_disturbs h hop hw hd⟩
    | none =>
      cases op with
      | savepoint name => exact (not_disturbs_savepoint hrun hd).elim
      | rollbackTo name => exact (hback name rfl).elim
      | upsertFile | insertSymbols | deleteSymbol | deleteChunks | deleteContents
      | deleteFileLevel | insertChunks => cases hw

/-- Operations that go by the number of a symbol are carried out under all rules. -/
theorem run_of_bySymbol (tx : Transaction) (hop : op.bySymbol = true) :
    ∃ rows, ∀ rules, op.run rules tx = .ok (.done, { tx with working := rows }) := by
  cases op with
  | deleteSymbol symbol => exact ⟨tx.working.deleteSymbol symbol, fun _ => rfl⟩
  | deleteChunks symbol => exact ⟨tx.working.deleteChunks symbol, fun _ => rfl⟩
  | upsertFile | insertSymbols | deleteContents | deleteFileLevel | insertChunks | savepoint
  | rollbackTo => cases hop

end TransactionOp

/-! ## Sessions -/

namespace StoreSession

variable {s : StoreSession} {tx : Transaction} {op : TransactionOp} {path : String}

theorem run_within_of_error {fault : Fault} (ho : s.open? = some tx)
    (hrun : op.run s.store.rules tx = .error fault) :
    (StoreOp.within op).run s = (.failed fault, s) := by
  rw [StoreOp.run, onTransaction_of_some ho, hrun]

theorem run_within_of_ok {reply : TransactionReply} {tx' : Transaction} (ho : s.open? = some tx)
    (hrun : op.run s.store.rules tx = .ok (reply, tx')) :
    (StoreOp.within op).run s = (.within reply, { s with open? := some tx' }) := by
  rw [StoreOp.run, onTransaction_of_some ho, hrun]

/-- **Writes that touch a rejected path fail, unless they go by the number of a symbol.**
    In a session on a store that was empty at first, let an operation other than a return to
    a savepoint be one that would insert, replace or delete a row of a file whose path is
    rejected.  It fails, the fault names the path, and nothing changes.  But to delete a
    symbol, or the chunks of a symbol, by its number no path is looked up: the operation is
    carried out and the row of the rejected path is gone. -/
theorem rejected_unless_by_symbol {savepoints : Bool} {history : List StoreOp}
    (hs : (fresh savepoints).after history = s) (ho : s.open? = some tx)
    (hback : ∀ name, op ≠ .rollbackTo name) (hpath : path ∈ s.store.rules.rejected)
    (ht : op.Touches tx path) :
    (op.bySymbol = false →
      (StoreOp.within op).run s = (.failed (.storage s!"write rejected for {path}"), s)) ∧
    (op.bySymbol = true → ∃ rows,
      (StoreOp.within op).run s =
        (.within .done, { s with open? := some { tx with working := rows } }) ∧
      tx.working.Disturbs rows path) := by
  constructor
  · intro hop
    have hanchored : s.Anchored := hs ▸ ((fresh_anchored savepoints).leads_after history).1
    have htidy := (hanchored.copies ho tx.working List.mem_cons_self).1
    obtain ⟨⟨result, hw⟩, htarget⟩ :=
      TransactionOp.target?_of_touches htidy.toWellFormed hop hback ht
    refine run_within_of_error ho ?_
    rw [TransactionOp.run_of_written hw, TransactionOp.check_of_rejected htarget hpath]
    rfl
  · intro hop
    obtain ⟨rows, hrun⟩ := TransactionOp.run_of_bySymbol tx hop
    refine ⟨rows, run_within_of_ok ho (hrun s.store.rules), ?_⟩
    rcases ht with ⟨content, rfl⟩ | ⟨rules, reply, tx', hrun', hd⟩
    · cases hop
    · rw [hrun rules] at hrun'
      cases hrun'
      exact hd

/-- A session with one file, which has one symbol and whose path is then rejected. -/
def guarded : StoreSession :=
  (fresh true).after
    [.openTransaction, .within (.upsertFile "p" "fn a"),
      .within (.insertSymbols 1 [⟨"a", .function, 1, 0, 1, 4⟩]), .failWrites "p"]

/-- The transaction of that session. -/
def guardedTransaction : Transaction :=
  { working := ((({} : Rows).upsertFile "p" "fn a").2.insertSymbols 1
      [⟨"a", .function, 1, 0, 1, 4⟩]).2 }

theorem open?_guarded : guarded.open? = some guardedTransaction := rfl

theorem rejected_guarded : "p" ∈ guarded.store.rules.rejected := List.mem_singleton.2 rfl

/-- Rows without its symbol differ in a row of the rejected path. -/
theorem disturbs_guarded {rows : Rows} (hgone : rows.symbols.get? 1 = none) :
    guardedTransaction.working.Disturbs rows "p" := by
  refine .symbol (r := ⟨1, 1, ⟨"a", .function, 1, 0, 1, 4⟩⟩) ⟨1, ?_, Or.inl rfl⟩ rfl
  rw [hgone]
  exact Option.some_ne_none _

/-- The contents of a file whose path is rejected stay, but one of its symbols goes. -/
theorem rejected_unless_by_symbol_guarded :
    (TransactionOp.deleteContents 1).Touches guardedTransaction "p" ∧
      (StoreOp.within (.deleteContents 1)).run guarded =
        (.failed (.storage "write rejected for p"), guarded) ∧
      (TransactionOp.deleteSymbol 1).Touches guardedTransaction "p" ∧
      ∃ rows,
        (StoreOp.within (.deleteSymbol 1)).run guarded =
          (.within .done,
            { guarded with open? := some { guardedTransaction with working := rows } }) ∧
        guardedTransaction.working.Disturbs rows "p" := by
  have hcontents : (TransactionOp.deleteContents 1).Touches guardedTransaction "p" :=
    Or.inr ⟨{}, _, _, rfl, disturbs_guarded rfl⟩
  have hsymbol : (TransactionOp.deleteSymbol 1).Touches guardedTransaction "p" :=
    Or.inr ⟨{}, _, _, rfl, disturbs_guarded rfl⟩
  exact ⟨hcontents,
    (rejected_unless_by_symbol rfl open?_guarded (by simp) rejected_guarded hcontents).1 rfl,
    hsymbol,
    (rejected_unless_by_symbol rfl open?_guarded (by simp) rejected_guarded hsymbol).2 rfl⟩

/-- A symbol of a rejected path that is deleted. -/
theorem rejection_bypassed :
    "p" ∈ guarded.store.rules.rejected ∧ guarded.open? = some guardedTransaction ∧
      ∃ rows, guardedTransaction.working.Disturbs rows "p" ∧
        (StoreOp.within (.deleteSymbol 1)).run guarded =
          (.within .done,
            { guarded with open? := some { guardedTransaction with working := rows } }) :=
  ⟨rejected_guarded, open?_guarded, guardedTransaction.working.deleteSymbol 1,
    disturbs_guarded rfl, rfl⟩

end StoreSession

end SourceIndex
