/-
  The counts of a report are those of the rows before and after the write.

  * `Chunker.Points`: a chunker whose chunks point into the list of symbols it was handed;
  * `FileReport.Accurate`: the counts of a report, read off the rows before and after;
  * `Gains`: a list of rows that keeps some rows of another one and gains rows with new
    numbers;
  * `FileReport.Explains`: what is stored for the path of a report gains as many rows as
    the report says;
  * `Prepared.Fits.explains`: so it does when a file is written, however it is written;
  * `Coherent.accurate`: the reports on files that are written one after another are
    accurate.
-/
import SourceIndex.Proofs.Chunks
import SourceIndex.Proofs.Classification
import SourceIndex.Proofs.Frame

namespace SourceIndex

variable {rows : Rows}

/-- The place of a symbol that a chunk names is one in the list that was handed to the
    chunker. -/
def Chunker.Points (chunker : Chunker) : Prop :=
  ∀ content symbols, ∀ c ∈ chunker content symbols, ∀ i ∈ c.symbolIndex, i < symbols.length

theorem points_chunkFile (maxLines : Nat) : Chunker.Points (chunkFile maxLines) := by
  intro content symbols c hc i hi
  rw [chunkFile_eq] at hc
  rcases List.mem_append.1 hc with hc | hc
  · obtain ⟨entry, hentry, hc⟩ := List.mem_flatMap.1 hc
    obtain ⟨range, -, rfl⟩ := List.mem_map.1 hc
    cases hi
    exact List.snd_lt_of_mem_zipIdx hentry
  · obtain ⟨range, -, rfl⟩ := List.mem_map.1 hc
    cases hi

/-! ## Reports and rows -/

/-- The counts of a report are those of what is stored for its path before and after. -/
structure FileReport.Accurate (report : FileReport) (rows rows' : Rows) : Prop where
  change : (rows'.symbolsAt report.path).length + report.removed =
    (rows.symbolsAt report.path).length + report.added
  total : report.added + report.modified + report.unchanged =
    (rows'.symbolsAt report.path).length
  newSymbols : (rows'.symbolsAt report.path).countP (·.id ∉ rows.symbols.keys) =
    report.added + report.modified
  newChunks : (rows'.chunksAt report.path).countP (·.id ∉ rows.chunks.keys) =
    report.chunksWritten

/-- The new list has some rows of the old one, and `count` rows with numbers after
    `last`. -/
def Gains {α : Type} (number : α → Nat) (last : Nat) (old new : List α) (count : Nat) : Prop :=
  ∃ stay fresh, new.Perm (stay ++ fresh) ∧ (∀ a ∈ stay, a ∈ old) ∧
    (∀ a ∈ fresh, last < number a) ∧ fresh.length = count

namespace Gains

variable {α : Type} {number : α → Nat} {last count : Nat} {old new : List α}

theorem refl (number : α → Nat) (last : Nat) (old : List α) : Gains number last old old 0 :=
  ⟨old, [], by rw [List.append_nil], fun _ ha => ha, List.forall_mem_nil _, rfl⟩

theorem mono (h : Gains number last old new count) {last' : Nat} (hle : last' ≤ last) :
    Gains number last' old new count := by
  obtain ⟨stay, fresh, hperm, hstay, hfresh, hlength⟩ := h
  exact ⟨stay, fresh, hperm, hstay, fun a ha => Nat.lt_of_le_of_lt hle (hfresh a ha), hlength⟩

theorem countP_notMem (h : Gains number last old new count) {keys : List Nat}
    (hold : ∀ a ∈ old, number a ∈ keys) (hle : ∀ k ∈ keys, k ≤ last) :
    new.countP (number · ∉ keys) = count := by
  obtain ⟨stay, fresh, hperm, hstay, hfresh, rfl⟩ := h
  have hnone : stay.countP (number · ∉ keys) = 0 :=
    List.countP_eq_zero.2 fun a ha hnot => of_decide_eq_true hnot (hold a (hstay a ha))
  have hall : fresh.countP (number · ∉ keys) = fresh.length :=
    List.countP_eq_length.2 fun a ha => decide_eq_true fun hk =>
      Nat.not_le_of_lt (hfresh a ha) (hle _ hk)
  rw [hperm.countP_eq, List.countP_append, hnone, hall, Nat.zero_add]

end Gains

/-- What is stored for a path gains the rows that the report says, with numbers after
    `lastSymbol` and `lastChunk`. -/
structure FileReport.Explains (report : FileReport) (lastSymbol : SymbolId) (lastChunk : ChunkId)
    (old new : StoreDump) : Prop where
  change : new.symbols.length + report.removed = old.symbols.length + report.added
  total : report.added + report.modified + report.unchanged = new.symbols.length
  symbols : Gains SymbolRecord.id lastSymbol old.symbols new.symbols
    (report.added + report.modified)
  chunks : Gains StoredChunk.id lastChunk old.chunks new.chunks report.chunksWritten

namespace Rows

variable {rows rows' : Rows} {path : String}

theorem WellFormed.id_mem_of_mem_symbolsAt (h : rows.WellFormed) {r : SymbolRecord}
    (hr : r ∈ rows.symbolsAt path) : r.id ∈ rows.symbols.keys := by
  unfold symbolsAt at hr
  split at hr
  · have hm := (perm_symbolsOf rows _).mem_iff.1 hr
    exact Table.mem_keys_iff.2 ⟨r, (h.mem_recordsOf.1 hm).1⟩
  · cases hr

theorem WellFormed.id_mem_of_mem_chunksAt (h : rows.WellFormed) {c : StoredChunk}
    (hc : c ∈ rows.chunksAt path) : c.id ∈ rows.chunks.keys := by
  unfold chunksAt at hc
  split at hc
  · exact Table.mem_keys_iff.2 ⟨c, (h.mem_chunksOf.1 hc).1⟩
  · cases hc

theorem length_newRecords (last : SymbolId) (file : FileId) (symbols : List Symbol) :
    (newRecords last file symbols).length = symbols.length := by
  rw [← List.length_map (·.symbol), map_symbol_newRecords]

theorem length_newChunks (last : ChunkId) (file : FileId) (owned : List (Chunk × Option SymbolId)) :
    (newChunks last file owned).length = owned.length := by
  have hlength := congrArg List.length (map_newChunks id last file owned)
  rwa [List.length_map, List.length_map] at hlength

end Rows

theorem FileReport.Explains.accurate {report : FileReport} {rows' : Rows}
    (h : report.Explains rows.lastSymbol rows.lastChunk (rows.dump report.path)
      (rows'.dump report.path)) (hw : rows.WellFormed) : report.Accurate rows rows' where
  change := h.change
  total := h.total
  newSymbols := h.symbols.countP_notMem (fun _ hr => hw.id_mem_of_mem_symbolsAt hr)
    hw.symbol_keys_le
  newChunks := h.chunks.countP_notMem (fun _ hc => hw.id_mem_of_mem_chunksAt hc) hw.chunk_keys_le

/-- The report on content that is stored already is accurate if nothing is written. -/
theorem FileReport.accurate_unchangedContent (hw : rows.WellFormed) (path : String) :
    (FileReport.unchangedContent path (rows.prior path).symbols.length).Accurate rows rows := by
  refine FileReport.Explains.accurate ⟨rfl, ?_, .refl _ _ _, .refl _ _ _⟩ hw
  rw [hw.prior_eq]
  exact Nat.zero_add _

/-! ## Writing a file -/

namespace Prepared

open Rows

section
variable {rows : Rows} {file : FileId} (chunker : Chunker) (content : String)
  (symbols : List Symbol)

/-- The chunks of symbols that are written, as many as are counted.  If they are those of
    symbols only, each has its symbol. -/
theorem exists_chunks_symbolRows (topLevel : Bool) (h : rows.WellFormed)
    (hf : file ∈ rows.files.keys) :
    ∃ owned, (symbolRows chunker file content symbols topLevel rows).2.chunksOf file =
        rows.chunksOf file ++ newChunks rows.lastChunk file owned ∧
      owned.length = (symbolRows chunker file content symbols topLevel rows).1 ∧
      (chunker.Points → topLevel = false → ∀ o ∈ owned, o.2.isSome) := by
  unfold symbolRows
  split
  · exact ⟨[], (List.append_nil _).symm, rfl, fun _ _ => List.forall_mem_nil _⟩
  have hw := h.insertSymbols hf symbols
  have hlast := insertSymbols_eq file symbols h.symbol_keys_le
  rw [chunksOf_insertChunks hw, if_pos rfl, chunksOf_insertSymbols h, hlast]
  refine ⟨_, rfl, by simp, fun hpoints htop o ho => ?_⟩
  subst htop
  obtain ⟨c, hc, ho⟩ := List.mem_map.1 (List.of_mem_zip ho).2
  obtain ⟨hc, hsome⟩ := List.mem_filter.1 hc
  obtain ⟨i, hi⟩ := Option.isSome_iff_exists.1 hsome
  -- the symbols stored just before have a number for each place
  have hlt : i < (List.range symbols.length).length := by
    rw [List.length_range]
    exact hpoints content symbols c hc i hi
  rw [← ho, hi, Option.bind_some, insertSymbols, List.getElem?_map, List.getElem?_eq_getElem hlt]
  rfl

theorem exists_chunks_fileLevelRows (file : FileId) (h : rows.WellFormed) :
    ∃ loose, (fileLevelRows chunker file content symbols rows).2.chunksOf file =
        (rows.chunksOf file).filter (·.symbolId.isSome) ++ newChunks rows.lastChunk file loose ∧
      loose.length = (fileLevelRows chunker file content symbols rows).1 := by
  unfold fileLevelRows
  rw [chunksOf_insertChunks (h.deleteFileLevel file), if_pos rfl, chunksOf_deleteFileLevel,
    if_pos rfl]
  exact ⟨_, rfl, by simp⟩

end

variable {policy : DiffPolicy} {rows : Rows} {f : Prepared} {chunker : Chunker}
  {previous : FileRecord}

/-- The rows once the changed symbols of a file are written, with the chunks of these
    symbols; the number of chunks. -/
def changedRows (chunker : Chunker) (f : Prepared) (previous : FileRecord) (rows : Rows) :
    Nat × Rows :=
  symbolRows chunker previous.id f.content (f.diff.added ++ f.diff.modified) false
    (rows.dropAll (f.diff.affectedIds ++ f.diff.replacedIds))

theorem incrementalRows_eq (chunker : Chunker) (f : Prepared) (previous : FileRecord)
    (rows : Rows) : f.incrementalRows chunker previous rows =
      ((f.changedRows chunker previous rows).1 + (fileLevelRows chunker previous.id f.content
          f.parsed.symbols (f.changedRows chunker previous rows).2).1,
        ((fileLevelRows chunker previous.id f.content f.parsed.symbols
          (f.changedRows chunker previous rows).2).2.upsertFile f.path f.content).2) := rfl

section
variable {previous : FileRecord} (chunker : Chunker) (h : f.Fits policy rows) (hs : rows.Sound)
  (hp : f.previous = some previous)
include h hs hp

theorem Fits.mem_files_dropAll : previous.id ∈
    (rows.dropAll (f.diff.affectedIds ++ f.diff.replacedIds)).files.keys := by
  rw [(rows.dropAll_files _).1]
  exact h.mem_files hs.toWellFormed hp

theorem Fits.sound_changedRows : (f.changedRows chunker previous rows).2.Sound :=
  sound_symbolRows chunker f.content (f.diff.added ++ f.diff.modified) false (hs.dropAll _)
    (h.mem_files_dropAll hs hp)

theorem Fits.last_changedRows :
    rows.lastSymbol ≤ (f.changedRows chunker previous rows).2.lastSymbol ∧
      rows.lastChunk ≤ (f.changedRows chunker previous rows).2.lastChunk := by
  have hlast := last_symbolRows chunker f.content (f.diff.added ++ f.diff.modified) false
    (hs.dropAll _).toWellFormed (h.mem_files_dropAll hs hp)
  obtain ⟨-, -, hsymbol, hchunk⟩ :=
    rows.dropAll_files (f.diff.affectedIds ++ f.diff.replacedIds)
  rwa [hsymbol, hchunk] at hlast

end

theorem Fits.last_le (chunker : Chunker) (h : f.Fits policy rows) (hs : rows.Sound) :
    rows.lastSymbol ≤ (f.rowsAfter chunker rows).lastSymbol ∧
      rows.lastChunk ≤ (f.rowsAfter chunker rows).lastChunk := by
  unfold rowsAfter
  rcases f.mode_cases with ⟨previous, hp, -, he⟩ | ⟨-, he⟩
  · have hsound := h.sound_changedRows chunker hs hp
    have hlast := h.last_changedRows chunker hs hp
    obtain ⟨-, -, hsymbol, hchunk⟩ := upsertFile_symbols (fileLevelRows chunker previous.id
      f.content f.parsed.symbols (f.changedRows chunker previous rows).2).2 f.path f.content
    rw [he, incrementalRows_eq, hsymbol, hchunk, fileLevelRows,
      insertChunks_eq _ _ (hsound.toWellFormed.deleteFileLevel previous.id).chunk_keys_le]
    exact ⟨hlast.1, Nat.le_trans hlast.2 (Nat.le_add_right _ _)⟩
  · have hd := (hs.upsertFile f.path f.content).deleteContents (f.fileId rows)
    have hlast := last_symbolRows chunker f.content f.parsed.symbols true hd.toWellFormed
      (mem_files_upsertFile hs.toWellFormed f.path f.content)
    obtain ⟨-, -, hsymbol, hchunk⟩ := upsertFile_symbols rows f.path f.content
    rw [he, fullRows_eq]
    exact ⟨Nat.le_trans (Nat.le_of_eq hsymbol.symm) hlast.1,
      Nat.le_trans (Nat.le_of_eq hchunk.symm) hlast.2⟩

/-- A file that is written as a whole has the chunks that were counted. -/
theorem gains_chunks_full (chunker : Chunker) (f : Prepared) (hs : rows.Sound)
    (old : List StoredChunk) :
    Gains StoredChunk.id rows.lastChunk old ((f.fullRows chunker rows).2.chunksOf (f.fileId rows))
      (f.fullRows chunker rows).1 := by
  have hd := (hs.upsertFile f.path f.content).deleteContents (f.fileId rows)
  have hkey : f.fileId rows ∈
      ((rows.upsertFile f.path f.content).2.deleteContents (f.fileId rows)).files.keys :=
    mem_files_upsertFile hs.toWellFormed f.path f.content
  obtain ⟨owned, hchunks, hcount, -⟩ := exists_chunks_symbolRows chunker f.content
    f.parsed.symbols true hd.toWellFormed hkey
  rw [chunksOf_deleteContents, if_pos rfl, ← fullRows_eq] at hchunks
  rw [← fullRows_eq] at hcount
  refine ⟨[], _, .of_eq hchunks, List.forall_mem_nil _, fun c hc => ?_, ?_⟩
  · exact (upsertFile_symbols rows f.path f.content).2.2.2 ▸ (mem_newChunks hc).1
  · rw [length_newChunks, hcount]

/-- A file that is written symbol by symbol keeps chunks of symbols that stay, and gains
    those that were counted: none of the chunks written with a symbol is one outside every
    symbol, so none goes again. -/
theorem Fits.gains_chunks_incremental (hpoints : chunker.Points) (h : f.Fits policy rows)
    (hs : rows.Sound) (hp : f.previous = some previous) :
    Gains StoredChunk.id rows.lastChunk (rows.chunksOf previous.id)
      ((f.incrementalRows chunker previous rows).2.chunksOf previous.id)
      (f.incrementalRows chunker previous rows).1 := by
  obtain ⟨owned, howned, hcount, hsome⟩ := exists_chunks_symbolRows chunker f.content
    (f.diff.added ++ f.diff.modified) false (hs.dropAll _).toWellFormed
    (h.mem_files_dropAll hs hp)
  rw [(rows.dropAll_files _).2.2.2, ← changedRows] at howned
  rw [← changedRows] at hcount
  obtain ⟨loose, hloose, hcount'⟩ := exists_chunks_fileLevelRows chunker f.content
    f.parsed.symbols previous.id (h.sound_changedRows chunker hs hp).toWellFormed
  have hstay : ∀ c ∈ newChunks rows.lastChunk previous.id owned, c.symbolId.isSome := fun c hc =>
    hsome hpoints rfl _ (mem_newChunks hc).2.2.2
  rw [incrementalRows_eq, chunksOf_upsertFile, hloose, howned, List.filter_append,
    List.filter_eq_self.2 hstay, List.append_assoc]
  refine ⟨_, _, .refl _, fun c hc => ?_, fun c hc => ?_, ?_⟩
  · rw [chunksOf_dropAll] at hc
    exact (List.mem_filter.1 (List.mem_filter.1 hc).1).1
  · rcases List.mem_append.1 hc with hc | hc
    · exact (mem_newChunks hc).1
    · exact Nat.lt_of_le_of_lt (h.last_changedRows chunker hs hp).2 (mem_newChunks hc).1
  · rw [List.length_append, length_newChunks, length_newChunks, hcount, hcount']

/-- Every stored symbol of a file that is written symbol by symbol is removed, modified or
    unchanged. -/
theorem Fits.length_symbolsOf (h : f.Fits policy rows) (hp : f.previous = some previous)
    (hd : f.diff.needsFull = false) :
    (rows.symbolsOf previous.id).length =
      f.diff.removed.length + f.diff.modified.length + f.diff.unchanged.length := by
  obtain ⟨judged, hj, he⟩ := h.judged hp hd
  have hlength := hj.perm_keys.length_eq
  rw [← he] at hlength
  simp only [List.length_map, List.length_append] at hlength
  exact hlength.symm

/-- A file that is written as a whole: all its symbols have new rows. -/
theorem Fits.explains_full (chunker : Chunker) (h : f.Fits policy rows) (hs : rows.Sound)
    (hmode : f.mode = .full) (he : f.written chunker = f.fullRows chunker) :
    (f.report (f.written chunker rows).1).Explains rows.lastSymbol rows.lastChunk
      (rows.dump f.path) ((f.rowsAfter chunker rows).dump f.path) := by
  have hr := h.rewritten chunker hs
  rw [hr.sound.dump_of_some hr.file?_self, rowsAfter, he]
  have hperm := perm_symbolsOf (f.fullRows chunker rows).2 (f.fileId rows)
  rw [recordsOf_fullRows chunker f hs] at hperm
  have hlength := hperm.length_eq
  rw [length_newRecords] at hlength
  have hold : f.oldSymbolCount = (rows.dump f.path).symbols.length := by
    rw [h.oldSymbolCount_eq, hs.toWellFormed.prior_eq]
  refine ⟨?_, ?_, ⟨[], _, hperm, List.forall_mem_nil _, fun r hr => (mem_newRecords hr).1, ?_⟩,
    gains_chunks_full chunker f hs _⟩
  · simp only [report, hmode, if_true]
    omega
  · simp only [report, hmode, if_true]
    omega
  · rw [length_newRecords]
    simp only [report, hmode, if_true, Nat.add_zero]

/-- A file that is written symbol by symbol: the rows of unchanged symbols stay, and those
    that are added or modified have new ones. -/
theorem Fits.explains_incremental (hpoints : chunker.Points) (h : f.Fits policy rows)
    (hs : rows.Sound) (hp : f.previous = some previous) (hd : f.diff.needsFull = false)
    (he : f.written chunker = f.incrementalRows chunker previous) :
    (f.report (f.written chunker rows).1).Explains rows.lastSymbol rows.lastChunk
      (rows.dump f.path) ((f.rowsAfter chunker rows).dump f.path) := by
  have hw := hs.toWellFormed
  have hr := h.rewritten chunker hs
  have hmode : f.mode = .incremental := by
    rw [mode, hd, hp]
    rfl
  rw [hr.sound.dump_of_some hr.file?_self, hw.dump_of_some (h.file?_eq.trans hp),
    h.fileId_eq hw hp, rowsAfter, he]
  have hperm := perm_symbolsOf (f.incrementalRows chunker previous rows).2 previous.id
  rw [h.recordsOf_incrementalRows chunker hs hp] at hperm
  obtain ⟨judged, -, hkept, hunchanged, -⟩ := h.stays hw hp hd
  have hlength := hperm.length_eq
  rw [List.length_append, hkept.length_eq, length_newRecords, List.length_append, List.length_map,
    ← List.length_map Prod.fst, ← hunchanged] at hlength
  have hold := h.length_symbolsOf hp hd
  refine ⟨?_, ?_, ⟨_, _, hperm, fun r hr => ?_, fun r hr => (mem_newRecords hr).1, ?_⟩,
    h.gains_chunks_incremental hpoints hs hp⟩
  · simp only [report, hmode, reduceCtorEq, if_false]
    omega
  · simp only [report, hmode, reduceCtorEq, if_false]
    omega
  · exact (perm_symbolsOf rows previous.id).mem_iff.2 (List.mem_filter.1 hr).1
  · rw [length_newRecords, List.length_append]
    simp only [report, hmode, reduceCtorEq, if_false]

/-- The report on a file that is written explains what is stored for its path then. -/
theorem Fits.explains (hpoints : chunker.Points) (h : f.Fits policy rows) (hs : rows.Sound) :
    (f.report (f.written chunker rows).1).Explains rows.lastSymbol rows.lastChunk
      (rows.dump f.path) ((f.rowsAfter chunker rows).dump f.path) := by
  rcases f.mode_cases with ⟨previous, hp, hd, he⟩ | ⟨hmode, he⟩
  · exact h.explains_incremental hpoints hs hp hd he
  · exact h.explains_full chunker hs hmode he

end Prepared

namespace Coherent

variable {policy : DiffPolicy} {chunker : Chunker} {rows : Rows} {files : List Prepared}

theorem last_le (h : Coherent policy chunker rows files) (hs : rows.Sound) :
    rows.lastSymbol ≤ (replay chunker rows files).lastSymbol ∧
      rows.lastChunk ≤ (replay chunker rows files).lastChunk := by
  induction files generalizing rows with
  | nil => exact ⟨Nat.le_refl _, Nat.le_refl _⟩
  | cons f files ih =>
    have hfirst := h.1.last_le chunker hs
    have hrest := ih h.2 (h.1.sound_rowsAfter chunker hs)
    exact ⟨Nat.le_trans hfirst.1 hrest.1, Nat.le_trans hfirst.2 hrest.2⟩

/-- The reports on files of different paths that are written one after another are all
    accurate for the rows before the first and after the last of them. -/
theorem accurate (h : Coherent policy chunker rows files) (hs : rows.Sound)
    (hpoints : chunker.Points) (hn : (files.map (·.path)).Nodup) {f : Prepared} (hf : f ∈ files) :
    (f.report (f.written chunker {}).1).Accurate rows (replay chunker rows files) := by
  obtain ⟨before, after, rfl⟩ := List.append_of_mem hf
  obtain ⟨hbefore, hfits, hafter⟩ := coherent_append.1 h
  have hsound := hbefore.sound hs
  have hnot := (List.nodup_cons.1 ((List.perm_middle.map Prepared.path).nodup_iff.1 hn)).1
  rw [List.map_append, List.mem_append, not_or] at hnot
  have hexplains := hfits.explains hpoints hsound
  have hlast := hbefore.last_le hs
  -- the files before and after do not concern the path
  rw [hbefore.dump_replay hs hnot.1,
    ← hafter.dump_replay (hfits.sound_rowsAfter chunker hsound) hnot.2,
    f.written_fst chunker _ {}] at hexplains
  rw [replay_append]
  exact FileReport.Explains.accurate { hexplains with
    symbols := hexplains.symbols.mono hlast.1
    chunks := hexplains.chunks.mono hlast.2 } hs.toWellFormed

end Coherent

end SourceIndex
