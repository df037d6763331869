/-
  What writing a file does to the rows of every path.

  * `Rows.Sound`: rows that are well formed, where a chunk of a symbol lies in the
    file of that symbol;
  * `Prepared.Fits`: a file that was compared with what the rows hold for its path;
  * `Fits.sound_rowsAfter`: writing such a file keeps rows sound;
  * `Fits.dump_rowsAfter`: it leaves what is stored for every other path as it is;
  * `replay`, `Coherent`: many files written one after another.
-/
import SourceIndex.Proofs.Diff
import SourceIndex.Proofs.Writing

namespace SourceIndex

namespace Rows

variable {rows rows' : Rows} {path : String} {file : FileId}

/-! ## What is stored for a path -/

/-- What is stored for a path. -/
def dump (rows : Rows) (path : String) : StoreDump :=
  ⟨rows.file? path, rows.symbolsAt path, rows.chunksAt path⟩

theorem WellFormed.dump_of_some (h : rows.WellFormed) {file : FileRecord}
    (hf : rows.file? path = some file) :
    rows.dump path = ⟨some file, rows.symbolsOf file.id, rows.chunksOf file.id⟩ := by
  rw [dump, hf, symbolsAt, chunksAt, (h.file? hf).2.1]

theorem WellFormed.dump_of_none (h : rows.WellFormed) (hf : rows.file? path = none) :
    rows.dump path = ⟨none, [], []⟩ := by
  rw [dump, hf, symbolsAt, chunksAt, h.file?_eq_none hf]

/-- What the preparation of a file reads is part of what is stored for its path. -/
theorem WellFormed.prior_eq (h : rows.WellFormed) (path : String) :
    rows.prior path = ⟨(rows.dump path).file, (rows.dump path).symbols⟩ := by
  unfold prior
  cases hf : rows.file? path with
  | some file => rw [h.dump_of_some hf]
  | none => rw [h.dump_of_none hf]

theorem WellFormed.prior_congr (h : rows.WellFormed) (h' : rows'.WellFormed)
    (he : rows'.dump path = rows.dump path) : rows'.prior path = rows.prior path := by
  rw [h'.prior_eq, h.prior_eq, he]

/-- Two rows that agree outside one file. -/
structure AgreeOutside (file : FileId) (rows rows' : Rows) : Prop where
  recordsOf : ∀ {other}, other ≠ file → rows'.recordsOf other = rows.recordsOf other
  chunksOf : ∀ {other}, other ≠ file → rows'.chunksOf other = rows.chunksOf other

theorem AgreeOutside.trans {rows'' : Rows} (h : AgreeOutside file rows rows')
    (h' : AgreeOutside file rows' rows'') : AgreeOutside file rows rows'' where
  recordsOf ho := (h'.recordsOf ho).trans (h.recordsOf ho)
  chunksOf ho := (h'.chunksOf ho).trans (h.chunksOf ho)

/-- What is stored for a path only depends on its file and the rows of that file. -/
theorem AgreeOutside.dump_eq (ha : AgreeOutside file rows rows') (h : rows.WellFormed)
    (h' : rows'.WellFormed) (hp : rows'.file? path = rows.file? path)
    (hne : ∀ g, rows.file? path = some g → g.id ≠ file) : rows'.dump path = rows.dump path := by
  cases hf : rows.file? path with
  | none => rw [h.dump_of_none hf, h'.dump_of_none (hp.trans hf)]
  | some g =>
    rw [h.dump_of_some hf, h'.dump_of_some (hp.trans hf),
      symbolsOf_congr (ha.recordsOf (hne g hf)), ha.chunksOf (hne g hf)]

/-! ## Chunks and their symbols -/

/-- Rows that are well formed, where a chunk of a symbol lies in the file of that
    symbol. -/
structure Sound (rows : Rows) : Prop extends WellFormed rows where
  owner : ∀ {id c s}, rows.chunks.get? id = some c → c.symbolId = some s →
    ∃ r, rows.symbols.get? s = some r ∧ r.fileId = c.fileId

namespace Sound

theorem empty : Sound {} where
  toWellFormed := .empty
  owner hc := by simp [Table.get?, Table.find?] at hc

theorem drop (h : rows.Sound) (id : SymbolId) :
    ((rows.deleteChunks id).deleteSymbol id).Sound where
  toWellFormed := (h.deleteChunks id).deleteSymbol id
  owner {_ c s} hc hs := by
    rw [deleteSymbol, deleteChunks, Table.get?_keep h.chunks_nodup] at hc
    obtain ⟨hc, hne⟩ := Option.filter_eq_some_iff.1 hc
    obtain ⟨r, hr, hf⟩ := h.owner hc hs
    refine ⟨r, ?_, hf⟩
    rw [deleteSymbol, deleteChunks, Table.get?_erase, if_neg, hr]
    rintro rfl
    simp [hs] at hne

theorem dropAll (h : rows.Sound) (ids : List SymbolId) : (rows.dropAll ids).Sound := by
  induction ids generalizing rows with
  | nil => exact h
  | cons id ids ih => exact ih (h.drop id)

theorem deleteContents (h : rows.Sound) (file : FileId) : (rows.deleteContents file).Sound where
  toWellFormed := h.toWellFormed.deleteContents file
  owner {_ c s} hc hs := by
    rw [Rows.deleteContents, Table.get?_keep h.chunks_nodup] at hc
    obtain ⟨hc, hne⟩ := Option.filter_eq_some_iff.1 hc
    obtain ⟨r, hr, hf⟩ := h.owner hc hs
    refine ⟨r, ?_, hf⟩
    rw [Rows.deleteContents, Table.get?_keep h.symbols_nodup, hr]
    exact Option.filter_eq_some_iff.2 ⟨rfl, by simpa [hf] using hne⟩

theorem deleteFileLevel (h : rows.Sound) (file : FileId) : (rows.deleteFileLevel file).Sound where
  toWellFormed := h.toWellFormed.deleteFileLevel file
  owner hc hs := by
    rw [Rows.deleteFileLevel, Table.get?_keep h.chunks_nodup] at hc
    exact h.owner (Option.filter_eq_some_iff.1 hc).1 hs

theorem upsertFile (h : rows.Sound) (path content : String) :
    (rows.upsertFile path content).2.Sound where
  toWellFormed := h.toWellFormed.upsertFile path content
  owner hc hs := by
    obtain ⟨hsymbols, hchunks, -⟩ := upsertFile_symbols rows path content
    rw [hchunks] at hc
    rw [hsymbols]
    exact h.owner hc hs

theorem insertSymbol (h : rows.Sound) (hf : file ∈ rows.files.keys) (s : Symbol) :
    (rows.insertSymbol file s).Sound where
  toWellFormed := h.toWellFormed.insertSymbol hf s
  owner hc hs := by
    obtain ⟨r, hr, hfile⟩ := h.owner hc hs
    refine ⟨r, ?_, hfile⟩
    rw [Rows.insertSymbol, Table.get?_put, if_neg, hr]
    rintro rfl
    exact Nat.not_succ_le_self _ (h.symbol_le hr).2

theorem insertSymbols (h : rows.Sound) (hf : file ∈ rows.files.keys) (ss : List Symbol) :
    (rows.insertSymbols file ss).2.Sound := by
  unfold Rows.insertSymbols
  induction ss generalizing rows with
  | nil => exact h
  | cons s ss ih => exact ih (h.insertSymbol hf s) hf

theorem insertChunk (h : rows.Sound) (hf : file ∈ rows.files.keys) (chunk : Chunk)
    {owner : Option SymbolId}
    (ho : ∀ s, owner = some s → ∃ r, rows.symbols.get? s = some r ∧ r.fileId = file) :
    (rows.insertChunk file chunk owner).Sound where
  toWellFormed := h.toWellFormed.insertChunk hf chunk owner
  owner {id c s} hc hs := by
    rcases Table.get?_of_put hc with ⟨-, rfl⟩ | ⟨-, hc⟩
    · exact ho s hs
    · exact h.owner hc hs

theorem insertChunks (h : rows.Sound) (hf : file ∈ rows.files.keys)
    {os : List (Chunk × Option SymbolId)}
    (ho : ∀ o ∈ os, ∀ s, o.2 = some s → ∃ r, rows.symbols.get? s = some r ∧ r.fileId = file) :
    (rows.insertChunks file os).Sound := by
  unfold Rows.insertChunks
  induction os generalizing rows with
  | nil => exact h
  | cons o os ih =>
    exact ih (h.insertChunk hf o.1 (ho o List.mem_cons_self)) hf
      fun o' ho' => ho o' (List.mem_cons_of_mem _ ho')

theorem agreeOutside_dropAll (h : rows.Sound) {ids : List SymbolId}
    (hids : ∀ id ∈ ids, ∃ r, rows.symbols.get? id = some r ∧ r.fileId = file) :
    AgreeOutside file rows (rows.dropAll ids) where
  recordsOf {other} ho := by
    rw [recordsOf_dropAll h.toWellFormed]
    refine List.filter_eq_self.2 fun r hr => decide_eq_true fun hid => ?_
    obtain ⟨hr, hfile⟩ := h.mem_recordsOf.1 hr
    obtain ⟨r', hr', hfile'⟩ := hids _ hid
    rw [hr, Option.some.injEq] at hr'
    exact ho (hfile.symm.trans (hr' ▸ hfile'))
  chunksOf {other} ho := by
    rw [chunksOf_dropAll]
    refine List.filter_eq_self.2 fun c hc => decide_eq_true fun id hid hs => ?_
    obtain ⟨hc, hfile⟩ := h.mem_chunksOf.1 hc
    obtain ⟨r, hr, hfile'⟩ := hids _ hid
    obtain ⟨r', hr', hown⟩ := h.owner hc hs
    rw [hr, Option.some.injEq] at hr'
    exact ho (hfile.symm.trans (hown.symm.trans (hr' ▸ hfile')))

end Sound

end Rows

namespace Prepared

open Rows

variable {chunker : Chunker} {policy : DiffPolicy} {rows rows' : Rows}

/-! ## Writing symbols and chunks -/

section
variable {file : FileId} (chunker : Chunker) (content : String) (symbols : List Symbol)
  (topLevel : Bool)

theorem sound_symbolRows (h : rows.Sound) (hf : file ∈ rows.files.keys) :
    (symbolRows chunker file content symbols topLevel rows).2.Sound := by
  unfold symbolRows
  split
  · exact h
  have hs := h.insertSymbols hf symbols
  have hf' : file ∈ (rows.insertSymbols file symbols).2.files.keys := by
    rwa [(insertSymbols_files rows file symbols).1]
  refine hs.insertChunks hf' fun o ho s hos => ?_
  -- an owner is the number of one of the symbols stored just before
  obtain ⟨c, -, hc⟩ := List.mem_map.1 (List.of_mem_zip ho).2
  obtain ⟨i, -, hi⟩ := Option.bind_eq_some_iff.1 (hc.trans hos)
  have hids : (rows.insertSymbols file symbols).1 =
      (newRecords rows.lastSymbol file symbols).map (·.id) :=
    (map_id_newRecords _ _ _).symm
  rw [hids] at hi
  obtain ⟨r, hr, rfl⟩ := List.mem_map.1 (List.mem_of_getElem? hi)
  exact ⟨r, get?_newRecords h.toWellFormed hf hr, (mem_newRecords hr).2.2⟩

theorem agreeOutside_symbolRows (h : rows.Sound) (hf : file ∈ rows.files.keys) :
    AgreeOutside file rows (symbolRows chunker file content symbols topLevel rows).2 := by
  unfold symbolRows
  split
  · exact ⟨fun _ => rfl, fun _ => rfl⟩
  have hw := h.toWellFormed.insertSymbols hf symbols
  constructor
  · intro other ho
    rw [recordsOf_insertChunks hw, recordsOf_insertSymbols h.toWellFormed, if_neg ho,
      List.append_nil]
  · intro other ho
    rw [chunksOf_insertChunks hw, if_neg ho, List.append_nil, chunksOf_insertSymbols h.toWellFormed]

theorem recordsOf_symbolRows (h : rows.WellFormed) (hf : file ∈ rows.files.keys) :
    (symbolRows chunker file content symbols topLevel rows).2.recordsOf file =
      rows.recordsOf file ++ newRecords rows.lastSymbol file symbols := by
  unfold symbolRows
  split
  · rename_i he
    rw [Bool.and_eq_true, List.isEmpty_iff] at he
    rw [he.1]
    exact (List.append_nil _).symm
  · rw [recordsOf_insertChunks (h.insertSymbols hf symbols), recordsOf_insertSymbols h, if_pos rfl]

theorem sound_fileLevelRows (h : rows.Sound) (hf : file ∈ rows.files.keys) :
    (fileLevelRows chunker file content symbols rows).2.Sound := by
  refine (h.deleteFileLevel file).insertChunks hf fun o ho s hos => ?_
  obtain ⟨c, -, hc⟩ := List.mem_map.1 (List.of_mem_zip ho).2
  rw [hos] at hc
  cases hc

theorem agreeOutside_fileLevelRows (h : rows.Sound) :
    AgreeOutside file rows (fileLevelRows chunker file content symbols rows).2 := by
  have hw := h.toWellFormed.deleteFileLevel file
  constructor
  · intro other ho
    exact recordsOf_insertChunks hw _ _ _
  · intro other ho
    unfold fileLevelRows
    rw [chunksOf_insertChunks hw, if_neg ho, List.append_nil, chunksOf_deleteFileLevel, if_neg ho]

end

theorem agreeOutside_upsertFile (file : FileId) (path content : String) :
    AgreeOutside file rows (rows.upsertFile path content).2 :=
  ⟨fun _ => recordsOf_upsertFile _ _ _ _, fun _ => chunksOf_upsertFile _ _ _ _⟩

theorem agreeOutside_deleteContents (rows : Rows) (file : FileId) :
    AgreeOutside file rows (rows.deleteContents file) where
  recordsOf ho := by rw [recordsOf_deleteContents, if_neg ho]
  chunksOf ho := by rw [chunksOf_deleteContents, if_neg ho]

/-! ## Writing a file that was compared with the rows -/

/-- The file was compared with what the rows hold for its path. -/
structure Fits (policy : DiffPolicy) (rows : Rows) (f : Prepared) : Prop where
  previous_eq : f.previous = (rows.prior f.path).previous
  oldSymbolCount_eq : f.oldSymbolCount = (rows.prior f.path).symbols.length
  hash_eq : f.hash = .ofText f.content
  diff_eq : f.diff = .between policy (rows.prior f.path).revision f.content f.parsed.symbols

variable {f : Prepared}

theorem mode_cases (f : Prepared) :
    (∃ previous, f.previous = some previous ∧ f.diff.needsFull = false ∧
      f.written chunker = f.incrementalRows chunker previous) ∨
      f.mode = .full ∧ f.written chunker = f.fullRows chunker := by
  unfold written mode
  cases f.diff.needsFull <;> cases f.previous <;> simp

namespace Fits

variable {previous : FileRecord}

theorem congr (h : f.Fits policy rows) (he : rows'.prior f.path = rows.prior f.path) :
    f.Fits policy rows' where
  previous_eq := he ▸ h.previous_eq
  oldSymbolCount_eq := he ▸ h.oldSymbolCount_eq
  hash_eq := h.hash_eq
  diff_eq := he ▸ h.diff_eq

theorem file?_eq (h : f.Fits policy rows) : rows.file? f.path = f.previous := by
  rw [h.previous_eq, prior_previous]

theorem prior_eq (h : f.Fits policy rows) (hp : f.previous = some previous) :
    rows.prior f.path = ⟨some previous, rows.symbolsOf previous.id⟩ := by
  rw [prior, h.file?_eq.trans hp]

/-- A file that can be written symbol by symbol comes with a verdict on each of its
    symbols. -/
theorem judged (h : f.Fits policy rows) (hp : f.previous = some previous)
    (hd : f.diff.needsFull = false) :
    ∃ judged, Diff.Judged (Text.lines previous.content) (Text.lines f.content)
        (rows.symbolsOf previous.id) f.parsed.symbols judged ∧
      f.diff = .sorted (rows.symbolsOf previous.id) judged := by
  rw [h.diff_eq, h.prior_eq hp] at hd ⊢
  obtain ⟨old, records, judged, he, hj, hd⟩ := Diff.between_of_needsFull_eq_false hd
  cases he
  exact ⟨judged, hj, hd⟩

/-- The symbols that stay in a file that is written symbol by symbol are those that the
    unchanged symbols were matched with. -/
theorem stays (h : f.Fits policy rows) (hw : rows.WellFormed) (hp : f.previous = some previous)
    (hd : f.diff.needsFull = false) :
    ∃ judged, Diff.Judged (Text.lines previous.content) (Text.lines f.content)
        (rows.symbolsOf previous.id) f.parsed.symbols judged ∧
      ((rows.recordsOf previous.id).filter
        (·.id ∉ f.diff.affectedIds ++ f.diff.replacedIds)).Perm ((Diff.kept judged).map (·.2)) ∧
      f.diff.unchanged = (Diff.kept judged).map (·.1) ∧
      (f.diff.added ++ f.diff.modified ++ f.diff.unchanged).Perm f.parsed.symbols := by
  obtain ⟨judged, hj, he⟩ := h.judged hp hd
  have hperm := perm_symbolsOf rows previous.id
  have hid : ((rows.symbolsOf previous.id).map (·.id)).Nodup :=
    (hperm.map _).nodup_iff.2 (hw.nodup_recordsOf previous.id)
  refine ⟨judged, hj, ?_, ?_, ?_⟩
  · rw [he]
    exact (hperm.symm.filter _).trans (hj.perm_kept hid)
  · rw [he, Diff.unchanged_eq]
  · rw [he, ← hj.symbols_eq]
    exact Diff.perm_sorted _ _

theorem dropped (h : f.Fits policy rows) (hw : rows.WellFormed) (hp : f.previous = some previous)
    (hd : f.diff.needsFull = false) {id : SymbolId}
    (hid : id ∈ f.diff.affectedIds ++ f.diff.replacedIds) :
    ∃ r, rows.symbols.get? id = some r ∧ r.fileId = previous.id := by
  obtain ⟨judged, hj, he⟩ := h.judged hp hd
  rw [he] at hid
  obtain ⟨r, hr, rfl⟩ := hj.mem_dropped hid
  exact ⟨r, hw.mem_recordsOf.1 ((perm_symbolsOf rows previous.id).mem_iff.1 hr)⟩

theorem mem_files (h : f.Fits policy rows) (hw : rows.WellFormed)
    (hp : f.previous = some previous) :
    previous.id ∈ rows.files.keys :=
  Table.mem_keys_iff.2 ⟨_, (hw.file? (h.file?_eq.trans hp)).2.2.1⟩

theorem looseRows (chunker : Chunker) (h : f.Fits policy rows) (hs : rows.Sound)
    (hp : f.previous = some previous) (hd : f.diff.needsFull = false) :
    ∃ rows', (f.incrementalRows chunker previous rows).2 =
        (rows'.upsertFile f.path f.content).2 ∧
      rows'.Sound ∧ rows'.files = rows.files ∧ rows'.paths = rows.paths ∧
      AgreeOutside previous.id rows rows' := by
  have hkey := h.mem_files hs.toWellFormed hp
  have h₁ := hs.dropAll (f.diff.affectedIds ++ f.diff.replacedIds)
  have hf₁ := rows.dropAll_files (f.diff.affectedIds ++ f.diff.replacedIds)
  have ha₁ := hs.agreeOutside_dropAll fun id hid => h.dropped hs.toWellFormed hp hd hid
  have hkey₁ : previous.id ∈
      (rows.dropAll (f.diff.affectedIds ++ f.diff.replacedIds)).files.keys := by
    rwa [hf₁.1]
  have h₂ := sound_symbolRows chunker f.content (f.diff.added ++ f.diff.modified) false h₁ hkey₁
  have hf₂ := symbolRows_files chunker previous.id f.content (f.diff.added ++ f.diff.modified)
    false (rows.dropAll (f.diff.affectedIds ++ f.diff.replacedIds))
  have ha₂ := agreeOutside_symbolRows chunker f.content (f.diff.added ++ f.diff.modified) false
    h₁ hkey₁
  refine ⟨_, rfl, sound_fileLevelRows _ _ _ h₂ ?_, ?_, ?_, (ha₁.trans ha₂).trans
    (agreeOutside_fileLevelRows _ _ _ h₂)⟩
  · rwa [hf₂.1]
  · rw [(fileLevelRows_files _ _ _ _ _).1, hf₂.1, hf₁.1]
  · rw [(fileLevelRows_files _ _ _ _ _).2, hf₂.2, hf₁.2.1]

end Fits

/-- The path has a new content and the rows of one file may have changed, but no
    other path has another file. -/
structure Rewritten (rows : Rows) (path content : String) (rows' : Rows) (file : FileId) :
    Prop where
  sound : rows'.Sound
  file?_self : rows'.file? path = some ⟨file, path, content, .ofText content⟩
  file?_of_ne : ∀ {q}, q ≠ path → rows'.file? q = rows.file? q
  agree : AgreeOutside file rows rows'

theorem Rewritten.id_ne {path content q : String} {file : FileId} {g : FileRecord}
    (h : Rewritten rows path content rows' file) (hq : q ≠ path) (hg : rows.file? q = some g) :
    g.id ≠ file := fun he => by
  obtain ⟨hgpath, -, hgfile, -⟩ := h.sound.file? ((h.file?_of_ne hq).trans hg)
  obtain ⟨-, -, hfile, -⟩ := h.sound.file? h.file?_self
  rw [he, hfile, Option.some.injEq] at hgfile
  exact hq (hgpath.symm.trans (congrArg FileRecord.path hgfile.symm))

/-- The number under which a file is stored. -/
def fileId (f : Prepared) (rows : Rows) : FileId :=
  (rows.upsertFile f.path f.content).1

theorem fullRows_eq (chunker : Chunker) (f : Prepared) (rows : Rows) :
    f.fullRows chunker rows =
      symbolRows chunker (f.fileId rows) f.content f.parsed.symbols true
        ((rows.upsertFile f.path f.content).2.deleteContents (f.fileId rows)) := rfl

theorem recordsOf_fullRows (chunker : Chunker) (f : Prepared) (hs : rows.Sound) :
    (f.fullRows chunker rows).2.recordsOf (f.fileId rows) =
      newRecords rows.lastSymbol (f.fileId rows) f.parsed.symbols := by
  have hd := (hs.upsertFile f.path f.content).deleteContents (f.fileId rows)
  have hkey : f.fileId rows ∈ (rows.upsertFile f.path f.content).2.files.keys :=
    mem_files_upsertFile hs.toWellFormed f.path f.content
  have hlast := (upsertFile_symbols rows f.path f.content).2.2.1
  rw [fullRows_eq, recordsOf_symbolRows _ _ _ _ hd.toWellFormed hkey, recordsOf_deleteContents,
    if_pos rfl, List.nil_append, deleteContents, hlast]

namespace Fits

variable {previous : FileRecord}

theorem fileId_eq (h : f.Fits policy rows) (hw : rows.WellFormed)
    (hp : f.previous = some previous) :
    f.fileId rows = previous.id := by
  rw [fileId, hw.upsertFile_old (h.file?_eq.trans hp)]

/-- The symbols of a file after it was written symbol by symbol: those that are not
    dropped, and then the new ones. -/
theorem recordsOf_incrementalRows (chunker : Chunker) (h : f.Fits policy rows) (hs : rows.Sound)
    (hp : f.previous = some previous) :
    (f.incrementalRows chunker previous rows).2.recordsOf previous.id =
      (rows.recordsOf previous.id).filter (·.id ∉ f.diff.affectedIds ++ f.diff.replacedIds) ++
        newRecords rows.lastSymbol previous.id (f.diff.added ++ f.diff.modified) := by
  have hfiles := rows.dropAll_files (f.diff.affectedIds ++ f.diff.replacedIds)
  have h₁ := hs.dropAll (f.diff.affectedIds ++ f.diff.replacedIds)
  have hkey : previous.id ∈
      (rows.dropAll (f.diff.affectedIds ++ f.diff.replacedIds)).files.keys := by
    rw [hfiles.1]
    exact h.mem_files hs.toWellFormed hp
  have h₂ := sound_symbolRows chunker f.content (f.diff.added ++ f.diff.modified) false h₁ hkey
  rw [incrementalRows, recordsOf_upsertFile]
  refine (recordsOf_insertChunks (h₂.toWellFormed.deleteFileLevel previous.id) _ _ _).trans ?_
  refine (recordsOf_symbolRows _ _ _ _ h₁.toWellFormed hkey).trans ?_
  rw [recordsOf_dropAll hs.toWellFormed, hfiles.2.2.1]

/-- **Writing a file** gives its path the new content, keeps rows sound, and changes
    the symbols and chunks of no other file. -/
theorem rewritten (chunker : Chunker) (h : f.Fits policy rows) (hs : rows.Sound) :
    Rewritten rows f.path f.content (f.rowsAfter chunker rows) (f.fileId rows) := by
  have hw := hs.toWellFormed
  unfold rowsAfter
  rcases f.mode_cases with ⟨previous, hp, hd, he⟩ | ⟨-, he⟩
  · obtain ⟨rows', hr, hs', hfiles, hpaths, ha⟩ := h.looseRows chunker hs hp hd
    have hw' := hs'.toWellFormed
    have hfile : ∀ q, rows'.file? q = rows.file? q := fun q => by
      rw [file?, file?, hfiles, hpaths]
    have hid : (rows'.upsertFile f.path f.content).1 = previous.id := by
      rw [hw'.upsertFile_old ((hfile _).trans (h.file?_eq.trans hp))]
    rw [he, hr, h.fileId_eq hw hp]
    refine ⟨hs'.upsertFile _ _, ?_, fun hq => ?_, ha.trans (agreeOutside_upsertFile _ _ _)⟩
    · rw [file?_upsertFile_self hw', hid]
    · rw [file?_upsertFile_of_ne hw' hq, hfile]
  · have hd := (hs.upsertFile f.path f.content).deleteContents (f.fileId rows)
    have hkey := mem_files_upsertFile hw f.path f.content
    have hfiles := symbolRows_files chunker (f.fileId rows) f.content f.parsed.symbols true
      ((rows.upsertFile f.path f.content).2.deleteContents (f.fileId rows))
    have hfile : ∀ q, (f.fullRows chunker rows).2.file? q =
        (rows.upsertFile f.path f.content).2.file? q := fun q => by
      rw [fullRows_eq, file?, hfiles.1, hfiles.2]
      rfl
    rw [he]
    refine ⟨sound_symbolRows _ _ _ _ hd hkey, ?_, fun hq => ?_,
      ((agreeOutside_upsertFile _ f.path f.content).trans
        (agreeOutside_deleteContents _ _)).trans (agreeOutside_symbolRows _ _ _ _ hd hkey)⟩
    · rw [hfile, file?_upsertFile_self hw]
      rfl
    · rw [hfile, file?_upsertFile_of_ne hw hq]

theorem sound_rowsAfter (chunker : Chunker) (h : f.Fits policy rows) (hs : rows.Sound) :
    (f.rowsAfter chunker rows).Sound :=
  (h.rewritten chunker hs).sound

theorem dump_rowsAfter (chunker : Chunker) (h : f.Fits policy rows) (hs : rows.Sound) {q : String}
    (hq : q ≠ f.path) : (f.rowsAfter chunker rows).dump q = rows.dump q := by
  have hr := h.rewritten chunker hs
  exact hr.agree.dump_eq hs.toWellFormed hr.sound.toWellFormed (hr.file?_of_ne hq)
    fun g hg => hr.id_ne hq hg

end Fits

end Prepared

/-! ## Files written one after another -/

/-- The rows after files are written one after another. -/
def replay (chunker : Chunker) (rows : Rows) (files : List Prepared) : Rows :=
  files.foldl (fun rows f => f.rowsAfter chunker rows) rows

/-- Each file was compared with the rows that the files before it leave. -/
def Coherent (policy : DiffPolicy) (chunker : Chunker) (rows : Rows) : List Prepared → Prop
  | [] => True
  | f :: files => f.Fits policy rows ∧ Coherent policy chunker (f.rowsAfter chunker rows) files

section
variable {policy : DiffPolicy} {chunker : Chunker} {rows : Rows} {files : List Prepared}
  {q : String} {f : Prepared}

theorem replay_append (chunker : Chunker) (rows : Rows) (as bs : List Prepared) :
    replay chunker rows (as ++ bs) = replay chunker (replay chunker rows as) bs :=
  List.foldl_append

theorem coherent_append {as bs : List Prepared} :
    Coherent policy chunker rows (as ++ bs) ↔
      Coherent policy chunker rows as ∧ Coherent policy chunker (replay chunker rows as) bs := by
  induction as generalizing rows with
  | nil => simp [Coherent, replay]
  | cons f as ih => exact (and_congr_right fun _ => ih).trans and_assoc.symm

theorem Coherent.sound (h : Coherent policy chunker rows files) (hs : rows.Sound) :
    (replay chunker rows files).Sound := by
  induction files generalizing rows with
  | nil => exact hs
  | cons f files ih => exact ih h.2 (h.1.sound_rowsAfter chunker hs)

theorem Coherent.dump_replay (h : Coherent policy chunker rows files) (hs : rows.Sound)
    (hq : q ∉ files.map (·.path)) : (replay chunker rows files).dump q = rows.dump q := by
  induction files generalizing rows with
  | nil => rfl
  | cons f files ih =>
    rw [List.map_cons, List.mem_cons, not_or] at hq
    exact (ih h.2 (h.1.sound_rowsAfter chunker hs) hq.2).trans (h.1.dump_rowsAfter chunker hs hq.1)

/-- Where `g` tells the elements of a list apart, only one has the value of an element. -/
theorem filter_eq_of_nodup_map {α β : Type} [DecidableEq β] (g : α → β) {l : List α} {x : α}
    (hn : (l.map g).Nodup) (hx : x ∈ l) : l.filter (fun y => g y = g x) = [x] := by
  obtain ⟨before, after, rfl⟩ := List.append_of_mem hx
  have hnot := (List.nodup_cons.1 ((List.perm_middle.map g).nodup_iff.1 hn)).1
  have hnil : ∀ l : List α, g x ∉ l.map g → l.filter (fun y => g y = g x) = [] := fun l hl =>
    List.filter_eq_nil_iff.2 fun y hy he => hl (of_decide_eq_true he ▸ List.mem_map_of_mem hy)
  rw [List.map_append, List.mem_append, not_or] at hnot
  rw [List.filter_append, hnil before hnot.1, List.filter_cons, hnil after hnot.2]
  simp

/-- Among files of different paths only one has the path of a file. -/
theorem filter_path_eq (hn : (files.map (·.path)).Nodup) (hf : f ∈ files) :
    files.filter (·.path = f.path) = [f] :=
  filter_eq_of_nodup_map (·.path) hn hf

/-- What is stored for a path that is written once is what that write makes of the
    rows of the path as they were. -/
theorem Coherent.dump_of_once (h : Coherent policy chunker rows files) (hs : rows.Sound)
    (hf : files.filter (·.path = q) = [f]) :
    ∃ rows', rows'.Sound ∧ rows'.dump q = rows.dump q ∧ f.Fits policy rows' ∧
      (replay chunker rows files).dump q = (f.rowsAfter chunker rows').dump q := by
  obtain ⟨before, after, rfl, hbefore, hq, hafter⟩ := List.filter_eq_cons_iff.1 hf
  have hnot : ∀ {l : List Prepared}, (∀ g ∈ l, ¬decide (g.path = q) = true) →
      q ∉ l.map (·.path) := fun hl hm => by
    obtain ⟨g, hg, hp⟩ := List.mem_map.1 hm
    exact hl g hg (decide_eq_true hp)
  obtain ⟨h₁, hfits, h₂⟩ := coherent_append.1 h
  have hs₁ := h₁.sound hs
  refine ⟨_, hs₁, h₁.dump_replay hs (hnot hbefore), hfits, ?_⟩
  rw [replay_append]
  exact h₂.dump_replay (hfits.sound_rowsAfter chunker hs₁)
    (hnot (List.filter_eq_nil_iff.1 hafter))

/-- Files of different paths that were all compared with the same rows can be
    written one after another. -/
theorem coherent_of_fits (chunker : Chunker) (hs : rows.Sound)
    (hfits : ∀ f ∈ files, f.Fits policy rows) (hn : (files.map (·.path)).Nodup) :
    Coherent policy chunker rows files := by
  induction files generalizing rows with
  | nil => trivial
  | cons f files ih =>
    have hf := hfits f List.mem_cons_self
    have hs' := hf.sound_rowsAfter chunker hs
    rw [List.map_cons, List.nodup_cons] at hn
    refine ⟨hf, ih hs' (fun g hg => ?_) hn.2⟩
    have hne : g.path ≠ f.path := fun he => hn.1 (he ▸ List.mem_map_of_mem hg)
    exact (hfits g (List.mem_cons_of_mem _ hg)).congr
      (hs.prior_congr hs'.toWellFormed (hf.dump_rowsAfter chunker hs hne))

end

end SourceIndex
