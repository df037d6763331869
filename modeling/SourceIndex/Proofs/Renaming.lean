/-
  Rows that are the same up to their numbers.

  A row gets the next number when it is stored, so its number depends on what was
  stored before it, but nothing else does.

  * `Renaming`: new numbers for files, symbols and chunks; `StoreDump.rename`;
  * `Rows.SameUpToIds`: for every path the same is stored, up to a renaming that
    keeps different numbers apart;
  * `Renamed`: the symbols and chunks of a file in two stores, and the numbers that are
    next; every change of a file keeps them so;
  * `Fits.rename_dump`: a file written on two stores that hold the same for its path;
  * `Rows.Sound.sameUpToIds`: a renaming for each path gives one for all rows.
-/
import Mathlib.Data.Set.Function
import Mathlib.Order.Monotone.Basic
import SourceIndex.Proofs.Revision

namespace SourceIndex

/-! ## Renamings -/

/-- New numbers for files, symbols and chunks. -/
structure Renaming where
  file : FileId → FileId
  symbol : SymbolId → SymbolId
  chunk : ChunkId → ChunkId

def FileRecord.rename (ρ : Renaming) (f : FileRecord) : FileRecord :=
  { f with id := ρ.file f.id }

def SymbolRecord.rename (ρ : Renaming) (r : SymbolRecord) : SymbolRecord :=
  { r with id := ρ.symbol r.id, fileId := ρ.file r.fileId }

def StoredChunk.rename (ρ : Renaming) (c : StoredChunk) : StoredChunk :=
  { c with
    id := ρ.chunk c.id
    fileId := ρ.file c.fileId
    symbolId := c.symbolId.map ρ.symbol }

def StoreDump.rename (ρ : Renaming) (d : StoreDump) : StoreDump where
  file := d.file.map (·.rename ρ)
  symbols := d.symbols.map (·.rename ρ)
  chunks := d.chunks.map (·.rename ρ)

/-- All numbers stay. -/
def Renaming.same : Renaming := ⟨id, id, id⟩

theorem StoreDump.rename_same (d : StoreDump) : d.rename .same = d := by
  have hchunk : ∀ c : StoredChunk, c.rename .same = c := fun c => by
    rw [StoredChunk.rename, Renaming.same, Option.map_id]
    rfl
  obtain ⟨file, symbols, chunks⟩ := d
  refine congr (congrArg₂ StoreDump.mk ?_ ?_) ?_
  · exact Option.map_id'
  · exact List.map_id' symbols
  · exact (List.map_congr_left fun c _ => hchunk c).trans (List.map_id chunks)

/-- The renaming keeps the numbers of the rows apart. -/
structure Renaming.Separates (ρ : Renaming) (rows : Rows) : Prop where
  file : Set.InjOn ρ.file {id | id ∈ rows.files.keys}
  symbol : Set.InjOn ρ.symbol {id | id ∈ rows.symbols.keys}
  chunk : Set.InjOn ρ.chunk {id | id ∈ rows.chunks.keys}

/-- For every path the same is stored, up to a renaming. -/
def Rows.SameUpToIds (rows rows' : Rows) : Prop :=
  ∃ ρ : Renaming, ρ.Separates rows ∧ ∀ path, (rows.dump path).rename ρ = rows'.dump path

/-- The numbers after `m` become those after `n`; a number up to both stays. -/
def shift (m n id : Nat) : Nat :=
  if id ≤ m then min id n else n + (id - m)

theorem shift_of_le {m n id : Nat} (hm : id ≤ m) (hn : id ≤ n) : shift m n id = id := by
  rw [shift, if_pos hm, Nat.min_eq_left hn]

theorem shift_next (m n i : Nat) : shift m n (m + 1 + i) = n + 1 + i := by
  rw [shift, if_neg (by omega)]
  omega

theorem monotone_shift (m n : Nat) : Monotone (shift m n) := by
  intro a b hab
  unfold shift
  split <;> split <;> omega

/-- The numbers that are handed out next in one store become those that are next in
    the other. -/
def Renaming.between (rows rows' : Rows) : Renaming where
  file := shift rows.lastFile rows'.lastFile
  symbol := shift rows.lastSymbol rows'.lastSymbol
  chunk := shift rows.lastChunk rows'.lastChunk

namespace Rows

variable {a b : SymbolRecord} {ρ : Renaming} {file file' : FileId}

/-! ## Symbols in their order -/

theorem symbolBefore_total (a b : SymbolRecord) (h : ¬symbolBefore a b) : symbolBefore b a := by
  unfold symbolBefore at h ⊢
  grind

theorem symbolBefore_trans {c : SymbolRecord} (h : symbolBefore a b) (h' : symbolBefore b c) :
    symbolBefore a c := by
  unfold symbolBefore at h h' ⊢
  grind

theorem id_eq_of_symbolBefore (h : symbolBefore a b) (h' : symbolBefore b a) : a.id = b.id := by
  unfold symbolBefore at h h'
  grind

theorem symbolBefore_rename (hρ : Monotone ρ.symbol) (h : symbolBefore a b) :
    symbolBefore (a.rename ρ) (b.rename ρ) := by
  have hid : a.id ≤ b.id → ρ.symbol a.id ≤ ρ.symbol b.id := fun hab => hρ hab
  unfold symbolBefore SymbolRecord.rename at *
  grind

theorem pairwise_placeSymbol (r : SymbolRecord) : ∀ {rs : List SymbolRecord},
    rs.Pairwise (symbolBefore · ·) → (placeSymbol r rs).Pairwise (symbolBefore · ·)
  | [], _ => List.pairwise_singleton _ _
  | x :: xs, h => by
    obtain ⟨hx, hxs⟩ := List.pairwise_cons.1 h
    rw [placeSymbol]
    split
    · rename_i hr
      refine List.pairwise_cons.2 ⟨fun y hy => ?_, h⟩
      rcases List.mem_cons.1 hy with rfl | hy
      · exact hr
      · exact symbolBefore_trans hr (hx y hy)
    · rename_i hr
      refine List.pairwise_cons.2 ⟨fun y hy => ?_, pairwise_placeSymbol r hxs⟩
      rcases List.mem_cons.1 ((perm_placeSymbol r xs).mem_iff.1 hy) with rfl | hy
      · exact symbolBefore_total _ _ hr
      · exact hx y hy

theorem pairwise_symbolsOf (rows : Rows) (file : FileId) :
    (rows.symbolsOf file).Pairwise (symbolBefore · ·) := by
  unfold symbolsOf
  induction rows.symbols.values.filter (·.fileId = file) with
  | nil => exact .nil
  | cons r rs ih => exact pairwise_placeSymbol r ih

/-! ## New symbols and chunks under new numbers -/

theorem map_rename_newRecords (hfile : ρ.file file = file') :
    ∀ (ss : List Symbol) (last last' : SymbolId),
      (∀ i, ρ.symbol (last + 1 + i) = last' + 1 + i) →
      (newRecords last file ss).map (·.rename ρ) = newRecords last' file' ss
  | [], _, _, _ => rfl
  | s :: ss, last, last', h => by
    have ih := map_rename_newRecords hfile ss (last + 1) (last' + 1) fun i => by
      have := h (1 + i)
      grind
    rw [newRecords, List.map_cons, ih, newRecords, SymbolRecord.rename, hfile]
    exact congrArg (⟨·, file', s⟩ :: newRecords (last' + 1) file' ss) (h 0)

theorem map_rename_newChunks (hfile : ρ.file file = file') :
    ∀ (os : List (Chunk × Option SymbolId)) (last last' : ChunkId),
      (∀ i, ρ.chunk (last + 1 + i) = last' + 1 + i) →
      (newChunks last file os).map (·.rename ρ) =
        newChunks last' file' (os.map fun o => (o.1, o.2.map ρ.symbol))
  | [], _, _, _ => rfl
  | o :: os, last, last', h => by
    have ih := map_rename_newChunks hfile os (last + 1) (last' + 1) fun i => by
      have := h (1 + i)
      grind
    rw [newChunks, List.map_cons, ih, List.map_cons, newChunks, StoredChunk.rename, hfile]
    exact congrArg (⟨·, file', o.2.map ρ.symbol, o.1⟩ :: newChunks (last' + 1) file' _) (h 0)

end Rows

/-! ## A file in two stores -/

/-- The symbols and chunks of a file in two stores are the same up to the renaming,
    and so are the numbers that are next. -/
structure Renamed (ρ : Renaming) (file file' : FileId) (rows rows' : Rows) : Prop where
  file_eq : ρ.file file = file'
  symbols : ((rows.recordsOf file).map (·.rename ρ)).Perm (rows'.recordsOf file')
  chunks : (rows.chunksOf file).map (·.rename ρ) = rows'.chunksOf file'
  nextSymbol : ∀ i, ρ.symbol (rows.lastSymbol + 1 + i) = rows'.lastSymbol + 1 + i
  nextChunk : ∀ i, ρ.chunk (rows.lastChunk + 1 + i) = rows'.lastChunk + 1 + i

namespace Renamed

open Rows

variable {ρ : Renaming} {file file' : FileId} {rows rows' : Rows}

theorem insertSymbols (h : Renamed ρ file file' rows rows') (hw : rows.WellFormed)
    (hw' : rows'.WellFormed) (ss : List Symbol) :
    Renamed ρ file file' (rows.insertSymbols file ss).2 (rows'.insertSymbols file' ss).2 where
  file_eq := h.file_eq
  symbols := by
    rw [recordsOf_insertSymbols hw, recordsOf_insertSymbols hw', if_pos rfl, if_pos rfl,
      List.map_append, map_rename_newRecords h.file_eq ss _ _ h.nextSymbol]
    exact h.symbols.append_right _
  chunks := by
    rw [chunksOf_insertSymbols hw, chunksOf_insertSymbols hw']
    exact h.chunks
  nextSymbol i := by
    rw [insertSymbols_eq file ss hw.symbol_keys_le, insertSymbols_eq file' ss hw'.symbol_keys_le]
    have := h.nextSymbol (ss.length + i)
    grind
  nextChunk i := by
    rw [insertSymbols_eq file ss hw.symbol_keys_le, insertSymbols_eq file' ss hw'.symbol_keys_le]
    exact h.nextChunk i

theorem insertChunks (h : Renamed ρ file file' rows rows') (hw : rows.WellFormed)
    (hw' : rows'.WellFormed) {os os' : List (Chunk × Option SymbolId)}
    (hos : os.map (fun o => (o.1, o.2.map ρ.symbol)) = os') :
    Renamed ρ file file' (rows.insertChunks file os) (rows'.insertChunks file' os') where
  file_eq := h.file_eq
  symbols := by
    rw [recordsOf_insertChunks hw, recordsOf_insertChunks hw']
    exact h.symbols
  chunks := by
    rw [chunksOf_insertChunks hw, chunksOf_insertChunks hw', if_pos rfl, if_pos rfl,
      List.map_append, map_rename_newChunks h.file_eq os _ _ h.nextChunk, h.chunks, hos]
  nextSymbol i := by
    rw [insertChunks_eq file os hw.chunk_keys_le, insertChunks_eq file' os' hw'.chunk_keys_le]
    exact h.nextSymbol i
  nextChunk i := by
    rw [insertChunks_eq file os hw.chunk_keys_le, insertChunks_eq file' os' hw'.chunk_keys_le]
    have := h.nextChunk (os.length + i)
    have hlength : os'.length = os.length := by rw [← hos, List.length_map]
    grind

theorem deleteFileLevel (h : Renamed ρ file file' rows rows') :
    Renamed ρ file file' (rows.deleteFileLevel file) (rows'.deleteFileLevel file') :=
  { h with
    chunks := by
      rw [chunksOf_deleteFileLevel, chunksOf_deleteFileLevel, if_pos rfl, if_pos rfl, ← h.chunks,
        List.filter_map]
      refine congrArg _ (List.filter_congr fun c _ => ?_)
      exact Option.isSome_map.symm }

theorem upsertFile (h : Renamed ρ file file' rows rows') (path content : String) :
    Renamed ρ file file' (rows.upsertFile path content).2 (rows'.upsertFile path content).2 := by
  obtain ⟨-, -, hsymbol, hchunk⟩ := upsertFile_symbols rows path content
  obtain ⟨-, -, hsymbol', hchunk'⟩ := upsertFile_symbols rows' path content
  constructor
  · exact h.file_eq
  · rw [recordsOf_upsertFile, recordsOf_upsertFile]
    exact h.symbols
  · rw [chunksOf_upsertFile, chunksOf_upsertFile]
    exact h.chunks
  · rw [hsymbol, hsymbol']
    exact h.nextSymbol
  · rw [hchunk, hchunk']
    exact h.nextChunk

theorem symbolRows (h : Renamed ρ file file' rows rows') (hw : rows.WellFormed)
    (hw' : rows'.WellFormed) (hf : file ∈ rows.files.keys) (hf' : file' ∈ rows'.files.keys)
    (chunker : Chunker) (content : String) (symbols : List Symbol) (topLevel : Bool) :
    Renamed ρ file file' (Prepared.symbolRows chunker file content symbols topLevel rows).2
      (Prepared.symbolRows chunker file' content symbols topLevel rows').2 := by
  unfold Prepared.symbolRows
  split
  · exact h
  refine (h.insertSymbols hw hw' symbols).insertChunks (hw.insertSymbols hf symbols)
    (hw'.insertSymbols hf' symbols) ?_
  -- the numbers of the new symbols, which own the chunks, are renamed too
  have hids : (rows.insertSymbols file symbols).1.map ρ.symbol =
      (rows'.insertSymbols file' symbols).1 := by
    simp only [Rows.insertSymbols, List.map_map]
    exact List.map_congr_left fun i _ => h.nextSymbol i
  rw [← List.map_prod_left_eq_zip, ← List.map_prod_left_eq_zip, List.map_map, ← hids]
  refine List.map_congr_left fun c _ => Prod.ext rfl ?_
  simp only [Function.comp_apply, Option.map_bind, List.getElem?_map]

theorem fileLevelRows (h : Renamed ρ file file' rows rows') (hw : rows.WellFormed)
    (hw' : rows'.WellFormed) (chunker : Chunker) (content : String) (symbols : List Symbol) :
    Renamed ρ file file' (Prepared.fileLevelRows chunker file content symbols rows).2
      (Prepared.fileLevelRows chunker file' content symbols rows').2 := by
  refine h.deleteFileLevel.insertChunks (hw.deleteFileLevel file) (hw'.deleteFileLevel file') ?_
  rw [← List.map_prod_left_eq_zip, List.map_map]
  rfl

/-- A file is without symbols and chunks in both stores once they are dropped. -/
theorem of_deleteContents (hfile : ρ.file file = file')
    (hsymbol : ∀ i, ρ.symbol (rows.lastSymbol + 1 + i) = rows'.lastSymbol + 1 + i)
    (hchunk : ∀ i, ρ.chunk (rows.lastChunk + 1 + i) = rows'.lastChunk + 1 + i) :
    Renamed ρ file file' (rows.deleteContents file) (rows'.deleteContents file') where
  file_eq := hfile
  symbols := by rw [recordsOf_deleteContents, recordsOf_deleteContents, if_pos rfl, if_pos rfl]; rfl
  chunks := by rw [chunksOf_deleteContents, chunksOf_deleteContents, if_pos rfl, if_pos rfl]; rfl
  nextSymbol := hsymbol
  nextChunk := hchunk

/-- A file with the same symbols and chunks in both stores. -/
theorem of_same (hs : rows.Sound) (hs' : rows'.Sound) (hf : file ∈ rows.files.keys)
    (hf' : file ∈ rows'.files.keys) (hsymbols : (rows.recordsOf file).Perm (rows'.recordsOf file))
    (hchunks : rows.chunksOf file = rows'.chunksOf file) :
    Renamed (.between rows rows') file file rows rows' := by
  have hfile : (Renaming.between rows rows').file file = file := by
    obtain ⟨g, hg⟩ := Table.mem_keys_iff.1 hf
    obtain ⟨g', hg'⟩ := Table.mem_keys_iff.1 hf'
    exact shift_of_le (hs.file_le hg).2 (hs'.file_le hg').2
  refine ⟨hfile, ?_, ?_, shift_next _ _, shift_next _ _⟩
  · have hself : (rows.recordsOf file).map (·.rename (.between rows rows')) =
        rows.recordsOf file := by
      refine (List.map_congr_left fun r hr => ?_).trans (List.map_id _)
      obtain ⟨hg, hid⟩ := hs.mem_recordsOf.1 hr
      obtain ⟨hg', -⟩ := hs'.mem_recordsOf.1 (hsymbols.mem_iff.1 hr)
      have hsymbol : (Renaming.between rows rows').symbol r.id = r.id :=
        shift_of_le (hs.symbol_le hg).2 (hs'.symbol_le hg').2
      rw [SymbolRecord.rename, hsymbol, hid, hfile, ← hid, id]
    rw [hself]
    exact hsymbols
  · rw [← hchunks]
    refine (List.map_congr_left fun c hc => ?_).trans (List.map_id _)
    obtain ⟨hg, hid⟩ := hs.mem_chunksOf.1 hc
    obtain ⟨hg', -⟩ := hs'.mem_chunksOf.1 (hchunks ▸ hc)
    have hchunk : (Renaming.between rows rows').chunk c.id = c.id :=
      shift_of_le (hs.chunk_le hg).2 (hs'.chunk_le hg').2
    have howner : c.symbolId.map (Renaming.between rows rows').symbol = c.symbolId := by
      cases hc : c.symbolId with
      | none => rfl
      | some s =>
        obtain ⟨r, hr, -⟩ := hs.owner hg hc
        obtain ⟨r', hr', -⟩ := hs'.owner hg' hc
        exact congrArg some (shift_of_le (hs.symbol_le hr).2 (hs'.symbol_le hr').2)
    rw [StoredChunk.rename, hchunk, hid, hfile, howner, ← hid, id]

/-- What is stored for the path of the file in both stores. -/
theorem dump (h : Renamed ρ file file' rows rows') (hρ : Monotone ρ.symbol) (hw : rows.WellFormed)
    (hw' : rows'.WellFormed) {path content : String} {hash : ContentHash}
    (hf : rows.file? path = some ⟨file, path, content, hash⟩)
    (hf' : rows'.file? path = some ⟨file', path, content, hash⟩) :
    (rows.dump path).rename ρ = rows'.dump path := by
  have hperm : ((rows.symbolsOf file).map (·.rename ρ)).Perm (rows'.symbolsOf file') :=
    (((perm_symbolsOf rows file).map _).trans h.symbols).trans (perm_symbolsOf rows' file').symm
  have hsorted : ((rows.symbolsOf file).map (·.rename ρ)).Pairwise (symbolBefore · ·) :=
    List.pairwise_map.2 ((pairwise_symbolsOf rows file).imp (symbolBefore_rename hρ))
  have hsymbols : (rows.symbolsOf file).map (·.rename ρ) = rows'.symbolsOf file' := by
    refine List.Perm.eq_of_pairwise (fun a b ha hb hab hba => ?_) hsorted
      (pairwise_symbolsOf rows' file') hperm
    -- symbols that stand before each other have the same number
    have hmem : ∀ r ∈ rows'.symbolsOf file', rows'.symbols.get? r.id = some r := fun r hr =>
      (hw'.mem_recordsOf.1 ((perm_symbolsOf rows' file').mem_iff.1 hr)).1
    have hga := hmem a (hperm.mem_iff.1 ha)
    rw [id_eq_of_symbolBefore hab hba, hmem b hb] at hga
    exact (Option.some.inj hga).symm
  rw [hw.dump_of_some hf, hw'.dump_of_some hf', StoreDump.rename, hsymbols, h.chunks,
    Option.map_some, FileRecord.rename, h.file_eq]

end Renamed

namespace Prepared.Fits

open Rows

variable {policy : DiffPolicy} {rows rows' : Rows} {f : Prepared}

theorem between_fileId (h : f.Fits policy rows) (h' : f.Fits policy rows') (hw : rows.WellFormed)
    (hw' : rows'.WellFormed) :
    (Renaming.between rows rows').file (f.fileId rows) = f.fileId rows' := by
  cases hp : f.previous with
  | some previous =>
    have hg := (hw.file? (h.file?_eq.trans hp)).2.2.1
    have hg' := (hw'.file? (h'.file?_eq.trans hp)).2.2.1
    rw [h.fileId_eq hw hp, h'.fileId_eq hw' hp]
    exact shift_of_le (hw.file_le hg).2 (hw'.file_le hg').2
  | none =>
    rw [fileId, fileId, hw.upsertFile_new (h.file?_eq.trans hp),
      hw'.upsertFile_new (h'.file?_eq.trans hp)]
    exact shift_next _ _ 0

theorem renamed_full (chunker : Chunker) (h : f.Fits policy rows) (h' : f.Fits policy rows')
    (hs : rows.Sound) (hs' : rows'.Sound) :
    Renamed (.between rows rows') (f.fileId rows) (f.fileId rows') (f.fullRows chunker rows).2
      (f.fullRows chunker rows').2 := by
  obtain ⟨-, -, hsymbol, hchunk⟩ := upsertFile_symbols rows f.path f.content
  obtain ⟨-, -, hsymbol', hchunk'⟩ := upsertFile_symbols rows' f.path f.content
  have hempty : Renamed (.between rows rows') (f.fileId rows) (f.fileId rows')
      ((rows.upsertFile f.path f.content).2.deleteContents (f.fileId rows))
      ((rows'.upsertFile f.path f.content).2.deleteContents (f.fileId rows')) := by
    refine .of_deleteContents (h.between_fileId h' hs.toWellFormed hs'.toWellFormed) ?_ ?_
    · rw [hsymbol, hsymbol']
      exact shift_next _ _
    · rw [hchunk, hchunk']
      exact shift_next _ _
  rw [fullRows_eq, fullRows_eq]
  exact hempty.symbolRows
    ((hs.upsertFile f.path f.content).deleteContents (f.fileId rows)).toWellFormed
    ((hs'.upsertFile f.path f.content).deleteContents (f.fileId rows')).toWellFormed
    (mem_files_upsertFile hs.toWellFormed f.path f.content)
    (mem_files_upsertFile hs'.toWellFormed f.path f.content) chunker f.content f.parsed.symbols true

theorem renamed_incremental (chunker : Chunker) (h : f.Fits policy rows) (h' : f.Fits policy rows')
    (hs : rows.Sound) (hs' : rows'.Sound) (he : rows'.dump f.path = rows.dump f.path)
    {previous : FileRecord} (hp : f.previous = some previous) :
    Renamed (.between rows rows') previous.id previous.id
      (f.incrementalRows chunker previous rows).2 (f.incrementalRows chunker previous rows').2 := by
  have hw := hs.toWellFormed
  have hw' := hs'.toWellFormed
  rw [hw.dump_of_some (h.file?_eq.trans hp), hw'.dump_of_some (h'.file?_eq.trans hp)] at he
  obtain ⟨-, hsymbols, hchunks⟩ := StoreDump.mk.inj he
  have hperm : (rows.recordsOf previous.id).Perm (rows'.recordsOf previous.id) :=
    (perm_symbolsOf rows _).symm.trans (hsymbols ▸ perm_symbolsOf rows' _)
  unfold incrementalRows
  generalize f.diff.affectedIds ++ f.diff.replacedIds = ids
  have hdrop := hs.dropAll ids
  have hdrop' := hs'.dropAll ids
  obtain ⟨hfiles, -, hlastSymbol, hlastChunk⟩ := rows.dropAll_files ids
  obtain ⟨hfiles', -, hlastSymbol', hlastChunk'⟩ := rows'.dropAll_files ids
  have hkey : previous.id ∈ (rows.dropAll ids).files.keys := hfiles ▸ h.mem_files hw hp
  have hkey' : previous.id ∈ (rows'.dropAll ids).files.keys := hfiles' ▸ h'.mem_files hw' hp
  have hbetween : Renaming.between (rows.dropAll ids) (rows'.dropAll ids) =
      .between rows rows' := by
    rw [Renaming.between, hlastSymbol, hlastChunk, hlastSymbol', hlastChunk', dropAll_lastFile,
      dropAll_lastFile, Renaming.between]
  have hsame : Renamed (.between rows rows') previous.id previous.id (rows.dropAll ids)
      (rows'.dropAll ids) := by
    rw [← hbetween]
    refine .of_same hdrop hdrop' hkey hkey' ?_ ?_
    · rw [recordsOf_dropAll hw, recordsOf_dropAll hw']
      exact hperm.filter _
    · rw [chunksOf_dropAll, chunksOf_dropAll, hchunks]
  have howned := hsame.symbolRows hdrop.toWellFormed hdrop'.toWellFormed hkey hkey' chunker
    f.content (f.diff.added ++ f.diff.modified) false
  exact (howned.fileLevelRows (sound_symbolRows _ _ _ _ hdrop hkey).toWellFormed
    (sound_symbolRows _ _ _ _ hdrop' hkey').toWellFormed chunker f.content
    f.parsed.symbols).upsertFile f.path f.content

/-- **A file written on two stores** that hold the same for its path: what is stored for
    the path afterwards is the same, up to the numbers that were next. -/
theorem rename_dump (chunker : Chunker) (h : f.Fits policy rows) (h' : f.Fits policy rows')
    (hs : rows.Sound) (hs' : rows'.Sound) (he : rows'.dump f.path = rows.dump f.path) :
    ((f.rowsAfter chunker rows).dump f.path).rename (.between rows rows') =
      (f.rowsAfter chunker rows').dump f.path := by
  have hr := h.rewritten chunker hs
  have hr' := h'.rewritten chunker hs'
  have hrenamed : Renamed (.between rows rows') (f.fileId rows) (f.fileId rows')
      (f.rowsAfter chunker rows) (f.rowsAfter chunker rows') := by
    rw [rowsAfter, rowsAfter]
    rcases f.mode_cases with ⟨previous, hp, -, hwritten⟩ | ⟨-, hwritten⟩
    · rw [hwritten, h.fileId_eq hs.toWellFormed hp, h'.fileId_eq hs'.toWellFormed hp]
      exact h.renamed_incremental chunker h' hs hs' he hp
    · rw [hwritten]
      exact h.renamed_full chunker h' hs hs'
  exact hrenamed.dump (monotone_shift _ _) hr.sound.toWellFormed hr'.sound.toWellFormed
    hr.file?_self hr'.file?_self

end Prepared.Fits

/-! ## One renaming for all paths -/

namespace Rows

variable {rows rows' : Rows}

/-- The path of a file. -/
def pathOf (rows : Rows) (file : FileId) : String :=
  (rows.files.get? file).elim "" (·.path)

/-- Each row is renamed as the path of its file says. -/
def glue (rows : Rows) (ρ : String → Renaming) : Renaming where
  file id := (ρ (rows.pathOf id)).file id
  symbol id := (ρ (rows.pathOf ((rows.symbols.get? id).elim 0 (·.fileId)))).symbol id
  chunk id := (ρ (rows.pathOf ((rows.chunks.get? id).elim 0 (·.fileId)))).chunk id

theorem Sound.rename_glue (hs : rows.Sound) (ρ : String → Renaming) (path : String) :
    (rows.dump path).rename (rows.glue ρ) = (rows.dump path).rename (ρ path) := by
  cases hf : rows.file? path with
  | none => rw [hs.dump_of_none hf]; rfl
  | some file =>
    obtain ⟨hp, -, hg, -⟩ := hs.file? hf
    have hpath : rows.pathOf file.id = path := by rw [pathOf, hg, Option.elim_some, hp]
    have hfile : (rows.glue ρ).file file.id = (ρ path).file file.id := by
      simp only [glue, hpath]
    have hsymbol : ∀ {id r}, rows.symbols.get? id = some r → r.fileId = file.id →
        (rows.glue ρ).symbol id = (ρ path).symbol id := fun hr hid => by
      simp only [glue, hr, Option.elim_some, hid, hpath]
    rw [hs.dump_of_some hf, StoreDump.rename, StoreDump.rename, Option.map_some, Option.map_some,
      FileRecord.rename, hfile, FileRecord.rename]
    refine congrArg₂ (StoreDump.mk _) (List.map_congr_left fun r hr => ?_)
      (List.map_congr_left fun c hc => ?_)
    · obtain ⟨hget, hid⟩ := hs.mem_recordsOf.1 ((perm_symbolsOf _ _).mem_iff.1 hr)
      rw [SymbolRecord.rename, hsymbol hget hid, hid, hfile, SymbolRecord.rename, hid]
    · obtain ⟨hget, hid⟩ := hs.mem_chunksOf.1 hc
      have hchunk : (rows.glue ρ).chunk c.id = (ρ path).chunk c.id := by
        simp only [glue, hget, Option.elim_some, hid, hpath]
      have howner : c.symbolId.map (rows.glue ρ).symbol = c.symbolId.map (ρ path).symbol := by
        refine Option.map_congr fun s hsome => ?_
        obtain ⟨r, hr, hrid⟩ := hs.owner hget hsome
        exact hsymbol hr (hrid.trans hid)
      rw [StoredChunk.rename, hchunk, howner, hid, hfile, StoredChunk.rename, hid]

theorem WellFormed.dump_of_file (h : rows.WellFormed) {id : FileId} (hid : id ∈ rows.files.keys) :
    ∃ file, file.id = id ∧ rows.file? file.path = some file ∧
      rows.dump file.path = ⟨some file, rows.symbolsOf id, rows.chunksOf id⟩ := by
  obtain ⟨file, hfile⟩ := Table.mem_keys_iff.1 hid
  obtain ⟨g, hg, rfl⟩ := h.file?_of_path (h.path_of_file hfile)
  obtain ⟨-, -, hg', -⟩ := h.file? hg
  cases hfile.symm.trans hg'
  exact ⟨file, rfl, hg, h.dump_of_some hg⟩

/-- Two entries of a list that are renamed into different ones are the same if they
    get the same key. -/
theorem eq_of_key_rename {α : Type} {key : α → Nat} {rename : α → α} {l l' : List α}
    (hp : (l.map rename).Perm l') (hn : (l'.map key).Nodup) {v w : α} (hv : v ∈ l) (hw : w ∈ l)
    (h : key (rename v) = key (rename w)) : v = w := by
  have hn' := (hp.map key).nodup_iff.2 hn
  rw [List.map_map] at hn'
  exact List.inj_on_of_nodup_map hn' hv hw h

section
variable {ρ : Renaming} (hs : rows.Sound) (hs' : rows'.Sound)
  (h : ∀ path, (rows.dump path).rename ρ = rows'.dump path)
include hs hs' h

theorem Sound.contents_rename {id : FileId} (hid : id ∈ rows.files.keys) :
    ((rows.recordsOf id).map (·.rename ρ)).Perm (rows'.recordsOf (ρ.file id)) ∧
      (rows.chunksOf id).map (·.rename ρ) = rows'.chunksOf (ρ.file id) ∧
      ∃ file, file.id = id ∧ rows.file? file.path = some file ∧
        rows'.file? file.path = some (file.rename ρ) := by
  obtain ⟨file, rfl, hf, hdump⟩ := hs.dump_of_file hid
  have hr := h file.path
  rw [hdump, StoreDump.rename] at hr
  have hf' : rows'.file? file.path = some (file.rename ρ) := (congrArg StoreDump.file hr).symm
  rw [hs'.dump_of_some hf'] at hr
  obtain ⟨-, hsymbols, hchunks⟩ := StoreDump.mk.inj hr
  have hperm := ((perm_symbolsOf rows file.id).map (·.rename ρ)).symm
  rw [hsymbols] at hperm
  exact ⟨hperm.trans (perm_symbolsOf _ _), hchunks, file, rfl, hf, hf'⟩

theorem Sound.file_injOn : Set.InjOn ρ.file {id | id ∈ rows.files.keys} := by
  intro a ha b hb hab
  obtain ⟨-, -, f, rfl, hf, hf'⟩ := hs.contents_rename hs' h ha
  obtain ⟨-, -, g, rfl, hg, hg'⟩ := hs.contents_rename hs' h hb
  have hget : rows'.files.get? (ρ.file f.id) = some (f.rename ρ) := (hs'.file? hf').2.2.1
  have hget' : rows'.files.get? (ρ.file g.id) = some (g.rename ρ) := (hs'.file? hg').2.2.1
  rw [hab, hget', Option.some.injEq] at hget
  have hpath : g.path = f.path :=
    (congrArg FileRecord.path hget : (g.rename ρ).path = (f.rename ρ).path)
  rw [hpath, hf, Option.some.injEq] at hg
  rw [hg]

/-- A renaming that leads to another store keeps the numbers apart, as they are apart
    there. -/
theorem Sound.separates : ρ.Separates rows where
  file := hs.file_injOn hs' h
  symbol := by
    intro a ha b hb hab
    obtain ⟨r, hr⟩ := Table.mem_keys_iff.1 ha
    obtain ⟨r', hr'⟩ := Table.mem_keys_iff.1 hb
    obtain rfl := hs.symbol_id hr
    obtain rfl := hs.symbol_id hr'
    have hrow : ∀ {r : SymbolRecord}, rows.symbols.get? r.id = some r →
        rows'.symbols.get? (ρ.symbol r.id) = some (r.rename ρ) := fun {r} hr =>
      (hs'.mem_recordsOf.1 ((hs.contents_rename hs' h (hs.symbol_file hr)).1.mem_iff.1
        (List.mem_map_of_mem (hs.mem_recordsOf.2 ⟨hr, rfl⟩)))).1
    have hrename := hrow hr
    rw [hab, hrow hr', Option.some.injEq] at hrename
    have hfile : r'.fileId = r.fileId := hs.file_injOn hs' h (hs.symbol_file hr')
      (hs.symbol_file hr) (congrArg SymbolRecord.fileId hrename)
    exact congrArg SymbolRecord.id (eq_of_key_rename
      (hs.contents_rename hs' h (hs.symbol_file hr)).1 (hs'.nodup_recordsOf _)
      (hs.mem_recordsOf.2 ⟨hr, rfl⟩) (hs.mem_recordsOf.2 ⟨hr', hfile⟩) hab)
  chunk := by
    intro a ha b hb hab
    obtain ⟨c, hc⟩ := Table.mem_keys_iff.1 ha
    obtain ⟨c', hc'⟩ := Table.mem_keys_iff.1 hb
    obtain rfl := hs.chunk_id hc
    obtain rfl := hs.chunk_id hc'
    have hperm : ∀ {c : StoredChunk}, rows.chunks.get? c.id = some c →
        ((rows.chunksOf c.fileId).map (·.rename ρ)).Perm (rows'.chunksOf (ρ.file c.fileId)) :=
      fun {c} hc => .of_eq (hs.contents_rename hs' h (hs.chunk_file hc)).2.1
    have hrow : ∀ {c : StoredChunk}, rows.chunks.get? c.id = some c →
        rows'.chunks.get? (ρ.chunk c.id) = some (c.rename ρ) := fun {c} hc =>
      (hs'.mem_chunksOf.1 ((hperm hc).mem_iff.1
        (List.mem_map_of_mem (hs.mem_chunksOf.2 ⟨hc, rfl⟩)))).1
    have hrename := hrow hc
    rw [hab, hrow hc', Option.some.injEq] at hrename
    have hfile : c'.fileId = c.fileId := hs.file_injOn hs' h (hs.chunk_file hc')
      (hs.chunk_file hc) (congrArg StoredChunk.fileId hrename)
    exact congrArg StoredChunk.id (eq_of_key_rename (hperm hc) (hs'.nodup_chunksOf _)
      (hs.mem_chunksOf.2 ⟨hc, rfl⟩) (hs.mem_chunksOf.2 ⟨hc', hfile⟩) hab)

end

/-- Where the same is stored for each path up to some renaming, one renaming does for
    all rows. -/
theorem Sound.sameUpToIds (hs : rows.Sound) (hs' : rows'.Sound)
    (h : ∀ path, ∃ ρ, (rows.dump path).rename ρ = rows'.dump path) : rows.SameUpToIds rows' := by
  choose ρ hρ using h
  have hglue : ∀ path, (rows.dump path).rename (rows.glue ρ) = rows'.dump path := fun path =>
    (hs.rename_glue ρ path).trans (hρ path)
  exact ⟨rows.glue ρ, hs.separates hs' hglue, hglue⟩

end Rows

end SourceIndex
