/-
  The rows of a store and what the changes do to them.

  * `Rows.WellFormed`: paths and files lead to each other, every symbol and chunk
    is kept under its own number, which was handed out, and belongs to a file;
    every change keeps rows so (`WellFormed.insertSymbols`, …);
  * `recordsOf`, `chunksOf`: the symbols and chunks of a file, in the order of
    their numbers.  For each change one equation says what becomes of them;
  * `prior`: what is stored for a path, as the preparation of a file reads it.
-/
import Mathlib.Data.List.Perm.Basic
import SourceIndex.Coordinator.Prepared
import SourceIndex.Proofs.Table

namespace SourceIndex.Rows

variable {rows : Rows} {file : FileId} {r : SymbolRecord}

/-- The symbols of a file in the order of their numbers. -/
def recordsOf (rows : Rows) (file : FileId) : List SymbolRecord :=
  rows.symbols.values.filter (·.fileId = file)

/-- What is stored for a path, as the preparation of a file reads it. -/
def prior (rows : Rows) (path : String) : Prior :=
  match rows.file? path with
  | some file => ⟨some file, rows.symbolsOf file.id⟩
  | none => ⟨none, []⟩

theorem prior_previous (rows : Rows) (path : String) :
    (rows.prior path).previous = rows.file? path := by
  unfold prior
  cases rows.file? path <;> rfl

theorem perm_placeSymbol (r : SymbolRecord) : ∀ rs, (placeSymbol r rs).Perm (r :: rs)
  | [] => .refl _
  | x :: xs => by
    rw [placeSymbol]
    split
    · exact .refl _
    · exact ((perm_placeSymbol r xs).cons x).trans (.swap r x xs)

theorem perm_foldr_placeSymbol : ∀ rs : List SymbolRecord, (rs.foldr placeSymbol []).Perm rs
  | [] => .refl _
  | r :: rs => (perm_placeSymbol r _).trans ((perm_foldr_placeSymbol rs).cons r)

theorem perm_symbolsOf (rows : Rows) (file : FileId) :
    (rows.symbolsOf file).Perm (rows.recordsOf file) :=
  perm_foldr_placeSymbol _

theorem symbolsOf_congr {rows' : Rows} (h : rows'.recordsOf file = rows.recordsOf file) :
    rows'.symbolsOf file = rows.symbolsOf file := by
  unfold recordsOf at h
  rw [symbolsOf, symbolsOf, h]

/-! ## Rows that are well formed -/

/-- Paths and files lead to each other, every symbol and chunk is kept under its
    own number, and all numbers were handed out. -/
structure WellFormed (rows : Rows) : Prop where
  file_of_path : ∀ {path id}, rows.paths.get? path = some id →
    ∃ content, rows.files.get? id = some ⟨id, path, content, ContentHash.ofText content⟩
  path_of_file : ∀ {id file}, rows.files.get? id = some file →
    rows.paths.get? file.path = some id
  file_le : ∀ {id file}, rows.files.get? id = some file → 1 ≤ id ∧ id ≤ rows.lastFile
  symbols_nodup : rows.symbols.keys.Nodup
  symbol_id : ∀ {id r}, rows.symbols.get? id = some r → r.id = id
  symbol_le : ∀ {id r}, rows.symbols.get? id = some r → 1 ≤ id ∧ id ≤ rows.lastSymbol
  symbol_file : ∀ {id r}, rows.symbols.get? id = some r → r.fileId ∈ rows.files.keys
  chunks_nodup : rows.chunks.keys.Nodup
  chunk_id : ∀ {id c}, rows.chunks.get? id = some c → c.id = id
  chunk_le : ∀ {id c}, rows.chunks.get? id = some c → 1 ≤ id ∧ id ≤ rows.lastChunk
  chunk_file : ∀ {id c}, rows.chunks.get? id = some c → c.fileId ∈ rows.files.keys

theorem WellFormed.empty : WellFormed {} := by
  constructor <;> intros <;> simp_all [Table.get?, Table.find?, Table.keys]

namespace WellFormed

variable {path : String} {c : StoredChunk}

/-- The file of a path carries that path, and its number leads to it. -/
theorem file? (h : rows.WellFormed) {file : FileRecord} (hf : rows.file? path = some file) :
    file.path = path ∧ rows.paths.get? path = some file.id ∧
      rows.files.get? file.id = some file ∧ file.contentHash = .ofText file.content := by
  obtain ⟨id, hid, hg⟩ := Option.bind_eq_some_iff.1 hf
  obtain ⟨content, hc⟩ := h.file_of_path hid
  rw [hg] at hc
  cases hc
  exact ⟨rfl, hid, hg, rfl⟩

theorem file?_of_path (h : rows.WellFormed) {id : FileId} (hp : rows.paths.get? path = some id) :
    ∃ file, rows.file? path = some file ∧ file.id = id := by
  obtain ⟨content, hc⟩ := h.file_of_path hp
  exact ⟨_, Option.bind_eq_some_iff.2 ⟨id, hp, hc⟩, rfl⟩

theorem file?_eq_none (h : rows.WellFormed) (hf : rows.file? path = none) :
    rows.paths.get? path = none := by
  cases hp : rows.paths.get? path with
  | none => rfl
  | some id =>
    obtain ⟨file, hfile, -⟩ := h.file?_of_path hp
    rw [hf] at hfile
    cases hfile

theorem mem_symbols (h : rows.WellFormed) :
    r ∈ rows.symbols.values ↔ rows.symbols.get? r.id = some r := by
  refine ⟨fun hr => ?_, Table.mem_values_of_get?⟩
  obtain ⟨id, hid⟩ := Table.mem_values.1 hr
  have hg := (Table.mem_pairs_iff h.symbols_nodup).1 hid
  rwa [h.symbol_id hg]

theorem mem_chunks (h : rows.WellFormed) :
    c ∈ rows.chunks.values ↔ rows.chunks.get? c.id = some c := by
  refine ⟨fun hc => ?_, Table.mem_values_of_get?⟩
  obtain ⟨id, hid⟩ := Table.mem_values.1 hc
  have hg := (Table.mem_pairs_iff h.chunks_nodup).1 hid
  rwa [h.chunk_id hg]

theorem mem_recordsOf (h : rows.WellFormed) :
    r ∈ rows.recordsOf file ↔ rows.symbols.get? r.id = some r ∧ r.fileId = file := by
  rw [recordsOf, List.mem_filter, h.mem_symbols, decide_eq_true_eq]

theorem mem_chunksOf (h : rows.WellFormed) :
    c ∈ rows.chunksOf file ↔ rows.chunks.get? c.id = some c ∧ c.fileId = file := by
  rw [chunksOf, List.mem_filter, h.mem_chunks, decide_eq_true_eq]

theorem symbol_keys_le (h : rows.WellFormed) : ∀ k ∈ rows.symbols.keys, k ≤ rows.lastSymbol := by
  intro k hk
  obtain ⟨r, hr⟩ := Table.mem_keys_iff.1 hk
  exact (h.symbol_le hr).2

theorem chunk_keys_le (h : rows.WellFormed) : ∀ k ∈ rows.chunks.keys, k ≤ rows.lastChunk := by
  intro k hk
  obtain ⟨c, hc⟩ := Table.mem_keys_iff.1 hk
  exact (h.chunk_le hc).2

theorem nodup_recordsOf (h : rows.WellFormed) (file : FileId) :
    ((rows.recordsOf file).map (·.id)).Nodup :=
  (List.filter_sublist.map _).nodup
    (Table.map_values_eq_keys h.symbols_nodup h.symbol_id ▸ h.symbols_nodup)

theorem nodup_chunksOf (h : rows.WellFormed) (file : FileId) :
    ((rows.chunksOf file).map (·.id)).Nodup :=
  (List.filter_sublist.map _).nodup
    (Table.map_values_eq_keys h.chunks_nodup h.chunk_id ▸ h.chunks_nodup)

end WellFormed

/-! ## New symbols and chunks -/

/-- The rows of symbols that are stored for a file after number `last`. -/
def newRecords (last : SymbolId) (file : FileId) : List Symbol → List SymbolRecord
  | [] => []
  | s :: ss => ⟨last + 1, file, s⟩ :: newRecords (last + 1) file ss

/-- The rows of chunks that are stored for a file after number `last`. -/
def newChunks (last : ChunkId) (file : FileId) : List (Chunk × Option SymbolId) → List StoredChunk
  | [] => []
  | o :: os => ⟨last + 1, file, o.2, o.1⟩ :: newChunks (last + 1) file os

theorem map_symbol_newRecords (last : SymbolId) (file : FileId) (ss : List Symbol) :
    (newRecords last file ss).map (·.symbol) = ss := by
  induction ss generalizing last with
  | nil => rfl
  | cons s ss ih => simp [newRecords, ih]

theorem map_id_newRecords (last : SymbolId) (file : FileId) (ss : List Symbol) :
    (newRecords last file ss).map (·.id) = (List.range ss.length).map (last + 1 + ·) := by
  induction ss generalizing last with
  | nil => rfl
  | cons s ss ih =>
    rw [newRecords, List.map_cons, ih, List.length_cons, List.range_succ_eq_map, List.map_cons,
      List.map_map]
    refine congrArg₂ List.cons rfl (List.map_congr_left fun i _ => ?_)
    simp only [Function.comp_apply]; grind

theorem getElem?_newRecords (file : FileId) : ∀ (ss : List Symbol) (last : SymbolId) (i : Nat),
    (newRecords last file ss)[i]? = ss[i]?.map fun s => ⟨last + 1 + i, file, s⟩
  | [], _, _ => rfl
  | s :: ss, last, 0 => rfl
  | s :: ss, last, i + 1 => by
    rw [newRecords, List.getElem?_cons_succ, getElem?_newRecords file ss, List.getElem?_cons_succ]
    congr 2
    grind

theorem mem_newRecords {last : SymbolId} :
    ∀ {ss : List Symbol}, r ∈ newRecords last file ss →
      last < r.id ∧ r.id ≤ last + ss.length ∧ r.fileId = file
  | [], h => by simp [newRecords] at h
  | s :: ss, h => by
    rcases List.mem_cons.1 h with rfl | h
    · exact ⟨Nat.lt_succ_self _, by simp only [List.length_cons]; grind, rfl⟩
    · obtain ⟨h₁, h₂, h₃⟩ := mem_newRecords h
      exact ⟨by grind, by simp only [List.length_cons]; grind, h₃⟩

theorem mem_newChunks {last : ChunkId} {c : StoredChunk} :
    ∀ {os : List (Chunk × Option SymbolId)}, c ∈ newChunks last file os →
      last < c.id ∧ c.id ≤ last + os.length ∧ c.fileId = file ∧ (c.chunk, c.symbolId) ∈ os
  | [], h => by simp [newChunks] at h
  | o :: os, h => by
    rcases List.mem_cons.1 h with rfl | h
    · exact ⟨Nat.lt_succ_self _, by simp only [List.length_cons]; grind, rfl, List.mem_cons_self⟩
    · obtain ⟨h₁, h₂, h₃, h₄⟩ := mem_newChunks h
      exact ⟨by grind, by simp only [List.length_cons]; grind, h₃, List.mem_cons_of_mem _ h₄⟩

theorem map_newChunks {β : Type} (g : Chunk × Option SymbolId → β) (last : ChunkId) (file : FileId)
    (os : List (Chunk × Option SymbolId)) :
    (newChunks last file os).map (fun c => g (c.chunk, c.symbolId)) = os.map g := by
  induction os generalizing last with
  | nil => rfl
  | cons o os ih => simp [newChunks, ih]

theorem insertSymbols_eq (file : FileId) : ∀ (ss : List Symbol) {rows : Rows},
    (∀ k ∈ rows.symbols.keys, k ≤ rows.lastSymbol) →
    (rows.insertSymbols file ss).2 =
      { rows with
        symbols := ⟨rows.symbols.pairs ++
          (newRecords rows.lastSymbol file ss).map fun r => (r.id, r)⟩
        lastSymbol := rows.lastSymbol + ss.length }
  | [], rows, _ => by simp [insertSymbols, newRecords]
  | s :: ss, rows, h => by
    have hnew : rows.lastSymbol + 1 ∉ rows.symbols.keys := fun hk =>
      Nat.not_succ_le_self _ (h _ hk)
    have hput := Table.pairs_put_new (t := rows.symbols)
      (⟨rows.lastSymbol + 1, file, s⟩ : SymbolRecord) hnew
    have hle : ∀ k ∈ (rows.insertSymbol file s).symbols.keys,
        k ≤ (rows.insertSymbol file s).lastSymbol := by
      intro k hk
      rcases Table.mem_keys_put.1 hk with rfl | hk
      · exact Nat.le_refl _
      · exact Nat.le_succ_of_le (h k hk)
    have ih := insertSymbols_eq file ss hle
    simp only [insertSymbols, List.foldl_cons] at ih ⊢
    rw [ih]
    simp only [insertSymbol, hput, newRecords, List.map_cons, List.append_assoc,
      List.singleton_append, List.length_cons]
    rw [Nat.add_right_comm, Nat.add_assoc]

theorem insertChunks_eq (file : FileId) : ∀ (os : List (Chunk × Option SymbolId)) {rows : Rows},
    (∀ k ∈ rows.chunks.keys, k ≤ rows.lastChunk) →
    rows.insertChunks file os =
      { rows with
        chunks := ⟨rows.chunks.pairs ++
          (newChunks rows.lastChunk file os).map fun c => (c.id, c)⟩
        lastChunk := rows.lastChunk + os.length }
  | [], rows, _ => by simp [insertChunks, newChunks]
  | o :: os, rows, h => by
    have hnew : rows.lastChunk + 1 ∉ rows.chunks.keys := fun hk =>
      Nat.not_succ_le_self _ (h _ hk)
    have hput := Table.pairs_put_new (t := rows.chunks)
      (⟨rows.lastChunk + 1, file, o.2, o.1⟩ : StoredChunk) hnew
    have hle : ∀ k ∈ (rows.insertChunk file o.1 o.2).chunks.keys,
        k ≤ (rows.insertChunk file o.1 o.2).lastChunk := by
      intro k hk
      rcases Table.mem_keys_put.1 hk with rfl | hk
      · exact Nat.le_refl _
      · exact Nat.le_succ_of_le (h k hk)
    have ih := insertChunks_eq file os hle
    simp only [insertChunks, List.foldl_cons] at ih ⊢
    rw [ih]
    simp only [insertChunk, hput, newChunks, List.map_cons, List.append_assoc,
      List.singleton_append, List.length_cons]
    rw [Nat.add_right_comm, Nat.add_assoc]

/-! ## Changes keep rows well formed -/

namespace WellFormed

variable {path : String}

theorem keep (h : rows.WellFormed) (ofSymbols : SymbolRecord → Bool)
    (ofChunks : StoredChunk → Bool) :
    WellFormed { rows with
      symbols := rows.symbols.keep ofSymbols
      chunks := rows.chunks.keep ofChunks } := by
  have hs : ∀ {id r}, (rows.symbols.keep ofSymbols).get? id = some r →
      rows.symbols.get? id = some r := Table.get?_of_keep h.symbols_nodup
  have hc : ∀ {id c}, (rows.chunks.keep ofChunks).get? id = some c →
      rows.chunks.get? id = some c := Table.get?_of_keep h.chunks_nodup
  exact { h with
    symbols_nodup := Table.nodup_keep h.symbols_nodup _
    symbol_id := fun hr => h.symbol_id (hs hr)
    symbol_le := fun hr => h.symbol_le (hs hr)
    symbol_file := fun hr => h.symbol_file (hs hr)
    chunks_nodup := Table.nodup_keep h.chunks_nodup _
    chunk_id := fun hr => h.chunk_id (hc hr)
    chunk_le := fun hr => h.chunk_le (hc hr)
    chunk_file := fun hr => h.chunk_file (hc hr) }

theorem keep_all (t : Table SymbolId SymbolRecord) : t.keep (fun _ => true) = t := by
  simp [Table.keep]

theorem deleteChunks (h : rows.WellFormed) (id : SymbolId) : (rows.deleteChunks id).WellFormed := by
  have := h.keep (fun _ => true) (·.symbolId ≠ some id)
  rwa [keep_all] at this

theorem deleteContents (h : rows.WellFormed) (file : FileId) :
    (rows.deleteContents file).WellFormed :=
  h.keep _ _

theorem deleteFileLevel (h : rows.WellFormed) (file : FileId) :
    (rows.deleteFileLevel file).WellFormed := by
  have := h.keep (fun _ => true) (fun c => c.fileId ≠ file || c.symbolId.isSome)
  rwa [keep_all] at this

theorem deleteSymbol (h : rows.WellFormed) (id : SymbolId) : (rows.deleteSymbol id).WellFormed := by
  have hs : ∀ {id' r}, (rows.symbols.erase id).get? id' = some r →
      rows.symbols.get? id' = some r := Table.get?_of_erase
  exact { h with
    symbols_nodup := Table.nodup_erase h.symbols_nodup _
    symbol_id := fun hr => h.symbol_id (hs hr)
    symbol_le := fun hr => h.symbol_le (hs hr)
    symbol_file := fun hr => h.symbol_file (hs hr) }

theorem insertSymbol (h : rows.WellFormed) (hf : file ∈ rows.files.keys) (s : Symbol) :
    (rows.insertSymbol file s).WellFormed := by
  have hs : ∀ {id r}, (rows.insertSymbol file s).symbols.get? id = some r →
      (id = rows.lastSymbol + 1 ∧ r = ⟨rows.lastSymbol + 1, file, s⟩) ∨
        rows.symbols.get? id = some r := fun {id r} hr => by
    exact (Table.get?_of_put hr).imp_right And.right
  refine { h with
    symbols_nodup := Table.nodup_put h.symbols_nodup _ _
    symbol_id := fun hr => ?_
    symbol_le := fun hr => ?_
    symbol_file := fun hr => ?_ }
  · rcases hs hr with ⟨rfl, rfl⟩ | hr
    · rfl
    · exact h.symbol_id hr
  · rcases hs hr with ⟨rfl, -⟩ | hr
    · exact ⟨Nat.le_add_left 1 _, Nat.le_refl _⟩
    · exact ⟨(h.symbol_le hr).1, Nat.le_succ_of_le (h.symbol_le hr).2⟩
  · rcases hs hr with ⟨-, rfl⟩ | hr
    · exact hf
    · exact h.symbol_file hr

theorem insertSymbols (h : rows.WellFormed) (hf : file ∈ rows.files.keys) (ss : List Symbol) :
    (rows.insertSymbols file ss).2.WellFormed := by
  unfold Rows.insertSymbols
  induction ss generalizing rows with
  | nil => exact h
  | cons s ss ih => exact ih (h.insertSymbol hf s) hf

theorem insertChunk (h : rows.WellFormed) (hf : file ∈ rows.files.keys) (chunk : Chunk)
    (owner : Option SymbolId) : (rows.insertChunk file chunk owner).WellFormed := by
  have hs : ∀ {id c}, (rows.insertChunk file chunk owner).chunks.get? id = some c →
      (id = rows.lastChunk + 1 ∧ c = ⟨rows.lastChunk + 1, file, owner, chunk⟩) ∨
        rows.chunks.get? id = some c := fun {id c} hc => by
    exact (Table.get?_of_put hc).imp_right And.right
  refine { h with
    chunks_nodup := Table.nodup_put h.chunks_nodup _ _
    chunk_id := fun hc => ?_
    chunk_le := fun hc => ?_
    chunk_file := fun hc => ?_ }
  · rcases hs hc with ⟨rfl, rfl⟩ | hc
    · rfl
    · exact h.chunk_id hc
  · rcases hs hc with ⟨rfl, -⟩ | hc
    · exact ⟨Nat.le_add_left 1 _, Nat.le_refl _⟩
    · exact ⟨(h.chunk_le hc).1, Nat.le_succ_of_le (h.chunk_le hc).2⟩
  · rcases hs hc with ⟨-, rfl⟩ | hc
    · exact hf
    · exact h.chunk_file hc

theorem insertChunks (h : rows.WellFormed) (hf : file ∈ rows.files.keys)
    (os : List (Chunk × Option SymbolId)) : (rows.insertChunks file os).WellFormed := by
  unfold Rows.insertChunks
  induction os generalizing rows with
  | nil => exact h
  | cons o os ih => exact ih (h.insertChunk hf o.1 o.2) hf

theorem upsertFile_old (h : rows.WellFormed) {file : FileRecord} (hf : rows.file? path = some file)
    (content : String) :
    rows.upsertFile path content =
      (file.id,
        { rows with
          files := rows.files.put file.id ⟨file.id, path, content, .ofText content⟩ }) := by
  rw [Rows.upsertFile, (h.file? hf).2.1]

theorem upsertFile_new (h : rows.WellFormed) (hf : rows.file? path = none) (content : String) :
    rows.upsertFile path content =
      (rows.lastFile + 1,
        { rows with
          files := rows.files.put (rows.lastFile + 1)
            ⟨rows.lastFile + 1, path, content, .ofText content⟩
          paths := rows.paths.put path (rows.lastFile + 1)
          lastFile := rows.lastFile + 1 }) := by
  rw [Rows.upsertFile, h.file?_eq_none hf]

theorem next_notMem (h : rows.WellFormed) : rows.lastFile + 1 ∉ rows.files.keys := by
  intro hk
  obtain ⟨file, hf⟩ := Table.mem_keys_iff.1 hk
  exact Nat.not_succ_le_self _ (h.file_le hf).2

theorem upsertFile (h : rows.WellFormed) (path content : String) :
    (rows.upsertFile path content).2.WellFormed := by
  cases hf : rows.file? path with
  | some file =>
    obtain ⟨hpath, hp, hg, -⟩ := h.file? hf
    rw [h.upsertFile_old hf]
    refine { h with
      file_of_path := fun {q id} hq => ?_
      path_of_file := fun {id g} hg' => ?_
      file_le := fun {id g} hg' => ?_
      symbol_file := fun hr => Table.mem_keys_put.2 (Or.inr (h.symbol_file hr))
      chunk_file := fun hc => Table.mem_keys_put.2 (Or.inr (h.chunk_file hc)) }
    · obtain ⟨old, hold⟩ := h.file_of_path hq
      rw [Table.get?_put]
      split
      · rename_i he
        subst he
        rw [hg, Option.some.injEq] at hold
        rw [hold] at hpath
        subst hpath
        exact ⟨content, rfl⟩
      · exact ⟨old, hold⟩
    · rcases Table.get?_of_put hg' with ⟨rfl, rfl⟩ | ⟨-, hg'⟩
      · exact hp
      · exact h.path_of_file hg'
    · rcases Table.get?_of_put hg' with ⟨rfl, -⟩ | ⟨-, hg'⟩
      · exact h.file_le hg
      · exact h.file_le hg'
  | none =>
    have hp := h.file?_eq_none hf
    rw [h.upsertFile_new hf]
    refine { h with
      file_of_path := fun {q id} hq => ?_
      path_of_file := fun {id g} hg => ?_
      file_le := fun {id g} hg => ?_
      symbol_file := fun hr => Table.mem_keys_put.2 (Or.inr (h.symbol_file hr))
      chunk_file := fun hc => Table.mem_keys_put.2 (Or.inr (h.chunk_file hc)) }
    · rcases Table.get?_of_put hq with ⟨rfl, rfl⟩ | ⟨-, hq⟩
      · exact ⟨content, Table.get?_put_self _ _ _⟩
      · obtain ⟨old, hold⟩ := h.file_of_path hq
        refine ⟨old, ?_⟩
        rw [Table.get?_put, if_neg, hold]
        rintro rfl
        exact h.next_notMem (Table.mem_keys_iff.2 ⟨_, hold⟩)
    · rcases Table.get?_of_put hg with ⟨rfl, rfl⟩ | ⟨-, hg⟩
      · exact Table.get?_put_self _ _ _
      · have hq := h.path_of_file hg
        rw [Table.get?_put, if_neg, hq]
        rintro rfl
        rw [hp] at hq
        cases hq
    · rcases Table.get?_of_put hg with ⟨rfl, -⟩ | ⟨-, hg⟩
      · exact ⟨Nat.le_add_left 1 _, Nat.le_refl _⟩
      · exact ⟨(h.file_le hg).1, Nat.le_succ_of_le (h.file_le hg).2⟩

end WellFormed

/-! ## What changes do to the rows of a file -/

theorem upsertFile_symbols (rows : Rows) (path content : String) :
    (rows.upsertFile path content).2.symbols = rows.symbols ∧
      (rows.upsertFile path content).2.chunks = rows.chunks ∧
      (rows.upsertFile path content).2.lastSymbol = rows.lastSymbol ∧
      (rows.upsertFile path content).2.lastChunk = rows.lastChunk := by
  unfold upsertFile
  split <;> exact ⟨rfl, rfl, rfl, rfl⟩

@[simp] theorem recordsOf_upsertFile (rows : Rows) (path content : String) (file : FileId) :
    (rows.upsertFile path content).2.recordsOf file = rows.recordsOf file := by
  rw [recordsOf, (upsertFile_symbols rows path content).1, recordsOf]

@[simp] theorem chunksOf_upsertFile (rows : Rows) (path content : String) (file : FileId) :
    (rows.upsertFile path content).2.chunksOf file = rows.chunksOf file := by
  rw [chunksOf, (upsertFile_symbols rows path content).2.1, chunksOf]

theorem file?_upsertFile_self (h : rows.WellFormed) (path content : String) :
    (rows.upsertFile path content).2.file? path =
      some ⟨(rows.upsertFile path content).1, path, content, .ofText content⟩ := by
  cases hf : rows.file? path with
  | some file =>
    rw [h.upsertFile_old hf, file?, (h.file? hf).2.1, Option.bind_some, Table.get?_put_self]
  | none =>
    rw [h.upsertFile_new hf, file?, Table.get?_put_self, Option.bind_some, Table.get?_put_self]

theorem file?_upsertFile_of_ne (h : rows.WellFormed) {path q : String} (hq : q ≠ path)
    (content : String) : (rows.upsertFile path content).2.file? q = rows.file? q := by
  cases hf : rows.file? path with
  | some file =>
    rw [h.upsertFile_old hf, file?, file?]
    refine Option.bind_congr fun id hid => ?_
    rw [Table.get?_put, if_neg]
    -- two paths do not share a file
    rintro rfl
    obtain ⟨content', hc⟩ := h.file_of_path hid
    obtain ⟨hpath, -, hg, -⟩ := h.file? hf
    rw [hg, Option.some.injEq] at hc
    rw [hc] at hpath
    exact hq hpath
  | none =>
    rw [h.upsertFile_new hf, file?, file?, Table.get?_put, if_neg fun he => hq he.symm]
    refine Option.bind_congr fun id hid => ?_
    rw [Table.get?_put, if_neg]
    rintro rfl
    obtain ⟨content', hc⟩ := h.file_of_path hid
    exact h.next_notMem (Table.mem_keys_iff.2 ⟨_, hc⟩)

theorem mem_files_upsertFile (h : rows.WellFormed) (path content : String) :
    (rows.upsertFile path content).1 ∈ (rows.upsertFile path content).2.files.keys := by
  have hw := h.upsertFile path content
  obtain ⟨-, -, hg, -⟩ := hw.file? (file?_upsertFile_self h path content)
  exact Table.mem_keys_iff.2 ⟨_, hg⟩

theorem insertSymbols_files (rows : Rows) (file : FileId) (ss : List Symbol) :
    (rows.insertSymbols file ss).2.files = rows.files ∧
      (rows.insertSymbols file ss).2.paths = rows.paths := by
  unfold insertSymbols
  induction ss generalizing rows with
  | nil => exact ⟨rfl, rfl⟩
  | cons s ss ih => exact ih _

theorem insertChunks_files (rows : Rows) (file : FileId) (os : List (Chunk × Option SymbolId)) :
    (rows.insertChunks file os).files = rows.files ∧
      (rows.insertChunks file os).paths = rows.paths := by
  unfold insertChunks
  induction os generalizing rows with
  | nil => exact ⟨rfl, rfl⟩
  | cons o os ih => exact ih _

theorem filter_newRecords (last : SymbolId) (file other : FileId) (ss : List Symbol) :
    (newRecords last file ss).filter (·.fileId = other) =
      if other = file then newRecords last file ss else [] := by
  split
  · rename_i he
    exact List.filter_eq_self.2 fun r hr => by simp [(mem_newRecords hr).2.2, he]
  · rename_i he
    exact List.filter_eq_nil_iff.2 fun r hr => by
      simpa [(mem_newRecords hr).2.2] using fun he' => he he'.symm

theorem filter_newChunks (last : ChunkId) (file other : FileId)
    (os : List (Chunk × Option SymbolId)) :
    (newChunks last file os).filter (·.fileId = other) =
      if other = file then newChunks last file os else [] := by
  split
  · rename_i he
    exact List.filter_eq_self.2 fun c hc => by simp [(mem_newChunks hc).2.2.1, he]
  · rename_i he
    exact List.filter_eq_nil_iff.2 fun c hc => by
      simpa [(mem_newChunks hc).2.2.1] using fun he' => he he'.symm

theorem recordsOf_insertSymbols (h : rows.WellFormed) (file other : FileId) (ss : List Symbol) :
    (rows.insertSymbols file ss).2.recordsOf other =
      rows.recordsOf other ++ if other = file then newRecords rows.lastSymbol file ss else [] := by
  rw [insertSymbols_eq file ss h.symbol_keys_le, ← filter_newRecords, recordsOf, recordsOf,
    ← List.filter_append]
  simp [Table.values, Function.comp_def]

theorem get?_newRecords (h : rows.WellFormed) (hf : file ∈ rows.files.keys) {ss : List Symbol}
    (hr : r ∈ newRecords rows.lastSymbol file ss) :
    (rows.insertSymbols file ss).2.symbols.get? r.id = some r := by
  refine (h.insertSymbols hf ss).mem_symbols.1 ?_
  rw [insertSymbols_eq file ss h.symbol_keys_le]
  simp only [Table.values_mk, List.map_append, List.map_map, List.mem_append]
  exact Or.inr (List.mem_map.2 ⟨r, hr, rfl⟩)

theorem chunksOf_insertSymbols (h : rows.WellFormed) (file other : FileId) (ss : List Symbol) :
    (rows.insertSymbols file ss).2.chunksOf other = rows.chunksOf other := by
  rw [insertSymbols_eq file ss h.symbol_keys_le]; rfl

theorem recordsOf_insertChunks (h : rows.WellFormed) (file other : FileId)
    (os : List (Chunk × Option SymbolId)) :
    (rows.insertChunks file os).recordsOf other = rows.recordsOf other := by
  rw [insertChunks_eq file os h.chunk_keys_le]; rfl

theorem chunksOf_insertChunks (h : rows.WellFormed) (file other : FileId)
    (os : List (Chunk × Option SymbolId)) :
    (rows.insertChunks file os).chunksOf other =
      rows.chunksOf other ++ if other = file then newChunks rows.lastChunk file os else [] := by
  rw [insertChunks_eq file os h.chunk_keys_le, ← filter_newChunks, chunksOf, chunksOf,
    ← List.filter_append]
  simp [Table.values, Function.comp_def]

theorem recordsOf_deleteSymbol (h : rows.WellFormed) (id : SymbolId) (file : FileId) :
    (rows.deleteSymbol id).recordsOf file = (rows.recordsOf file).filter (·.id ≠ id) := by
  have hp : ∀ p ∈ rows.symbols.pairs, p.2.id = p.1 := fun p hp =>
    h.symbol_id ((Table.mem_pairs_iff h.symbols_nodup).1 hp)
  have he : (rows.symbols.erase id).values = rows.symbols.values.filter (·.id ≠ id) := by
    rw [Table.values, Table.erase, Table.values, List.filter_map]
    exact congrArg _ (List.filter_congr fun p hm => by simp [hp p hm])
  rw [recordsOf, deleteSymbol, he, recordsOf, List.filter_comm]

theorem recordsOf_deleteContents (file other : FileId) :
    (rows.deleteContents file).recordsOf other =
      if other = file then [] else rows.recordsOf other := by
  rw [recordsOf, deleteContents, Table.values_keep, List.filter_filter, recordsOf]
  split
  · exact List.filter_eq_nil_iff.2 fun r _ => by grind
  · exact List.filter_congr fun r _ => by grind

theorem chunksOf_deleteContents (file other : FileId) :
    (rows.deleteContents file).chunksOf other =
      if other = file then [] else rows.chunksOf other := by
  rw [chunksOf, deleteContents, Table.values_keep, List.filter_filter, chunksOf]
  split
  · exact List.filter_eq_nil_iff.2 fun c _ => by grind
  · exact List.filter_congr fun c _ => by grind

theorem chunksOf_deleteFileLevel (file other : FileId) :
    (rows.deleteFileLevel file).chunksOf other =
      if other = file then (rows.chunksOf other).filter (·.symbolId.isSome)
      else rows.chunksOf other := by
  rw [chunksOf, deleteFileLevel, Table.values_keep, List.filter_filter, chunksOf]
  split
  · rw [List.filter_filter]
    exact List.filter_congr fun c _ => by grind
  · exact List.filter_congr fun c _ => by grind

theorem chunksOf_deleteChunks (id : SymbolId) (file : FileId) :
    (rows.deleteChunks id).chunksOf file = (rows.chunksOf file).filter (·.symbolId ≠ some id) := by
  rw [chunksOf, deleteChunks, Table.values_keep, chunksOf, List.filter_comm]

/-! ## Dropping many symbols -/

/-- The rows without some symbols and their chunks. -/
def dropAll (rows : Rows) : List SymbolId → Rows
  | [] => rows
  | id :: ids => ((rows.deleteChunks id).deleteSymbol id).dropAll ids

theorem dropAll_files (rows : Rows) (ids : List SymbolId) :
    (rows.dropAll ids).files = rows.files ∧ (rows.dropAll ids).paths = rows.paths ∧
      (rows.dropAll ids).lastSymbol = rows.lastSymbol ∧
      (rows.dropAll ids).lastChunk = rows.lastChunk := by
  induction ids generalizing rows with
  | nil => exact ⟨rfl, rfl, rfl, rfl⟩
  | cons id ids ih => exact ih _

theorem dropAll_lastFile (rows : Rows) (ids : List SymbolId) :
    (rows.dropAll ids).lastFile = rows.lastFile := by
  induction ids generalizing rows with
  | nil => rfl
  | cons id ids ih => exact ih _

theorem recordsOf_dropAll (h : rows.WellFormed) (ids : List SymbolId) (file : FileId) :
    (rows.dropAll ids).recordsOf file = (rows.recordsOf file).filter (·.id ∉ ids) := by
  induction ids generalizing rows with
  | nil => simp [dropAll]
  | cons id ids ih =>
    have hd : (rows.deleteChunks id).recordsOf file = rows.recordsOf file := rfl
    rw [dropAll, ih ((h.deleteChunks id).deleteSymbol id),
      recordsOf_deleteSymbol (h.deleteChunks id), hd, List.filter_filter]
    exact List.filter_congr fun r _ => by simp [Bool.and_comm]

theorem chunksOf_dropAll (ids : List SymbolId) (file : FileId) :
    (rows.dropAll ids).chunksOf file =
      (rows.chunksOf file).filter fun c => ∀ id ∈ ids, c.symbolId ≠ some id := by
  induction ids generalizing rows with
  | nil => simp [dropAll]
  | cons id ids ih =>
    have hd : ((rows.deleteChunks id).deleteSymbol id).chunksOf file =
      (rows.deleteChunks id).chunksOf file := rfl
    rw [dropAll, ih, hd, chunksOf_deleteChunks, List.filter_filter]
    exact List.filter_congr fun c _ => by simp [Bool.and_comm]

end SourceIndex.Rows
