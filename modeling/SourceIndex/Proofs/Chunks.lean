/-
  The chunks of a file, and the rows they are stored in.

  * `ownRanges`, `looseRanges`: the lines of the chunks of a symbol, and of the chunks
    outside every symbol;
  * `chunkFile_eq`: the chunks of a file are those of its symbols in turn and then those
    outside every symbol, and each holds the lines it names;
  * `flatMap_slice_pieces`: the pieces of a range hold its lines, in order;
  * `StoredChunk.place`, `map_place_chunkFile`: where the stored chunks lie.
-/
import SourceIndex.Proofs.Rows
import SourceIndex.Proofs.Spans

namespace SourceIndex

variable {start : Nat} {symbols : List Symbol}

open Text

/-! ## Pieces -/

theorem mem_pieces {extra stop : Nat} {p : Nat × Nat} (h : p ∈ pieces extra start stop) :
    start ≤ p.1 ∧ p.1 ≤ p.2 ∧ p.2 ≤ stop := by
  induction start using pieces.induct extra stop with
  | case1 start hle ih =>
    rw [pieces, if_pos hle] at h
    rcases List.mem_cons.1 h with rfl | h
    · dsimp only
      omega
    · have := ih h
      omega
  | case2 start hle =>
    rw [pieces, if_neg hle] at h
    cases h

theorem flatMap_slice_pieces (ls : List String) (extra stop : Nat) (h₁ : 1 ≤ start)
    (h₂ : start ≤ stop + 1) :
    (pieces extra start stop).flatMap (fun p => slice ls p.1 p.2) = slice ls start stop := by
  induction start using pieces.induct extra stop with
  | case1 start hle ih =>
    rw [pieces, if_pos hle, List.flatMap_cons, ih (by omega) (by omega)]
    exact slice_append h₁ (by omega) (by omega)
  | case2 start hle =>
    have he : start = stop + 1 := by omega
    rw [pieces, if_neg hle, he, slice, List.drop_of_length_le]
    · rfl
    · rw [List.length_take]
      omega

/-! ## The chunks of a file -/

/-- The lines of the chunks of a symbol in a file of `total` lines. -/
def ownRanges (extra total : Nat) (s : Symbol) : List (Nat × Nat) :=
  match s.tile? total with
  | some range => pieces extra range.1 range.2
  | none => []

/-- The lines of the chunks outside every symbol. -/
def looseRanges (extra : Nat) (ls : List String) (symbols : List Symbol) : List (Nat × Nat) :=
  (runs (topLevelMarks ls (symbols.filterMap (·.tile? ls.length)))).flatMap fun run =>
    pieces extra run.1 run.2

/-- The chunk with some lines. -/
def cutChunk (ls : List String) (owner : Option Nat) (range : Nat × Nat) : Chunk :=
  ⟨owner, range.1, range.2, joinLines (slice ls range.1 range.2)⟩

/-- The chunk holds the lines that it names. -/
def Chunk.Matches (ls : List String) (c : Chunk) : Prop :=
  c.content = joinLines (slice ls c.startLine c.endLine)

theorem chunkFile_eq (maxLines : Nat) (content : String) (symbols : List Symbol) :
    chunkFile maxLines content symbols =
      (symbols.zipIdx.flatMap fun entry =>
        (ownRanges (maxLines - 1) (lines content).length entry.1).map
          (cutChunk (lines content) (some entry.2))) ++
      (looseRanges (maxLines - 1) (lines content) symbols).map (cutChunk (lines content) none) := by
  unfold chunkFile looseRanges
  refine congrArg₂ (· ++ ·) ?_ ?_
  · refine List.flatMap_congr fun entry _ => ?_
    unfold ownRanges
    cases entry.1.tile? (lines content).length <;> rfl
  · rw [List.map_flatMap]
    rfl

theorem matches_of_mem_chunkFile {maxLines : Nat} {content : String} {c : Chunk}
    (h : c ∈ chunkFile maxLines content symbols) : c.Matches (lines content) := by
  have hcut : ∀ {owner ranges}, c ∈ List.map (cutChunk (lines content) owner) ranges →
      c.Matches (lines content) := fun hc => by
    obtain ⟨range, -, rfl⟩ := List.mem_map.1 hc
    rfl
  rw [chunkFile_eq] at h
  rcases List.mem_append.1 h with h | h
  · obtain ⟨entry, -, hc⟩ := List.mem_flatMap.1 h
    exact hcut hc
  · exact hcut h

theorem filter_isSome_chunkFile (maxLines : Nat) (content : String) (symbols : List Symbol) :
    (chunkFile maxLines content symbols).filter (·.symbolIndex.isSome) =
      symbols.zipIdx.flatMap fun entry =>
        (ownRanges (maxLines - 1) (lines content).length entry.1).map
          (cutChunk (lines content) (some entry.2)) := by
  rw [chunkFile_eq, List.filter_append, List.filter_eq_self.2, List.filter_eq_nil_iff.2,
    List.append_nil]
  · intro c hc
    obtain ⟨range, -, rfl⟩ := List.mem_map.1 hc
    exact Bool.false_ne_true
  · intro c hc
    obtain ⟨entry, -, hc⟩ := List.mem_flatMap.1 hc
    obtain ⟨range, -, rfl⟩ := List.mem_map.1 hc
    rfl

theorem filter_isNone_chunkFile (maxLines : Nat) (content : String) (symbols : List Symbol) :
    (chunkFile maxLines content symbols).filter (·.symbolIndex.isNone) =
      (looseRanges (maxLines - 1) (lines content) symbols).map (cutChunk (lines content) none) := by
  rw [chunkFile_eq, List.filter_append, List.filter_eq_nil_iff.2, List.filter_eq_self.2,
    List.nil_append]
  · intro c hc
    obtain ⟨range, -, rfl⟩ := List.mem_map.1 hc
    rfl
  · intro c hc
    obtain ⟨entry, -, hc⟩ := List.mem_flatMap.1 hc
    obtain ⟨range, -, rfl⟩ := List.mem_map.1 hc
    exact Bool.false_ne_true

/-- Which lines lie outside every symbol depends on the lines of the symbols, not on
    their order. -/
theorem looseRanges_congr (extra : Nat) {ls : List String} {symbols' : List Symbol}
    (h : (symbols.filterMap (·.tile? ls.length)).Perm (symbols'.filterMap (·.tile? ls.length))) :
    looseRanges extra ls symbols = looseRanges extra ls symbols' := by
  have hcovered : covered (symbols.filterMap (·.tile? ls.length)) =
      covered (symbols'.filterMap (·.tile? ls.length)) := by
    funext line
    exact h.any_eq
  unfold looseRanges topLevelMarks
  rw [hcovered]

/-! ## Stored chunks -/

/-- Where a stored chunk lies, and the symbol it belongs to. -/
def StoredChunk.place (c : StoredChunk) : Option SymbolId × Nat × Nat :=
  (c.symbolId, c.chunk.startLine, c.chunk.endLine)

/-- Where the chunks of stored symbols lie in a file of `total` lines. -/
def ownPlaces (extra total : Nat) (records : List SymbolRecord) :
    List (Option SymbolId × Nat × Nat) :=
  records.flatMap fun r => (ownRanges extra total r.symbol).map (some r.id, ·)

namespace Rows

theorem newRecords_eq_zipIdx (last : SymbolId) (file : FileId) (symbols : List Symbol) :
    newRecords last file symbols =
      symbols.zipIdx.map fun entry => ⟨last + 1 + entry.2, file, entry.1⟩ := by
  refine List.ext_getElem? fun i => ?_
  rw [getElem?_newRecords, List.getElem?_map, List.getElem?_zipIdx, Option.map_map]
  simp only [Nat.zero_add]
  rfl

theorem map_place_newChunks (last : ChunkId) (file : FileId) (chunks : List Chunk)
    (owner : Chunk → Option SymbolId) :
    (newChunks last file (chunks.zip (chunks.map owner))).map StoredChunk.place =
      chunks.map fun c => (owner c, c.startLine, c.endLine) := by
  have hzip : chunks.zip (chunks.map owner) = chunks.map fun c => (c, owner c) := by
    induction chunks with
    | nil => rfl
    | cons c chunks ih => simp [ih]
  exact (map_newChunks (fun o => (o.2, o.1.startLine, o.1.endLine)) last file _).trans
    (by rw [hzip, List.map_map]; rfl)

/-- Where the chunks of new symbols lie, with the chunks outside every symbol or
    without. -/
theorem map_place_chunkFile (maxLines : Nat) (content : String) (symbols : List Symbol)
    (topLevel : Bool) (last : SymbolId) (file : FileId) {ids : List SymbolId}
    (hids : ids = (newRecords last file symbols).map (·.id)) :
    ((chunkFile maxLines content symbols).filter (fun c => topLevel || c.symbolIndex.isSome)).map
        (fun c => (c.symbolIndex.bind fun i => ids[i]?, c.startLine, c.endLine)) =
      ownPlaces (maxLines - 1) (lines content).length (newRecords last file symbols) ++
        if topLevel then (looseRanges (maxLines - 1) (lines content) symbols).map (none, ·)
        else [] := by
  have hown : ∀ extra total, (symbols.zipIdx.flatMap fun entry =>
      (ownRanges extra total entry.1).map (cutChunk (lines content) (some entry.2))).map
          (fun c => (c.symbolIndex.bind fun i => ids[i]?, c.startLine, c.endLine)) =
      ownPlaces extra total (newRecords last file symbols) := by
    intro extra total
    rw [ownPlaces, newRecords_eq_zipIdx, List.flatMap_map, List.map_flatMap]
    refine List.flatMap_congr fun entry he => ?_
    have hi : entry.2 < symbols.length := by
      have := List.mem_zipIdx he
      omega
    have hid : ids[entry.2]? = some (last + 1 + entry.2) := by
      rw [hids, List.getElem?_map, getElem?_newRecords, List.getElem?_eq_getElem hi]
      rfl
    rw [List.map_map]
    refine List.map_congr_left fun range _ => ?_
    simp [cutChunk, hid]
  cases topLevel with
  | false =>
    simp only [Bool.false_or, filter_isSome_chunkFile, hown, Bool.false_eq_true, if_false,
      List.append_nil]
  | true =>
    simp only [Bool.true_or, List.filter_true, if_true]
    rw [chunkFile_eq, List.map_append, hown, List.map_map]
    rfl

end Rows

end SourceIndex
