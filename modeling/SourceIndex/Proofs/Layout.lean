/-
  The symbols and chunks that are stored for a file.

  * `Laid`: the chunks of a stored file lie where its stored symbols and its text say,
    whatever they hold;
  * `StoreDump.Matching`: every chunk of a stored file holds the lines that it names;
  * `StoreDump.Arranged`: stored chunks lie where they should, and stored symbols were found
    for the path;
  * `Fits.rows_of_full`, `Fits.rows_of_incremental`: what is stored for a file after it
    was written, as a whole or symbol by symbol;
  * `Fits.arranged_rowsAfter`, `Coherent.arranged`: this holds after every write;
  * `Prepared.Steady`: the symbols that a write keeps lie in the same lines as before;
  * `Fits.matching_self_iff`, `Coherent.matching_replay_iff`: chunks hold the lines that they
    name after files were written if and only if each of them is steady.
-/
import Mathlib.Data.Set.Function
import SourceIndex.Proofs.Chunks
import SourceIndex.Proofs.Revision

namespace SourceIndex

variable {s : Symbol} {records : List SymbolRecord}

open Text

/-! ## Where chunks lie -/

theorem Symbol.InLines.tile? {ls : List String} (h : s.InLines ls) :
    s.tile? ls.length = some (s.startLine, s.endLine) := by
  obtain ⟨h₁, h₂, h₃⟩ := h
  rw [Symbol.tile?, if_neg (by omega), Nat.max_eq_left h₂, Nat.min_eq_left h₃]

/-- The chunks lie where the stored symbols and the lines of the file say, whatever
    they hold. -/
def Laid (extra : Nat) (ls : List String) (records : List SymbolRecord)
    (chunks : List StoredChunk) : Prop :=
  (chunks.map StoredChunk.place).Perm
    (ownPlaces extra ls.length records ++
      (looseRanges extra ls (records.map (·.symbol))).map (none, ·))

theorem mem_ownPlaces {extra total : Nat} {owner : Option SymbolId} {range : Nat × Nat} :
    (owner, range) ∈ ownPlaces extra total records ↔
      ∃ r ∈ records, owner = some r.id ∧ range ∈ ownRanges extra total r.symbol := by
  simp only [ownPlaces, List.mem_flatMap, List.mem_map, Prod.mk.injEq]
  constructor
  · rintro ⟨r, hr, range', hm, rfl, rfl⟩
    exact ⟨r, hr, rfl, hm⟩
  · rintro ⟨r, hr, rfl, hm⟩
    exact ⟨r, hr, range, hm, rfl, rfl⟩

theorem ownPlaces_append (extra total : Nat) (as bs : List SymbolRecord) :
    ownPlaces extra total (as ++ bs) = ownPlaces extra total as ++ ownPlaces extra total bs :=
  List.flatMap_append

theorem filter_ownPlaces (extra total : Nat) (dropped : List SymbolId)
    (records : List SymbolRecord) :
    (ownPlaces extra total records).filter (·.1.any (· ∉ dropped)) =
      ownPlaces extra total (records.filter (·.id ∉ dropped)) := by
  unfold ownPlaces
  induction records with
  | nil => rfl
  | cons r records ih =>
    rw [List.flatMap_cons, List.filter_append, ih, List.filter_map, List.filter_cons]
    by_cases hr : r.id ∈ dropped
    · simp [hr, Function.comp_def]
    · simp [hr, Function.comp_def]

section
variable {extra : Nat} {ls ls' : List String} {records fresh : List SymbolRecord}
  {chunks new : List StoredChunk} {dropped : List SymbolId} {symbols : List Symbol}

theorem Laid.perm (h : Laid extra ls records chunks) {records' : List SymbolRecord}
    (hp : records.Perm records') : Laid extra ls records' chunks := by
  unfold Laid ownPlaces
  rw [← looseRanges_congr extra ((hp.map _).filterMap _)]
  exact List.Perm.trans h ((hp.flatMap_right _).append_right _)

/-- Some symbols stay on their lines, the others are dropped, and fresh ones come with
    new chunks. -/
theorem Laid.revise (h : Laid extra ls records chunks)
    (hstay : ∀ r ∈ records, r.id ∉ dropped → r.symbol.tile? ls.length = r.symbol.tile? ls'.length)
    (hnew : new.map StoredChunk.place =
      ownPlaces extra ls'.length fresh ++ (looseRanges extra ls' symbols).map (none, ·))
    (hloose : (symbols.filterMap (·.tile? ls'.length)).Perm
      (((records.filter (·.id ∉ dropped) ++ fresh).map (·.symbol)).filterMap
        (·.tile? ls'.length))) :
    Laid extra ls' (records.filter (·.id ∉ dropped) ++ fresh)
      (chunks.filter (fun c => c.symbolId.any (· ∉ dropped)) ++ new) := by
  have hkept : (chunks.filter fun c => c.symbolId.any (· ∉ dropped)).map StoredChunk.place =
      (chunks.map StoredChunk.place).filter (·.1.any (· ∉ dropped)) := by
    rw [List.filter_map]
    rfl
  have hnone : ((looseRanges extra ls (records.map (·.symbol))).map
      ((none : Option SymbolId), ·)).filter (·.1.any (· ∉ dropped)) = [] := by
    refine List.filter_eq_nil_iff.2 fun p hp => ?_
    obtain ⟨range, -, rfl⟩ := List.mem_map.1 hp
    exact Bool.false_ne_true
  have hown : ownPlaces extra ls.length (records.filter (·.id ∉ dropped)) =
      ownPlaces extra ls'.length (records.filter (·.id ∉ dropped)) := by
    refine List.flatMap_congr fun r hr => ?_
    obtain ⟨hr, hid⟩ := List.mem_filter.1 hr
    rw [ownRanges, ownRanges, hstay r hr (of_decide_eq_true hid)]
  have hold := h.filter (·.1.any (· ∉ dropped))
  rw [List.filter_append, filter_ownPlaces, hnone, List.append_nil, hown] at hold
  unfold Laid
  rw [List.map_append, hkept, hnew, ownPlaces_append, List.append_assoc,
    looseRanges_congr extra hloose]
  exact hold.append_right _

/-- Chunks of symbols that stay hold the new lines if and only if the lines of these
    symbols are still the same. -/
theorem Laid.matches_iff (h : Laid extra ls records chunks)
    (hmatch : ∀ c ∈ chunks, c.chunk.Matches ls)
    (hstay : ∀ r ∈ records, r.id ∉ dropped → r.symbol.InLines ls ∧ r.symbol.InLines ls')
    (hl : ∀ l ∈ ls, '\n' ∉ l.toList) (hl' : ∀ l ∈ ls', '\n' ∉ l.toList) :
    (∀ c ∈ chunks.filter (fun c => c.symbolId.any (· ∉ dropped)), c.chunk.Matches ls') ↔
      ∀ r ∈ records.filter (·.id ∉ dropped),
        slice ls r.symbol.startLine r.symbol.endLine =
          slice ls' r.symbol.startLine r.symbol.endLine := by
  constructor
  · intro hnew r hr
    obtain ⟨hr, hid⟩ := List.mem_filter.1 hr
    obtain ⟨hin, hin'⟩ := hstay r hr (of_decide_eq_true hid)
    -- the lines of the symbol are those of its chunks, one after another
    rw [← flatMap_slice_pieces ls extra _ hin.1 (Nat.le_succ_of_le hin.2.1),
      ← flatMap_slice_pieces ls' extra _ hin.1 (Nat.le_succ_of_le hin.2.1)]
    refine List.flatMap_congr fun p hp => ?_
    have hown : (some r.id, p) ∈ ownPlaces extra ls.length records :=
      mem_ownPlaces.2 ⟨r, hr, rfl, by rwa [ownRanges, hin.tile?]⟩
    obtain ⟨c, hc, hplace⟩ := List.mem_map.1 (h.mem_iff.2 (List.mem_append_left _ hown))
    obtain ⟨howner, hrange⟩ := Prod.mk.inj hplace
    obtain ⟨hstart, hend⟩ := Prod.mk.inj hrange
    have hm := hmatch c hc
    have hm' := hnew c (List.mem_filter.2 ⟨hc, by rw [howner]; exact hid⟩)
    rw [Chunk.Matches, hstart, hend] at hm hm'
    obtain ⟨h₁, h₂, h₃⟩ := mem_pieces hp
    exact joinLines_injective (fun l hm => hl l (mem_of_mem_slice hm))
      (fun l hm => hl' l (mem_of_mem_slice hm))
      (slice_ne_nil (Nat.le_trans hin.1 h₁) h₂ (Nat.le_trans h₃ hin.2.2))
      (slice_ne_nil (Nat.le_trans hin.1 h₁) h₂ (Nat.le_trans h₃ hin'.2.2)) (hm.symm.trans hm')
  · intro hsame c hc
    obtain ⟨hc, howner⟩ := List.mem_filter.1 hc
    have hplace := h.mem_iff.1 (List.mem_map_of_mem (f := StoredChunk.place) hc)
    rcases List.mem_append.1 hplace with hplace | hplace
    · obtain ⟨r, hr, hid, hrange⟩ := mem_ownPlaces.1 hplace
      rw [hid] at howner
      obtain ⟨hin, hin'⟩ := hstay r hr (of_decide_eq_true howner)
      rw [ownRanges, hin.tile?] at hrange
      obtain ⟨h₁, h₂, h₃⟩ := mem_pieces hrange
      rw [Chunk.Matches, hmatch c hc,
        slice_congr hin.1 h₁ h₂ h₃ (hsame r (List.mem_filter.2 ⟨hr, howner⟩))]
    · obtain ⟨range, -, hp⟩ := List.mem_map.1 hplace
      rw [← (Prod.mk.inj hp).1] at howner
      cases howner

end

/-! ## Symbols that stay -/

/-- Two symbols of two revisions of a file that have the same key and cover the same
    text. -/
structure Symbol.Stays (old content : String) (s s' : Symbol) : Prop where
  key_eq : s.key = s'.key
  text : ∃ text, spanText (lines old) s = some text ∧ spanText (lines content) s' = some text

namespace Symbol.Stays

variable {old content : String} {s s' : Symbol}

theorem startLine_eq (h : s.Stays old content s') : s.startLine = s'.startLine :=
  congrArg Key.startLine h.key_eq

theorem endLine_eq (h : s.Stays old content s') : s.endLine = s'.endLine := by
  obtain ⟨text, ht, ht'⟩ := h.text
  exact endLine_eq_of_spanText ht ht' h.startLine_eq

theorem inLines_old (h : s.Stays old content s') : s.InLines (lines old) := by
  obtain ⟨text, ht, -⟩ := h.text
  obtain ⟨h₁, h₂, h₃, -⟩ := spanText_eq_some ht
  exact ⟨h₁, h₂, h₃⟩

theorem inLines_new (h : s.Stays old content s') : s'.InLines (lines content) := by
  obtain ⟨text, -, ht⟩ := h.text
  obtain ⟨h₁, h₂, h₃, -⟩ := spanText_eq_some ht
  exact ⟨h₁, h₂, h₃⟩

theorem inLines (h : s.Stays old content s') : s.InLines (lines content) := by
  rw [InLines, h.startLine_eq, h.endLine_eq]
  exact h.inLines_new

theorem tile?_eq (h : s.Stays old content s') :
    s.tile? (lines content).length = s'.tile? (lines content).length := by
  rw [h.inLines.tile?, h.inLines_new.tile?, h.startLine_eq, h.endLine_eq]

/-- If both symbols cover whole lines, they are the same. -/
theorem eq_of_whole (h : s.Stays old content s') (hw : s.Whole) (hw' : s'.Whole) : s = s' := by
  obtain ⟨hkind, hname, hstart⟩ := Key.mk.inj h.key_eq
  have hend := h.endLine_eq
  cases s
  cases s'
  obtain ⟨hsc, hec⟩ := hw
  obtain ⟨hsc', hec'⟩ := hw'
  simp_all

end Symbol.Stays

/-- The texts that symbols cover in a content are all among `texts`. -/
def Spanned (texts : Set String) (content : String) (symbols : List Symbol) : Prop :=
  ∀ s ∈ symbols, ∀ text, spanText (lines content) s = some text → text ∈ texts

/-- An unchanged symbol stays where no two texts have the same fingerprint. -/
theorem Diff.Judged.stays {texts : Set String} {old content : String} {symbols : List Symbol}
    {judged : List (Symbol × Verdict)}
    (h : Judged (lines old) (lines content) records symbols judged)
    (hinj : Set.InjOn ContentHash.ofText texts) (ho : Spanned texts old (records.map (·.symbol)))
    (hn : Spanned texts content symbols) {r : SymbolRecord} (hk : (s, r) ∈ kept judged) :
    r.symbol.Stays old content s := by
  obtain ⟨hr, hkey, oldSpan, span, hspan, hspan', he⟩ := h.of_mem_kept hk
  have hs : s ∈ symbols := h.symbols_eq ▸ List.mem_map_of_mem (f := Prod.fst) (mem_kept.1 hk)
  have := hinj (ho _ (List.mem_map_of_mem hr) _ hspan) (hn s hs _ hspan') he
  exact ⟨hkey, span, this ▸ hspan, hspan'⟩

namespace Prepared

open Rows

/-! ## Writing symbols and chunks -/

section
variable {rows : Rows} {file : FileId} (maxLines : Nat) (content : String) (symbols : List Symbol)

theorem rows_of_symbolRows (topLevel : Bool) (h : rows.WellFormed) (hf : file ∈ rows.files.keys) :
    (symbolRows (chunkFile maxLines) file content symbols topLevel rows).2.recordsOf file =
        rows.recordsOf file ++ newRecords rows.lastSymbol file symbols ∧
      ∃ new, (symbolRows (chunkFile maxLines) file content symbols topLevel rows).2.chunksOf file =
          rows.chunksOf file ++ new ∧
        new.map StoredChunk.place =
          ownPlaces (maxLines - 1) (lines content).length
              (newRecords rows.lastSymbol file symbols) ++
            (if topLevel then (looseRanges (maxLines - 1) (lines content) symbols).map (none, ·)
              else []) ∧
        ∀ c ∈ new, c.chunk.Matches (lines content) := by
  refine ⟨recordsOf_symbolRows _ _ _ _ h hf, ?_⟩
  unfold symbolRows
  split
  · rename_i he
    rw [Bool.and_eq_true, List.isEmpty_iff, Bool.not_eq_true'] at he
    rw [he.1, he.2]
    exact ⟨[], (List.append_nil _).symm, rfl, fun _ hc => by cases hc⟩
  have hw := h.insertSymbols hf symbols
  have hchunks := chunksOf_insertChunks hw file file
    (((chunkFile maxLines content symbols).filter fun c => topLevel || c.symbolIndex.isSome).zip
      (((chunkFile maxLines content symbols).filter fun c => topLevel || c.symbolIndex.isSome).map
        fun c => c.symbolIndex.bind fun i => (rows.insertSymbols file symbols).1[i]?))
  rw [if_pos rfl, chunksOf_insertSymbols h] at hchunks
  refine ⟨_, hchunks, ?_, fun c hc => ?_⟩
  · rw [map_place_newChunks]
    exact map_place_chunkFile maxLines content symbols topLevel rows.lastSymbol file
      (map_id_newRecords _ _ _).symm
  · have hm := (List.of_mem_zip (mem_newChunks hc).2.2.2).1
    exact matches_of_mem_chunkFile (List.mem_filter.1 hm).1

theorem rows_of_fileLevelRows (file : FileId) (h : rows.WellFormed) :
    (fileLevelRows (chunkFile maxLines) file content symbols rows).2.recordsOf file =
        rows.recordsOf file ∧
      ∃ new, (fileLevelRows (chunkFile maxLines) file content symbols rows).2.chunksOf file =
          (rows.chunksOf file).filter (·.symbolId.isSome) ++ new ∧
        new.map StoredChunk.place =
          (looseRanges (maxLines - 1) (lines content) symbols).map (none, ·) ∧
        ∀ c ∈ new, c.chunk.Matches (lines content) := by
  have hw := h.deleteFileLevel file
  have hchunks := chunksOf_insertChunks hw file file
    (((chunkFile maxLines content symbols).filter (·.symbolIndex.isNone)).zip
      (((chunkFile maxLines content symbols).filter (·.symbolIndex.isNone)).map fun _ => none))
  rw [if_pos rfl, chunksOf_deleteFileLevel, if_pos rfl] at hchunks
  refine ⟨recordsOf_insertChunks hw _ _ _, _, hchunks, ?_, fun c hc => ?_⟩
  · rw [map_place_newChunks, filter_isNone_chunkFile, List.map_map]
    rfl
  · have hm := (List.of_mem_zip (mem_newChunks hc).2.2.2).1
    exact matches_of_mem_chunkFile (List.mem_filter.1 hm).1

end

variable {policy : DiffPolicy} {rows : Rows} {f : Prepared} (maxLines : Nat)

theorem isSome_of_mem_ownPlaces {extra total : Nat} {place : Option SymbolId × Nat × Nat}
    (h : place ∈ ownPlaces extra total records) : place.1.isSome := by
  obtain ⟨r, -, hp, -⟩ := mem_ownPlaces.1 h
  rw [hp]
  rfl

namespace Fits

theorem rows_of_full (hs : rows.Sound)
    (hmode : f.written (chunkFile maxLines) = f.fullRows (chunkFile maxLines)) :
    (∃ last, (f.rowsAfter (chunkFile maxLines) rows).recordsOf (f.fileId rows) =
        newRecords last (f.fileId rows) f.parsed.symbols) ∧
      ((f.rowsAfter (chunkFile maxLines) rows).chunksOf (f.fileId rows)).map StoredChunk.place =
        ownPlaces (maxLines - 1) (lines f.content).length
            ((f.rowsAfter (chunkFile maxLines) rows).recordsOf (f.fileId rows)) ++
          (looseRanges (maxLines - 1) (lines f.content) f.parsed.symbols).map (none, ·) ∧
      ∀ c ∈ (f.rowsAfter (chunkFile maxLines) rows).chunksOf (f.fileId rows),
        c.chunk.Matches (lines f.content) := by
  have hd := (hs.upsertFile f.path f.content).deleteContents (f.fileId rows)
  have hkey : f.fileId rows ∈
      ((rows.upsertFile f.path f.content).2.deleteContents (f.fileId rows)).files.keys :=
    mem_files_upsertFile hs.toWellFormed f.path f.content
  obtain ⟨hrecords, new, hchunks, hplaces, hmatch⟩ := rows_of_symbolRows maxLines f.content
    f.parsed.symbols true hd.toWellFormed hkey
  rw [recordsOf_deleteContents, if_pos rfl, List.nil_append] at hrecords
  rw [chunksOf_deleteContents, if_pos rfl, List.nil_append] at hchunks
  rw [rowsAfter, hmode, fullRows_eq, hrecords, hchunks]
  exact ⟨⟨_, rfl⟩, hplaces, hmatch⟩

/-- What is stored for a file after it was written symbol by symbol: the symbols that
    are not dropped with their chunks, and then what is new. -/
theorem rows_of_incremental (h : f.Fits policy rows) (hs : rows.Sound) {previous : FileRecord}
    (hp : f.previous = some previous)
    (hmode : f.written (chunkFile maxLines) = f.incrementalRows (chunkFile maxLines) previous) :
    ∃ last new, (f.rowsAfter (chunkFile maxLines) rows).recordsOf previous.id =
        (rows.recordsOf previous.id).filter (·.id ∉ f.diff.affectedIds ++ f.diff.replacedIds) ++
          newRecords last previous.id (f.diff.added ++ f.diff.modified) ∧
      (f.rowsAfter (chunkFile maxLines) rows).chunksOf previous.id =
        (rows.chunksOf previous.id).filter (fun c => c.symbolId.any
          (· ∉ f.diff.affectedIds ++ f.diff.replacedIds)) ++ new ∧
      new.map StoredChunk.place =
        ownPlaces (maxLines - 1) (lines f.content).length
            (newRecords last previous.id (f.diff.added ++ f.diff.modified)) ++
          (looseRanges (maxLines - 1) (lines f.content) f.parsed.symbols).map (none, ·) ∧
      ∀ c ∈ new, c.chunk.Matches (lines f.content) := by
  have h₁ := hs.dropAll (f.diff.affectedIds ++ f.diff.replacedIds)
  have hkey : previous.id ∈
      (rows.dropAll (f.diff.affectedIds ++ f.diff.replacedIds)).files.keys := by
    rw [(rows.dropAll_files _).1]
    exact h.mem_files hs.toWellFormed hp
  have h₂ := sound_symbolRows (chunkFile maxLines) f.content (f.diff.added ++ f.diff.modified) false
    h₁ hkey
  obtain ⟨hrecords, owned, hchunks, hplaces, hmatch⟩ := rows_of_symbolRows maxLines f.content
    (f.diff.added ++ f.diff.modified) false h₁.toWellFormed hkey
  obtain ⟨hrecords', loose, hchunks', hplaces', hmatch'⟩ := rows_of_fileLevelRows maxLines f.content
    f.parsed.symbols previous.id h₂.toWellFormed
  rw [if_neg Bool.false_ne_true, List.append_nil] at hplaces
  have howned : owned.filter (·.symbolId.isSome) = owned :=
    List.filter_eq_self.2 fun c hc =>
      isSome_of_mem_ownPlaces (hplaces ▸ List.mem_map_of_mem (f := StoredChunk.place) hc)
  rw [hrecords, recordsOf_dropAll hs.toWellFormed] at hrecords'
  rw [hchunks, List.filter_append, howned, chunksOf_dropAll, List.filter_filter,
    List.append_assoc] at hchunks'
  refine ⟨(rows.dropAll (f.diff.affectedIds ++ f.diff.replacedIds)).lastSymbol, owned ++ loose,
    ?_, ?_, ?_, ?_⟩
  · rw [rowsAfter, hmode, incrementalRows, recordsOf_upsertFile]
    exact hrecords'
  · rw [rowsAfter, hmode, incrementalRows, chunksOf_upsertFile]
    refine hchunks'.trans (congrArg (· ++ _) (List.filter_congr fun c _ => ?_))
    cases c.symbolId with
    | none => rfl
    | some id => simp only [Option.isSome_some, Bool.true_and, Option.any_some]; grind
  · rw [List.map_append, hplaces, hplaces']
  · intro c hc
    exact (List.mem_append.1 hc).elim (hmatch c) (hmatch' c)

end Fits

end Prepared

/-! ## Chunks over many writes -/

/-- What is stored for a path where the chunks lie as symbols and text say, and these
    come from some of `files`. -/
structure StoreDump.Arranged (maxLines : Nat) (files : List Prepared) (path : String)
    (d : StoreDump) : Prop where
  laid : ∀ {file}, d.file = some file →
    Laid (maxLines - 1) (lines file.content) d.symbols d.chunks
  content : ∀ {file}, d.file = some file → ∃ f ∈ files, f.path = path ∧ f.content = file.content
  symbols : ∀ r ∈ d.symbols, ∃ f ∈ files, f.path = path ∧ r.symbol ∈ f.parsed.symbols

/-- Every chunk holds the lines that it names. -/
def StoreDump.Matching (d : StoreDump) : Prop :=
  ∀ file ∈ d.file, ∀ c ∈ d.chunks, c.chunk.Matches (lines file.content)

theorem StoreDump.matching_iff (file : FileRecord) (symbols : List SymbolRecord)
    (chunks : List StoredChunk) : (⟨some file, symbols, chunks⟩ : StoreDump).Matching ↔
      ∀ c ∈ chunks, c.chunk.Matches (lines file.content) := by
  constructor
  · exact fun h => h file rfl
  · intro h file' hfile
    cases hfile
    exact h

/-- The lines of the unchanged symbols of a file that is written symbol by symbol are
    those that they were before. -/
def Prepared.Steady (f : Prepared) : Prop :=
  f.mode = .incremental → ∀ previous ∈ f.previous, ∀ s ∈ f.diff.unchanged,
    slice (lines previous.content) s.startLine s.endLine =
      slice (lines f.content) s.startLine s.endLine

instance (ls : List String) (c : Chunk) : Decidable (c.Matches ls) :=
  inferInstanceAs (Decidable (_ = _))

instance (d : StoreDump) : Decidable d.Matching :=
  inferInstanceAs (Decidable (∀ file ∈ d.file, ∀ c ∈ d.chunks,
    c.chunk.Matches (lines file.content)))

instance (f : Prepared) : Decidable f.Steady :=
  inferInstanceAs (Decidable (_ → ∀ previous ∈ f.previous, ∀ s ∈ f.diff.unchanged, _ = _))

/-- The texts that the symbols found for a path cover in the contents written for it
    are all among `texts`. -/
def SpansAmong (texts : Set String) (files : List Prepared) : Prop :=
  ∀ f ∈ files, ∀ g ∈ files, g.path = f.path → Spanned texts f.content g.parsed.symbols

section
variable {policy : DiffPolicy} {maxLines : Nat} {rows : Rows} {files : List Prepared}
  {texts : Set String} {f : Prepared}

theorem StoreDump.Arranged.spanned {path : String} {d : StoreDump}
    (h : d.Arranged maxLines files path) (hspans : SpansAmong texts files) {file : FileRecord}
    (hf : d.file = some file) : Spanned texts file.content (d.symbols.map (·.symbol)) := by
  intro s hs text ht
  obtain ⟨r, hr, rfl⟩ := List.mem_map.1 hs
  obtain ⟨f, hf, hpath, hcontent⟩ := h.content hf
  obtain ⟨g, hg, hpath', hmem⟩ := h.symbols r hr
  exact hspans f hf g hg (hpath'.trans hpath.symm) _ hmem text (hcontent ▸ ht)

theorem StoreDump.arranged_empty (maxLines : Nat) (files : List Prepared) (q : String) :
    (({} : Rows).dump q).Arranged maxLines files q := by
  refine ⟨fun hf => ?_, fun hf => ?_, fun r hr => ?_⟩
  · cases hf
  · cases hf
  · cases hr

theorem StoreDump.matching_empty (q : String) : (({} : Rows).dump q).Matching := fun file hf => by
  cases hf

namespace Prepared.Fits

open Rows

variable (h : f.Fits policy rows) (hs : rows.Sound) (hinj : Set.InjOn ContentHash.ofText texts)
  (hspans : SpansAmong texts files) (hf : f ∈ files)
  (harranged : (rows.dump f.path).Arranged maxLines files f.path)

section
variable {previous : FileRecord} (hp : f.previous = some previous)
include h hs hp

theorem dump_previous : rows.dump f.path =
    ⟨some previous, rows.symbolsOf previous.id, rows.chunksOf previous.id⟩ :=
  hs.dump_of_some (h.file?_eq.trans hp)

include harranged

theorem laid_previous : Laid (maxLines - 1) (lines previous.content)
    (rows.recordsOf previous.id) (rows.chunksOf previous.id) := by
  have hdump := h.dump_previous hs hp
  rw [hdump] at harranged
  exact (harranged.laid rfl).perm (perm_symbolsOf rows previous.id)

include hinj hspans hf

/-- The symbols that stay in a file that is written symbol by symbol, each with the
    stored symbol it was matched with. -/
theorem stays_previous (hd : f.diff.needsFull = false) :
    ∃ pairs : List (Symbol × SymbolRecord),
      (∀ p ∈ pairs, p.2.symbol.Stays previous.content f.content p.1) ∧
      ((rows.recordsOf previous.id).filter
        (·.id ∉ f.diff.affectedIds ++ f.diff.replacedIds)).Perm (pairs.map (·.2)) ∧
      f.diff.unchanged = pairs.map (·.1) ∧
      (f.diff.added ++ f.diff.modified ++ f.diff.unchanged).Perm f.parsed.symbols := by
  have hdump := h.dump_previous hs hp
  have hspanned := harranged.spanned hspans (congrArg StoreDump.file hdump)
  rw [hdump] at hspanned
  obtain ⟨judged, hj, hkept, hunchanged, hsymbols⟩ := h.stays hs.toWellFormed hp hd
  refine ⟨Diff.kept judged, fun p hk => ?_, hkept, hunchanged, hsymbols⟩
  exact hj.stays hinj hspanned (hspans f hf f hf rfl) hk

theorem inLines_of_stays (hd : f.diff.needsFull = false) {r : SymbolRecord}
    (hr : r ∈ rows.recordsOf previous.id)
    (hid : r.id ∉ f.diff.affectedIds ++ f.diff.replacedIds) :
    r.symbol.InLines (lines previous.content) ∧ r.symbol.InLines (lines f.content) := by
  obtain ⟨pairs, hpairs, hkept, -⟩ := h.stays_previous hs hinj hspans hf harranged hp hd
  have hmem := hkept.mem_iff.1 (List.mem_filter.2 ⟨hr, decide_eq_true hid⟩)
  obtain ⟨p, hpair, rfl⟩ := List.mem_map.1 hmem
  exact ⟨(hpairs p hpair).inLines_old, (hpairs p hpair).inLines⟩

theorem steady_iff (hd : f.diff.needsFull = false) :
    f.Steady ↔ ∀ r ∈ (rows.recordsOf previous.id).filter
        (·.id ∉ f.diff.affectedIds ++ f.diff.replacedIds),
      slice (lines previous.content) r.symbol.startLine r.symbol.endLine =
        slice (lines f.content) r.symbol.startLine r.symbol.endLine := by
  obtain ⟨pairs, hpairs, hkept, hunchanged, -⟩ :=
    h.stays_previous hs hinj hspans hf harranged hp hd
  constructor
  · intro hsteady r hr
    obtain ⟨p, hpair, rfl⟩ := List.mem_map.1 (hkept.mem_iff.1 hr)
    have hmode : f.mode = .incremental := by
      rw [mode, hd, hp]
      rfl
    rw [(hpairs p hpair).startLine_eq, (hpairs p hpair).endLine_eq]
    exact hsteady hmode previous hp p.1 (hunchanged ▸ List.mem_map_of_mem hpair)
  · intro hsame _ previous' hp' s hm
    obtain rfl : previous' = previous := Option.some.inj (hp'.symm.trans hp)
    rw [hunchanged] at hm
    obtain ⟨p, hpair, rfl⟩ := List.mem_map.1 hm
    have := hsame p.2 (hkept.mem_iff.2 (List.mem_map_of_mem hpair))
    rwa [(hpairs p hpair).startLine_eq, (hpairs p hpair).endLine_eq] at this

end

include h hs hinj hspans hf harranged

theorem laid_rowsAfter :
    Laid (maxLines - 1) (lines f.content)
      ((f.rowsAfter (chunkFile maxLines) rows).recordsOf (f.fileId rows))
      ((f.rowsAfter (chunkFile maxLines) rows).chunksOf (f.fileId rows)) := by
  rcases f.mode_cases with ⟨previous, hp, hd, he⟩ | ⟨-, he⟩
  · obtain ⟨last, new, hrecords, hchunks, hplaces, -⟩ := h.rows_of_incremental maxLines hs hp he
    obtain ⟨pairs, hpairs, hkept, hunchanged, hsymbols⟩ :=
      h.stays_previous hs hinj hspans hf harranged hp hd
    rw [h.fileId_eq hs.toWellFormed hp, hrecords, hchunks]
    refine (h.laid_previous hs harranged hp).revise (fun r hr hid => ?_) hplaces ?_
    · have hin := h.inLines_of_stays hs hinj hspans hf harranged hp hd hr hid
      rw [hin.1.tile?, hin.2.tile?]
    · -- the tiles of the symbols that stay are those of the symbols they were matched with
      have htiles : (pairs.map (·.1)).filterMap (·.tile? (lines f.content).length) =
          ((pairs.map (·.2)).map (·.symbol)).filterMap (·.tile? (lines f.content).length) := by
        simp only [List.filterMap_map]
        exact List.filterMap_congr fun p hpair => (hpairs p hpair).tile?_eq.symm
      rw [hunchanged] at hsymbols
      rw [List.map_append, map_symbol_newRecords]
      refine (hsymbols.symm.filterMap _).trans (List.Perm.trans ?_
        (((hkept.map _).symm.append_right _).filterMap _))
      simp only [List.filterMap_append, htiles]
      exact List.perm_append_comm
  · obtain ⟨⟨last, hrecords⟩, hplaces, -⟩ := rows_of_full maxLines hs he
    unfold Laid
    rw [hplaces, hrecords, map_symbol_newRecords]

/-- The symbols that are stored after a file was written come from the files written
    for its path. -/
theorem symbols_rowsAfter {r : SymbolRecord}
    (hr : r ∈ (f.rowsAfter (chunkFile maxLines) rows).recordsOf (f.fileId rows)) :
    ∃ g ∈ files, g.path = f.path ∧ r.symbol ∈ g.parsed.symbols := by
  have hself : ∀ {last symbols}, (∀ s ∈ symbols, s ∈ f.parsed.symbols) →
      r ∈ newRecords last (f.fileId rows) symbols →
      ∃ g ∈ files, g.path = f.path ∧ r.symbol ∈ g.parsed.symbols := by
    intro last symbols hsub hr
    have hm := List.mem_map_of_mem (f := SymbolRecord.symbol) hr
    rw [map_symbol_newRecords] at hm
    exact ⟨f, hf, rfl, hsub _ hm⟩
  rcases f.mode_cases with ⟨previous, hp, hd, he⟩ | ⟨-, he⟩
  · obtain ⟨last, new, hrecords, -⟩ := h.rows_of_incremental maxLines hs hp he
    obtain ⟨pairs, -, -, -, hsymbols⟩ := h.stays_previous hs hinj hspans hf harranged hp hd
    rw [h.fileId_eq hs.toWellFormed hp] at hr hself
    rw [hrecords] at hr
    rcases List.mem_append.1 hr with hr | hr
    · have hdump := congrArg StoreDump.symbols (h.dump_previous hs hp)
      refine harranged.symbols r ?_
      rw [hdump]
      exact (perm_symbolsOf rows previous.id).mem_iff.2 (List.mem_filter.1 hr).1
    · exact hself (fun s hm => hsymbols.mem_iff.1 (List.mem_append_left _ hm)) hr
  · obtain ⟨⟨last, hrecords⟩, -⟩ := rows_of_full maxLines hs he
    exact hself (fun s hm => hm) (hrecords ▸ hr)

theorem arranged_self :
    ((f.rowsAfter (chunkFile maxLines) rows).dump f.path).Arranged maxLines files f.path := by
  have hr := h.rewritten (chunkFile maxLines) hs
  have hperm := perm_symbolsOf (f.rowsAfter (chunkFile maxLines) rows) (f.fileId rows)
  rw [hr.sound.dump_of_some hr.file?_self]
  constructor
  · intro file hfile
    cases hfile
    exact (h.laid_rowsAfter hs hinj hspans hf harranged).perm hperm.symm
  · intro file hfile
    cases hfile
    exact ⟨f, hf, rfl, rfl⟩
  · intro r hmem
    exact h.symbols_rowsAfter hs hinj hspans hf harranged (hperm.mem_iff.1 hmem)

/-- **Chunks that are kept** hold the lines that they name if and only if the symbols
    that they belong to keep their lines. -/
theorem matching_self_iff (hmatching : (rows.dump f.path).Matching) :
    ((f.rowsAfter (chunkFile maxLines) rows).dump f.path).Matching ↔ f.Steady := by
  have hr := h.rewritten (chunkFile maxLines) hs
  have hself : ((f.rowsAfter (chunkFile maxLines) rows).dump f.path).Matching ↔
      ∀ c ∈ (f.rowsAfter (chunkFile maxLines) rows).chunksOf (f.fileId rows),
        c.chunk.Matches (lines f.content) := by
    rw [hr.sound.dump_of_some hr.file?_self, StoreDump.matching_iff]
  rw [hself]
  rcases f.mode_cases with ⟨previous, hp, hd, he⟩ | ⟨hmode, he⟩
  · obtain ⟨last, new, -, hchunks, -, hnew⟩ := h.rows_of_incremental maxLines hs hp he
    have hold : ∀ c ∈ rows.chunksOf previous.id, c.chunk.Matches (lines previous.content) := by
      rwa [h.dump_previous hs hp, StoreDump.matching_iff] at hmatching
    have hiff := (h.laid_previous hs harranged hp).matches_iff hold
      (fun r hr hid => h.inLines_of_stays hs hinj hspans hf harranged hp hd hr hid)
      (fun l hl => newline_notMem_lines hl) (fun l hl => newline_notMem_lines hl)
    rw [h.fileId_eq hs.toWellFormed hp, hchunks, List.forall_mem_append, hiff,
      and_iff_left hnew, h.steady_iff hs hinj hspans hf harranged hp hd]
  · have hfull := (rows_of_full maxLines hs he).2.2
    refine iff_of_true hfull fun hincremental => ?_
    rw [hmode] at hincremental
    cases hincremental

theorem arranged_rowsAfter (hothers : ∀ q, (rows.dump q).Arranged maxLines files q) (q : String) :
    ((f.rowsAfter (chunkFile maxLines) rows).dump q).Arranged maxLines files q := by
  by_cases hq : q = f.path
  · rw [hq]
    exact h.arranged_self hs hinj hspans hf harranged
  · rw [h.dump_rowsAfter _ hs hq]
    exact hothers q

end Prepared.Fits

namespace Coherent

variable {files' : List Prepared} (h : Coherent policy (chunkFile maxLines) rows files')
  (hs : rows.Sound) (hinj : Set.InjOn ContentHash.ofText texts) (hspans : SpansAmong texts files)
  (hsub : ∀ f ∈ files', f ∈ files) (harranged : ∀ q, (rows.dump q).Arranged maxLines files q)
include h hs hinj hspans hsub harranged

theorem arranged (q : String) :
    ((replay (chunkFile maxLines) rows files').dump q).Arranged maxLines files q := by
  induction files' generalizing rows with
  | nil => exact harranged q
  | cons f files' ih =>
    have hf := hsub f List.mem_cons_self
    exact ih h.2 (h.1.sound_rowsAfter _ hs) (fun g hg => hsub g (List.mem_cons_of_mem _ hg))
      fun q => h.1.arranged_rowsAfter hs hinj hspans hf (harranged _) harranged q

/-- After files of different paths were written, every chunk holds the lines that it
    names if and only if the symbols that stay in these files keep their lines. -/
theorem matching_replay_iff (hn : (files'.map (·.path)).Nodup)
    (hmatching : ∀ q, (rows.dump q).Matching) :
    (∀ q, ((replay (chunkFile maxLines) rows files').dump q).Matching) ↔
      ∀ f ∈ files', f.Steady := by
  induction files' generalizing rows with
  | nil => exact iff_of_true hmatching fun _ hf => by cases hf
  | cons f files' ih =>
    have hf := hsub f List.mem_cons_self
    have hs' := h.1.sound_rowsAfter (chunkFile maxLines) hs
    have hself := h.1.matching_self_iff hs hinj hspans hf (harranged _) (hmatching _)
    have hafter : f.Steady → ∀ q, ((f.rowsAfter (chunkFile maxLines) rows).dump q).Matching := by
      intro hsteady q
      by_cases hq : q = f.path
      · exact hq ▸ hself.2 hsteady
      · rw [h.1.dump_rowsAfter _ hs hq]
        exact hmatching q
    have ih := fun hsteady => ih h.2 hs' (fun g hg => hsub g (List.mem_cons_of_mem _ hg))
      (fun q => h.1.arranged_rowsAfter hs hinj hspans hf (harranged _) harranged q)
      (List.nodup_cons.1 hn).2 (hafter hsteady)
    rw [List.forall_mem_cons]
    constructor
    · intro hall
      -- nothing after the file is written for its path
      have hdump := h.2.dump_replay hs' (List.nodup_cons.1 hn).1
      have hsteady : f.Steady := hself.1 (hdump ▸ hall f.path)
      exact ⟨hsteady, (ih hsteady).1 hall⟩
    · rintro ⟨hsteady, hrest⟩
      exact (ih hsteady).2 hrest

end Coherent

end

end SourceIndex
