/-
  Symbols that cover whole lines: what is stored is what a write of the whole file would
  store.

  * `WholeLines`: all symbols found for files cover whole lines, and no line of a file
    reaches past the last column;
  * `Fits.steady_of_wholeLines`: then unchanged symbols keep their lines;
  * `StoreDump.Rebuilt`: the stored symbols and chunks are those of one of the files
    written for the path;
  * `StoreDump.chunkViews`, `chunkerViews`: chunks as symbol, lines and text, apart from any
    numbers;
  * `Started.stored_as_full_write`: after every run what is stored for a path is what the
    parser and the chunker give for its content.
-/
import SourceIndex.Proofs.Matching

namespace SourceIndex

open Text

/-! ## Whole lines -/

/-- All symbols cover whole lines, and no line of a file reaches past the last column. -/
structure WholeLines (files : List Prepared) : Prop where
  symbols : ∀ f ∈ files, ∀ s ∈ f.parsed.symbols, s.Whole
  lines : ∀ f ∈ files, ∀ l ∈ lines f.content, l.length < Symbol.lastColumn

/-- The stored symbols and chunks are those of one of `files`, written for the path. -/
structure StoreDump.Rebuilt (maxLines : Nat) (files : List Prepared) (path : String)
    (d : StoreDump) : Prop extends d.Arranged maxLines files path where
  matching : d.Matching
  source : ∀ file ∈ d.file, ∃ f ∈ files, f.path = path ∧ f.content = file.content ∧
    (d.symbols.map (·.symbol)).Perm f.parsed.symbols

theorem StoreDump.rebuilt_empty (maxLines : Nat) (files : List Prepared) (q : String) :
    (({} : Rows).dump q).Rebuilt maxLines files q :=
  ⟨arranged_empty maxLines files q, matching_empty q, fun file hf => by cases hf⟩

section
variable {policy : DiffPolicy} {maxLines : Nat} {rows : Rows} {files : List Prepared}
  {texts : Set String} {f : Prepared}

namespace Prepared.Fits

open Rows

variable (h : f.Fits policy rows) (hs : rows.Sound) (hinj : Set.InjOn ContentHash.ofText texts)
  (hspans : SpansAmong texts files) (hf : f ∈ files) (hwhole : WholeLines files)
  (harranged : (rows.dump f.path).Arranged maxLines files f.path)
include h hs hinj hspans hf hwhole harranged

/-- The symbols that stay are the unchanged ones, and they keep their lines. -/
theorem stays_wholeLines {previous : FileRecord} (hp : f.previous = some previous)
    (hd : f.diff.needsFull = false) :
    (((rows.recordsOf previous.id).filter
        (·.id ∉ f.diff.affectedIds ++ f.diff.replacedIds)).map (·.symbol)).Perm
        f.diff.unchanged ∧
      (f.diff.added ++ f.diff.modified ++ f.diff.unchanged).Perm f.parsed.symbols ∧
      ∀ s ∈ f.diff.unchanged, slice (lines previous.content) s.startLine s.endLine =
        slice (lines f.content) s.startLine s.endLine := by
  obtain ⟨pairs, hpairs, hkept, hunchanged, hsymbols⟩ :=
    h.stays_previous hs hinj hspans hf harranged hp hd
  have hdump := h.dump_previous hs hp
  rw [hdump] at harranged
  have hnew : ∀ p ∈ pairs, p.1.Whole := fun p hpair =>
    hwhole.symbols f hf _ (hsymbols.mem_iff.1 (List.mem_append_right _
      (hunchanged ▸ List.mem_map_of_mem hpair)))
  have hold : ∀ p ∈ pairs, p.2.symbol.Whole := fun p hpair => by
    have hmem := (List.mem_filter.1 (hkept.mem_iff.2 (List.mem_map_of_mem hpair))).1
    obtain ⟨g, hg, -, hsymbol⟩ :=
      harranged.symbols p.2 ((perm_symbolsOf rows previous.id).mem_iff.2 hmem)
    exact hwhole.symbols g hg _ hsymbol
  have hlines : ∀ l ∈ lines previous.content, l.length < Symbol.lastColumn := by
    obtain ⟨g, hg, -, hcontent⟩ := harranged.content rfl
    exact hcontent ▸ hwhole.lines g hg
  refine ⟨?_, hsymbols, fun s hm => ?_⟩
  · have hsame : (pairs.map (·.2)).map (·.symbol) = pairs.map (·.1) := by
      rw [List.map_map]
      exact List.map_congr_left fun p hpair =>
        (hpairs p hpair).eq_of_whole (hold p hpair) (hnew p hpair)
    rw [hunchanged, ← hsame]
    exact hkept.map _
  · rw [hunchanged] at hm
    obtain ⟨p, hpair, rfl⟩ := List.mem_map.1 hm
    obtain ⟨text, ht, ht'⟩ := (hpairs p hpair).text
    rw [← slice_eq_of_spanText ht ht' (hold p hpair) (hnew p hpair) hlines (hwhole.lines f hf),
      (hpairs p hpair).startLine_eq, (hpairs p hpair).endLine_eq]

theorem steady_of_wholeLines : f.Steady := by
  intro hmode previous hp s hm
  have hd : f.diff.needsFull = false := by
    unfold mode at hmode
    split at hmode
    · cases hmode
    · rename_i hfull
      simp only [Bool.or_eq_true, not_or, Bool.not_eq_true] at hfull
      exact hfull.1
  exact (h.stays_wholeLines hs hinj hspans hf hwhole harranged hp hd).2.2 s hm

theorem perm_symbols_rowsAfter :
    (((f.rowsAfter (chunkFile maxLines) rows).recordsOf (f.fileId rows)).map (·.symbol)).Perm
      f.parsed.symbols := by
  rcases f.mode_cases with ⟨previous, hp, hd, he⟩ | ⟨-, he⟩
  · obtain ⟨last, new, hrecords, -⟩ := h.rows_of_incremental maxLines hs hp he
    obtain ⟨hkept, hsymbols, -⟩ := h.stays_wholeLines hs hinj hspans hf hwhole harranged hp hd
    rw [h.fileId_eq hs.toWellFormed hp, hrecords, List.map_append, map_symbol_newRecords]
    exact (hkept.append_right _).trans (List.perm_append_comm.trans hsymbols)
  · obtain ⟨⟨last, hrecords⟩, -⟩ := rows_of_full maxLines hs he
    rw [hrecords, map_symbol_newRecords]

end Prepared.Fits

/-- A write stores what a write of the whole file would store. -/
theorem Prepared.Fits.rebuilt_rowsAfter (h : f.Fits policy rows) (hs : rows.Sound)
    (hinj : Set.InjOn ContentHash.ofText texts) (hspans : SpansAmong texts files) (hf : f ∈ files)
    (hwhole : WholeLines files) (hrebuilt : ∀ q, (rows.dump q).Rebuilt maxLines files q)
    (q : String) : ((f.rowsAfter (chunkFile maxLines) rows).dump q).Rebuilt maxLines files q := by
  by_cases hq : q = f.path
  · subst hq
    have harranged := (hrebuilt f.path).toArranged
    have hsteady := h.steady_of_wholeLines hs hinj hspans hf hwhole harranged
    refine ⟨h.arranged_self hs hinj hspans hf harranged,
      (h.matching_self_iff hs hinj hspans hf harranged (hrebuilt f.path).matching).2 hsteady, ?_⟩
    have hr := h.rewritten (chunkFile maxLines) hs
    rw [hr.sound.dump_of_some hr.file?_self]
    intro file hfile
    cases hfile
    exact ⟨f, hf, rfl, rfl, ((Rows.perm_symbolsOf _ _).map _).trans
      (h.perm_symbols_rowsAfter hs hinj hspans hf hwhole harranged)⟩
  · rw [h.dump_rowsAfter _ hs hq]
    exact hrebuilt q

theorem Coherent.rebuilt {files' : List Prepared}
    (h : Coherent policy (chunkFile maxLines) rows files') (hs : rows.Sound)
    (hinj : Set.InjOn ContentHash.ofText texts) (hspans : SpansAmong texts files)
    (hsub : ∀ f ∈ files', f ∈ files) (hwhole : WholeLines files)
    (hrebuilt : ∀ q, (rows.dump q).Rebuilt maxLines files q) (q : String) :
    ((replay (chunkFile maxLines) rows files').dump q).Rebuilt maxLines files q := by
  induction files' generalizing rows with
  | nil => exact hrebuilt q
  | cons f files' ih =>
    exact ih h.2 (h.1.sound_rowsAfter _ hs) (fun g hg => hsub g (List.mem_cons_of_mem _ hg))
      (h.1.rebuilt_rowsAfter hs hinj hspans (hsub f List.mem_cons_self) hwhole hrebuilt)

end

/-! ## Chunks without numbers -/

/-- The symbol that a chunk belongs to, if it belongs to one, its lines and its text. -/
abbrev ChunkView := Option (Option Symbol) × Nat × Nat × String

/-- The stored chunks; the symbol that a chunk belongs to is looked up. -/
def StoreDump.chunkViews (d : StoreDump) : List ChunkView :=
  d.chunks.map fun c =>
    (c.symbolId.map fun id => (d.symbols.find? (·.id = id)).map (·.symbol),
      c.chunk.startLine, c.chunk.endLine, c.chunk.content)

/-- The chunks that a chunker makes for symbols. -/
def chunkerViews (chunker : Chunker) (content : String) (symbols : List Symbol) : List ChunkView :=
  (chunker content symbols).map fun c =>
    (c.symbolIndex.map (symbols[·]?), c.startLine, c.endLine, c.content)

/-- The chunk with some lines, as a view. -/
def cutView (ls : List String) (owner : Option (Option Symbol)) (range : Nat × Nat) : ChunkView :=
  (owner, range.1, range.2, joinLines (slice ls range.1 range.2))

theorem chunkerViews_chunkFile (maxLines : Nat) (content : String) (symbols : List Symbol) :
    chunkerViews (chunkFile maxLines) content symbols =
      (symbols.flatMap fun s => (ownRanges (maxLines - 1) (lines content).length s).map
        (cutView (lines content) (some (some s)))) ++
      (looseRanges (maxLines - 1) (lines content) symbols).map (cutView (lines content) none) := by
  unfold chunkerViews
  rw [chunkFile_eq, List.map_append, List.map_map, List.map_flatMap]
  refine congrArg₂ (· ++ ·) ?_ rfl
  have hfst : symbols.flatMap (fun s => (ownRanges (maxLines - 1) (lines content).length s).map
        (cutView (lines content) (some (some s)))) =
      symbols.zipIdx.flatMap fun entry => (ownRanges (maxLines - 1) (lines content).length
        entry.1).map (cutView (lines content) (some (some entry.1))) := by
    conv_lhs => rw [← List.zipIdx_map_fst 0 symbols, List.flatMap_map]
  rw [hfst]
  refine List.flatMap_congr fun entry he => ?_
  have hget : symbols[entry.2]? = some entry.1 := List.mem_zipIdx_iff_getElem?.1 he
  rw [List.map_map]
  refine List.map_congr_left fun range _ => ?_
  simp [cutChunk, cutView, hget]

/-- Where chunks lie and that they hold the lines that they name says what they are. -/
theorem StoreDump.perm_chunkViews {maxLines : Nat} {d : StoreDump} {content : String}
    {symbols : List Symbol}
    (hlaid : Laid (maxLines - 1) (lines content) d.symbols d.chunks)
    (hmatch : ∀ c ∈ d.chunks, c.chunk.Matches (lines content))
    (hids : (d.symbols.map (·.id)).Nodup) (hsymbols : (d.symbols.map (·.symbol)).Perm symbols) :
    d.chunkViews.Perm (chunkerViews (chunkFile maxLines) content symbols) := by
  have hviews : d.chunkViews = (d.chunks.map StoredChunk.place).map fun place =>
      cutView (lines content)
        (place.1.map fun id => (d.symbols.find? (·.id = id)).map (·.symbol)) place.2 := by
    rw [List.map_map]
    refine List.map_congr_left fun c hc => ?_
    have hcontent := hmatch c hc
    rw [Chunk.Matches] at hcontent
    simp [cutView, StoredChunk.place, hcontent]
  have hfind : ∀ r ∈ d.symbols, d.symbols.find? (·.id = r.id) = some r := by
    intro r hr
    cases hf : d.symbols.find? (·.id = r.id) with
    | none => simpa using List.find?_eq_none.1 hf r hr
    | some r' =>
      have hid : r'.id = r.id := by simpa using List.find?_some hf
      rw [List.inj_on_of_nodup_map hids (List.mem_of_find?_eq_some hf) hr hid]
  have hown : ((ownPlaces (maxLines - 1) (lines content).length d.symbols).map fun place =>
        cutView (lines content)
          (place.1.map fun id => (d.symbols.find? (·.id = id)).map (·.symbol)) place.2) =
      (d.symbols.map (·.symbol)).flatMap fun s =>
        (ownRanges (maxLines - 1) (lines content).length s).map
          (cutView (lines content) (some (some s))) := by
    rw [ownPlaces, List.map_flatMap, List.flatMap_map]
    refine List.flatMap_congr fun r hr => ?_
    rw [List.map_map]
    refine List.map_congr_left fun range _ => ?_
    simp [hfind r hr]
  rw [hviews, chunkerViews_chunkFile]
  refine (List.Perm.map _ hlaid).trans ?_
  rw [List.map_append, hown, List.map_map, looseRanges_congr _ (hsymbols.filterMap _)]
  exact (hsymbols.flatMap_right _).append_right _

/-! ## Runs -/

namespace Chronicle

variable {s t : Chronicle}

theorem Traced.wholeLines (h : t.Traced)
    (hsymbols : ∀ call ∈ t.record.parses, ∀ symbol ∈ call.result.symbols, symbol.Whole)
    (hlines : ∀ e ∈ t.record.asked, ∀ l ∈ lines e.2, l.length < Symbol.lastColumn) :
    WholeLines t.record.writes where
  symbols f hf symbol hs := by
    obtain ⟨call, hcall, -, -, -, hresult⟩ := (h.writes f hf).2
    exact hsymbols call hcall symbol (hresult ▸ hs)
  lines f hf := hlines _ (h.writes f hf).1

/-- Where fingerprints tell texts apart, the symbols of a written file were found in its
    content. -/
theorem Traced.parsed (h : t.Traced) (hinj : Set.InjOn ContentHash.ofText t.record.texts)
    {f : Prepared} (hf : f ∈ t.record.writes) :
    (⟨f.path, f.content, f.parsed⟩ : ParserCall) ∈ t.record.parses := by
  obtain ⟨hasked, call, hcall, hcallAsked, hpath, hhash, hresult⟩ := h.writes f hf
  have hcontent : call.content = f.content :=
    hinj ⟨_, _, hcallAsked, Or.inl rfl⟩ ⟨_, _, hasked, Or.inl rfl⟩ hhash
  obtain ⟨path, content, result⟩ := call
  cases hpath
  cases hcontent
  cases hresult
  exact hcall

/-- **What is stored is what a write of the whole file would store.**  Let all symbols
    that the parser finds cover whole lines.  After every run the symbols stored for a
    path are those that the parser found in its content, and its chunks are those of the
    chunker for them. -/
theorem Started.stored_as_full_write (h : s.Started none) {xs : List Happening}
    (hx : s.run xs = some t) (hinj : Set.InjOn ContentHash.ofText t.record.texts)
    (hsymbols : ∀ call ∈ t.record.parses, ∀ symbol ∈ call.result.symbols, symbol.Whole)
    (hlines : ∀ e ∈ t.record.asked, ∀ l ∈ lines e.2, l.length < Symbol.lastColumn)
    {path : String} {file : FileRecord}
    (hfile : (t.coordinator.store.store.dump path).file = some file) :
    ∃ R : ParseResult, (⟨path, file.content, R⟩ : ParserCall) ∈ t.record.parses ∧
      (∃ f ∈ t.record.writes, f.path = path ∧ f.content = file.content ∧ f.parsed = R) ∧
      ((t.coordinator.store.store.dump path).symbols.map (·.symbol)).Perm R.symbols ∧
      (t.coordinator.store.store.dump path).chunkViews.Perm
        (chunkerViews (chunkFile t.coordinator.settings.chunking.maxChunkLines) file.content
          R.symbols) := by
  have hc := h.consistent.run hx
  have ht := h.traced.run hx
  have hcoherent := hc.coherent
  have hrows := hc.rows_eq
  rw [h.chunker_run hx] at hcoherent hrows
  have hrebuilt := hcoherent.rebuilt Rows.Sound.empty hinj ht.spansAmong (fun f hf => hf)
    (ht.wholeLines hsymbols hlines) (StoreDump.rebuilt_empty _ _) path
  rw [← hrows] at hrebuilt
  obtain ⟨f, hf, rfl, hcontent, hperm⟩ := hrebuilt.source file hfile
  refine ⟨f.parsed, hcontent ▸ ht.parsed hinj hf, ⟨f, hf, rfl, hcontent, rfl⟩, hperm, ?_⟩
  have hids : ((t.coordinator.rows.dump f.path).symbols.map (·.id)).Nodup := by
    rw [hc.orderly.sound.dump_of_some hfile]
    exact ((Rows.perm_symbolsOf _ _).map _).nodup_iff.2 (hc.orderly.sound.nodup_recordsOf _)
  exact StoreDump.perm_chunkViews (hrebuilt.laid hfile) (hrebuilt.matching file hfile) hids hperm

/-- In the second revision `b` is replaced, `d` is new and found first, and a line outside
    every symbol has changed. -/
theorem Started.stored_as_full_write_sample :
    let xs : List Happening :=
      [.act (.index "p" "fn a\nfn b\nuse x\nfn c")] ++ Happening.turns 1 4 ++
      Happening.parse 0 [.ofLines "a" .function 1 1, .ofLines "b" .function 2 2,
        .ofLines "c" .function 4 4] ++ Happening.turns 1 8 ++
      [.act (.index "p" "fn a\nfn b'\nuse y\nfn c\nfn d")] ++ Happening.turns 2 5 ++
      Happening.parse 0 [.ofLines "d" .function 5 5, .ofLines "a" .function 1 1,
        .ofLines "b" .function 2 2, .ofLines "c" .function 4 4] ++ Happening.turns 2 8
    ∃ t file R, sample.Started none ∧ sample.run xs = some t ∧
      Set.InjOn ContentHash.ofText t.record.texts ∧
      (∀ call ∈ t.record.parses, ∀ symbol ∈ call.result.symbols, symbol.Whole) ∧
      (∀ e ∈ t.record.asked, ∀ l ∈ lines e.2, l.length < Symbol.lastColumn) ∧
      (t.coordinator.store.store.dump "p").file = some file ∧
      (∃ f ∈ t.record.writes, f.mode = .incremental ∧ f.diff.unchanged ≠ []) ∧
      (⟨"p", file.content, R⟩ : ParserCall) ∈ t.record.parses ∧
      ((t.coordinator.store.store.dump "p").symbols.map (·.symbol)).Perm R.symbols ∧
      (t.coordinator.store.store.dump "p").chunkViews.Perm
        (chunkerViews (chunkFile t.coordinator.settings.chunking.maxChunkLines) file.content
          R.symbols) := by
  intro xs
  have hcheck : (sample.run xs).any (fun t =>
      (∀ a ∈ t.record.textList, a ∈ ["fn a\nfn b\nuse x\nfn c",
        "fn a\nfn b'\nuse y\nfn c\nfn d", "fn a", "fn b", "fn b'", "fn c", "fn d"]) ∧
      (∀ call ∈ t.record.parses, ∀ symbol ∈ call.result.symbols, symbol.Whole) ∧
      (∀ e ∈ t.record.asked, ∀ l ∈ lines e.2, l.length < Symbol.lastColumn) ∧
      (t.coordinator.store.store.dump "p").file.isSome ∧
      ∃ f ∈ t.record.writes, f.mode = .incremental ∧ f.diff.unchanged ≠ []) = true := by
    decide +kernel
  obtain ⟨t, ht, hcheck⟩ := (Option.any_eq_true _ _).1 hcheck
  obtain ⟨htexts, hsymbols, hlines, hfile, hkept⟩ := of_decide_eq_true hcheck
  obtain ⟨file, hfile⟩ := Option.isSome_iff_exists.1 hfile
  have hinj := Record.injOn_texts (by decide +kernel) htexts
  obtain ⟨R, hparsed, -, hstored, hchunks⟩ :=
    sample_started.stored_as_full_write ht hinj hsymbols hlines hfile
  exact ⟨t, file, R, sample_started, ht, hinj, hsymbols, hlines, hfile, hkept, hparsed, hstored,
    hchunks⟩

end Chronicle

end SourceIndex
