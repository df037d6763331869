/-
  A file that is written symbol by symbol leaves the rows alone that it does not concern.

  * `Rows.withKey`, `Rows.ownedBy`: the symbols of a file with a key, and the chunks of a
    symbol;
  * `Rows.Later`: a chunk that is newer than some rows, as is its symbol;
  * `Rows.Spares`: what such a write leaves alone: the rows of unchanged symbols and their
    chunks, every row that stays, the number of the file, and all other files;
  * `Prepared.Fits.spares`: writing a file symbol by symbol does;
  * `Opened.incremental_frame`: so does every request for one file that ends with such a
    write, and none of its other steps changes a row.
-/
import SourceIndex.Proofs.Provenance

namespace SourceIndex

namespace Rows

/-- The symbols of a file with a key. -/
def withKey (rows : Rows) (file : FileId) (key : Key) : List SymbolRecord :=
  (rows.symbolsOf file).filter (·.symbol.key = key)

/-- The chunks of a symbol, in whatever file they are. -/
def ownedBy (rows : Rows) (id : SymbolId) : List StoredChunk :=
  rows.chunks.values.filter (·.symbolId = some id)

/-- The chunk was stored after these rows, and so was the symbol it belongs to. -/
def Later (rows : Rows) (c : StoredChunk) : Prop :=
  rows.lastChunk < c.id ∧ ∀ id, c.symbolId = some id → rows.lastSymbol < id

/-- What a write of one file leaves alone. -/
structure Spares (rows : Rows) (path : String) (file : FileId) (unchanged : List Symbol)
    (rows' : Rows) : Prop where
  /-- An unchanged symbol has one row, which stays, and so do its chunks. -/
  unchanged : ∀ s ∈ unchanged, ∃ r, rows.withKey file s.key = [r] ∧ rows'.withKey file s.key = [r] ∧
    rows.symbols.get? r.id = some r ∧ rows'.symbols.get? r.id = some r ∧
    rows'.ownedBy r.id = rows.ownedBy r.id
  /-- No number is given to another row. -/
  symbol_eq : ∀ {id r r'}, rows.symbols.get? id = some r → rows'.symbols.get? id = some r' → r' = r
  chunk_eq : ∀ {id c c'}, rows.chunks.get? id = some c → rows'.chunks.get? id = some c' → c' = c
  fileId : (rows.file? path).map (·.id) = some file ∧ (rows'.file? path).map (·.id) = some file
  others : ∀ {other}, other ≠ file → rows'.files.get? other = rows.files.get? other ∧
    rows'.symbolsOf other = rows.symbolsOf other ∧ rows'.chunksOf other = rows.chunksOf other

variable {rows rows' : Rows} {file : FileId} {r : SymbolRecord} {c : StoredChunk}

theorem WellFormed.file?_of_get? (h : rows.WellFormed) {id : FileId} {g : FileRecord}
    (hg : rows.files.get? id = some g) : rows.file? g.path = some g ∧ g.id = id := by
  have hf : rows.file? g.path = some g := Option.bind_eq_some_iff.2 ⟨id, h.path_of_file hg, hg⟩
  exact ⟨hf, Option.some.inj ((h.file? hf).2.1.symm.trans (h.path_of_file hg))⟩

theorem Sound.ownedBy_eq (h : rows.Sound) (hr : rows.symbols.get? r.id = some r) :
    rows.ownedBy r.id = (rows.chunksOf r.fileId).filter (·.symbolId = some r.id) := by
  rw [ownedBy, chunksOf, List.filter_comm]
  refine (List.filter_eq_self.2 fun c hc => decide_eq_true ?_).symm
  obtain ⟨hc, hs⟩ := List.mem_filter.1 hc
  obtain ⟨r', hr', hfile⟩ := h.owner (h.mem_chunks.1 hc) (of_decide_eq_true hs)
  rw [hr, Option.some.injEq] at hr'
  rw [← hfile, hr']

theorem later_of_mem_newChunks {os : List (Chunk × Option SymbolId)}
    (ho : ∀ o ∈ os, ∀ id, o.2 = some id → rows.lastSymbol < id)
    (hc : c ∈ newChunks rows.lastChunk file os) : rows.Later c := by
  obtain ⟨hlast, -, -, hm⟩ := mem_newChunks hc
  exact ⟨hlast, ho _ hm⟩

/-- A row that is in both is the same, if the rows of one file stay or are new. -/
theorem Sound.symbol_eq (h : rows.Sound) (h' : rows'.Sound) (hagree : AgreeOutside file rows rows')
    (hfile : ∀ r ∈ rows'.recordsOf file, r ∈ rows.recordsOf file ∨ rows.lastSymbol < r.id)
    {id : SymbolId} {r' : SymbolRecord} (hr : rows.symbols.get? id = some r)
    (hr' : rows'.symbols.get? id = some r') : r' = r := by
  have hid := h'.symbol_id hr'
  have hstays : r' ∈ rows.recordsOf r'.fileId ∨ rows.lastSymbol < r'.id := by
    have hmem : r' ∈ rows'.recordsOf r'.fileId := h'.mem_recordsOf.2 ⟨hid.symm ▸ hr', rfl⟩
    by_cases hf : r'.fileId = file
    · rw [hf] at hmem ⊢
      exact hfile r' hmem
    · exact Or.inl (hagree.recordsOf hf ▸ hmem)
  rcases hstays with hold | hnew
  · have hget := (h.mem_recordsOf.1 hold).1
    rw [hid, hr] at hget
    exact (Option.some.inj hget).symm
  · rw [hid] at hnew
    exact absurd (h.symbol_le hr).2 (Nat.not_le_of_lt hnew)

theorem Sound.chunk_eq (h : rows.Sound) (h' : rows'.Sound) (hagree : AgreeOutside file rows rows')
    (hfile : ∀ c ∈ rows'.chunksOf file, c ∈ rows.chunksOf file ∨ rows.Later c) {id : ChunkId}
    {c' : StoredChunk} (hc : rows.chunks.get? id = some c) (hc' : rows'.chunks.get? id = some c') :
    c' = c := by
  have hid := h'.chunk_id hc'
  have hstays : c' ∈ rows.chunksOf c'.fileId ∨ rows.Later c' := by
    have hmem : c' ∈ rows'.chunksOf c'.fileId := h'.mem_chunksOf.2 ⟨hid.symm ▸ hc', rfl⟩
    by_cases hf : c'.fileId = file
    · rw [hf] at hmem ⊢
      exact hfile c' hmem
    · exact Or.inl (hagree.chunksOf hf ▸ hmem)
  rcases hstays with hold | hnew
  · have hget := (h.mem_chunksOf.1 hold).1
    rw [hid, hc] at hget
    exact (Option.some.inj hget).symm
  · have hlast := hnew.1
    rw [hid] at hlast
    exact absurd (h.chunk_le hc).2 (Nat.not_le_of_lt hlast)

theorem withKey_eq (hkeys : ((rows.symbolsOf file).map (·.symbol.key)).Nodup)
    (hr : r ∈ rows.symbolsOf file) : rows.withKey file r.symbol.key = [r] :=
  filter_eq_of_nodup_map (fun r : SymbolRecord => r.symbol.key) hkeys hr

end Rows

namespace Prepared

open Rows

/-! ## Chunks that are new -/

section
variable {rows : Rows} {file : FileId} (chunker : Chunker) (content : String)
  (symbols : List Symbol)

theorem chunksOf_symbolRows (topLevel : Bool) (h : rows.WellFormed) (hf : file ∈ rows.files.keys) :
    ∃ new, (symbolRows chunker file content symbols topLevel rows).2.chunksOf file =
        rows.chunksOf file ++ new ∧ ∀ c ∈ new, rows.Later c := by
  unfold symbolRows
  split
  · exact ⟨[], (List.append_nil _).symm, List.forall_mem_nil _⟩
  have hw := h.insertSymbols hf symbols
  have hlast := insertSymbols_eq file symbols h.symbol_keys_le
  rw [chunksOf_insertChunks hw, if_pos rfl, chunksOf_insertSymbols h]
  refine ⟨_, rfl, fun c hc => ?_⟩
  rw [hlast] at hc
  refine later_of_mem_newChunks (fun o ho id hid => ?_) hc
  -- an owner is the number of one of the symbols stored just before
  obtain ⟨chunk, -, hchunk⟩ := List.mem_map.1 (List.of_mem_zip ho).2
  obtain ⟨i, -, hi⟩ := Option.bind_eq_some_iff.1 (hchunk.trans hid)
  obtain ⟨j, -, rfl⟩ := List.mem_map.1 (List.mem_of_getElem? hi)
  exact Nat.lt_of_lt_of_le (Nat.lt_succ_self _) (Nat.le_add_right _ _)

theorem chunksOf_fileLevelRows (file : FileId) (h : rows.WellFormed) :
    ∃ new, (fileLevelRows chunker file content symbols rows).2.chunksOf file =
        (rows.chunksOf file).filter (·.symbolId.isSome) ++ new ∧ ∀ c ∈ new, rows.Later c := by
  unfold fileLevelRows
  rw [chunksOf_insertChunks (h.deleteFileLevel file), if_pos rfl, chunksOf_deleteFileLevel,
    if_pos rfl]
  refine ⟨_, rfl, fun c hc => later_of_mem_newChunks (fun o ho id hid => ?_) hc⟩
  obtain ⟨chunk, -, hchunk⟩ := List.mem_map.1 (List.of_mem_zip ho).2
  cases hchunk.trans hid

theorem last_symbolRows (topLevel : Bool) (h : rows.WellFormed) (hf : file ∈ rows.files.keys) :
    rows.lastSymbol ≤ (symbolRows chunker file content symbols topLevel rows).2.lastSymbol ∧
      rows.lastChunk ≤ (symbolRows chunker file content symbols topLevel rows).2.lastChunk := by
  unfold symbolRows
  split
  · exact ⟨Nat.le_refl _, Nat.le_refl _⟩
  dsimp only
  rw [insertChunks_eq file _ (h.insertSymbols hf symbols).chunk_keys_le,
    insertSymbols_eq file symbols h.symbol_keys_le]
  exact ⟨Nat.le_add_right _ _, Nat.le_add_right _ _⟩

end

namespace Fits

variable {policy : DiffPolicy} {rows : Rows} {f : Prepared} {previous : FileRecord}

/-- The chunks of a file after it was written symbol by symbol: those of the symbols that
    are not dropped, and then new ones. -/
theorem chunksOf_incrementalRows (chunker : Chunker) (h : f.Fits policy rows) (hs : rows.Sound)
    (hp : f.previous = some previous) :
    ∃ new, (f.incrementalRows chunker previous rows).2.chunksOf previous.id =
        (rows.chunksOf previous.id).filter (fun c => c.symbolId.any
          (· ∉ f.diff.affectedIds ++ f.diff.replacedIds)) ++ new ∧ ∀ c ∈ new, rows.Later c := by
  have hw := hs.dropAll (f.diff.affectedIds ++ f.diff.replacedIds)
  obtain ⟨hfiles, -, hlastSymbol, hlastChunk⟩ :=
    rows.dropAll_files (f.diff.affectedIds ++ f.diff.replacedIds)
  have hkey : previous.id ∈
      (rows.dropAll (f.diff.affectedIds ++ f.diff.replacedIds)).files.keys :=
    hfiles.symm ▸ h.mem_files hs.toWellFormed hp
  have hsound := sound_symbolRows chunker f.content (f.diff.added ++ f.diff.modified) false hw hkey
  obtain ⟨owned, howned, hlater⟩ := chunksOf_symbolRows chunker f.content
    (f.diff.added ++ f.diff.modified) false hw.toWellFormed hkey
  obtain ⟨loose, hloose, hlater'⟩ := chunksOf_fileLevelRows chunker f.content f.parsed.symbols
    previous.id hsound.toWellFormed
  have hlast := last_symbolRows chunker f.content (f.diff.added ++ f.diff.modified) false
    hw.toWellFormed hkey
  rw [hlastSymbol, hlastChunk] at hlast
  rw [incrementalRows, chunksOf_upsertFile, hloose, howned, chunksOf_dropAll, List.filter_append,
    List.append_assoc, List.filter_filter]
  refine ⟨_, congrArg (· ++ _) (List.filter_congr fun c _ => ?_), fun c hc => ?_⟩
  · cases c.symbolId with
    | none => rfl
    | some id =>
      rw [Option.isSome_some, Bool.true_and, Option.any_some]
      exact decide_eq_decide.2 ⟨fun hall hm => hall id hm rfl, fun hnot id' hm he =>
        hnot (Option.some.inj he ▸ hm)⟩
  rcases List.mem_append.1 hc with hc | hc
  · have hc := hlater c (List.mem_filter.1 hc).1
    rwa [Later, hlastSymbol, hlastChunk] at hc
  · have hc := hlater' c hc
    exact ⟨Nat.lt_of_le_of_lt hlast.2 hc.1, fun id hid =>
      Nat.lt_of_le_of_lt hlast.1 (hc.2 id hid)⟩

end Fits

/-! ## What is left alone -/

theorem previous_of_incremental (f : Prepared) (h : f.mode = .incremental) :
    ∃ previous, f.previous = some previous ∧ f.diff.needsFull = false := by
  rcases @mode_cases (fun _ _ => []) f with ⟨previous, hp, hd, -⟩ | ⟨hfull, -⟩
  · exact ⟨previous, hp, hd⟩
  · cases hfull.symm.trans h

theorem rowsAfter_eq {f : Prepared} {previous : FileRecord} (chunker : Chunker) (rows : Rows)
    (hp : f.previous = some previous) (hd : f.diff.needsFull = false) :
    f.rowsAfter chunker rows = (f.incrementalRows chunker previous rows).2 := by
  rw [rowsAfter, written, mode, hd, hp]
  rfl

/-- A write of one file leaves the rows of all other files as they are. -/
theorem Rewritten.get?_files {rows rows' : Rows} {path content : String} {file other : FileId}
    (h : Rewritten rows path content rows' file) (hw : rows.WellFormed)
    (hfile : (rows.file? path).map (·.id) = some file) (ho : other ≠ file) :
    rows'.files.get? other = rows.files.get? other := by
  have hid : ∀ {rows : Rows} {g : FileRecord}, rows.WellFormed →
      (rows.file? path).map (·.id) = some file → rows.files.get? other = some g →
      g.path ≠ path := by
    rintro rows g hw hfile hg rfl
    obtain ⟨hpath, rfl⟩ := hw.file?_of_get? hg
    rw [hpath] at hfile
    exact ho (Option.some.inj hfile)
  refine Option.ext fun g => ⟨fun hg => ?_, fun hg => ?_⟩
  · obtain ⟨hpath, rfl⟩ := h.sound.file?_of_get? hg
    rw [h.file?_of_ne (hid h.sound.toWellFormed (by rw [h.file?_self]; rfl) hg)] at hpath
    exact (hw.file? hpath).2.2.1
  · obtain ⟨hpath, rfl⟩ := hw.file?_of_get? hg
    rw [← h.file?_of_ne (hid hw hfile hg)] at hpath
    exact (h.sound.file? hpath).2.2.1

namespace Fits

variable {policy : DiffPolicy} {rows : Rows} {f : Prepared} {previous : FileRecord}
  (chunker : Chunker) (h : f.Fits policy rows) (hs : rows.Sound) (hp : f.previous = some previous)
  (hd : f.diff.needsFull = false)
include h hs hp hd

theorem perm_keys :
    (((f.rowsAfter chunker rows).symbolsOf previous.id).map (·.symbol.key)).Perm
      (f.parsed.symbols.map (·.key)) := by
  obtain ⟨judged, hj, hkept, hunchanged, hsymbols⟩ := h.stays hs.toWellFormed hp hd
  have hkeys : ((Diff.kept judged).map (·.2)).map (·.symbol.key) =
      f.diff.unchanged.map (·.key) := by
    rw [hunchanged, List.map_map, List.map_map]
    exact List.map_congr_left fun k hk => (hj.of_mem_kept hk).2.1
  have hnew : (newRecords rows.lastSymbol previous.id (f.diff.added ++ f.diff.modified)).map
      (·.symbol.key) = (f.diff.added ++ f.diff.modified).map (·.key) := by
    conv_rhs => rw [← map_symbol_newRecords rows.lastSymbol previous.id (_ ++ _), List.map_map]
    rfl
  rw [rowsAfter_eq chunker rows hp hd]
  refine ((perm_symbolsOf _ previous.id).map _).trans ?_
  rw [h.recordsOf_incrementalRows chunker hs hp, List.map_append, hnew]
  refine ((hkept.map _).append_right _).trans ?_
  rw [hkeys, ← List.map_append]
  exact (List.perm_append_comm.trans hsymbols).map _

theorem ownedBy_rowsAfter {r : SymbolRecord} (hr : r ∈ rows.recordsOf previous.id)
    (hr' : r ∈ (f.rowsAfter chunker rows).recordsOf previous.id)
    (hstay : r.id ∉ f.diff.affectedIds ++ f.diff.replacedIds) :
    (f.rowsAfter chunker rows).ownedBy r.id = rows.ownedBy r.id := by
  obtain ⟨new, hchunks, hlater⟩ := h.chunksOf_incrementalRows chunker hs hp
  rw [← rowsAfter_eq chunker rows hp hd] at hchunks
  have hsound := h.sound_rowsAfter chunker hs
  obtain ⟨hget, hfile⟩ := hs.mem_recordsOf.1 hr
  have hnil : new.filter (·.symbolId = some r.id) = [] :=
    List.filter_eq_nil_iff.2 fun c hc hown =>
      Nat.not_le_of_lt ((hlater c hc).2 _ (of_decide_eq_true hown)) (hs.symbol_le hget).2
  rw [hsound.ownedBy_eq (hsound.mem_recordsOf.1 hr').1, hs.ownedBy_eq hget, hfile, hchunks,
    List.filter_append, hnil, List.append_nil, List.filter_filter]
  refine List.filter_congr fun c _ => ?_
  by_cases hown : c.symbolId = some r.id
  · rw [hown, Option.any_some, decide_eq_true rfl, decide_eq_true hstay]
    rfl
  · rw [decide_eq_false hown, Bool.false_and]

/-- **Writing a file symbol by symbol** leaves the rows alone that it does not concern. -/
theorem spares :
    rows.Spares f.path previous.id f.diff.unchanged (f.rowsAfter chunker rows) := by
  have hw := hs.toWellFormed
  have hr := h.rewritten chunker hs
  rw [h.fileId_eq hw hp] at hr
  have hfile : (rows.file? f.path).map (·.id) = some previous.id := by
    rw [h.file?_eq, hp]
    rfl
  have hrecords := h.recordsOf_incrementalRows chunker hs hp
  obtain ⟨new, hchunks, hlater⟩ := h.chunksOf_incrementalRows chunker hs hp
  rw [← rowsAfter_eq chunker rows hp hd] at hrecords hchunks
  refine ⟨fun s hm => ?_, ?_, ?_, ⟨hfile, by rw [hr.file?_self]; rfl⟩, fun ho =>
    ⟨hr.get?_files hw hfile ho, symbolsOf_congr (hr.agree.recordsOf ho), hr.agree.chunksOf ho⟩⟩
  · obtain ⟨judged, hj, hkept, hunchanged, -⟩ := h.stays hw hp hd
    rw [hunchanged] at hm
    obtain ⟨⟨s, r⟩, hk, rfl⟩ := List.mem_map.1 hm
    obtain ⟨hmem, hkey, -⟩ := hj.of_mem_kept hk
    have hstay := hkept.mem_iff.2 (List.mem_map.2 ⟨_, hk, rfl⟩)
    have hold := (List.mem_filter.1 hstay).1
    have hnew : r ∈ (f.rowsAfter chunker rows).recordsOf previous.id := by
      rw [hrecords]
      exact List.mem_append_left _ hstay
    have hkeys := (perm_keys chunker h hs hp hd).nodup_iff.2 hj.symbols_distinct
    refine ⟨r, hkey ▸ withKey_eq hj.records_distinct hmem,
      hkey ▸ withKey_eq hkeys ((perm_symbolsOf _ _).mem_iff.2 hnew), (hw.mem_recordsOf.1 hold).1,
      (hr.sound.mem_recordsOf.1 hnew).1, ?_⟩
    exact ownedBy_rowsAfter chunker h hs hp hd hold hnew
      (of_decide_eq_true (List.mem_filter.1 hstay).2)
  · refine fun {_ _ _} => hs.symbol_eq hr.sound hr.agree fun r hm => ?_
    rw [hrecords] at hm
    rcases List.mem_append.1 hm with hm | hm
    · exact Or.inl (List.mem_filter.1 hm).1
    · exact Or.inr (mem_newRecords hm).1
  · refine fun {_ _ _} => hs.chunk_eq hr.sound hr.agree fun c hm => ?_
    rw [hchunks] at hm
    rcases List.mem_append.1 hm with hm | hm
    · exact Or.inl (List.mem_filter.1 hm).1
    · exact Or.inr (hlater c hm)

end Fits

end Prepared

/-! ## Requests for one file -/

namespace Chronicle

open Coordinator

variable {s s' : Chronicle} {xs ys : List Happening} {id : RequestId} {path content : String}
  {x : Happening} {k : Commit}

/-- No step of the request changes what is committed. -/
def Rests (s : Chronicle) (id : RequestId) (xs : List Happening) : Prop :=
  ∀ {before after place a b}, xs = before ++ .act (.turn ⟨id, place⟩) :: after →
    s.run before = some a → a.step (.act (.turn ⟨id, place⟩)) = some b →
    b.coordinator.rows = a.coordinator.rows

theorem rows_of_commit?_eq_none (h : Orderly s.coordinator) (hx : s.step x = some s')
    (hnone : s.coordinator.commit? x = none) : s'.coordinator.rows = s.coordinator.rows := by
  have hrows := (continues_step h hx).rows_eq
  rw [hnone] at hrows
  exact hrows

theorem commitsBy_commit (hk : s.coordinator.commit? x = some k) (hx : s.step x = some s') :
    s.commitsBy k.request (x :: xs) = k.files :: s'.commitsBy k.request xs := by
  rw [commitsBy, commitLog, gather_cons hx, hk]
  simp [commitsBy, commitLog]

theorem rests_of_commitsBy (h : Orderly s.coordinator) (hx : s.run xs = some s')
    (hnone : s.commitsBy id xs = []) : s.Rests id xs := by
  rintro before after place a b rfl ha hb
  refine rows_of_commit?_eq_none (orderly_run h ha) hb ?_
  cases hk : a.coordinator.commit? (.act (.turn ⟨id, place⟩)) with
  | none => rfl
  | some k =>
    obtain ⟨place', he⟩ := request_of_commit? hk
    cases he
    rw [commitsBy_append ha, commitsBy_commit hk hb, List.append_eq_nil_iff] at hnone
    cases hnone.2

theorem rows_of_no_commits (h : Orderly s.coordinator) (hx : s.run xs = some s')
    (hby : s.commitsBy id xs = []) (hbeside : s.commitsBeside id xs = []) :
    s'.coordinator.rows = s.coordinator.rows := by
  have hlog : s.commitLog xs = [] := by
    rw [← List.length_eq_zero_iff, length_commitLog s id, hby, hbeside]
    rfl
  have hrows := (continues_run h hx).rows_eq
  rw [hlog] at hrows
  exact hrows

theorem commitsBeside_commit (hk : s.coordinator.commit? x = some k) (hx : s.step x = some s') :
    s.commitsBeside k.request (x :: xs) = s'.commitsBeside k.request xs := by
  rw [commitsBeside, commitLog, gather_cons hx, hk]
  simp [commitsBeside, commitLog]

theorem commitsBeside_append {a : Chronicle} (hx : s.run xs = some a) :
    s.commitsBeside id (xs ++ ys) = s.commitsBeside id xs ++ a.commitsBeside id ys := by
  rw [commitsBeside, commitLog, gather_append hx, List.filter_append, List.map_append]
  rfl

/-- One step makes the only commit of a request. -/
theorem exists_only_commit {f : Prepared} (hx : s.run xs = some s')
    (hby : s.commitsBy id xs = [[f]]) :
    ∃ before place after a b, xs = before ++ .act (.turn ⟨id, place⟩) :: after ∧
      s.run before = some a ∧ a.step (.act (.turn ⟨id, place⟩)) = some b ∧ b.run after = some s' ∧
      a.coordinator.commit? (.act (.turn ⟨id, place⟩)) = some ⟨id, [f]⟩ ∧
      s.commitsBy id before = [] ∧ b.commitsBy id after = [] := by
  have hmem : [f] ∈ s.commitsBy id xs := by
    rw [hby]
    exact List.mem_cons_self
  obtain ⟨k, hfilter, hfiles⟩ := List.mem_map.1 hmem
  obtain ⟨hk, hrequest⟩ := List.mem_filter.1 hfilter
  obtain ⟨before, x, after, a, b, rfl, ha, hb, hcommit⟩ := exists_step_of_mem_commitLog hx hk
  obtain ⟨place, rfl⟩ := request_of_commit? hcommit
  obtain rfl := of_decide_eq_true hrequest
  have hrest := (run_cons hb).symm.trans (run_of_append hx ha)
  rw [commitsBy_append ha, commitsBy_commit hcommit hb, hfiles] at hby
  rcases List.append_eq_singleton_iff.1 hby with ⟨hbefore, hafter⟩ | ⟨-, hafter⟩
  · rw [← hfiles]
    exact ⟨before, place, after, a, b, rfl, ha, hb, hrest, hcommit, hbefore,
      (List.cons.inj hafter).2⟩
  · cases hafter

/-- **A file that is written symbol by symbol leaves unaffected rows alone.**  A request
    for one file that ends with such a write has one step that commits it, after a
    comparison with what is stored for its path just then.  For every symbol that the
    comparison calls unchanged the row with its key stays, and so do the chunks of that row;
    every row of a symbol or chunk that is there before and after is the same; the file
    keeps its number; and no row of another file is changed, added or removed.  The other
    steps of the request change no row at all, so that if no other request commits while
    it runs, this holds from its start to its end. -/
theorem Opened.incremental_frame {start s₀ s₁ s₂ : Chronicle} {report : FileReport}
    (h : start.Opened) (hxs : start.run xs = some s₀)
    (hask : s₀.step (.act (.index path content)) = some s₁)
    (hid : id = s₁.coordinator.lastRequest) (hys : s₁.run ys = some s₂)
    (hdone : s₂.coordinator.requests.get? id = some (.file path content (.done (.ok report))))
    (hmode : report.mode = .incremental) :
    ∃ (f : Prepared) (file : FileRecord) (chunks : Nat) (before : List Happening) (place : Nat)
      (after : List Happening) (a b : Chronicle),
      ys = before ++ .act (.turn ⟨id, place⟩) :: after ∧ s₁.run before = some a ∧
      a.step (.act (.turn ⟨id, place⟩)) = some b ∧ b.run after = some s₂ ∧
      f.path = path ∧ f.content = content ∧ report = f.report chunks ∧
      a.coordinator.rows.file? path = some file ∧
      f.diff = .between a.coordinator.settings.incremental
        (some (file.content, a.coordinator.rows.symbolsOf file.id)) content f.parsed.symbols ∧
      a.coordinator.rows.Spares path file.id f.diff.unchanged b.coordinator.rows ∧
      s₁.Rests id before ∧ b.Rests id after ∧
      (s₁.commitsBeside id ys = [] →
        s₀.coordinator.rows.Spares path file.id f.diff.unchanged s₂.coordinator.rows) := by
  have h₀ := orderly_run h.orderly hxs
  have h₁ := (continues_step h₀ hask).orderly
  have hr₁ := hid ▸ request_of_index hask
  obtain ⟨f, chunks, hby, rfl, rfl, rfl⟩ := commitsBy_of_report h₁ hr₁ hys hdone
    (by rw [hmode]; exact nofun)
  obtain ⟨before, place, after, a, b, rfl, ha, hb, hrest, hcommit, hbefore, hafter⟩ :=
    exists_only_commit hys hby
  have ha' := orderly_run h₁ ha
  have hstep := continues_step ha' hb
  have hcoherent := hstep.coherent
  have hreplay := hstep.rows_eq
  rw [hcommit] at hcoherent hreplay
  have hfits : f.Fits a.coordinator.settings.incremental a.coordinator.rows := hcoherent.1
  have hrows : b.coordinator.rows = f.rowsAfter a.coordinator.chunker a.coordinator.rows := hreplay
  obtain ⟨file, hp, hd⟩ := f.previous_of_incremental hmode
  have hspares := hfits.spares a.coordinator.chunker ha'.sound hp hd
  rw [← hrows] at hspares
  refine ⟨f, file, chunks, before, place, after, a, b, rfl, ha, hb, hrest, rfl, rfl, rfl,
    hfits.file?_eq.trans hp, ?_, hspares, rests_of_commitsBy h₁ ha hbefore,
    rests_of_commitsBy hstep.orderly hrest hafter, fun hbeside => ?_⟩
  · have hdiff := hfits.diff_eq
    rw [hfits.prior_eq hp] at hdiff
    exact hdiff
  · rw [commitsBeside_append ha, commitsBeside_commit hcommit hb, List.append_eq_nil_iff] at hbeside
    have hask' := rows_of_commit?_eq_none h₀ hask rfl
    rwa [rows_of_no_commits hstep.orderly hrest hafter hbeside.2, ← hask',
      ← rows_of_no_commits h₁ ha hbefore hbeside.1]

/-- The third symbol of `a` and the line after it change, while `b` is stored too. -/
theorem Opened.incremental_frame_sample :
    let symbols : List Symbol :=
      [.ofLines "f" .function 1 1, .ofLines "g" .function 2 2, .ofLines "h" .function 3 3]
    let xs : List Happening := [.act (.index "a" "fn f\nfn g\nfn h\nlet x")] ++
      Happening.turns 1 4 ++ Happening.parse 0 symbols ++ Happening.turns 1 8 ++
      [.act (.index "b" "fn k")] ++ Happening.turns 2 4 ++
      Happening.parse 0 [.ofLines "k" .function 1 1] ++ Happening.turns 2 8
    let ys : List Happening :=
      Happening.turns 3 5 ++ Happening.parse 0 symbols ++ Happening.turns 3 8
    ∃ (s₀ s₁ s₂ : Chronicle) (report : FileReport) (file : FileId) (unchanged : List Symbol),
      sample.Opened ∧ sample.run xs = some s₀ ∧
      s₀.step (.act (.index "a" "fn f\nfn g\nfn h'\nlet y")) = some s₁ ∧ s₁.run ys = some s₂ ∧
      s₂.coordinator.requests.get? 3 =
        some (.file "a" "fn f\nfn g\nfn h'\nlet y" (.done (.ok report))) ∧
      report.mode = .incremental ∧ unchanged.length = 2 ∧
      s₀.coordinator.rows.Spares "a" file unchanged s₂.coordinator.rows ∧
      s₀.coordinator.rows.symbols.keys = [1, 2, 3, 4] ∧
      s₂.coordinator.rows.symbols.keys = [1, 2, 4, 5] ∧
      s₀.coordinator.rows.chunks.keys = [1, 2, 3, 4, 5] ∧
      s₂.coordinator.rows.chunks.keys = [1, 2, 5, 6, 7] := by
  intro symbols xs ys
  have hcheck : (sample.run xs).any (fun s₀ =>
      (s₀.step (.act (.index "a" "fn f\nfn g\nfn h'\nlet y"))).any fun s₁ =>
        (s₁.run ys).any fun s₂ =>
          ((s₂.coordinator.requests.get? 3).bind Request.success?).any fun r =>
            decide (s₁.coordinator.lastRequest = 3 ∧ r.1 = "a" ∧
              r.2.1 = "fn f\nfn g\nfn h'\nlet y" ∧ r.2.2.mode = .incremental ∧
              r.2.2.unchanged = 2 ∧ (s₁.commitsBeside 3 ys).length = 0 ∧
              s₀.coordinator.rows.symbols.keys = [1, 2, 3, 4] ∧
              s₂.coordinator.rows.symbols.keys = [1, 2, 4, 5] ∧
              s₀.coordinator.rows.chunks.keys = [1, 2, 3, 4, 5] ∧
              s₂.coordinator.rows.chunks.keys = [1, 2, 5, 6, 7])) = true := by
    decide +kernel
  obtain ⟨s₀, hs₀, hcheck⟩ := (Option.any_eq_true _ _).1 hcheck
  obtain ⟨s₁, hs₁, hcheck⟩ := (Option.any_eq_true _ _).1 hcheck
  obtain ⟨s₂, hs₂, hcheck⟩ := (Option.any_eq_true _ _).1 hcheck
  obtain ⟨⟨path, content, report⟩, hr, hcheck⟩ := (Option.any_eq_true _ _).1 hcheck
  obtain ⟨hid, rfl, rfl, hmode, hunchanged, hbeside, hkeys⟩ := of_decide_eq_true hcheck
  obtain ⟨r, hr, he⟩ := Option.bind_eq_some_iff.1 hr
  rw [Request.eq_of_success? he] at hr
  obtain ⟨f, file, chunks, -, -, -, -, -, -, -, -, -, -, -, rfl, -, -, -, -, -, hspares⟩ :=
    sample_started.opened.incremental_frame hs₀ hs₁ hid.symm hs₂ hr hmode
  refine ⟨s₀, s₁, s₂, _, file.id, f.diff.unchanged, sample_started.opened, hs₀, hs₁, hs₂, hr, hmode,
    ?_, hspares (List.length_eq_zero_iff.1 hbeside), hkeys⟩
  have hmode' : f.mode = .incremental := hmode
  simpa [Prepared.report, hmode'] using hunchanged

end Chronicle

end SourceIndex
