/-
  Unchanged symbols keep their lines.

  * `Diff.Discerning`: the fingerprints tell the texts apart that a difference compares;
  * `Diff.stays_of_mem_unchanged`: then an unchanged symbol covers the text that the stored
    symbol with its key covers;
  * `chunkLines`, `chunkLines_eq_flatMap`: the lines of the chunks of a symbol in a revision;
  * `Prepared.Revises`: a revision that is written symbol by symbol over a stored one;
  * `Diff.between_keeps_lines`: an unchanged symbol, its row and its chunks lie in the same
    lines as before, whatever columns it starts and ends with.
-/
import SourceIndex.Proofs.Frame
import SourceIndex.Proofs.Layout

namespace SourceIndex

open Text

/-! ## Unchanged symbols -/

namespace Diff

/-- Where a stored and a new symbol have the same key, their texts have the same
    fingerprint only if they are the same. -/
def Discerning (old : String) (records : List SymbolRecord) (content : String)
    (symbols : List Symbol) : Prop :=
  ∀ r ∈ records, ∀ s ∈ symbols, r.symbol.key = s.key →
    ∀ before ∈ spanText (lines old) r.symbol, ∀ after ∈ spanText (lines content) s,
      ContentHash.ofText before = ContentHash.ofText after → before = after

instance (old : String) (records : List SymbolRecord) (content : String) (symbols : List Symbol) :
    Decidable (Discerning old records content symbols) :=
  inferInstanceAs (Decidable (∀ r ∈ records, ∀ s ∈ symbols, _ → ∀ before ∈ spanText _ _,
    ∀ after ∈ spanText _ _, _ → _))

variable {policy : DiffPolicy} {old content : String} {records : List SymbolRecord}
  {symbols : List Symbol} {s : Symbol}

/-- A difference that has unchanged symbols has a verdict on every symbol, even if it asks
    for everything to be written anew. -/
theorem judged_of_mem_unchanged
    (hs : s ∈ (between policy (some (old, records)) content symbols).unchanged) :
    ∃ judged r, Judged (lines old) (lines content) records symbols judged ∧
      (s, r) ∈ kept judged := by
  rcases between_cases policy (some (old, records)) content symbols with ⟨reason, he⟩ |
    ⟨old', records', judged, hp, hj, he⟩
  · rw [he] at hs
    cases hs
  · cases hp
    have hweighed : (weighed policy symbols.length (sorted records judged)).unchanged =
        (sorted records judged).unchanged := by
      unfold weighed
      split <;> rfl
    rw [he, hweighed, unchanged_eq] at hs
    obtain ⟨⟨s, r⟩, hk, rfl⟩ := List.mem_map.1 hs
    exact ⟨judged, r, hj, hk⟩

/-- An unchanged symbol covers the text that the one stored symbol with its key covers. -/
theorem stays_of_mem_unchanged (h : Discerning old records content symbols)
    (hs : s ∈ (between policy (some (old, records)) content symbols).unchanged) :
    ∃ r, records.filter (·.symbol.key = s.key) = [r] ∧ symbols.filter (·.key = s.key) = [s] ∧
      r.symbol.Stays old content s := by
  obtain ⟨judged, r, hj, hk⟩ := judged_of_mem_unchanged hs
  obtain ⟨hr, hkey, before, after, hbefore, hafter, he⟩ := hj.of_mem_kept hk
  have hs : s ∈ symbols := by
    rw [← hj.symbols_eq]
    exact List.mem_map_of_mem (f := Prod.fst) (mem_kept.1 hk)
  have htext : before = after := h r hr s hs hkey before hbefore after hafter he
  refine ⟨r, ?_, filter_eq_of_nodup_map Symbol.key hj.symbols_distinct hs, hkey, after, ?_, hafter⟩
  · rw [← hkey]
    exact filter_eq_of_nodup_map (fun r : SymbolRecord => r.symbol.key) hj.records_distinct hr
  · rw [← htext]
    exact hbefore

end Diff

/-! ## The chunks of a symbol -/

/-- The lines of the chunks that the symbols with a key have in a revision. -/
def chunkLines (maxLines : Nat) (content : String) (symbols : List Symbol) (key : Key) :
    List (Nat × Nat) :=
  ((chunkFile maxLines content symbols).filter fun c =>
    (c.symbolIndex.bind (symbols[·]?)).any (·.key = key)).map fun c => (c.startLine, c.endLine)

/-- The chunks of a symbol depend on no other symbol. -/
theorem chunkLines_eq_flatMap (maxLines : Nat) (content : String) (symbols : List Symbol)
    (key : Key) : chunkLines maxLines content symbols key =
      (symbols.filter (·.key = key)).flatMap
        (ownRanges (maxLines - 1) (lines content).length) := by
  have hloose : ∀ ranges : List (Nat × Nat), (ranges.map (cutChunk (lines content) none)).filter
      (fun c => (c.symbolIndex.bind (symbols[·]?)).any (·.key = key)) = [] := by
    intro ranges
    refine List.filter_eq_nil_iff.2 fun c hc => ?_
    obtain ⟨range, -, rfl⟩ := List.mem_map.1 hc
    exact Bool.false_ne_true
  -- the chunks of a symbol name its place, so they stay or go with it
  have hown : ∀ entry ∈ symbols.zipIdx, ((((ownRanges (maxLines - 1) (lines content).length
      entry.1).map (cutChunk (lines content) (some entry.2))).filter
        (fun c => (c.symbolIndex.bind (symbols[·]?)).any (·.key = key))).map
          fun c => (c.startLine, c.endLine)) =
      if entry.1.key = key then ownRanges (maxLines - 1) (lines content).length entry.1
      else [] := by
    rintro ⟨s, i⟩ he
    have hi : symbols[i]? = some s := List.mem_zipIdx_iff_getElem?.1 he
    by_cases hk : s.key = key
    · simp [cutChunk, hi, hk, List.filter_map, Function.comp_def]
    · simp [cutChunk, hi, hk, List.filter_map, Function.comp_def]
  have hfilter : ∀ ss : List Symbol, (ss.flatMap fun s => if s.key = key then
      ownRanges (maxLines - 1) (lines content).length s else []) =
        (ss.filter (·.key = key)).flatMap (ownRanges (maxLines - 1) (lines content).length) := by
    intro ss
    induction ss with
    | nil => rfl
    | cons s ss ih =>
      rw [List.flatMap_cons, ih, List.filter_cons]
      by_cases hk : s.key = key <;> simp [hk]
  rw [chunkLines, chunkFile_eq, List.filter_append, hloose, List.append_nil, List.filter_flatMap,
    List.map_flatMap, List.flatMap_congr hown, ← hfilter]
  conv_rhs => rw [← List.zipIdx_map_fst 0 symbols, List.flatMap_map]

/-- A symbol that stays has its chunks in the same lines. -/
theorem Symbol.Stays.ownRanges_eq {old content : String} {s s' : Symbol}
    (h : s.Stays old content s') (extra : Nat) :
    ownRanges extra (lines old).length s = ownRanges extra (lines content).length s' := by
  rw [ownRanges, ownRanges, h.inLines_old.tile?, h.inLines_new.tile?, h.startLine_eq, h.endLine_eq]

/-- The stored chunks of a symbol lie in some lines. -/
def Rows.ChunksIn (rows : Rows) (id : SymbolId) (ranges : List (Nat × Nat)) : Prop :=
  ((rows.ownedBy id).map fun c => (c.chunk.startLine, c.chunk.endLine)).Perm ranges

/-! ## Writing symbol by symbol -/

/-- The file was compared with a stored revision, which has the number `id` and these
    symbols, and it can be written symbol by symbol. -/
structure Prepared.Revises (policy : DiffPolicy) (rows : Rows) (id : FileId) (old : String)
    (records : List SymbolRecord) (f : Prepared) : Prop where
  sound : rows.Sound
  fits : f.Fits policy rows
  mode_eq : f.mode = .incremental
  previous : ∃ file, f.previous = some file ∧ file.id = id ∧ file.content = old
  records_eq : rows.symbolsOf id = records

namespace Prepared.Revises

variable {policy : DiffPolicy} {rows : Rows} {id : FileId} {old : String}
  {records : List SymbolRecord} {f : Prepared}

theorem diff_eq (h : f.Revises policy rows id old records) :
    f.diff = .between policy (some (old, records)) f.content f.parsed.symbols := by
  obtain ⟨file, hp, rfl, rfl⟩ := h.previous
  rw [h.fits.diff_eq, h.fits.prior_eq hp, ← h.records_eq]
  rfl

/-- A write that succeeds leaves the row of an unchanged symbol and its chunks alone. -/
theorem keeps (h : f.Revises policy rows id old records) {chunker : Chunker}
    {tx tx' : Transaction} {st st' : FaultyStore} {n : Nat} (htx : tx.working = rows)
    (hw : (f.write FaultyStore.backend chunker).run (tx, st) = (.ok n, tx', st')) {s : Symbol}
    (hs : s ∈ f.diff.unchanged) :
    ∃ r, rows.withKey id s.key = [r] ∧ tx'.working.withKey id s.key = [r] ∧
      tx'.working.ownedBy r.id = rows.ownedBy r.id := by
  obtain ⟨file, hp, rfl, -⟩ := h.previous
  obtain ⟨previous, hp', hd⟩ := f.previous_of_incremental h.mode_eq
  obtain rfl : previous = file := Option.some.inj (hp'.symm.trans hp)
  have hrows : tx'.working = f.rowsAfter chunker rows := by
    rw [← htx]
    exact congrArg Prod.snd (((f.carries_write chunker).run_spec hw).2.2 n rfl)
  obtain ⟨r, hold, hnew, -, -, howned⟩ := (h.fits.spares chunker h.sound hp hd).unchanged s hs
  rw [hrows]
  exact ⟨r, hold, hnew, howned⟩

end Prepared.Revises

/-- **An unchanged symbol keeps its lines.**  Where fingerprints tell the compared texts
    apart, every symbol that a difference calls unchanged has the kind, the name, the first
    and the last line of the one stored symbol with its key, whatever the columns of the two,
    and its chunks lie in the same lines in both revisions.  If the new revision is written
    symbol by symbol, this stored symbol stays and so do its chunks, which lie where those of
    the new revision do if they lay where those of the old one did. -/
theorem Diff.between_keeps_lines (policy : DiffPolicy) {old content : String}
    {records : List SymbolRecord} {symbols : List Symbol}
    (h : Discerning old records content symbols) {s : Symbol}
    (hs : s ∈ (between policy (some (old, records)) content symbols).unchanged) :
    ∃ r, records.filter (·.symbol.key = s.key) = [r] ∧
      r.symbol.kind = s.kind ∧ r.symbol.name = s.name ∧
      r.symbol.startLine = s.startLine ∧ r.symbol.endLine = s.endLine ∧
      (∀ maxLines, chunkLines maxLines old (records.map (·.symbol)) s.key =
        chunkLines maxLines content symbols s.key) ∧
      ∀ {rows : Rows} {id : FileId} {f : Prepared} {maxLines : Nat} {tx tx' : Transaction}
        {st st' : FaultyStore} {n : Nat}, f.Revises policy rows id old records →
        f.content = content → f.parsed.symbols = symbols → tx.working = rows →
        (f.write FaultyStore.backend (chunkFile maxLines)).run (tx, st) = (.ok n, tx', st') →
        tx'.working.withKey id s.key = [r] ∧ tx'.working.ownedBy r.id = rows.ownedBy r.id ∧
        (tx'.working.ChunksIn r.id (chunkLines maxLines content symbols s.key) ↔
          rows.ChunksIn r.id (chunkLines maxLines old (records.map (·.symbol)) s.key)) := by
  obtain ⟨r, hr, hone, hstays⟩ := stays_of_mem_unchanged h hs
  obtain ⟨hkind, hname, hstart⟩ := Key.mk.inj hstays.key_eq
  have hlines : ∀ maxLines, chunkLines maxLines old (records.map (·.symbol)) s.key =
      chunkLines maxLines content symbols s.key := by
    intro maxLines
    have hmap : (records.map (·.symbol)).filter (·.key = s.key) = [r.symbol] := by
      rw [List.filter_map]
      exact congrArg (List.map _) hr
    rw [chunkLines_eq_flatMap, chunkLines_eq_flatMap, hmap, hone, List.flatMap_singleton,
      List.flatMap_singleton, hstays.ownRanges_eq]
  refine ⟨r, hr, hkind, hname, hstart, hstays.endLine_eq, hlines, ?_⟩
  rintro rows id f maxLines tx tx' st st' n hf rfl rfl htx hw
  rw [← hf.diff_eq] at hs
  obtain ⟨r', hold, hnew, howned⟩ := hf.keeps htx hw hs
  -- the row that the write keeps is the one that the difference has compared with
  obtain rfl : r' = r := by
    rw [Rows.withKey, hf.records_eq, hr] at hold
    exact (List.cons.inj hold).1.symm
  refine ⟨hnew, howned, ?_⟩
  rw [Rows.ChunksIn, Rows.ChunksIn, howned, hlines]

/-- A file that is compared with what the rows hold for its path. -/
def Prepared.compared (policy : DiffPolicy) (rows : Rows) (path content : String)
    (parsed : ParseResult) : Prepared :=
  ⟨path, content, .ofText content, (rows.prior path).previous, (rows.prior path).symbols.length,
    parsed, .between policy (rows.prior path).revision content parsed.symbols, false, 1⟩

theorem Prepared.fits_compared (policy : DiffPolicy) (rows : Rows) (path content : String)
    (parsed : ParseResult) : (compared policy rows path content parsed).Fits policy rows :=
  ⟨rfl, rfl, rfl, rfl⟩

/-- A symbol of three lines loses the blanks before it, while the line breaks, the blank
    after it and the line below it change. -/
theorem Diff.between_keeps_lines_sample :
    let policy : DiffPolicy := {}
    let old := "  fn f (\r\n    x\r\n  )\nlet y"
    let content := "fn f (\n    x\n  ) \nlet z"
    let s : Symbol := ⟨"f", .function, 1, 0, 3, 3⟩
    let rows := (Prepared.compared policy {} "a" old ⟨[⟨"f", .function, 1, 2, 3, 3⟩], 0⟩).rowsAfter
      (chunkFile 2) {}
    let f := Prepared.compared policy rows "a" content ⟨[s], 0⟩
    Discerning old (rows.symbolsOf 1) content [s] ∧ f.diff.unchanged = [s] ∧
      f.Revises policy rows 1 old (rows.symbolsOf 1) ∧
      ∃ n tx' r, (f.write FaultyStore.backend (chunkFile 2)).run (⟨rows, []⟩, {}) =
          (.ok n, tx', {}) ∧
        tx'.working.withKey 1 s.key = [r] ∧ r.symbol.endLine = 3 ∧ r.symbol.startColumn = 2 ∧
        tx'.working.ChunksIn r.id [(1, 2), (3, 3)] := by
  intro policy old content s rows f
  have hsound : rows.Sound :=
    (Prepared.fits_compared policy {} "a" old _).sound_rowsAfter (chunkFile 2) .empty
  have hfits : f.Fits policy rows := Prepared.fits_compared policy rows "a" content _
  have hcheck : Discerning old (rows.symbolsOf 1) content [s] ∧ f.diff.unchanged = [s] ∧
      f.mode = .incremental ∧ f.previous = some ⟨1, "a", old, .ofText old⟩ ∧
      rows.symbolsOf 1 = [⟨1, 1, ⟨"f", .function, 1, 2, 3, 3⟩⟩] ∧
      chunkLines 2 old ((rows.symbolsOf 1).map (·.symbol)) s.key = [(1, 2), (3, 3)] ∧
      (rows.ownedBy 1).map (fun c => (c.chunk.startLine, c.chunk.endLine)) =
        [(1, 2), (3, 3)] := by
    decide +kernel
  have hcontent : f.content = content ∧ f.parsed.symbols = [s] := ⟨rfl, rfl⟩
  clear_value rows f
  obtain ⟨hd, hunchanged, hmode, hprevious, hsymbols, hlines, howned⟩ := hcheck
  have hf : f.Revises policy rows 1 old (rows.symbolsOf 1) :=
    ⟨hsound, hfits, hmode, ⟨_, hprevious, rfl, rfl⟩, rfl⟩
  have hw := @Carries.succeeds _ _ _ _ (f.carries_write (chunkFile 2)) ⟨rows, []⟩ {} rfl
    ⟨hsound.toWellFormed, List.not_mem_nil, fun _ hp => hfits.file?_eq.trans hp⟩
  have hdiff := hf.diff_eq
  rw [hcontent.1, hcontent.2] at hdiff
  obtain ⟨r, hr, -, -, -, hend, hsame, hkept⟩ :=
    between_keeps_lines policy hd (s := s) (by rw [← hdiff, hunchanged]; exact .head _)
  obtain ⟨hnew, -, hin⟩ := hkept hf hcontent.1 hcontent.2 rfl hw
  rw [hsymbols] at hr
  obtain rfl : _ = r := (List.cons.inj hr).1
  refine ⟨hd, hunchanged, hf, _, _, _, hw, hnew, hend, rfl, ?_⟩
  rw [← hlines, hsame]
  refine hin.2 ?_
  rw [Rows.ChunksIn, howned, hlines]

end SourceIndex
