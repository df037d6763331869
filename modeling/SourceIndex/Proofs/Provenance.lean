/-
  No result of the parser is stored for a revision that it does not belong to.

  * `StoreDump.Takes`: what is stored for a path after a file was written there, by the
    rows of symbols that are new and those that stay;
  * `Prepared.Fits.takes`: writing a file does this, however it is written;
  * `Chronicle.Stores`, `Traced.stores`: a commit stores symbols that the parser has found
    by then, for the path and for a content with the fingerprint of the new one;
  * `FilePhase.About`: a request for one file that succeeds has committed its own
    revision, or has skipped it;
  * `Opened.results_belong`: every run stores and keeps such results only.
-/
import SourceIndex.Proofs.Batch
import SourceIndex.Proofs.Failure

namespace SourceIndex

variable {path content : String}

open Text

/-! ## What a write stores -/

/-- The rows of symbols that are new. -/
def StoreDump.newRows (old new : StoreDump) : List SymbolRecord :=
  new.symbols.filter (· ∉ old.symbols)

/-- The file is stored in the place of what was stored for its path.  All its symbols have
    new rows, but for those in `kept`: these have rows that stay, with the same key and a
    text with the same fingerprint. -/
structure StoreDump.Takes (old : StoreDump) (f : Prepared) (kept : List (Symbol × SymbolRecord))
    (new : StoreDump) : Prop where
  file : ∃ id, new.file = some ⟨id, f.path, f.content, .ofText f.content⟩
  full : f.mode = .full → kept = []
  found : ((old.newRows new).map (·.symbol) ++ kept.map (·.1)).Perm f.parsed.symbols
  rows : new.symbols.Perm (old.newRows new ++ kept.map (·.2))
  unchanged : ∀ p ∈ kept, p.2 ∈ old.symbols ∧ p.2.symbol.key = p.1.key ∧
    ∃ file ∈ old.file, ∃ oldText text, spanText (lines file.content) p.2.symbol = some oldText ∧
      spanText (lines f.content) p.1 = some text ∧
      ContentHash.ofText oldText = ContentHash.ofText text

namespace StoreDump

variable {old new : StoreDump}

/-- The new rows are those that do not stay. -/
theorem perm_newRows {stay fresh : List SymbolRecord} (hnew : new.symbols.Perm (stay ++ fresh))
    (hstay : ∀ r ∈ stay, r ∈ old.symbols) (hfresh : ∀ r ∈ fresh, r ∉ old.symbols) :
    (old.newRows new).Perm fresh := by
  have hnone : stay.filter (· ∉ old.symbols) = [] :=
    List.filter_eq_nil_iff.2 fun r hr hnot => of_decide_eq_true hnot (hstay r hr)
  have hall : fresh.filter (· ∉ old.symbols) = fresh :=
    List.filter_eq_self.2 fun r hr => decide_eq_true (hfresh r hr)
  have hfilter := hnew.filter (· ∉ old.symbols)
  rwa [List.filter_append, hnone, hall, List.nil_append] at hfilter

/-- The symbols `ss` of a file get new rows, and the others keep theirs. -/
theorem takes_of_rows {f : Prepared} {kept : List (Symbol × SymbolRecord)} {last : SymbolId}
    {file : FileId} {ss : List Symbol}
    (hfile : new.file = some ⟨file, f.path, f.content, .ofText f.content⟩)
    (hfull : f.mode = .full → kept = [])
    (hnew : new.symbols.Perm (kept.map (·.2) ++ Rows.newRecords last file ss))
    (hss : (ss ++ kept.map (·.1)).Perm f.parsed.symbols)
    (hfresh : ∀ r ∈ Rows.newRecords last file ss, r ∉ old.symbols)
    (hkept : ∀ p ∈ kept, p.2 ∈ old.symbols ∧ p.2.symbol.key = p.1.key ∧
      ∃ file ∈ old.file, ∃ oldText text, spanText (lines file.content) p.2.symbol = some oldText ∧
        spanText (lines f.content) p.1 = some text ∧
        ContentHash.ofText oldText = ContentHash.ofText text) : old.Takes f kept new := by
  have hrows : (old.newRows new).Perm (Rows.newRecords last file ss) :=
    perm_newRows hnew (List.forall_mem_map.2 fun p hp => (hkept p hp).1) hfresh
  refine ⟨⟨file, hfile⟩, hfull, ?_, ?_, hkept⟩
  · have hsymbols := hrows.map (·.symbol)
    rw [Rows.map_symbol_newRecords] at hsymbols
    exact (hsymbols.append_right _).trans hss
  · exact (hnew.trans List.perm_append_comm).trans (hrows.symm.append_right _)

end StoreDump

namespace Rows

variable {rows : Rows} {path : String} {r : SymbolRecord}

theorem WellFormed.id_le_of_mem_dump (h : rows.WellFormed) (hr : r ∈ (rows.dump path).symbols) :
    r.id ≤ rows.lastSymbol := by
  cases hf : rows.file? path with
  | none =>
    rw [h.dump_of_none hf] at hr
    cases hr
  | some file =>
    rw [h.dump_of_some hf] at hr
    have hm := (perm_symbolsOf rows file.id).mem_iff.1 hr
    exact (h.symbol_le (h.mem_recordsOf.1 hm).1).2

theorem WellFormed.notMem_dump_of_new (h : rows.WellFormed) {file : FileId} {ss : List Symbol}
    (hr : r ∈ newRecords rows.lastSymbol file ss) : r ∉ (rows.dump path).symbols := fun hm =>
  Nat.not_le_of_lt (mem_newRecords hr).1 (h.id_le_of_mem_dump hm)

end Rows

namespace Prepared.Fits

open Rows

variable {policy : DiffPolicy} {rows : Rows} {f : Prepared}

/-- **Writing a file** stores its content and its symbols in the place of what was stored
    for its path. -/
theorem takes (chunker : Chunker) (h : f.Fits policy rows) (hs : rows.Sound) :
    ∃ kept, (rows.dump f.path).Takes f kept ((f.rowsAfter chunker rows).dump f.path) := by
  have hw := hs.toWellFormed
  have hr := h.rewritten chunker hs
  have hperm := perm_symbolsOf (f.rowsAfter chunker rows) (f.fileId rows)
  rw [hr.sound.dump_of_some hr.file?_self]
  rcases f.mode_cases with ⟨previous, hp, hd, he⟩ | ⟨-, he⟩
  · have hid := h.fileId_eq hw hp
    obtain ⟨judged, hj, hkept, hunchanged, hsymbols⟩ := h.stays hw hp hd
    have hrecords := h.recordsOf_incrementalRows chunker hs hp
    rw [← he, ← hid, ← rowsAfter] at hrecords
    rw [hrecords, hid] at hperm
    rw [hid]
    refine ⟨Diff.kept judged, StoreDump.takes_of_rows rfl (fun hfull => ?_)
      (hperm.trans (hkept.append_right _)) (hunchanged ▸ hsymbols)
      (fun r hm => hw.notMem_dump_of_new hm) fun p hm => ?_⟩
    · rw [mode, hd, hp] at hfull
      cases hfull
    · obtain ⟨hmem, hkey, htexts⟩ := hj.of_mem_kept hm
      rw [hw.dump_of_some (h.file?_eq.trans hp)]
      exact ⟨hmem, hkey, previous, rfl, htexts⟩
  · have hrecords := recordsOf_fullRows chunker f hs
    rw [← he, ← rowsAfter] at hrecords
    rw [hrecords] at hperm
    refine ⟨[], StoreDump.takes_of_rows rfl (fun _ => rfl) hperm ?_
      (fun r hm => hw.notMem_dump_of_new hm) (List.forall_mem_nil _)⟩
    rw [List.map_nil, List.append_nil]

end Prepared.Fits

/-! ## Requests for one file -/

/-- The request is about its own revision: the one that it prepares, is going to commit
    or has committed, unless it was skipped. -/
def FilePhase.About (path content : String) (done : List (List Prepared)) :
    FilePhase Transaction → Prop
  | .preparing stage => stage.Proper path content
  | .opening f | .writing f _ | .committing f _ _ => f.path = path ∧ f.content = content
  | .trimming f _ => done = [[f]] ∧ f.path = path ∧ f.content = content
  | .closing (.ok report) | .done (.ok report) => report.mode = .skipped ∨
    ∃ f chunks, done = [[f]] ∧ f.path = path ∧ f.content = content ∧ report = f.report chunks
  | _ => True

theorem Coordinator.FileStep.keeps_about {c c' : MemoryCoordinator}
    {phase phase' : FilePhase Transaction} {done : List (List Prepared)}
    (h : FileStep c path content phase phase' c') (hw : phase.Unwritten done)
    (hp : phase.About path content done) :
    phase'.About path content (done ++ (c.commitOf? (.file path content phase)).toList) := by
  cases h with
  | prepared hs => exact hs.proper
  | skipped => exact Or.inl hp.2
  | ready | opened | wrote => exact hp
  | committed hc =>
    refine ⟨?_, hp⟩
    obtain rfl : done = [] := hw
    rw [commitOf?, hc]
    rfl
  | @trimmed file chunks =>
    obtain ⟨rfl, hpath, hcontent⟩ := hp
    exact Or.inr ⟨file, chunks, rfl, hpath, hcontent, rfl⟩
  | @closed outcome =>
    cases outcome with
    | error => trivial
    | ok report => exact (List.append_nil done).symm ▸ hp
  | _ => trivial

/-- The file, its content and the report of a request that has succeeded. -/
def Request.success? {τ : Type} : Request τ → Option (String × String × FileReport)
  | .file path content (.done (.ok report)) => some (path, content, report)
  | _ => none

theorem Request.eq_of_success? {τ : Type} {r : Request τ} {report : FileReport}
    (h : r.success? = some (path, content, report)) :
    r = .file path content (.done (.ok report)) := by
  cases r with
  | batch phase => cases h
  | file path' content' phase =>
    cases phase with
    | done outcome =>
      cases outcome with
      | ok report' => cases h; rfl
      | error error => cases h
    | _ => cases h

namespace Chronicle

open Coordinator

variable {s s' a b : Chronicle} {x : Happening} {xs : List Happening} {id : RequestId}
  {path content : String} {k : Commit} {f : Prepared}

section
variable (h : Orderly s.coordinator)
  (hr : s.coordinator.requests.get? id = some (.file path content .arriving))
  (hx : s.run xs = some s') {report : FileReport}
  (hdone : s'.coordinator.requests.get? id = some (.file path content (.done (.ok report))))
  (hmode : report.mode ≠ .skipped)
include h hr hx hdone hmode

/-- A request that ends with a report on a file it has written has made one commit, of
    that file. -/
theorem commitsBy_of_report : ∃ f chunks, s.commitsBy id xs = [[f]] ∧ f.path = path ∧
    f.content = content ∧ report = f.report chunks := by
  obtain ⟨phase, hr', -, hp⟩ := follow_file
    (P := fun done phase => phase.Unwritten done ∧ phase.About path content done)
    (fun hs hp => ⟨hs.keeps_unwritten hp.1, hs.keeps_about hp.1 hp.2⟩) h hr [] ⟨rfl, trivial⟩ hx
  rw [hdone] at hr'
  cases hr'
  exact hp.resolve_left hmode

theorem commitsBy_of_succeeded : ∃ f, s.commitsBy id xs = [[f]] ∧ f.path = path ∧
    f.content = content ∧ report.mode = f.mode := by
  obtain ⟨f, chunks, hf, hpath, hcontent, rfl⟩ := commitsBy_of_report h hr hx hdone hmode
  exact ⟨f, hf, hpath, hcontent, rfl⟩

end

/-! ## Commits -/

/-- Every commit of a run is made by one of its happenings. -/
theorem exists_step_of_mem_commitLog (hx : s.run xs = some s') (hk : k ∈ s.commitLog xs) :
    ∃ before x after a b, xs = before ++ x :: after ∧ s.run before = some a ∧
      a.step x = some b ∧ a.coordinator.commit? x = some k := by
  induction xs generalizing s with
  | nil => cases hk
  | cons x xs ih =>
    obtain ⟨s₁, hs, hx⟩ := Option.bind_eq_some_iff.1 hx
    rw [commitLog, gather_cons hs, List.mem_append, Option.mem_toList] at hk
    rcases hk with hk | hk
    · exact ⟨[], x, xs, s, s₁, rfl, rfl, hs, hk⟩
    · obtain ⟨before, y, after, a, b, rfl, ha, hb, hk⟩ := ih hx hk
      exact ⟨x :: before, y, after, a, b, rfl, (run_cons hs).trans ha, hb, hk⟩

/-- From `a` to `b` the file is stored, with symbols that the parser has found by then for
    its path and for a content with its fingerprint. -/
structure Stores (a : Chronicle) (f : Prepared) (b : Chronicle) : Prop where
  found : a.record.Found ⟨f.path, .ofText f.content⟩ f.parsed
  stored : ∃ kept,
    (a.coordinator.rows.dump f.path).Takes f kept (b.coordinator.rows.dump f.path)

theorem Traced.stores (h : a.Traced) (hx : a.step x = some b)
    (hk : a.coordinator.commit? x = some k) (hf : f ∈ k.files) : a.Stores f b := by
  obtain ⟨Job, hholds⟩ := h.holds
  obtain ⟨c', hc, rfl⟩ := Option.map_eq_some_iff.1 hx
  obtain ⟨-, -, hcoherent, hn, hrows⟩ := h.orderly.undergo_rows hc
  have hmem : f ∈ a.coordinator.commits x := by
    rw [commits_eq, hk]
    exact List.mem_append_left _ hf
  obtain ⟨rows, hsound, hdump, hfits, hstored⟩ :=
    hcoherent.dump_of_once h.orderly.sound (filter_path_eq hn hmem)
  obtain ⟨kept, htakes⟩ := hfits.takes a.coordinator.chunker hsound
  refine ⟨(hholds.commits hmem).2 _ rfl, kept, ?_⟩
  rwa [hrows, ← hdump, hstored]

/-- What is stored for a path only changes by a commit of a file with that path. -/
theorem Traced.dump_step (h : a.Traced) (hx : a.step x = some b) (path : String) :
    b.coordinator.rows.dump path = a.coordinator.rows.dump path ∨
      ∃ k f, a.coordinator.commit? x = some k ∧ f ∈ k.files ∧ f.path = path ∧ a.Stores f b := by
  by_cases hpath : path ∈ (a.coordinator.commits x).map (·.path)
  · obtain ⟨f, hf, rfl⟩ := List.mem_map.1 hpath
    rw [commits_eq, List.mem_flatMap] at hf
    obtain ⟨k, hk, hf⟩ := hf
    rw [Option.mem_toList] at hk
    exact Or.inr ⟨k, f, hk, hf, rfl, h.stores hx hk hf⟩
  · obtain ⟨c', hc, rfl⟩ := Option.map_eq_some_iff.1 hx
    obtain ⟨-, -, hcoherent, -, hrows⟩ := h.orderly.undergo_rows hc
    refine Or.inl ?_
    rw [hrows]
    exact hcoherent.dump_replay h.orderly.sound hpath

/-- In the run the request commits the revision and stores it in the mode. -/
def Indexes (s : Chronicle) (id : RequestId) (xs : List Happening) (path content : String)
    (mode : WriteMode) : Prop :=
  ∃ before x after a b k f, xs = before ++ x :: after ∧ s.run before = some a ∧
    a.step x = some b ∧ a.coordinator.commit? x = some k ∧ k.request = id ∧ f ∈ k.files ∧
    f.path = path ∧ f.content = content ∧ f.mode = mode ∧ a.Stores f b

/-- A file that a request commits is stored by it. -/
theorem Traced.indexes (h : s.Traced) (hx : s.run xs = some s')
    (hf : f ∈ (s.commitsBy id xs).flatten) : s.Indexes id xs f.path f.content f.mode := by
  obtain ⟨files, hfiles, hf⟩ := List.mem_flatten.1 hf
  obtain ⟨k, hk, rfl⟩ := List.mem_map.1 hfiles
  obtain ⟨hk, hid⟩ := List.mem_filter.1 hk
  obtain ⟨before, x, after, a, b, hsplit, ha, hb, hcommit⟩ := exists_step_of_mem_commitLog hx hk
  exact ⟨before, x, after, a, b, k, f, hsplit, ha, hb, hcommit, of_decide_eq_true hid, hf, rfl, rfl,
    rfl, (h.run ha).stores hb hcommit hf⟩

/-- **No result of the parser is stored or kept for a revision that it does not belong
    to.**  Every result in the cache is one that the parser has found, in this run, for the
    path of its key and for a content with the fingerprint of its key.  What is stored for
    a path only changes by commits that store symbols which the parser has found by then,
    for that path and for a content with the fingerprint of the one committed.  Every
    request for one file, and every file of a batch, that is reported as written has made
    such a commit of the revision that was asked for. -/
theorem Opened.results_belong {start : Chronicle} (h : start.Opened)
    (hx : start.run xs = some s) :
    (∀ e ∈ s.coordinator.cache.entries, s.record.Found ⟨e.key.path, e.key.hash⟩ e.value) ∧
    (∀ {before x after a b}, xs = before ++ x :: after → start.run before = some a →
      a.step x = some b → ∀ path, b.coordinator.rows.dump path = a.coordinator.rows.dump path ∨
        ∃ k f, a.coordinator.commit? x = some k ∧ f ∈ k.files ∧ f.path = path ∧ a.Stores f b) ∧
    (∀ {before path content after a b id report},
      xs = before ++ .act (.index path content) :: after → start.run before = some a →
      a.step (.act (.index path content)) = some b → id = b.coordinator.lastRequest →
      s.coordinator.requests.get? id = some (.file path content (.done (.ok report))) →
      report.mode ≠ .skipped → b.Indexes id after path content report.mode) ∧
    ∀ {before files after a b id report},
      xs = before ++ .act (.batch files) :: after → start.run before = some a →
      a.step (.act (.batch files)) = some b → id = b.coordinator.lastRequest →
      s.coordinator.requests.get? id = some (.batch (.done report)) →
      ∀ r ∈ report.succeeded, r.mode ≠ .skipped →
        ∃ content, (r.path, content) ∈ files ∧ b.Indexes id after r.path content r.mode := by
  refine ⟨fun e he => ?_, ?_, ?_, ?_⟩
  · obtain ⟨Job, hholds⟩ := (h.traced.run hx).holds
    exact hholds.cache e he _ rfl
  · intro before x after a b _ ha hb path
    exact (h.traced.run ha).dump_step hb path
  · rintro before path content after a b id report rfl ha hb rfl hdone hmode
    have htraced := (h.traced.run ha).step hb
    have hrest := (run_cons hb).symm.trans (run_of_append hx ha)
    obtain ⟨f, hf, rfl, rfl, hreport⟩ :=
      commitsBy_of_succeeded htraced.orderly (request_of_index hb) hrest hdone hmode
    rw [hreport]
    exact htraced.indexes hrest (by rw [hf]; exact List.mem_cons_self)
  · rintro before files after a b id report rfl ha hb rfl hdone r hr hmode
    have htraced := (h.traced.run ha).step hb
    have hrest := (run_cons hb).symm.trans (run_of_append hx ha)
    have haccounts := accounts_of_done htraced.orderly (request_of_batch hb) hrest hdone
    obtain ⟨f, hf, rfl⟩ := (haccounts.succeeded r hr).resolve_left hmode
    exact ⟨f.content, haccounts.asked f hf, htraced.indexes hrest hf⟩

/-- The file `a` is written as a whole after its first parse took too long, the result of
    which comes late, and then symbol by symbol. -/
theorem Opened.results_belong_sample :
    let symbols : List Symbol :=
      [.ofLines "f" .function 1 1, .ofLines "g" .function 2 2, .ofLines "h" .function 3 3]
    let late : List Happening := [.act (.pool .takeCommand), .act (.pool (.receive 0)),
      .act (.pool (.advance 30000)), .act (.pool (.fire 1)), .act (.pool .takeEvent)] ++
      Happening.turns 1 2 ++
      [.act (.pool (.finish 0 (.returned (.ok { symbols := [], parseTimeMs := 0 })))),
        .act (.pool .takeEvent)]
    let xs : List Happening :=
      Happening.turns 1 4 ++ late ++ Happening.parse 1 symbols ++ Happening.turns 1 8
    let ys : List Happening :=
      Happening.turns 2 5 ++ Happening.parse 1 symbols ++ Happening.turns 2 8
    ∃ s₁ s₂ s₃ s₄, sample.Opened ∧
      sample.step (.act (.index "a" "fn f\nfn g\nfn h")) = some s₁ ∧ s₁.run xs = some s₂ ∧
      s₂.step (.act (.index "a" "fn f\nfn g\nfn h'")) = some s₃ ∧ s₃.run ys = some s₄ ∧
      s₄.record.parses.length = 3 ∧
      s₁.Indexes 1 (xs ++ .act (.index "a" "fn f\nfn g\nfn h'") :: ys) "a" "fn f\nfn g\nfn h"
        .full ∧
      s₃.Indexes 2 ys "a" "fn f\nfn g\nfn h'" .incremental ∧
      s₄.coordinator.cache.entries.length = 1 ∧
      ∀ e ∈ s₄.coordinator.cache.entries,
        s₄.record.Found ⟨e.key.path, e.key.hash⟩ e.value := by
  intro symbols late xs ys
  have hcheck : (sample.step (.act (.index "a" "fn f\nfn g\nfn h"))).any (fun s₁ =>
      (s₁.run xs).any fun s₂ => (s₂.step (.act (.index "a" "fn f\nfn g\nfn h'"))).any fun s₃ =>
        (s₃.run ys).any fun s₄ =>
          ((s₄.coordinator.requests.get? 1).bind Request.success?).any fun r =>
            ((s₄.coordinator.requests.get? 2).bind Request.success?).any fun r' =>
              decide (s₁.coordinator.lastRequest = 1 ∧ s₃.coordinator.lastRequest = 2 ∧
                r.1 = "a" ∧ r.2.1 = "fn f\nfn g\nfn h" ∧ r.2.2.mode = .full ∧
                r'.1 = "a" ∧ r'.2.1 = "fn f\nfn g\nfn h'" ∧ r'.2.2.mode = .incremental ∧
                s₄.record.parses.length = 3 ∧ s₄.coordinator.cache.entries.length = 1)) = true := by
    decide +kernel
  obtain ⟨s₁, hs₁, hcheck⟩ := (Option.any_eq_true _ _).1 hcheck
  obtain ⟨s₂, hs₂, hcheck⟩ := (Option.any_eq_true _ _).1 hcheck
  obtain ⟨s₃, hs₃, hcheck⟩ := (Option.any_eq_true _ _).1 hcheck
  obtain ⟨s₄, hs₄, hcheck⟩ := (Option.any_eq_true _ _).1 hcheck
  obtain ⟨⟨path, content, report⟩, hr, hcheck⟩ := (Option.any_eq_true _ _).1 hcheck
  obtain ⟨⟨path', content', report'⟩, hr', hcheck⟩ := (Option.any_eq_true _ _).1 hcheck
  obtain ⟨hid, hid', rfl, rfl, hmode, rfl, rfl, hmode', hparses, hcache⟩ :=
    of_decide_eq_true hcheck
  obtain ⟨r, hr, he⟩ := Option.bind_eq_some_iff.1 hr
  obtain ⟨r', hr', he'⟩ := Option.bind_eq_some_iff.1 hr'
  rw [Request.eq_of_success? he] at hr
  rw [Request.eq_of_success? he'] at hr'
  have hfirst : sample.run (.act (.index "a" "fn f\nfn g\nfn h") :: xs) = some s₂ :=
    (run_cons hs₁).trans hs₂
  have hrun : sample.run (.act (.index "a" "fn f\nfn g\nfn h") :: xs ++
      .act (.index "a" "fn f\nfn g\nfn h'") :: ys) = some s₄ :=
    run_append hfirst ((run_cons hs₃).trans hs₄)
  obtain ⟨hentries, -, hindex, -⟩ := sample_started.opened.results_belong hrun
  refine ⟨s₁, s₂, s₃, s₄, sample_started.opened, hs₁, hs₂, hs₃, hs₄, hparses, ?_, ?_, hcache,
    hentries⟩
  · rw [← hmode]
    exact hindex (List.nil_append _).symm rfl hs₁ hid.symm hr (by rw [hmode]; decide)
  · rw [← hmode']
    exact hindex rfl hfirst hs₃ hid'.symm hr' (by rw [hmode']; decide)

end Chronicle

end SourceIndex
