/-
  When stored chunks hold the lines that they name.

  A chunk of an unchanged symbol is kept as it is.  A symbol counts as unchanged if the
  text between its columns is the same, but its chunks hold whole lines.

  * `Chronicle.Traced.spansAmong`: the texts that decide which symbols are unchanged are
    among those of the record;
  * `Chronicle.run_matching_iff`: what one commit does, over whole runs;
  * `Started.chunks_match_iff`: after a run every chunk holds, and always held, the lines
    that it names if and only if every unchanged symbol kept its lines;
  * `Started.stale_chunk`: a run after which a chunk does not.
-/
import SourceIndex.Proofs.Layout
import SourceIndex.Proofs.Origin

namespace SourceIndex

namespace Chronicle

variable {s s' t : Chronicle} {xs : List Happening}

/-! ## The texts of a run -/

/-- The texts that the symbols of written files cover are among the texts of the record. -/
theorem Traced.spansAmong (h : s.Traced) : SpansAmong s.record.texts s.record.writes := by
  intro f hf g hg hpath symbol hsymbol text htext
  obtain ⟨call, hcall, -, hcallPath, -, hresult⟩ := (h.writes g hg).2
  exact ⟨f.path, f.content, (h.writes f hf).1, Or.inr ⟨call, hcall, hcallPath.trans hpath, symbol,
    hresult ▸ hsymbol, htext⟩⟩

theorem writes_of_run (h : s.run xs = some t) : ∀ f ∈ s.record.writes, f ∈ t.record.writes := by
  refine run_induction (P := fun t => ∀ f ∈ s.record.writes, f ∈ t.record.writes) ?_ h
    fun f hf => hf
  intro s₁ x s₂ hs hx f hf
  obtain ⟨c, -, rfl⟩ := Option.map_eq_some_iff.1 hx
  exact List.mem_append_left _ (hs f hf)

/-! ## Chunks over whole runs -/

section
variable {files : List Prepared} {texts : Set String} {maxLines : Nat}
  (hinj : Set.InjOn ContentHash.ofText texts) (hspans : SpansAmong texts files)
include hinj hspans

/-- One happening: chunks lie where they should, and they hold the lines that they name
    if and only if what it commits is steady. -/
theorem Consistent.step_matching (h : s.Consistent)
    (hchunker : s.coordinator.chunker = chunkFile maxLines)
    (harranged : ∀ q, (s.coordinator.rows.dump q).Arranged maxLines files q) {x : Happening}
    (hx : s.step x = some s') (hfiles : ∀ f ∈ s'.record.writes, f ∈ files) :
    s'.coordinator.chunker = chunkFile maxLines ∧
      (∀ q, (s'.coordinator.rows.dump q).Arranged maxLines files q) ∧
      ((∀ q, (s.coordinator.rows.dump q).Matching) → (∀ f ∈ s.record.writes, f.Steady) →
        ((∀ q, (s'.coordinator.rows.dump q).Matching) ↔ ∀ f ∈ s'.record.writes, f.Steady)) := by
  obtain ⟨c', hc, rfl⟩ := Option.map_eq_some_iff.1 hx
  obtain ⟨-, hsame, hcoherent, hnodup, hrows⟩ := h.orderly.undergo_rows hc
  rw [hchunker] at hsame hcoherent hrows
  have hsub : ∀ f ∈ s.coordinator.commits x, f ∈ files := fun f hf =>
    hfiles f (List.mem_append_right _ hf)
  refine ⟨hsame, fun q => ?_, fun hmatching hsteady => ?_⟩
  · rw [hrows]
    exact hcoherent.arranged h.orderly.sound hinj hspans hsub harranged q
  · rw [hrows, hcoherent.matching_replay_iff h.orderly.sound hinj hspans hsub harranged hnodup
      hmatching]
    exact ⟨fun hnew f hf => (List.mem_append.1 hf).elim (hsteady f) (hnew f),
      fun hall f hf => hall f (List.mem_append_right _ hf)⟩

theorem Consistent.run_matching_iff (h : s.Consistent)
    (hchunker : s.coordinator.chunker = chunkFile maxLines)
    (harranged : ∀ q, (s.coordinator.rows.dump q).Arranged maxLines files q)
    (hmatching : ∀ q, (s.coordinator.rows.dump q).Matching)
    (hsteady : ∀ f ∈ s.record.writes, f.Steady) (hx : s.run xs = some t)
    (hfiles : ∀ f ∈ t.record.writes, f ∈ files) :
    (∀ n s', s.run (xs.take n) = some s' → ∀ q, (s'.coordinator.rows.dump q).Matching) ↔
      ∀ f ∈ t.record.writes, f.Steady := by
  induction xs generalizing s with
  | nil =>
    cases hx
    refine iff_of_true (fun n s' hs' => ?_) hsteady
    rw [List.take_nil] at hs'
    cases hs'
    exact hmatching
  | cons x xs ih =>
    obtain ⟨s₁, hs₁, hx⟩ := Option.bind_eq_some_iff.1 hx
    have hwrites := writes_of_run hx
    obtain ⟨hchunker₁, harranged₁, hiff⟩ := h.step_matching hinj hspans hchunker harranged hs₁
      fun f hf => hfiles f (hwrites f hf)
    have hiff := hiff hmatching hsteady
    have ih := fun hm => ih (h.step hs₁) hchunker₁ harranged₁ hm (hiff.1 hm) hx
    have hcons : ∀ n, s.run ((x :: xs).take (n + 1)) = s₁.run (xs.take n) := fun n => by
      rw [List.take_succ_cons, Chronicle.run, hs₁]
      rfl
    constructor
    · intro hall
      have hm : ∀ q, (s₁.coordinator.rows.dump q).Matching :=
        hall 1 s₁ (by rw [hcons, List.take_zero]; rfl)
      exact (ih hm).1 fun n s' hs' => hall (n + 1) s' ((hcons n).trans hs')
    · intro hall n s' hs'
      cases n with
      | zero =>
        cases hs'
        exact hmatching
      | succ n =>
        have hm := hiff.2 fun f hf => hall f (hwrites f hf)
        exact (ih hm).2 hall n s' ((hcons n).symm.trans hs')

end

theorem Started.empty {chunker : Option Chunker} (h : s.Started chunker) :
    s.coordinator.rows = {} ∧ s.record = {} := by
  obtain ⟨settings, starts, store, hrows, -, hstart, hrecord⟩ := h
  obtain ⟨settings', pool, -, -, hc⟩ := Coordinator.start_eq_ok hstart
  exact ⟨by rw [hc]; exact hrows, hrecord⟩

theorem Started.chunker_run (h : s.Started none) (hx : s.run xs = some t) :
    t.coordinator.chunker = chunkFile t.coordinator.settings.chunking.maxChunkLines := by
  have hstart : s.coordinator.chunker =
      chunkFile s.coordinator.settings.chunking.maxChunkLines := by
    obtain ⟨settings, starts, store, -, -, hstart, -⟩ := h
    obtain ⟨settings', pool, -, -, hc⟩ := Coordinator.start_eq_ok hstart
    rw [hc]
    rfl
  refine (run_induction (P := fun t => t.Consistent ∧ t.coordinator.chunker =
    chunkFile t.coordinator.settings.chunking.maxChunkLines) ?_ hx ⟨h.consistent, hstart⟩).2
  intro s₁ x s₂ hs hx
  refine ⟨hs.1.step hx, ?_⟩
  obtain ⟨c, hc, rfl⟩ := Option.map_eq_some_iff.1 hx
  obtain ⟨hsettings, hchunker, -⟩ := hs.1.orderly.undergo_rows hc
  rw [hsettings, hchunker, hs.2]

/-- **Stored chunks and stored text.**  At every point of a run every chunk holds the
    lines that it names if and only if, in every file that was written symbol by symbol,
    the unchanged symbols kept their lines. -/
theorem Started.chunks_match_iff (h : s.Started none) {xs : List Happening}
    (hx : s.run xs = some t) (hinj : Set.InjOn ContentHash.ofText t.record.texts) :
    (∀ n s', s.run (xs.take n) = some s' →
        ∀ path, (s'.coordinator.store.store.dump path).Matching) ↔
      ∀ f ∈ t.record.writes, f.Steady := by
  have hchunker := h.chunker_run (show s.run [] = some s from rfl)
  refine h.consistent.run_matching_iff hinj (h.traced.run hx).spansAmong hchunker
    (fun q => ?_) (fun q => ?_) ?_ hx fun f hf => hf
  · rw [h.empty.1]
    exact StoreDump.arranged_empty _ _ q
  · rw [h.empty.1]
    exact StoreDump.matching_empty q
  · rw [h.empty.2]
    exact List.forall_mem_nil _

/-- The symbol `a` of `p` is unchanged and keeps its line while `b` is replaced. -/
theorem Started.chunks_match_sample :
    let symbols : List Symbol := [.ofLines "a" .function 1 1, .ofLines "b" .function 2 2]
    let xs : List Happening := [.act (.index "p" "fn a\nfn b")] ++ Happening.turns 1 4 ++
      Happening.parse 0 symbols ++ Happening.turns 1 8 ++
      [.act (.index "p" "fn a\nfn b'")] ++ Happening.turns 2 5 ++ Happening.parse 0 symbols ++
      Happening.turns 2 8
    ∃ t, sample.Started none ∧ sample.run xs = some t ∧
      Set.InjOn ContentHash.ofText t.record.texts ∧
      (∃ f ∈ t.record.writes, f.mode = .incremental ∧ f.diff.unchanged ≠ []) ∧
      (∀ f ∈ t.record.writes, f.Steady) ∧
      ∀ n s', sample.run (xs.take n) = some s' →
        ∀ path, (s'.coordinator.store.store.dump path).Matching := by
  intro symbols xs
  have hcheck : (sample.run xs).any (fun t =>
      (∀ a ∈ t.record.textList, a ∈ ["fn a\nfn b", "fn a\nfn b'", "fn a", "fn b", "fn b'"]) ∧
      (∃ f ∈ t.record.writes, f.mode = .incremental ∧ f.diff.unchanged ≠ []) ∧
      ∀ f ∈ t.record.writes, f.Steady) = true := by
    decide +kernel
  obtain ⟨t, ht, hcheck⟩ := (Option.any_eq_true _ _).1 hcheck
  obtain ⟨htexts, hkept, hsteady⟩ := of_decide_eq_true hcheck
  have hinj := Record.injOn_texts (by decide +kernel) htexts
  exact ⟨t, sample_started, ht, hinj, hkept, hsteady,
    (sample_started.chunks_match_iff ht hinj).2 hsteady⟩

/-- **A stale chunk.**  The symbol `a` covers the end of the first line, which changes
    before it, and its chunk keeps the line as it was. -/
theorem Started.stale_chunk :
    let symbols : List Symbol := [⟨"a", .function, 1, 7, 1, 11⟩, ⟨"b", .function, 2, 0, 2, 4⟩]
    let xs : List Happening := [.act (.index "p" "x = 1; fn a\nfn b")] ++ Happening.turns 1 4 ++
      Happening.parse 0 symbols ++ Happening.turns 1 8 ++
      [.act (.index "p" "x = 2; fn a\nfn b")] ++ Happening.turns 2 5 ++
      Happening.parse 0 symbols ++ Happening.turns 2 8
    ∃ t, sample.Started none ∧ sample.run xs = some t ∧
      Set.InjOn ContentHash.ofText t.record.texts ∧
      (t.coordinator.store.store.dump "p").file.map (·.content) = some "x = 2; fn a\nfn b" ∧
      (t.coordinator.store.store.dump "p").chunks.map (·.chunk.content) =
        ["x = 1; fn a", "fn b"] ∧
      ¬(t.coordinator.store.store.dump "p").Matching := by
  intro symbols xs
  have hcheck : (sample.run xs).any (fun t =>
      (∀ a ∈ t.record.textList,
        a ∈ ["x = 1; fn a\nfn b", "x = 2; fn a\nfn b", "fn a", "fn b"]) ∧
      (t.coordinator.store.store.dump "p").file.map (·.content) = some "x = 2; fn a\nfn b" ∧
      (t.coordinator.store.store.dump "p").chunks.map (·.chunk.content) =
        ["x = 1; fn a", "fn b"] ∧
      ¬(t.coordinator.store.store.dump "p").Matching) = true := by
    decide +kernel
  obtain ⟨t, ht, hcheck⟩ := (Option.any_eq_true _ _).1 hcheck
  obtain ⟨htexts, hstored⟩ := of_decide_eq_true hcheck
  exact ⟨t, sample_started, ht, Record.injOn_texts (by decide +kernel) htexts, hstored⟩

end Chronicle

end SourceIndex
