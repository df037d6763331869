/-
  No update is lost.

  * `Request.reads`, `Request.applying?`: when a request reads a path from the store,
    and when it writes a file;
  * `Coordinator.indexAlone`: the indexing of one file while nothing else happens;
  * `Started.no_lost_update`: a request writes over just what it has read, a commit
    changes only the paths it writes, and the committed rows are those of indexing the
    committed files alone, one after another.
-/
import SourceIndex.Proofs.Orderly

namespace SourceIndex

/-! ## Reads and writes of a request -/

/-- Does the next step of the preparation read from the store? -/
def Stage.atRead : Stage → Bool
  | .fresh | .located _ => true
  | _ => false

namespace Request

variable {τ : Type}

/-- May the next step of the request read the path from the store? -/
def reads (path : String) : Request τ → Bool
  | .file p _ (.preparing stage) => p = path && stage.atRead
  | .batch (.preparing _ slots _ _) => slots.any fun slot => slot.path = path && slot.stage.atRead
  | _ => false

/-- The file that the next step of the request writes, and its transaction. -/
def applying? : Request τ → Option (Prepared × τ)
  | .file _ _ (.writing f tx) => some (f, tx)
  | .batch (.writing _ tx (f :: _) _ _ _ _) => some (f, tx)
  | _ => none

end Request

namespace Coordinator

variable {c c' : MemoryCoordinator} {r : Request Transaction}

theorem Orderly.of_reads (h : Orderly c) (hr : r ∈ c.requests.values) {path : String}
    (hreads : r.reads path) : path ∈ r.held := by
  have hf := h.faithful r hr
  cases r with
  | file p content phase =>
    cases phase with
    | preparing stage =>
      rw [Request.reads, Bool.and_eq_true, decide_eq_true_eq] at hreads
      exact hreads.1 ▸ List.mem_cons_self
    | _ => cases hreads
  | batch phase =>
    cases phase with
    | preparing held slots ready report =>
      obtain ⟨slot, hs, hp⟩ := List.any_eq_true.1 hreads
      rw [Bool.and_eq_true, decide_eq_true_eq] at hp
      exact hp.1 ▸ hf.mem_held slot hs
    | _ => cases hreads

/-- What the transaction of a request holds for the path it writes next is what is
    committed for it. -/
theorem Orderly.of_applying (h : Orderly c) (hr : r ∈ c.requests.values) {f : Prepared}
    {tx : Transaction} (ha : r.applying? = some (f, tx)) :
    ¬r.Over ∧ tx.working.dump f.path = c.rows.dump f.path := by
  have hf := h.faithful r hr
  cases r with
  | file p content phase =>
    cases phase with
    | writing file tx =>
      cases ha
      exact ⟨id, by rw [hf.2]⟩
    | _ => cases ha
  | batch phase =>
    cases phase with
    | writing held tx todo index savepoints written report =>
      cases todo with
      | nil => cases ha
      | cons file rest =>
        cases ha
        refine ⟨id, ?_⟩
        -- the files written before it have other paths
        have hw := hf.1.sublist (List.sublist_append_left _ _)
        have hn := hf.1.nodup
        rw [List.map_append, List.nodup_append] at hn
        rw [hf.2]
        exact (coherent_of_fits c.chunker h.sound hw.fits hw.nodup).dump_replay h.sound fun hm =>
          hn.2.2 _ hm _ List.mem_cons_self rfl
    | _ => cases ha

end Coordinator

namespace Chronicle

open Coordinator

variable {s s' : Chronicle}

/-- As long as a request has its writes before it, it holds the paths it held, and
    what is stored for them has not changed. -/
theorem Consistent.keeps_held (h : s.Consistent) {xs : List Happening}
    (hx : s.run xs = some s') {id : RequestId} {r : Request Transaction}
    (hr : s.coordinator.requests.get? id = some r) :
    ∃ r', s'.coordinator.requests.get? id = some r' ∧
      (r'.Over ∨ ¬r.Over ∧
        ∀ p ∈ r.held, p ∈ r'.held ∧ s'.coordinator.rows.dump p = s.coordinator.rows.dump p) := by
  let P : Chronicle → Prop := fun t => t.Consistent ∧
    ∃ r', t.coordinator.requests.get? id = some r' ∧
      (r'.Over ∨ ¬r.Over ∧
        ∀ p ∈ r.held, p ∈ r'.held ∧ t.coordinator.rows.dump p = s.coordinator.rows.dump p)
  refine (run_induction (P := P) (fun {t x t'} hp hx => ⟨hp.1.step hx, ?_⟩) hx
    ⟨h, r, hr, (em r.Over).imp_right fun ho => ⟨ho, fun p hp => ⟨hp, rfl⟩⟩⟩).2
  obtain ⟨ht, r₁, hr₁, h₁⟩ := hp
  obtain ⟨c', hc, rfl⟩ := Option.map_eq_some_iff.1 hx
  obtain ⟨r₂, hr₂, h₂⟩ := ht.orderly.undergo_request hc hr₁
  refine ⟨r₂, hr₂, ?_⟩
  rcases h₂ with ho | ⟨hno, hk⟩
  · exact Or.inl ho
  · rcases h₁ with ho | ⟨hno', hk'⟩
    · exact (hno ho).elim
    · exact Or.inr ⟨hno', fun p hp => ⟨(hk p (hk' p hp).1).1,
        (hk p (hk' p hp).1).2.trans (hk' p hp).2⟩⟩

end Chronicle

/-! ## One file after another -/

namespace Coordinator

variable {σ τ : Type} {c : MemoryCoordinator} {f : Prepared} {s : FaultyStore}

/-- Index a file while nothing else happens, given the result of its parse: read what
    is stored for the path, compare, and write in a transaction of its own. -/
def indexAlone (c : Coordinator σ τ) (store : σ) (path content : String) (parsed : ParseResult) :
    Except Fault σ := do
  let (found, store) := c.backend.findFile path store
  let previous ← found
  let (found, store) := match previous with
    | some file => c.backend.findSymbols file.id store
    | none => (.ok [], store)
  let symbols ← found
  let file := c.prepared path content ⟨previous, symbols⟩ parsed false 0
  let (opened, store) := c.backend.openTransaction store
  let tx ← opened
  let (written, tx, store) := (file.write c.backend c.chunker).run (tx, store)
  let _ ← written
  let (committed, store) := c.backend.commit tx store
  committed
  return store

/-- Two files that were compared with the same rows and have the same path, content
    and parse result are written alike. -/
theorem rowsAfter_prepared {rows : Rows} (h : f.Fits c.settings.incremental rows) :
    (c.prepared f.path f.content (rows.prior f.path) f.parsed false 0).rowsAfter c.chunker =
      f.rowsAfter c.chunker := by
  obtain ⟨h₁, h₂, h₃, h₄⟩ := h
  cases f
  dsimp only at h₁ h₂ h₃ h₄
  subst h₁ h₂ h₃ h₄
  rfl

/-- On a store without failures a file that was compared with the committed rows can
    be indexed alone, and its rows are then those of writing it. -/
theorem indexAlone_of_fits (hb : c.backend = FaultyStore.backend) (hfaults : s.faults = [])
    (hrules : s.store.rules.rejected = []) (hs : s.store.committed.Sound)
    (hf : f.Fits c.settings.incremental s.store.committed) :
    ∃ s', c.indexAlone s f.path f.content f.parsed = .ok s' ∧ s'.faults = [] ∧
      s'.store.rules.rejected = [] ∧
      s'.store.committed = f.rowsAfter c.chunker s.store.committed := by
  rw [← rowsAfter_prepared hf]
  have hfits : (c.prepared f.path f.content (s.store.committed.prior f.path) f.parsed false 0).Fits
      c.settings.incremental s.store.committed := ⟨rfl, rfl, rfl, rfl⟩
  generalize hprior : s.store.committed.prior f.path = prior at hfits
  have hfile : c.backend.findFile f.path s = (.ok prior.previous, s) := by
    rw [hb, ← hprior, Rows.prior_previous]
    simp only [FaultyStore.backend, FaultyStore.reading, FaultyStore.trip_of_no_faults hfaults]
  have hsymbols : (match prior.previous with
      | some file => c.backend.findSymbols file.id s
      | none => (.ok [], s)) = (.ok prior.symbols, s) := by
    rw [hb, ← hprior, Rows.prior]
    cases s.store.committed.file? f.path with
    | none => rfl
    | some file =>
      simp only [FaultyStore.backend, FaultyStore.reading, FaultyStore.trip_of_no_faults hfaults]
  have hopen : c.backend.openTransaction s =
      (.ok { working := s.store.committed },
        { s with store := { s.store with busy := true } }) := by
    rw [hb]
    simp only [FaultyStore.backend, FaultyStore.opening, FaultyStore.trip_of_no_faults hfaults]
    rfl
  have hwrite := @Carries.succeeds _ _ _ _
    ((c.prepared f.path f.content prior f.parsed false 0).carries_write c.chunker)
    { working := s.store.committed } { s with store := { s.store with busy := true } } hfaults
    ⟨hs.toWellFormed, hrules ▸ List.not_mem_nil, fun previous hp => hfits.file?_eq.trans hp⟩
  have hcommit : ∀ tx : Transaction, c.backend.commit tx
      { s with store := { s.store with busy := true } } =
        (.ok (), { s with store := { s.store with busy := true }.commit tx }) := fun tx => by
    rw [hb]
    simp only [FaultyStore.backend, FaultyStore.ending]
    rw [FaultyStore.trip_of_no_faults]
    exact hfaults
  rw [← hb] at hwrite
  let rows := (c.prepared f.path f.content prior f.parsed false 0).rowsAfter c.chunker
    s.store.committed
  refine ⟨{ s with store := { s.store with busy := true }.commit { working := rows } }, ?_,
    hfaults, hrules, rfl⟩
  simp only [indexAlone, hfile, bind, Except.bind, hsymbols, hopen, hwrite, hcommit]
  rfl

/-- Files that were compared with the rows before them can be indexed alone, one
    after another. -/
theorem foldlM_indexAlone (hb : c.backend = FaultyStore.backend) {files : List Prepared}
    (hfaults : s.faults = []) (hrules : s.store.rules.rejected = []) (hs : s.store.committed.Sound)
    (hf : Coherent c.settings.incremental c.chunker s.store.committed files) :
    ∃ s', files.foldlM (fun s f => c.indexAlone s f.path f.content f.parsed) s = .ok s' ∧
      s'.store.committed = replay c.chunker s.store.committed files := by
  induction files generalizing s with
  | nil => exact ⟨s, rfl, rfl⟩
  | cons f files ih =>
    obtain ⟨s₁, h₁, hfaults₁, hrules₁, hrows₁⟩ := indexAlone_of_fits hb hfaults hrules hs hf.1
    obtain ⟨s', h', hrows'⟩ := ih hfaults₁ hrules₁
      (hrows₁ ▸ hf.1.sound_rowsAfter c.chunker hs) (hrows₁ ▸ hf.2)
    refine ⟨s', ?_, by rw [hrows', hrows₁]; rfl⟩
    rw [List.foldlM_cons, h₁]
    exact h'

end Coordinator

/-! ## Whole runs -/

namespace Chronicle

open Coordinator

/-- **No update is lost.**  Whatever the interleaving of the requests: a request that
    writes a path finds in its transaction just what was committed for the path when it
    read it; a happening changes what is stored only for the paths that it commits;
    and the committed rows are those of indexing the committed files alone, in the
    order of their commits and with the same parse results. -/
theorem Started.no_lost_update {start : Chronicle} {chunker : Option Chunker}
    (h : start.Started chunker) :
    (∀ {xs ys s₁ s₂ id r₁ r₂ f tx}, start.run xs = some s₁ → s₁.run ys = some s₂ →
      s₁.coordinator.requests.get? id = some r₁ → r₁.reads f.path →
      s₂.coordinator.requests.get? id = some r₂ → r₂.applying? = some (f, tx) →
      tx.working.dump f.path = s₁.coordinator.rows.dump f.path) ∧
    (∀ {xs s x s' path}, start.run xs = some s → s.step x = some s' →
      path ∉ (s.coordinator.commits x).map (·.path) →
      s'.coordinator.rows.dump path = s.coordinator.rows.dump path) ∧
    ∀ {xs s}, start.run xs = some s →
      ∃ store, s.record.writes.foldlM (fun store f =>
          s.coordinator.indexAlone store f.path f.content f.parsed) {} = .ok store ∧
        store.store.committed = s.coordinator.rows := by
  refine ⟨fun {xs ys s₁ s₂ id r₁ r₂ f tx} hxs hys hr₁ hreads hr₂ ha => ?_,
    fun {xs s x s' path} hxs hx hpath => ?_, fun {xs s} hxs => ?_⟩
  · have hc₁ := h.consistent.run hxs
    have hc₂ := hc₁.run hys
    have hheld := hc₁.orderly.of_reads (Table.mem_values_of_get? hr₁) hreads
    obtain ⟨hno, hdump⟩ := hc₂.orderly.of_applying (Table.mem_values_of_get? hr₂) ha
    obtain ⟨r, hr, hk⟩ := hc₁.keeps_held hys hr₁
    obtain rfl : r = r₂ := Option.some.inj (hr.symm.trans hr₂)
    rcases hk with ho | ⟨-, hk⟩
    · exact (hno ho).elim
    · exact hdump.trans (hk _ hheld).2
  · have hc := (h.consistent.run hxs).orderly
    obtain ⟨c', hc', rfl⟩ := Option.map_eq_some_iff.1 hx
    obtain ⟨-, -, hcoherent, -, hrows⟩ := hc.undergo_rows hc'
    rw [hrows]
    exact hcoherent.dump_replay hc.sound hpath
  · have hc := h.consistent.run hxs
    obtain ⟨store, hstore, hrows⟩ := foldlM_indexAlone (s := {}) hc.orderly.backend rfl rfl
      Rows.Sound.empty hc.coherent
    exact ⟨store, hstore, hrows.trans hc.rows_eq.symm⟩

/-- Request 3 reads `b` and opens its transaction after request 2, which was under way
    at the same time, has committed `a`. -/
theorem Started.no_lost_update_sample :
    let xs : List Happening := [.act (.index "b" "fn g")] ++ Happening.turns 1 4 ++
      Happening.parse 0 [.ofLines "g" .function 1 1] ++ Happening.turns 1 8 ++
      [.act (.index "a" "fn f"), .act (.index "b" "fn h")] ++ Happening.turns 2 1 ++
      Happening.turns 3 1
    let ys : List Happening := Happening.turns 2 3 ++ Happening.turns 3 4 ++
      Happening.parse 0 [.ofLines "f" .function 1 1] ++
      Happening.parse 0 [.ofLines "h" .function 1 1] ++ Happening.turns 2 6 ++ Happening.turns 3 4
    ∃ s₁ s₂ r₁ r₂ f tx store, sample.Started none ∧ sample.run xs = some s₁ ∧
      s₁.run ys = some s₂ ∧ s₁.coordinator.requests.get? 3 = some r₁ ∧ r₁.reads f.path ∧
      s₂.coordinator.requests.get? 3 = some r₂ ∧ r₂.applying? = some (f, tx) ∧
      s₂.coordinator.rows ≠ s₁.coordinator.rows ∧
      tx.working.dump f.path = s₁.coordinator.rows.dump f.path ∧
      s₂.record.writes.foldlM (fun store f =>
        s₂.coordinator.indexAlone store f.path f.content f.parsed) {} = .ok store ∧
      store.store.committed = s₂.coordinator.rows := by
  intro xs ys
  have hcheck : (sample.run xs).any (fun s₁ => (s₁.run ys).any fun s₂ =>
      (s₁.coordinator.requests.get? 3).any fun r₁ => (s₂.coordinator.requests.get? 3).any fun r₂ =>
        r₂.applying?.any fun applied => r₁.reads applied.1.path &&
          s₂.coordinator.rows != s₁.coordinator.rows) = true := by
    decide +kernel
  obtain ⟨s₁, h₁, hcheck⟩ := (Option.any_eq_true _ _).1 hcheck
  obtain ⟨s₂, h₂, hcheck⟩ := (Option.any_eq_true _ _).1 hcheck
  obtain ⟨r₁, hr₁, hcheck⟩ := (Option.any_eq_true _ _).1 hcheck
  obtain ⟨r₂, hr₂, hcheck⟩ := (Option.any_eq_true _ _).1 hcheck
  obtain ⟨⟨f, tx⟩, ha, hcheck⟩ := (Option.any_eq_true _ _).1 hcheck
  rw [Bool.and_eq_true, bne_iff_ne] at hcheck
  obtain ⟨hunchanged, -, hserial⟩ := sample_started.no_lost_update
  obtain ⟨store, hstore, hrows⟩ := hserial (run_append h₁ h₂)
  exact ⟨s₁, s₂, r₁, r₂, f, tx, store, sample_started, h₁, h₂, hr₁, hcheck.1, hr₂, ha, hcheck.2,
    hunchanged h₁ h₂ hr₁ hcheck.1 hr₂ ha, hstore, hrows⟩

end Chronicle

end SourceIndex
