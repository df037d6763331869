/-
  Content that is stored already is not indexed again.

  * `FilePhase.skipping`, `Coordinator.Skips`: the steps of a request that finds its content
    stored, `Chronicle.skips_run`: it makes them undisturbed;
  * `Chronicle.OnlyReads`, `Opened.reindex_noop`: they change nothing, and the content that
    a path was indexed with last is stored, whatever has failed since.
-/
import SourceIndex.Proofs.Faultless
import SourceIndex.Proofs.Remembering

namespace SourceIndex

variable {x : Happening}

/-! ## Requests that find their content stored -/

/-- The phase of a request after so many steps, if what is stored for the path is the file
    with the symbols and has the content already. -/
def FilePhase.skipping {τ : Type} (path : String) (file : FileRecord)
    (symbols : List SymbolRecord) : Nat → FilePhase τ
  | 0 => .arriving
  | 1 => .preparing .fresh
  | 2 => .preparing (.located file)
  | 3 => .preparing (.loaded ⟨some file, symbols⟩)
  | 4 => .preparing (.settled (.ok (.skipped (.unchangedContent path symbols.length))))
  | 5 => .closing (.ok (.unchangedContent path symbols.length))
  | _ => .done (.ok (.unchangedContent path symbols.length))

namespace Coordinator

variable {c c' : MemoryCoordinator} {id : RequestId} {path content : String} {file : FileRecord}
  {symbols : List SymbolRecord} {n : Nat}

/-- A request that finds its content stored has made `n` steps. -/
structure Skips (c : MemoryCoordinator) (id : RequestId) (path content : String)
    (file : FileRecord) (symbols : List SymbolRecord) (n : Nat) : Prop where
  orderly : Orderly c
  le : n ≤ 6
  faults : c.store.faults = []
  same : file.contentHash = .ofText content
  request : c.requests.get? id = some (.file path content (.skipping path file symbols n))
  free : n = 0 → path ∉ c.leases
  prior : n ≤ 3 → c.rows.prior path = ⟨some file, symbols⟩

namespace Skips

/-- A step of it changes nothing but the leases and the counts of requests. -/
theorem turnFile (h : c.Skips id path content file symbols n) (hn : n < 6) :
    ∃ leases tallies, c.turnFile path content (.skipping path file symbols n) =
      some (.skipping path file symbols (n + 1), { c with leases, tallies }) := by
  have hfile : n ≤ 3 → c.rows.file? path = some file := by
    intro hle
    rw [← c.rows.prior_previous, h.prior hle]
  have hsymbols : n ≤ 3 → c.rows.symbolsOf file.id = symbols := by
    intro hle
    have hprior := h.prior hle
    rw [Rows.prior, hfile hle] at hprior
    exact congrArg Prior.symbols hprior
  rcases n with _ | _ | _ | _ | _ | _ | n
  · refine ⟨c.leases ++ [path], c.tallies, ?_⟩
    have hfree : c.leases.contains path = false := by simpa using h.free rfl
    simp only [FilePhase.skipping, Coordinator.turnFile, lease?, hfree]
    rfl
  · refine ⟨c.leases, c.tallies, ?_⟩
    simp only [FilePhase.skipping, Coordinator.turnFile, prepare, h.orderly.backend,
      FaultyStore.findFile_faultless h.faults, hfile (by omega)]
    rfl
  · refine ⟨c.leases, c.tallies, ?_⟩
    simp only [FilePhase.skipping, Coordinator.turnFile, prepare, h.orderly.backend,
      FaultyStore.findSymbols_faultless h.faults, hsymbols (by omega)]
    rfl
  · refine ⟨c.leases, c.tallies, ?_⟩
    have hsame : (some file).map (·.contentHash) = some (CacheKey.ofContent path content).hash :=
      congrArg some h.same
    simp only [FilePhase.skipping, Coordinator.turnFile, prepare, if_pos hsame]
    rfl
  · exact ⟨c.leases, c.tallies, rfl⟩
  · exact ⟨c.leases.filter fun p => !([path].contains p),
      c.tallies.succeed (.unchangedContent path symbols.length), rfl⟩
  · omega

/-- The next step of it is possible, and changes neither the store nor the cache nor the
    pool. -/
theorem turn (h : c.Skips id path content file symbols n) (hn : n < 6) (place : Nat) :
    ∃ c', c.turn ⟨id, place⟩ = some c' ∧ c'.Skips id path content file symbols (n + 1) ∧
      c'.store = c.store ∧ c'.cache = c.cache ∧ c'.pool = c.pool := by
  obtain ⟨leases, tallies, hturn⟩ := h.turnFile hn
  have ht : c.turn ⟨id, place⟩ = some { c with
      leases
      tallies
      requests := c.requests.put id
        (.file path content (.skipping path file symbols (n + 1))) } := by
    rw [Coordinator.turn, h.request]
    dsimp only
    rw [hturn]
    rfl
  refine ⟨_, ht, ?_, rfl, rfl, rfl⟩
  exact ⟨h.orderly.undergo (x := .act (.turn ⟨id, place⟩)) ht, hn, h.faults, h.same,
    Table.get?_put_self _ _ _, fun he => (Nat.succ_ne_zero n he).elim,
    fun hle => h.prior (Nat.le_of_succ_le hle)⟩

theorem lt_of_turn (h : c.Skips id path content file symbols n) {place : Nat}
    (hx : c.turn ⟨id, place⟩ = some c') : n < 6 := by
  refine lt_of_le_of_ne h.le fun he => ?_
  subst he
  rw [Coordinator.turn, h.request] at hx
  cases hx

theorem undergo (h : c.Skips id path content file symbols n) (hn : n ≠ 0)
    (hother : x.isTurnOf id = false) (hcalm : x.faultless = true) (hx : c.undergo x = some c') :
    c'.Skips id path content file symbols n := by
  have horderly := h.orderly.undergo hx
  have hrequest : c'.requests.get? id =
      some (.file path content (.skipping path file symbols n)) := by
    rcases h.orderly.undergo_of_request hx h.request with ⟨place, r', c₁, rfl, -⟩ | ⟨-, hr⟩
    · rw [Happening.isTurnOf_iff.2 ⟨place, rfl⟩] at hother
      cases hother
    · exact hr
  refine ⟨horderly, h.le, ?_, h.same, hrequest, fun he => (hn he).elim, fun hle => ?_⟩
  · exact h.orderly.undergo_faults h.faults hcalm hx
  · rw [← h.prior hle]
    have hopen : ¬(Request.file path content (.skipping path file symbols n) :
        Request Transaction).Over ∧ path ∈ (Request.file path content
          (.skipping path file symbols n) : Request Transaction).held := by
      rcases n with _ | _ | _ | _ | n
      · exact (hn rfl).elim
      · exact ⟨fun ho => ho, List.mem_cons_self⟩
      · exact ⟨fun ho => ho, List.mem_cons_self⟩
      · exact ⟨fun ho => ho, List.mem_cons_self⟩
      · omega
    obtain ⟨r', hr', hkept⟩ := h.orderly.undergo_request hx h.request
    cases hrequest.symm.trans hr'
    have hdump := ((hkept.resolve_left hopen.1).2 path hopen.2).2
    exact h.orderly.sound.prior_congr horderly.sound.toWellFormed hdump

end Skips

end Coordinator

namespace Chronicle

open Coordinator

variable {start s s' : Chronicle} {xs ys : List Happening} {id new : RequestId}
  {path content : String} {file : FileRecord} {symbols : List SymbolRecord} {n : Nat}

/-- **In every run** a request that finds its content stored makes its way undisturbed, if
    it comes to take the lease first. -/
theorem skips_run (h : s.coordinator.Skips id path content file symbols n)
    (hfirst : n = 0 → ∀ x ∈ xs.head?, x.isTurnOf id = true)
    (hcalm : ∀ x ∈ xs, x.faultless = true) (hx : s.run xs = some s') :
    s'.coordinator.Skips id path content file symbols (n + xs.countP (·.isTurnOf id)) := by
  induction xs generalizing s n with
  | nil => cases hx; exact h
  | cons x xs ih =>
    obtain ⟨s₁, hs, hx⟩ := Option.bind_eq_some_iff.1 hx
    obtain ⟨c₁, hc, rfl⟩ := Option.map_eq_some_iff.1 hs
    obtain ⟨hcalm₁, hcalmRest⟩ := List.forall_mem_cons.1 hcalm
    rw [List.countP_cons]
    cases hturn : x.isTurnOf id with
    | true =>
      obtain ⟨place, rfl⟩ := Happening.isTurnOf_iff.1 hturn
      obtain ⟨c₂, hc₂, h₂, -⟩ := h.turn (h.lt_of_turn hc) place
      obtain rfl : c₂ = c₁ := Option.some.inj (hc₂.symm.trans hc)
      rw [if_pos rfl, ← Nat.add_assoc, Nat.add_right_comm]
      exact ih h₂ (fun he => (Nat.succ_ne_zero n he).elim) hcalmRest hx
    | false =>
      have hn : n ≠ 0 := fun he => by
        rw [hfirst he x rfl] at hturn
        cases hturn
      exact ih (h.undergo hn hturn hcalm₁ hc) (fun he => (hn he).elim) hcalmRest hx

/-- In the run the steps of a request leave the store, the cache and the pool as they are,
    with all their counts. -/
def OnlyReads (s : Chronicle) (id : RequestId) (ys : List Happening) : Prop :=
  ∀ before place after a b, ys = before ++ .act (.turn ⟨id, place⟩) :: after →
    s.run before = some a → a.step (.act (.turn ⟨id, place⟩)) = some b →
    b.coordinator.store = a.coordinator.store ∧ b.coordinator.cache = a.coordinator.cache ∧
      b.coordinator.pool = a.coordinator.pool

theorem onlyReads_of_skips (h : s.coordinator.Skips id path content file symbols 0)
    (hfirst : ∀ y ∈ ys.head?, y.isTurnOf id = true) (hcalm : ∀ y ∈ ys, y.faultless = true) :
    s.OnlyReads id ys := by
  rintro before place after a b rfl ha hb
  have hfirst' : ∀ y ∈ before.head?, y.isTurnOf id = true := by
    intro y hy
    refine hfirst y ?_
    rw [List.head?_append, hy]
    rfl
  have hskips := skips_run h (fun _ => hfirst') (List.forall_mem_append.1 hcalm).1 ha
  obtain ⟨c', hc, rfl⟩ := Option.map_eq_some_iff.1 hb
  obtain ⟨c₁, hc₁, -, hsame⟩ := hskips.turn (hskips.lt_of_turn hc) place
  cases hc₁.symm.trans hc
  exact hsame

/-- **Content that is stored already is not indexed again.**  Say a request has taken up a
    path with some content and indexed it, and whatever came after it, no other request has
    indexed the path since: requests for other paths or in batches, requests that failed for
    this one, faults of the store, parse results dropped from the cache, time that passed,
    even a shutdown.  Another request for the path and the content, that comes to take the
    lease, then is done after six steps, each possible at any time, and says that the content
    is as many symbols as are stored.  Its steps leave the store, the cache and the pool with
    all their counts, so it opens no transaction and has nothing parsed, whatever else happens
    in between. -/
theorem Opened.reindex_noop (h : start.Opened) (hxs : start.run xs = some s)
    (hlast : lastIndexer path (start.successes xs) = some id)
    (hcontent : (path, content) ∈ start.taken id xs)
    (hnew : s.coordinator.requests.get? new = some (.ofFile path content))
    (hfree : path ∉ s.coordinator.leases) (hfaults : s.coordinator.store.faults = [])
    (hfirst : ∀ y ∈ ys.head?, y.isTurnOf new = true)
    (hcalm : ∀ y ∈ ys, y.faultless = true) (hys : s.run ys = some s') :
    s.OnlyReads new ys ∧
    (ys.countP (·.isTurnOf new) < 6 ∧ (∀ place, (s'.step (.act (.turn ⟨new, place⟩))).isSome) ∨
      ys.countP (·.isTurnOf new) = 6 ∧ ∃ report, s'.coordinator.requests.get? new =
        some (.file path content (.done (.ok report))) ∧ report.path = path ∧
        report.mode = .skipped ∧
        report.unchanged = (s.coordinator.rows.symbolsAt path).length) := by
  have hremembers := remembers_run h.remembers hxs
  have hhas := hremembers.hasContent_of_free hlast hfree hcontent
  obtain ⟨file, hfile, hhash⟩ := Option.map_eq_some_iff.1 hhas
  have hprior : s.coordinator.rows.prior path =
      ⟨some file, s.coordinator.rows.symbolsAt path⟩ := by
    rw [hremembers.orderly.sound.toWellFormed.prior_eq, Rows.dump, hfile]
  have hskips : s.coordinator.Skips new path content file
      (s.coordinator.rows.symbolsAt path) 0 :=
    ⟨hremembers.orderly, Nat.zero_le 6, hfaults, hhash, hnew, fun _ => hfree, fun _ => hprior⟩
  refine ⟨onlyReads_of_skips hskips hfirst hcalm, ?_⟩
  have hskips' := skips_run hskips (fun _ => hfirst) hcalm hys
  rw [Nat.zero_add] at hskips'
  rcases lt_or_eq_of_le hskips'.le with hlt | heq
  · refine Or.inl ⟨hlt, fun place => ?_⟩
    obtain ⟨c', hc, -⟩ := hskips'.turn hlt place
    rw [step, undergo, act, hc]
    rfl
  · have hdone := hskips'.request
    rw [heq] at hdone
    exact Or.inr ⟨heq, _, hdone, rfl, rfl, rfl⟩

/-- A batch asks for a path with two contents and indexes the first.  Then the store rejects
    the path: a request for the other content fails, and so does its part of a batch.  Its
    parse results are dropped, time passes, the pool is shut down and the cache is cleared.
    The first content is asked for again, while the pool turns away another request. -/
theorem Opened.reindex_noop_sample :
    let found : List Symbol := [.ofLines "a" .function 1 1]
    let xs : List Happening := [.act (.batch [("p", "a"), ("p", "b")])] ++
      Happening.turns 1 6 ++ Happening.parse 0 found ++ Happening.turns 1 10 ++
      [.disturb ["p"] [], .act (.index "p" "b")] ++
      Happening.turns 2 5 ++ Happening.parse 0 found ++ Happening.turns 2 7 ++
      [.act (.batch [("p", "c"), ("q", "k")])] ++
      Happening.turns 3 7 ++ Happening.parse 0 [] ++ Happening.turns 3 6 ++
      Happening.parse 0 [] ++ Happening.turns 3 11 ++
      [.act (.invalidate "p"), .act (.pool (.advance 5)), .act (.pool .requestShutdown),
        .act (.pool .takeCommand), .act .clearCache]
    let again : Happening := .act (.index "p" "a")
    let ys : List Happening := Happening.turns 4 2 ++
      [.disturb ["p", "q"] [], .act (.index "q" "y")] ++ Happening.turns 4 1 ++
      Happening.turns 5 4 ++ Happening.turns 4 2 ++ Happening.turns 5 2 ++ Happening.turns 4 1
    ∃ (s s' : Chronicle) (report : FileReport), sample.Opened ∧
      sample.run (xs ++ [again]) = some s ∧
      sample.successes (xs ++ [again]) = [(1, "p"), (3, "q")] ∧
      sample.taken 1 (xs ++ [again]) = [("p", "a")] ∧ s.run ys = some s' ∧
      s.OnlyReads 4 ys ∧
      s'.coordinator.requests.get? 4 = some (.file "p" "a" (.done (.ok report))) ∧
      report.mode = .skipped ∧ report.unchanged = 1 := by
  intro found xs again ys
  have hcheck : (sample.run xs).any (fun s₀ => (s₀.step again).any fun s => (s.run ys).any fun s' =>
      decide (sample.successes (xs ++ [again]) = [(1, "p"), (3, "q")] ∧
        sample.taken 1 (xs ++ [again]) = [("p", "a")] ∧ s.coordinator.lastRequest = 4 ∧
        s.coordinator.leases = [] ∧ s.coordinator.store.faults.isEmpty = true ∧
        (s.coordinator.rows.symbolsAt "p").length = 1)) = true := by
    decide +kernel
  obtain ⟨s₀, hs₀, hcheck⟩ := (Option.any_eq_true _ _).1 hcheck
  obtain ⟨s, hs, hcheck⟩ := (Option.any_eq_true _ _).1 hcheck
  obtain ⟨s', hs', hcheck⟩ := (Option.any_eq_true _ _).1 hcheck
  obtain ⟨hsuccesses, htaken, hnew, hleases, hfaults, hsymbols⟩ := of_decide_eq_true hcheck
  have hrun : sample.run (xs ++ [again]) = some s := run_append hs₀ (run_cons hs)
  have hrequest := request_of_index hs
  rw [hnew] at hrequest
  have hlast : lastIndexer "p" (sample.successes (xs ++ [again])) = some 1 := by
    rw [hsuccesses]
    decide
  obtain ⟨hreads, hdone⟩ := sample_started.opened.reindex_noop hrun hlast
    (htaken ▸ List.mem_cons_self) hrequest (hleases ▸ List.not_mem_nil)
    (List.isEmpty_iff.1 hfaults) (by decide) (by decide) hs'
  obtain ⟨-, report, hreport, -, hmode, hunchanged⟩ := hdone.resolve_left fun hlt =>
    absurd hlt.1 (by decide)
  exact ⟨s, s', report, sample_started.opened, hrun, hsuccesses, htaken, hs', hreads, hreport,
    hmode, hunchanged.trans hsymbols⟩

end Chronicle

end SourceIndex
