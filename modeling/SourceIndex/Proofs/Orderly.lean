/-
  Requests do not get into each other's way.

  * `Coordinator.Orderly`: the leases are those of `Leasing`; a transaction is open exactly
    if the store is busy, and then one request has it; every request is faithful to the
    committed rows;
  * `Orderly.turn`: a step of a request is a `Move`, and the others are not disturbed;
  * `Orderly.undergo`: whatever happens to a coordinator keeps it orderly;
  * `Chronicle.Opened`: a coordinator that has just been started is in order;
  * `Chronicle.Consistent`: besides, the committed rows are those that the committed
    files leave, each compared with the rows before it.
-/
import SourceIndex.Proofs.Turns

namespace SourceIndex

namespace Coordinator

/-- Leases, transactions and reads are in order. -/
structure Orderly (c : MemoryCoordinator) : Prop extends Leasing c where
  backend : c.backend = FaultyStore.backend
  sound : c.rows.Sound
  writers : c.requests.values.countP (·.open?.isSome) = c.store.store.busy.toNat
  faithful : ∀ r ∈ c.requests.values, r.Faithful c.settings.incremental c.chunker c.rows

variable {c c' : MemoryCoordinator}

theorem commits_turn {t : Turn} {r : Request Transaction}
    (hr : c.requests.get? t.request = some r) :
    c.commits (.act (.turn t)) = (c.commitOf? r).getD [] := by
  rw [commits, hr]
  exact c.commitsOf_eq r

theorem countP_writers (r : Request Transaction) (others : List (Request Transaction)) :
    (r :: others).countP (·.open?.isSome) = r.writers + others.countP (·.open?.isSome) := by
  rw [List.countP_cons, Request.writers, Nat.add_comm]
  cases r.open?.isSome <;> rfl

namespace Orderly

variable {r r' : Request Transaction} {id : RequestId} {x : Happening} {p : String}

theorem move (h : Orderly c) (hr : c.requests.get? id = some r) (hs : RequestStep c r r' c') :
    Move c r (c.commitOf? r) c' r' := by
  have hf := h.faithful _ (Table.mem_values_of_get? hr)
  cases hs with
  | file hs => exact hs.move h.backend hf
  | batch hs => exact hs.move h.backend hf (h.held_nodup hr)

theorem turn_move (h : Orderly c) {t : Turn} (ht : c.turn t = some c') :
    ∃ r c₁ r', c.requests.get? t.request = some r ∧ Move c r (c.commitOf? r) c₁ r' ∧
      c' = { c₁ with requests := c.requests.put t.request r' } := by
  obtain ⟨r, r', c₁, hr, hs, he⟩ := requestStep_of_turn ht
  exact ⟨r, c₁, r', hr, h.move hr hs, he⟩

/-- **A step of a request** leaves everything in order: what it commits are paths
    that no other request holds, and no other request has a transaction then. -/
theorem put (h : Orderly c) {commit : Option (List Prepared)} (hr : c.requests.get? id = some r)
    (hm : Move c r commit c' r') : Orderly { c' with requests := c.requests.put id r' } := by
  obtain ⟨others, hput, hperm, hl, hmem, -⟩ := h.others hr
  have hw : r.writers + others.countP (·.open?.isSome) = c.store.store.busy.toNat := by
    rw [← h.writers, hperm.countP_eq, countP_writers]
  have hcoherent := coherent_of_fits c.chunker h.sound hm.writable.fits hm.writable.nodup
  have hsound : c'.rows.Sound := hm.rows_eq ▸ hcoherent.sound h.sound
  refine ⟨h.toLeasing.put hr hm.lastRequest (hm.leases h.leases_nodup),
    hm.backend.trans h.backend, hsound, ?_, fun r₂ hr₂ => ?_⟩
  · rw [(hput r').countP_eq, countP_writers]
    exact hm.busy hw
  · change r₂.Faithful c'.settings.incremental c'.chunker c'.rows
    rw [hm.settings, hm.chunker]
    rcases List.mem_cons.1 ((hput r').mem_iff.1 hr₂) with rfl | ho
    · exact hm.faithful
    have hf := h.faithful r₂ (hmem r₂ ho)
    cases commit with
    | none =>
      rw [hm.rows_eq]
      exact hf
    | some files =>
      -- the others have no transaction now, and hold other paths
      have hopen : r₂.open? = none := by
        have hle := Bool.toNat_le c.store.store.busy
        rw [Request.writers, (hm.progress rfl).1, Bool.toNat_true] at hw
        have hzero : others.countP (·.open?.isSome) = 0 := by omega
        simpa using List.countP_eq_zero.1 hzero r₂ ho
      refine hf.congr hopen fun p hp => h.sound.prior_congr hsound.toWellFormed ?_
      rw [hm.rows_eq]
      refine hcoherent.dump_replay h.sound fun hmem => ?_
      obtain ⟨f, hf, rfl⟩ := List.mem_map.1 hmem
      have hdisjoint := (List.nodup_append.1 (hl.nodup_iff.1 h.leases_nodup)).2.2
      exact hdisjoint _ (hm.writable.mem_held f hf) _ (List.mem_flatMap.2 ⟨r₂, ho, hp⟩) rfl

theorem congr (h : Orderly c) (hs : Alike c c') (hl : c'.leases = c.leases)
    (hrows : c'.rows = c.rows) (hbusy : c'.store.store.busy = c.store.store.busy) : Orderly c' where
  backend := hs.backend.trans h.backend
  sound := hrows ▸ h.sound
  leases_nodup := hl ▸ h.leases_nodup
  leases := by rw [hl, hs.requests]; exact h.leases
  writers := by rw [hs.requests, hbusy]; exact h.writers
  faithful r hr := by
    rw [hs.settings, hs.chunker, hrows]
    exact h.faithful r (hs.requests ▸ hr)
  nodup := hs.requests ▸ h.nodup
  le := by rw [hs.requests, hs.lastRequest]; exact h.le

theorem receive (h : Orderly c) (hheld : r.held = []) (hopen : r.open? = none)
    (hf : r.Faithful c.settings.incremental c.chunker c.rows) : Orderly (c.receive r).2 := by
  refine { h with toLeasing := h.toLeasing.receive hheld, writers := ?_, faithful := ?_ }
  · rw [h.values_receive, List.countP_append, List.countP_singleton, hopen]
    exact h.writers
  · rw [h.values_receive]
    exact List.forall_mem_append.2 ⟨h.faithful, List.forall_mem_singleton.2 hf⟩

theorem undergo (h : Orderly c) (hx : c.undergo x = some c') : Orderly c' := by
  cases x with
  | disturb rejected faults =>
    cases hx
    exact h.congr ⟨rfl, rfl, rfl, rfl, rfl⟩ rfl rfl rfl
  | act action =>
    cases change_of_act hx with
    | asked => exact h.receive rfl rfl trivial
    | askedMany => exact h.receive rfl rfl fun s hs => absurd hs List.not_mem_nil
    | moved hr hs => exact h.put hr (h.move hr hs)
    | _ => exact h.congr ⟨rfl, rfl, rfl, rfl, rfl⟩ rfl rfl rfl

/-- The committed rows change by the files that are committed, which have pairwise
    different paths and were compared with the rows as they are. -/
theorem undergo_rows (h : Orderly c) (hx : c.undergo x = some c') :
    c'.settings = c.settings ∧ c'.chunker = c.chunker ∧
      Coherent c.settings.incremental c.chunker c.rows (c.commits x) ∧
      ((c.commits x).map (·.path)).Nodup ∧ c'.rows = replay c.chunker c.rows (c.commits x) := by
  cases x with
  | disturb rejected faults => cases hx; exact ⟨rfl, rfl, trivial, List.nodup_nil, rfl⟩
  | act action =>
    cases change_of_act hx with
    | moved hr hs =>
      have hm := h.move hr hs
      rw [commits_turn hr]
      exact ⟨hm.settings, hm.chunker,
        coherent_of_fits c.chunker h.sound hm.writable.fits hm.writable.nodup,
        hm.writable.nodup, hm.rows_eq⟩
    | _ => exact ⟨rfl, rfl, trivial, List.nodup_nil, rfl⟩

/-- While the store is busy a request has a transaction. -/
theorem exists_writer (h : Orderly c) (hbusy : c.store.store.busy = true) :
    ∃ id r, c.requests.get? id = some r ∧ r.open?.isSome := by
  have hw := h.writers
  rw [hbusy, Bool.toNat_true] at hw
  obtain ⟨r, hr, hopen⟩ := List.countP_pos_iff.1 (hw ▸ Nat.one_pos)
  obtain ⟨id, hid⟩ := Table.exists_get?_of_mem_values h.nodup hr
  exact ⟨id, r, hid, hopen⟩

/-- A happening is a step of a request, or leaves the request as it is. -/
theorem undergo_of_request (h : Orderly c) (hx : c.undergo x = some c')
    (hr : c.requests.get? id = some r) :
    (∃ place r' c₁, x = .act (.turn ⟨id, place⟩) ∧ RequestStep c r r' c₁ ∧
      c' = { c₁ with requests := c.requests.put id r' }) ∨
    (∀ place, x ≠ .act (.turn ⟨id, place⟩)) ∧ c'.requests.get? id = some r := by
  cases x with
  | disturb rejected faults => cases hx; exact Or.inr ⟨nofun, hr⟩
  | act action =>
    rcases h.toNumbered.request (change_of_act hx) hr with
      ⟨place, r', c₁, he, hs, hc⟩ | ⟨hother, hr'⟩
    · cases he
      exact Or.inl ⟨place, r', c₁, rfl, hs, hc⟩
    · refine Or.inr ⟨fun place he => ?_, hr'⟩
      cases he
      exact hother place rfl

/-- What a happening commits is held by the request that moves. -/
theorem mem_commits (h : Orderly c) (hx : c.undergo x = some c') {f : Prepared}
    (hf : f ∈ c.commits x) :
    ∃ t r, x = .act (.turn t) ∧ c.requests.get? t.request = some r ∧ f.path ∈ r.held := by
  unfold commits at hf
  split at hf
  · rename_i t
    obtain ⟨r, c₁, r', hr, hm, -⟩ := h.turn_move hx
    rw [hr] at hf
    dsimp only at hf
    rw [commitsOf_eq] at hf
    exact ⟨t, r, rfl, hr, hm.writable.mem_held f hf⟩
  · cases hf

/-- Until a request has its writes behind it, it keeps its leases, and what is stored
    for the paths that it holds does not change. -/
theorem undergo_request (h : Orderly c) (hx : c.undergo x = some c')
    (hr : c.requests.get? id = some r) :
    ∃ r', c'.requests.get? id = some r' ∧
      (r'.Over ∨ ¬r.Over ∧ ∀ p ∈ r.held, p ∈ r'.held ∧ c'.rows.dump p = c.rows.dump p) := by
  rcases h.undergo_of_request hx hr with ⟨place, r', c₁, rfl, hs, rfl⟩ | ⟨hother, hr'⟩
  · have hm := h.move hr hs
    refine ⟨r', Table.get?_put_self _ _ _, ?_⟩
    by_cases ho : r'.Over
    · exact Or.inl ho
    have hnone : c.commitOf? r = none :=
      Option.not_isSome_iff_eq_none.1 fun hsome => ho (hm.progress hsome).2
    have hrows : c₁.rows = c.rows := by
      rw [hm.rows_eq, hnone]
      rfl
    exact hm.keeps.imp_right fun hk => ⟨hk.1, fun p hp => ⟨hk.2 p hp, by rw [hrows]⟩⟩
  · refine ⟨r, hr', (em r.Over).imp_right fun ho => ⟨ho, fun p hp => ⟨hp, ?_⟩⟩⟩
    obtain ⟨-, -, hcoherent, -, hrows⟩ := h.undergo_rows hx
    rw [hrows]
    refine hcoherent.dump_replay h.sound fun hmem => ?_
    obtain ⟨f, hf, rfl⟩ := List.mem_map.1 hmem
    obtain ⟨t, r₁, rfl, hr₁, hheld⟩ := h.mem_commits hx hf
    exact h.disjoint hr hr₁ (fun he => hother t.place (he ▸ rfl)) hp hheld

end Orderly

end Coordinator

/-! ## Runs -/

namespace Chronicle

open Coordinator

/-- Everything is in order, and the committed rows are those that the committed files
    leave, each compared with the rows before it. -/
structure Consistent (s : Chronicle) : Prop where
  orderly : Orderly s.coordinator
  coherent : Coherent s.coordinator.settings.incremental s.coordinator.chunker {} s.record.writes
  rows_eq : s.coordinator.rows = replay s.coordinator.chunker {} s.record.writes

/-- A coordinator that has just been started, over a store that may hold rows. -/
def Opened (s : Chronicle) : Prop :=
  ∃ settings chunker starts store, store.store.committed.Sound ∧ store.store.busy = false ∧
    Coordinator.start FaultyStore.backend settings chunker store starts = .ok s.coordinator ∧
    s.record = {}

variable {s s' : Chronicle} {chunker : Option Chunker} {xs : List Happening}

theorem Started.opened (h : s.Started chunker) : s.Opened := by
  obtain ⟨settings, starts, store, hrows, hbusy, hstart, hrecord⟩ := h
  exact ⟨settings, chunker, starts, store, hrows ▸ .empty, hbusy, hstart, hrecord⟩

theorem Opened.orderly (h : s.Opened) : Orderly s.coordinator := by
  obtain ⟨settings, chunker, starts, store, hsound, hbusy, hstart, -⟩ := h
  have hleasing := Leasing.start hstart
  obtain ⟨settings', pool, -, -, hc⟩ := start_eq_ok hstart
  rw [hc] at hleasing ⊢
  exact { hleasing with
    backend := rfl
    sound := hsound
    writers := by rw [hbusy]; rfl
    faithful := fun r hr => absurd hr List.not_mem_nil }

theorem orderly_run (h : Orderly s.coordinator) (hx : s.run xs = some s') :
    Orderly s'.coordinator := by
  refine run_induction (P := fun s => Orderly s.coordinator) (fun hs hx => ?_) hx h
  obtain ⟨c', hc, rfl⟩ := Option.map_eq_some_iff.1 hx
  exact hs.undergo hc

theorem Started.consistent (h : s.Started chunker) : s.Consistent := by
  obtain ⟨settings, starts, store, hrows, -, hstart, hrecord⟩ := id h
  obtain ⟨settings', pool, -, -, hc⟩ := start_eq_ok hstart
  have hr : s.coordinator.rows = {} := by rw [hc]; exact hrows
  exact ⟨h.opened.orderly, by rw [hrecord]; trivial, by rw [hrecord, hr]; rfl⟩

theorem Consistent.step (h : s.Consistent) {x : Happening} (hx : s.step x = some s') :
    s'.Consistent := by
  obtain ⟨c', hc, rfl⟩ := Option.map_eq_some_iff.1 hx
  obtain ⟨hsettings, hchunker, hcoherent, -, hrows⟩ := h.orderly.undergo_rows hc
  refine ⟨h.orderly.undergo hc, ?_, ?_⟩
  · rw [hsettings, hchunker]
    exact coherent_append.2 ⟨h.coherent, h.rows_eq ▸ hcoherent⟩
  · rw [hchunker, hrows, h.rows_eq]
    exact (replay_append _ _ _ _).symm

theorem Consistent.run (h : s.Consistent) (hx : s.run xs = some s') : s'.Consistent :=
  run_induction (fun hs hx => hs.step hx) hx h

end Chronicle

end SourceIndex
