/-
  What one step of a request can do.

  * `Request.open?`: the open transaction of a request;
  * `Request.Faithful`: what a request has read is what the committed rows hold for
    its paths, and its transaction holds those rows with its own writes;
  * `Move`: what a step of a request does to the leases, to the right to write and to
    the committed rows, and that the request stays faithful;
  * `FileStep.move`, `BatchStep.move`: every step is such a move.
-/
import SourceIndex.Proofs.AnyStore
import SourceIndex.Proofs.Revision
import SourceIndex.Proofs.Run

namespace SourceIndex

/-! ## The calls of the store around a transaction -/

namespace FaultyStore

variable {s s' : FaultyStore} {r : Except Fault Unit} {tx tx' : Transaction} {call : StoreCall}
  {name : String}

theorem reading_spec {α : Type} {read : Store → α} {r : Except Fault α}
    (h : reading call read s = (r, s')) :
    s'.store = s.store ∧ ∀ a, r = .ok a → a = read s.store := by
  unfold reading at h
  split at h
  · cases h
    rename_i ht
    exact ⟨(congrArg (·.2.store) ht).symm, fun a ha => by cases ha⟩
  · cases h
    rename_i ht
    have hs := (congrArg (·.2.store) ht).symm
    exact ⟨hs, fun a ha => (Except.ok.inj ha).symm.trans (congrArg read hs)⟩

theorem opening_spec {r : Except Fault Transaction} (h : opening s = (r, s')) :
    (∃ fault, r = .error fault ∧ s'.store = s.store) ∨
      r = .ok { working := s.store.committed } ∧ s'.store = { s.store with busy := true } := by
  unfold opening at h
  split at h
  · cases h
    rename_i ht
    exact Or.inl ⟨_, rfl, (congrArg (·.2.store) ht).symm⟩
  · cases h
    rename_i ht
    have hs := (congrArg (·.2.store) ht).symm
    simp only [trip] at hs
    exact Or.inr (by simp [hs])

theorem ending_spec {close : Store → Store} (h : ending call close s = (r, s')) :
    (∃ fault, r = .error fault ∧ s'.store = s.store.abandon) ∨
      r = .ok () ∧ s'.store = close s.store := by
  unfold ending at h
  split at h
  · cases h
    rename_i ht
    have hs := (congrArg (·.2.store) ht).symm
    simp only [trip] at hs
    exact Or.inl ⟨_, rfl, by rw [hs]⟩
  · cases h
    rename_i ht
    have hs := (congrArg (·.2.store) ht).symm
    simp only [trip] at hs
    exact Or.inr ⟨rfl, by rw [hs]⟩

theorem findFile_spec {path : String} {r : Except Fault (Option FileRecord)}
    (h : backend.findFile path s = (r, s')) :
    s'.store = s.store ∧ ∀ found, r = .ok found → found = s.store.committed.file? path := by
  change reading .findFile (·.committed.file? path) s = _ at h
  exact reading_spec h

theorem findSymbols_spec {file : FileId} {r : Except Fault (List SymbolRecord)}
    (h : backend.findSymbols file s = (r, s')) :
    s'.store = s.store ∧ ∀ found, r = .ok found → found = s.store.committed.symbolsOf file := by
  change reading .findSymbols (·.committed.symbolsOf file) s = _ at h
  exact reading_spec h

theorem savepoint_spec {r : Except Fault Bool}
    (h : (backend.savepoint name).run (tx, s) = (r, tx', s')) :
    s'.store = s.store ∧ tx'.working = tx.working ∧
      (r = .ok true → s.store.rules.savepoints = true ∧
        tx'.savepoints = tx.savepoints ++ [(name, tx.working)]) := by
  change (within .savepoint fun rules tx => .ok (tx.savepoint rules name)).run (tx, s) = _ at h
  obtain ⟨hs, ⟨fault, rfl, rfl⟩ | ⟨a, rfl, hop⟩⟩ := within_spec h
  · exact ⟨hs, rfl, fun he => by cases he⟩
  · rw [Except.ok.injEq, Transaction.savepoint] at hop
    split at hop <;> cases hop
    · rename_i hsupported
      exact ⟨hs, rfl, fun _ => ⟨hsupported, rfl⟩⟩
    · exact ⟨hs, rfl, fun he => by cases he⟩

/-- Going back to the latest savepoint restores its working copy. -/
theorem rollbackTo_spec {saved : List (String × Rows)} {working : Rows}
    (h : (backend.rollbackTo name).run (tx, s) = (r, tx', s'))
    (hsaved : tx.savepoints = saved ++ [(name, working)]) :
    s'.store = s.store ∧ (r = .ok () → tx'.working = working) := by
  change (within .rollbackTo fun _ tx => unit (tx.rollbackTo name)).run (tx, s) = _ at h
  have hr : tx.rollbackTo name = .ok { working, savepoints := saved ++ [(name, working)] } := by
    simp [Transaction.rollbackTo, Transaction.upTo?, hsaved]
  obtain ⟨hs, ⟨fault, he, -⟩ | ⟨a, -, hop⟩⟩ := within_spec h
  · exact ⟨hs, fun ho => by cases he.symm.trans ho⟩
  · rw [hr] at hop
    cases hop
    exact ⟨hs, fun _ => rfl⟩

theorem commit_spec (h : backend.commit tx s = (r, s')) :
    (∃ fault, r = .error fault ∧ s'.store = s.store.abandon) ∨
      r = .ok () ∧ s'.store = s.store.commit tx := by
  change ending .commit (·.commit tx) s = _ at h
  exact ending_spec h

theorem rollback_spec (h : backend.rollback tx s = (r, s')) : s'.store = s.store.abandon := by
  change ending .rollback (·.abandon) s = _ at h
  rcases ending_spec h with ⟨-, -, hs⟩ | ⟨-, hs⟩ <;> exact hs

end FaultyStore

/-! ## What a request holds and has read -/

namespace Request

variable {τ : Type}

/-- The transaction that a request has open. -/
def open? : Request τ → Option τ
  | .file _ _ (.writing _ tx) | .file _ _ (.committing _ tx _) | .file _ _ (.undoing _ tx _)
  | .batch (.writing _ tx _ _ _ _ _) | .batch (.undoing _ tx _)
  | .batch (.committing _ tx _ _) => some tx
  | _ => none

/-- The number of transactions that a request has open. -/
def writers (r : Request τ) : Nat := r.open?.isSome.toNat

/-- The request has no write before it: they are committed, undone, or there are
    none. -/
def Over : Request τ → Prop
  | .file _ _ (.undoing _ _ _) | .file _ _ (.trimming _ _) | .file _ _ (.closing _)
  | .file _ _ (.done _) | .batch (.undoing _ _ _) | .batch (.trimming _ _ _)
  | .batch (.closing _ _) | .batch (.done _) => True
  | _ => False

end Request

/-- The stage of a preparation has read what the rows hold for the path. -/
def Stage.Reads (policy : DiffPolicy) (rows : Rows) (path content : String) : Stage → Prop
  | .fresh => True
  | .located file => rows.file? path = some file
  | .loaded prior | .submitting prior _ | .awaiting prior _ _ | .parsed prior _ _ =>
    prior = rows.prior path
  | .settled (.ok (.ready f)) => f.path = path ∧ f.content = content ∧ f.Fits policy rows
  | .settled _ => True

/-- The files have pairwise different paths, all held, and were compared with the
    rows. -/
structure Writable (policy : DiffPolicy) (rows : Rows) (held : List String)
    (files : List Prepared) : Prop where
  nodup : (files.map (·.path)).Nodup
  mem_held : ∀ f ∈ files, f.path ∈ held
  fits : ∀ f ∈ files, f.Fits policy rows

/-- The files of a batch that is being prepared have pairwise different paths, all
    held, and have read what the rows hold. -/
structure Preparing (policy : DiffPolicy) (rows : Rows) (held : List String) (slots : List Slot)
    (ready : List Prepared) : Prop where
  nodup : (slots.map (·.path) ++ ready.map (·.path)).Nodup
  mem_held : ∀ s ∈ slots, s.path ∈ held
  reads : ∀ s ∈ slots, s.stage.Reads policy rows s.path s.content
  ready : Writable policy rows held ready

/-- What a request has read is what the rows hold for its paths, and its transaction
    holds those rows with its own writes. -/
def Request.Faithful (policy : DiffPolicy) (chunker : Chunker) (rows : Rows) :
    Request Transaction → Prop
  | .file path content (.preparing stage) => stage.Reads policy rows path content
  | .file path _ (.opening f) => Writable policy rows [path] [f]
  | .file path _ (.writing f tx) => Writable policy rows [path] [f] ∧ tx.working = rows
  | .file path _ (.committing f tx _) =>
    Writable policy rows [path] [f] ∧ tx.working = replay chunker rows [f]
  | .batch (.arriving _ slots _) => ∀ s ∈ slots, s.stage = .fresh
  | .batch (.preparing held slots ready _) => Preparing policy rows held slots ready
  | .batch (.opening held ready _) => Writable policy rows held ready
  | .batch (.writing held tx todo _ _ written _) =>
    Writable policy rows held (written.map (·.1) ++ todo) ∧
      tx.working = replay chunker rows (written.map (·.1))
  | .batch (.committing held tx written _) =>
    Writable policy rows held (written.map (·.1)) ∧
      tx.working = replay chunker rows (written.map (·.1))
  | _ => True

section
variable {policy : DiffPolicy} {chunker : Chunker} {rows rows' : Rows} {held : List String}
  {files : List Prepared}

theorem Stage.Reads.congr {path content : String} {stage : Stage}
    (h : stage.Reads policy rows path content) (he : rows'.prior path = rows.prior path) :
    stage.Reads policy rows' path content := by
  match stage, h with
  | .fresh, _ => trivial
  | .located file, h =>
    have hp := congrArg Prior.previous he
    rw [rows'.prior_previous, rows.prior_previous] at hp
    exact hp.trans h
  | .loaded _, h | .submitting _ _, h | .awaiting _ _ _, h | .parsed _ _ _, h =>
    exact Eq.trans h he.symm
  | .settled (.ok (.ready f)), h => exact ⟨h.1, h.2.1, h.2.2.congr (h.1 ▸ he)⟩
  | .settled (.ok (.skipped _)), _ => trivial
  | .settled (.error _), _ => trivial

theorem Writable.congr (h : Writable policy rows held files)
    (he : ∀ p ∈ held, rows'.prior p = rows.prior p) : Writable policy rows' held files :=
  { h with fits := fun f hf => (h.fits f hf).congr (he _ (h.mem_held f hf)) }

theorem Writable.nil (policy : DiffPolicy) (rows : Rows) (held : List String) :
    Writable policy rows held [] where
  nodup := List.nodup_nil
  mem_held _ h := absurd h List.not_mem_nil
  fits _ h := absurd h List.not_mem_nil

theorem Writable.sublist {files' : List Prepared} (h : Writable policy rows held files)
    (hs : files'.Sublist files) : Writable policy rows held files' where
  nodup := (hs.map _).nodup h.nodup
  mem_held f hf := h.mem_held f (hs.subset hf)
  fits f hf := h.fits f (hs.subset hf)

section
variable {held : List String} {before after : List Slot} {slot : Slot} {ready : List Prepared}

theorem Preparing.drop (h : Preparing policy rows held (before ++ slot :: after) ready) :
    Preparing policy rows held (before ++ after) ready := by
  have hs : (before ++ after).Sublist (before ++ slot :: after) :=
    List.Sublist.append_left (List.sublist_cons_self _ _) _
  exact {
    nodup := ((hs.map _).append_right _).nodup h.nodup
    mem_held := fun s hm => h.mem_held s (hs.subset hm)
    reads := fun s hm => h.reads s (hs.subset hm)
    ready := h.ready }

theorem Preparing.advance (h : Preparing policy rows held (before ++ slot :: after) ready)
    {stage : Stage} (hr : stage.Reads policy rows slot.path slot.content) :
    Preparing policy rows held (before ++ { slot with stage } :: after) ready where
  nodup := by simpa using h.nodup
  mem_held s hs := by
    rcases List.mem_append.1 hs with hs | hs
    · exact h.mem_held s (List.mem_append_left _ hs)
    rcases List.mem_cons.1 hs with rfl | hs
    · exact h.mem_held slot (List.mem_append_right _ List.mem_cons_self)
    · exact h.mem_held s (List.mem_append_right _ (List.mem_cons_of_mem _ hs))
  reads s hs := by
    rcases List.mem_append.1 hs with hs | hs
    · exact h.reads s (List.mem_append_left _ hs)
    rcases List.mem_cons.1 hs with rfl | hs
    · exact hr
    · exact h.reads s (List.mem_append_right _ (List.mem_cons_of_mem _ hs))
  ready := h.ready

theorem Preparing.settle (h : Preparing policy rows held (before ++ slot :: after) ready)
    {f : Prepared} (hp : f.path = slot.path) (hf : f.Fits policy rows) :
    Preparing policy rows held (before ++ after) (ready ++ [f]) := by
  have hnodup : ((before ++ after).map (·.path) ++ (ready ++ [f]).map (·.path)).Nodup := by
    refine (List.Perm.nodup_iff ?_).1 h.nodup
    simp only [List.map_append, List.map_cons, List.map_nil, hp, List.append_assoc]
    refine List.Perm.append_left _ ?_
    rw [← List.append_assoc, List.cons_append]
    exact (List.perm_append_singleton _ _).symm
  refine { h.drop with nodup := hnodup, ready := ⟨(List.nodup_append.1 hnodup).2.1, ?_, ?_⟩ }
  · intro g hg
    rcases List.mem_append.1 hg with hg | hg
    · exact h.ready.mem_held g hg
    · rw [List.mem_singleton.1 hg, hp]
      exact h.mem_held slot (List.mem_append_right _ List.mem_cons_self)
  · intro g hg
    rcases List.mem_append.1 hg with hg | hg
    · exact h.ready.fits g hg
    · rw [List.mem_singleton.1 hg]
      exact hf

end

/-- A request without a transaction stays faithful as long as its paths do not
    change. -/
theorem Request.Faithful.congr {r : Request Transaction} (h : r.Faithful policy chunker rows)
    (hno : r.open? = none) (he : ∀ p ∈ r.held, rows'.prior p = rows.prior p) :
    r.Faithful policy chunker rows' := by
  cases r with
  | file path content phase =>
    cases phase with
    | preparing stage => exact Stage.Reads.congr h (he _ List.mem_cons_self)
    | opening f => exact Writable.congr h he
    | writing | committing => cases hno
    | _ => trivial
  | batch phase =>
    cases phase with
    | arriving => exact h
    | preparing =>
      exact { h with
        reads := fun s hs => (h.reads s hs).congr (he _ (h.mem_held s hs))
        ready := h.ready.congr he }
    | opening => exact Writable.congr h he
    | writing | committing => cases hno
    | _ => trivial

end

/-! ## Preparing a file -/

namespace Coordinator

/-- Besides the setup, the leases and, faults apart, the store are the same. -/
structure Quiet (c c' : MemoryCoordinator) : Prop extends Alike c c' where
  leases : c'.leases = c.leases
  store : c'.store.store = c.store.store

variable {c c' : MemoryCoordinator} {path content : String} {r r' : Request Transaction}
  {tx : Transaction} {leases held others : List String} {savepoints marked : Bool} {index : Nat}

/-- A step in preparing a file reads from the store what it holds. -/
theorem StageStep.reads (hb : c.backend = FaultyStore.backend) {stage stage' : Stage}
    (h : StageStep c path content stage stage' c')
    (hr : stage.Reads c.settings.incremental c.rows path content) :
    Quiet c c' ∧ stage'.Reads c.settings.incremental c.rows path content := by
  have hquiet : ∀ {store : FaultyStore}, store.store = c.store.store →
      Quiet c { c with store } := fun hs => ⟨⟨rfl, rfl, rfl, rfl, rfl⟩, rfl, hs⟩
  cases h with
  | unreadFile hf =>
    rw [hb] at hf
    exact ⟨hquiet (FaultyStore.findFile_spec hf).1, trivial⟩
  | absent hf =>
    rw [hb] at hf
    obtain ⟨hs, hread⟩ := FaultyStore.findFile_spec hf
    refine ⟨hquiet hs, ?_⟩
    change _ = c.rows.prior path
    rw [Rows.prior, ← hread _ rfl]
  | located hf =>
    rw [hb] at hf
    obtain ⟨hs, hread⟩ := FaultyStore.findFile_spec hf
    exact ⟨hquiet hs, (hread _ rfl).symm⟩
  | unreadSymbols hf =>
    rw [hb] at hf
    exact ⟨hquiet (FaultyStore.findSymbols_spec hf).1, trivial⟩
  | @loaded file symbols store hf =>
    rw [hb] at hf
    obtain ⟨hs, hread⟩ := FaultyStore.findSymbols_spec hf
    refine ⟨hquiet hs, ?_⟩
    change _ = c.rows.prior path
    change c.rows.file? path = some file at hr
    rw [Rows.prior, hr, hread _ rfl]
  | unchanged | refused | gaveUp => exact ⟨⟨⟨rfl, rfl, rfl, rfl, rfl⟩, rfl, rfl⟩, trivial⟩
  | uncached | submitted | parsed | retried => exact ⟨⟨⟨rfl, rfl, rfl, rfl, rfl⟩, rfl, rfl⟩, hr⟩
  | @cached prior | @stored prior =>
    obtain rfl : prior = c.rows.prior path := hr
    exact ⟨⟨⟨rfl, rfl, rfl, rfl, rfl⟩, rfl, rfl⟩, rfl, rfl, rfl, rfl, rfl, rfl⟩

/-! ## Moves -/

/-- What a step of a request does: to the leases and the right to write, whatever
    the other requests hold, and to the committed rows, which change by the files of the
    commit that it makes. -/
structure Move (c : MemoryCoordinator) (r : Request Transaction) (commit : Option (List Prepared))
    (c' : MemoryCoordinator) (r' : Request Transaction) : Prop extends Alike c c' where
  leases : ∀ {others}, c.leases.Nodup → c.leases.Perm (r.held ++ others) →
    c'.leases.Nodup ∧ c'.leases.Perm (r'.held ++ others)
  busy : ∀ {n}, r.writers + n = c.store.store.busy.toNat →
    r'.writers + n = c'.store.store.busy.toNat
  rules : c'.store.store.rules = c.store.store.rules
  commits : c'.store.store.commits = c.store.store.commits + commit.toList.length
  rows_eq : c'.rows = replay c.chunker c.rows (commit.getD [])
  writable : Writable c.settings.incremental c.rows r.held (commit.getD [])
  faithful : r'.Faithful c.settings.incremental c.chunker c'.rows
  /-- only a request with a transaction commits, and that is its last write -/
  progress : commit.isSome → r.open?.isSome ∧ r'.Over
  keeps : r'.Over ∨ ¬r.Over ∧ ∀ p ∈ r.held, p ∈ r'.held

theorem Quiet.move (h : Quiet c c') (hheld : r'.held = r.held) (hopen : r'.writers = r.writers)
    (hf : r'.Faithful c.settings.incremental c.chunker c.rows) (ho : r'.Over ∨ ¬r.Over) :
    Move c r none c' r' where
  toAlike := h.toAlike
  leases hn hp := by rw [h.leases, hheld]; exact ⟨hn, hp⟩
  busy hn := by rw [hopen, h.store]; exact hn
  rules := congrArg Store.rules h.store
  commits := congrArg Store.commits h.store
  rows_eq := congrArg Store.committed h.store
  writable := Writable.nil _ _ _
  faithful := by
    rw [Coordinator.rows, h.store]
    exact hf
  progress h := by cases h
  keeps := ho.imp_right fun ho => ⟨ho, fun p hp => hheld ▸ hp⟩

/-- A lease more, beside those that others hold. -/
theorem perm_lease (h : leases.Perm (held ++ others)) :
    (leases ++ [path]).Perm (held ++ [path] ++ others) := by
  rw [List.append_assoc]
  exact (h.append_right [path]).trans (by
    rw [List.append_assoc]
    exact List.perm_append_comm.append_left held)

/-- What is left without the leases `held` are those that others hold. -/
theorem perm_release (hn : leases.Nodup) (h : leases.Perm (held ++ others)) :
    (leases.filter fun p => !held.contains p).Perm others := by
  have hd := h.nodup_iff.1 hn
  rw [List.nodup_append] at hd
  refine (h.filter _).trans ?_
  rw [List.filter_append]
  have h₁ : held.filter (fun p => !held.contains p) = [] :=
    List.filter_eq_nil_iff.2 fun p hp => by simp [hp]
  have h₂ : others.filter (fun p => !held.contains p) = others :=
    List.filter_eq_self.2 fun p hp => by
      simpa using fun hp' => hd.2.2 p hp' p hp rfl
  rw [h₁, h₂, List.nil_append]

theorem Move.lease (hfree : path ∉ c.leases) (hheld : r'.held = r.held ++ [path])
    (hopen : r'.writers = r.writers) (hf : r'.Faithful c.settings.incremental c.chunker c.rows)
    (ho : ¬r.Over) : Move c r none { c with leases := c.leases ++ [path] } r' where
  toAlike := ⟨rfl, rfl, rfl, rfl, rfl⟩
  leases hn hp := by
    rw [hheld]
    exact ⟨List.nodup_append_comm.1 (List.nodup_cons.2 ⟨hfree, hn⟩), perm_lease hp⟩
  busy hn := by rw [hopen]; exact hn
  rules := rfl
  commits := rfl
  rows_eq := rfl
  writable := Writable.nil _ _ _
  faithful := hf
  progress h := by cases h
  keeps := Or.inr ⟨ho, fun p hp => hheld ▸ List.mem_append_left _ hp⟩

theorem Move.release (tallies : Tallies) (hheld : r'.held = []) (hopen : r'.writers = r.writers)
    (hf : r'.Faithful c.settings.incremental c.chunker c.rows) (ho : r'.Over) :
    Move c r none { c.release r.held with tallies } r' where
  toAlike := ⟨rfl, rfl, rfl, rfl, rfl⟩
  leases {others} hn hp := by
    rw [hheld]
    exact ⟨hn.filter _, perm_release hn hp⟩
  busy hn := by rw [hopen]; exact hn
  rules := rfl
  commits := rfl
  rows_eq := rfl
  writable := Writable.nil _ _ _
  faithful := hf
  progress h := by cases h
  keeps := Or.inl ho

theorem Move.opened (h : Alike c c') (hleases : c'.leases = c.leases)
    (hfree : c.store.store.busy = false)
    (hstore : c'.store.store = { c.store.store with busy := true }) (hheld : r'.held = r.held)
    (hopen : r.writers = 0 ∧ r'.writers = 1)
    (hf : r'.Faithful c.settings.incremental c.chunker c.rows) (ho : ¬r.Over) :
    Move c r none c' r' where
  toAlike := h
  leases hn hp := by rw [hleases, hheld]; exact ⟨hn, hp⟩
  busy {n} hn := by
    rw [hfree, hopen.1, Nat.zero_add] at hn
    rw [hstore, hopen.2, hn]
    rfl
  rules := by rw [hstore]
  commits := by rw [hstore]; rfl
  rows_eq := by rw [Coordinator.rows, hstore]; rfl
  writable := Writable.nil _ _ _
  faithful := by
    rw [Coordinator.rows, hstore]
    exact hf
  progress h := by cases h
  keeps := Or.inr ⟨ho, fun p hp => hheld ▸ hp⟩

/-- The right to write is free once its only holder ends its transaction. -/
theorem busy_ended (hopen : r.open?.isSome) (hopen' : r'.open? = none) {busy : Bool} {n : Nat}
    (hn : r.writers + n = busy.toNat) : r'.writers + n = 0 := by
  have hle := Bool.toNat_le busy
  rw [Request.writers, hopen, Bool.toNat_true] at hn
  rw [Request.writers, hopen', Option.isSome_none, Bool.toNat_false]
  omega

theorem Move.abandoned (h : Alike c c') (hleases : c'.leases = c.leases)
    (hstore : c'.store.store = c.store.store.abandon) (hheld : r'.held = r.held)
    (hopen : r.open?.isSome) (hopen' : r'.open? = none)
    (hf : r'.Faithful c.settings.incremental c.chunker c.rows) (ho : r'.Over) :
    Move c r none c' r' where
  toAlike := h
  leases hn hp := by rw [hleases, hheld]; exact ⟨hn, hp⟩
  busy hn := by rw [hstore]; exact busy_ended hopen hopen' hn
  rules := by rw [hstore]; rfl
  commits := by rw [hstore]; rfl
  rows_eq := by rw [Coordinator.rows, hstore]; rfl
  writable := Writable.nil _ _ _
  faithful := by
    rw [Coordinator.rows, hstore]
    exact hf
  progress h := by cases h
  keeps := Or.inl ho

theorem Move.committed {files : List Prepared} (h : Alike c c') (hleases : c'.leases = c.leases)
    (hstore : c'.store.store = c.store.store.commit tx)
    (hw : Writable c.settings.incremental c.rows r.held files)
    (hrows : tx.working = replay c.chunker c.rows files) (hheld : r'.held = r.held)
    (hopen : r.open?.isSome) (hopen' : r'.open? = none)
    (hf : r'.Faithful c.settings.incremental c.chunker c'.rows) (ho : r'.Over) :
    Move c r (some files) c' r' where
  toAlike := h
  leases hn hp := by rw [hleases, hheld]; exact ⟨hn, hp⟩
  busy hn := by rw [hstore]; exact busy_ended hopen hopen' hn
  rules := by rw [hstore]; rfl
  commits := by rw [hstore]; rfl
  rows_eq := by
    rw [Coordinator.rows, hstore]
    exact hrows
  writable := hw
  faithful := hf
  progress _ := ⟨hopen, ho⟩
  keeps := Or.inl ho

/-! ## Steps for one file -/

theorem writable_singleton {policy : DiffPolicy} {rows : Rows} {f : Prepared} (hp : f.path = path)
    (hf : f.Fits policy rows) : Writable policy rows [path] [f] where
  nodup := List.nodup_singleton _
  mem_held g hg := by rw [List.mem_singleton.1 hg, hp]; exact List.mem_cons_self
  fits g hg := by rw [List.mem_singleton.1 hg]; exact hf

theorem Quiet.refl (c : MemoryCoordinator) : Quiet c c := ⟨⟨rfl, rfl, rfl, rfl, rfl⟩, rfl, rfl⟩

theorem FileStep.move (hb : c.backend = FaultyStore.backend) {phase phase' : FilePhase Transaction}
    (h : FileStep c path content phase phase' c')
    (hf : (Request.file path content phase).Faithful c.settings.incremental c.chunker c.rows) :
    Move c (.file path content phase) (c.commitOf? (.file path content phase)) c'
      (.file path content phase') := by
  cases h with
  | refused | failed | skipped => exact (Quiet.refl c).move rfl rfl trivial (Or.inl trivial)
  | leased hfree => exact Move.lease hfree rfl rfl trivial id
  | prepared hs =>
    obtain ⟨hq, hr⟩ := hs.reads hb hf
    exact hq.move rfl rfl hr (Or.inr id)
  | ready =>
    exact (Quiet.refl c).move rfl rfl (writable_singleton hf.1 hf.2.2) (Or.inr id)
  | unopened hfree ho =>
    rw [hb] at ho
    rcases FaultyStore.opening_spec ho with ⟨fault, -, hs⟩ | ⟨he, -⟩
    · exact Quiet.move ⟨⟨rfl, rfl, rfl, rfl, rfl⟩, rfl, hs⟩ rfl rfl trivial (Or.inl trivial)
    · cases he
  | opened hfree ho =>
    rw [hb] at ho hfree
    rcases FaultyStore.opening_spec ho with ⟨fault, he, -⟩ | ⟨he, hs⟩
    · cases he
    · cases he
      refine Move.opened ⟨rfl, rfl, rfl, rfl, rfl⟩ rfl ?_ hs rfl ⟨rfl, rfl⟩ ⟨hf, rfl⟩ id
      simpa [FaultyStore.backend] using hfree
  | @unwritten file _ _ _ _ hw =>
    rw [hb] at hw
    obtain ⟨-, hs, -⟩ := (file.carries_write c.chunker).run_spec hw
    exact Quiet.move ⟨⟨rfl, rfl, rfl, rfl, rfl⟩, rfl, hs⟩ rfl rfl trivial (Or.inl trivial)
  | @wrote file _ _ _ _ hw =>
    rw [hb] at hw
    obtain ⟨-, hs, hworking⟩ := (file.carries_write c.chunker).run_spec hw
    refine Quiet.move ⟨⟨rfl, rfl, rfl, rfl, rfl⟩, rfl, hs⟩ rfl rfl ⟨hf.1, ?_⟩ (Or.inr id)
    have := congrArg Prod.snd (hworking _ rfl)
    rwa [hf.2] at this
  | uncommitted hc =>
    rw [commitOf?, hc]
    rw [hb] at hc
    rcases FaultyStore.commit_spec hc with ⟨fault, -, hs⟩ | ⟨he, -⟩
    · exact Move.abandoned ⟨rfl, rfl, rfl, rfl, rfl⟩ rfl hs rfl rfl rfl trivial trivial
    · cases he
  | committed hc =>
    rw [commitOf?, hc]
    rw [hb] at hc
    rcases FaultyStore.commit_spec hc with ⟨fault, he, -⟩ | ⟨-, hs⟩
    · cases he
    · exact Move.committed ⟨rfl, rfl, rfl, rfl, rfl⟩ rfl hs hf.1 hf.2 rfl rfl rfl trivial trivial
  | undone hc =>
    rw [hb] at hc
    exact Move.abandoned ⟨rfl, rfl, rfl, rfl, rfl⟩ rfl (FaultyStore.rollback_spec hc) rfl rfl rfl
      trivial trivial
  | trimmed =>
    exact Quiet.move ⟨⟨rfl, rfl, rfl, rfl, rfl⟩, rfl, rfl⟩ rfl rfl trivial (Or.inl trivial)
  | closed => exact Move.release _ rfl rfl trivial trivial

/-! ## Steps for a batch -/

theorem markFile_spec (hb : c.backend = FaultyStore.backend) {tx' : Transaction}
    {s s' : FaultyStore} (h : c.markFile savepoints index (tx, s) = (marked, tx', s')) :
    s'.store = s.store ∧ tx'.working = tx.working ∧
      (marked = true → s.store.rules.savepoints = true ∧
        tx'.savepoints = tx.savepoints ++ [(savepointName index, tx.working)]) := by
  unfold markFile at h
  split at h
  · rw [hb] at h
    split at h
    · rename_i supported state hm
      cases h
      obtain ⟨hs, hw, hsaved⟩ := FaultyStore.savepoint_spec hm
      exact ⟨hs, hw, fun he => hsaved (he ▸ rfl)⟩
    · rename_i fault state hm
      cases h
      obtain ⟨hs, hw, -⟩ := FaultyStore.savepoint_spec hm
      exact ⟨hs, hw, fun he => by cases he⟩
  · cases h
    exact ⟨rfl, rfl, fun he => by cases he⟩

/-- A write behind a savepoint, if there is one: the store stays, faults apart, and the
    working copy changes as the write says. -/
theorem markFile_write_spec (hb : c.backend = FaultyStore.backend) {file : Prepared}
    {state₁ state₂ : Transaction × FaultyStore} {outcome : Except Fault Nat}
    (hm : c.markFile savepoints index (tx, c.store) = (marked, state₁))
    (hw : (file.write c.backend c.chunker).run state₁ = (outcome, state₂)) :
    state₂.2.store = c.store.store ∧
      (∀ chunks, outcome = .ok chunks →
        (chunks, state₂.1.working) = file.written c.chunker tx.working) ∧
      (marked = true →
        state₂.1.savepoints = tx.savepoints ++ [(savepointName index, tx.working)]) := by
  obtain ⟨tx₁, s₁⟩ := state₁
  obtain ⟨tx₂, s₂⟩ := state₂
  rw [hb] at hw
  obtain ⟨hs₁, hw₁, hsaved₁⟩ := markFile_spec hb hm
  obtain ⟨hsaved₂, hs₂, hw₂⟩ := (file.carries_write c.chunker).run_spec hw
  exact ⟨hs₂.trans hs₁, fun chunks he => hw₁ ▸ hw₂ chunks he,
    fun he => hsaved₂.trans (hsaved₁ he).2⟩

theorem quiet_trims (written : List (Prepared × Nat)) (c : MemoryCoordinator) :
    Quiet c (written.foldl (fun c w => c.trim w.1) c) := by
  induction written generalizing c with
  | nil => exact .refl c
  | cons w written ih =>
    have h := ih (c.trim w.1)
    exact ⟨⟨h.backend, h.settings, h.chunker, h.requests, h.lastRequest⟩, h.leases, h.store⟩

/-- A step of a request for a batch.  While files are written, the working copy holds
    those written so far, also after a failed write was taken back. -/
theorem BatchStep.move (hb : c.backend = FaultyStore.backend)
    {phase phase' : BatchPhase Transaction} (h : BatchStep c phase phase' c')
    (hf : (Request.batch phase).Faithful c.settings.incremental c.chunker c.rows)
    (hn : (Request.batch phase).held.Nodup) :
    Move c (.batch phase) (c.commitOf? (.batch phase)) c' (.batch phase') := by
  have hquiet : ∀ {store : FaultyStore}, store.store = c.store.store →
      Quiet c { c with store } := fun hs => ⟨⟨rfl, rfl, rfl, rfl, rfl⟩, rfl, hs⟩
  have hq := Quiet.refl c
  cases h with
  | arrived =>
    refine hq.move rfl rfl ⟨?_, fun s hs => List.mem_map_of_mem hs, fun s hs => ?_,
      Writable.nil _ _ _⟩ (Or.inr id)
    · rw [List.map_nil, List.append_nil]
      exact hn
    · rw [hf s hs]
      trivial
  | refused => exact hq.move rfl rfl hf (Or.inr id)
  | leased hfree =>
    refine Move.lease hfree (by simp [Request.held]) rfl (fun s hs => ?_) id
    rcases List.mem_append.1 hs with hs | hs
    · exact hf s hs
    · rw [List.mem_singleton.1 hs]
  | nothing => exact hq.move rfl rfl trivial (Or.inl trivial)
  | gathered => exact hq.move rfl rfl hf.ready (Or.inr id)
  | @prepared _ _ _ slot _ _ _ _ hs =>
    obtain ⟨hq, hr⟩ := hs.reads hb (hf.reads slot (List.mem_append_right _ List.mem_cons_self))
    exact hq.move rfl rfl (hf.advance hr) (Or.inr id)
  | failed | skipped => exact hq.move rfl rfl hf.drop (Or.inr id)
  | @ready _ _ _ slot _ _ _ hs =>
    have hread := hf.reads slot (List.mem_append_right _ List.mem_cons_self)
    rw [hs] at hread
    exact hq.move rfl rfl (hf.settle hread.1 hread.2.2) (Or.inr id)
  | unopened hfree ho =>
    rw [hb] at ho
    rcases FaultyStore.opening_spec ho with ⟨fault, -, hs⟩ | ⟨he, -⟩
    · exact (hquiet hs).move rfl rfl trivial (Or.inl trivial)
    · cases he
  | opened hfree ho =>
    rw [hb] at ho hfree
    rcases FaultyStore.opening_spec ho with ⟨fault, he, -⟩ | ⟨he, hs⟩
    · cases he
    · cases he
      refine Move.opened ⟨rfl, rfl, rfl, rfl, rfl⟩ rfl ?_ hs rfl ⟨rfl, rfl⟩ ⟨hf, rfl⟩ id
      simpa [FaultyStore.backend] using hfree
  | wroteAll => exact hq.move rfl rfl ⟨by simpa using hf.1, hf.2⟩ (Or.inr id)
  | wrote hm hw =>
    obtain ⟨hs, hworking, -⟩ := markFile_write_spec hb hm hw
    refine (hquiet hs).move rfl rfl ⟨by simpa using hf.1, ?_⟩ (Or.inr id)
    rw [List.map_append, replay_append, ← hf.2]
    exact congrArg Prod.snd (hworking _ rfl)
  | @tookBack _ _ _ _ _ _ _ _ _ state₂ state₃ _ hm hw hr =>
    obtain ⟨hs, -, hsaved⟩ := markFile_write_spec hb hm hw
    obtain ⟨tx₂, s₂⟩ := state₂
    obtain ⟨tx₃, s₃⟩ := state₃
    rw [hb] at hr
    obtain ⟨hs₃, hw₃⟩ := FaultyStore.rollbackTo_spec hr (hsaved rfl)
    refine (hquiet (hs₃.trans hs)).move rfl rfl ⟨?_, (hw₃ rfl).trans hf.2⟩ (Or.inr id)
    exact hf.1.sublist (List.Sublist.append_left (List.sublist_cons_self _ _) _)
  | @gaveUp _ _ _ _ _ _ _ _ _ _ state₂ state₃ _ hm hw hr =>
    obtain ⟨hs, -, hsaved⟩ := markFile_write_spec hb hm hw
    have hs₃ : state₃.2.store = c.store.store := by
      rcases hr with ⟨-, rfl⟩ | ⟨hmarked, cause, hr⟩
      · exact hs
      · obtain ⟨tx₂, s₂⟩ := state₂
        obtain ⟨tx₃, s₃⟩ := state₃
        rw [hb] at hr
        exact (FaultyStore.rollbackTo_spec hr (hsaved hmarked)).1.trans hs
    exact (hquiet hs₃).move rfl rfl trivial (Or.inl trivial)
  | undone hc =>
    rw [hb] at hc
    exact Move.abandoned ⟨rfl, rfl, rfl, rfl, rfl⟩ rfl (FaultyStore.rollback_spec hc) rfl rfl rfl
      trivial trivial
  | uncommitted hc =>
    rw [commitOf?, hc]
    rw [hb] at hc
    rcases FaultyStore.commit_spec hc with ⟨fault, -, hs⟩ | ⟨he, -⟩
    · exact Move.abandoned ⟨rfl, rfl, rfl, rfl, rfl⟩ rfl hs rfl rfl rfl trivial trivial
    · cases he
  | committed hc =>
    rw [commitOf?, hc]
    rw [hb] at hc
    rcases FaultyStore.commit_spec hc with ⟨fault, he, -⟩ | ⟨-, hs⟩
    · cases he
    · exact Move.committed ⟨rfl, rfl, rfl, rfl, rfl⟩ rfl hs hf.1 hf.2 rfl rfl rfl trivial trivial
  | @trimmed _ written => exact (quiet_trims written c).move rfl rfl trivial (Or.inl trivial)
  | closed => exact Move.release _ rfl rfl trivial trivial

end Coordinator

end SourceIndex
