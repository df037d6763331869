/-
  Requests over a store without faults.

  * `findFile_faultless` and others: what the calls of the store answer then;
  * `write_faultless`: a file is written just if its path can be;
  * `Coordinator.Faultless`: the store has no faults, and rejects the paths that it did
    before;
  * `Orderly.undergo_faultless`: as long as nobody disturbs the store it stays so.
-/
import SourceIndex.Proofs.Orderly

namespace SourceIndex

variable {f : Prepared} {policy : DiffPolicy}

/-! ## The calls of the store -/

namespace FaultyStore

section
variable {s : FaultyStore} (h : s.faults = []) {α : Type} {tx : Transaction}
include h

theorem findFile_faultless (path : String) :
    backend.findFile path s = (.ok (s.store.committed.file? path), s) := by
  simp only [backend, reading, trip_of_no_faults h]

theorem findSymbols_faultless (file : FileId) :
    backend.findSymbols file s = (.ok (s.store.committed.symbolsOf file), s) := by
  simp only [backend, reading, trip_of_no_faults h]

theorem openTransaction_faultless :
    backend.openTransaction s =
      (.ok { working := s.store.committed },
        { s with store := { s.store with busy := true } }) := by
  simp only [backend, opening, trip_of_no_faults h]
  rfl

theorem commit_faultless (tx : Transaction) :
    backend.commit tx s = (.ok (), { s with store := s.store.commit tx }) := by
  simp only [backend, ending, trip_of_no_faults h]

theorem rollback_faultless (tx : Transaction) :
    backend.rollback tx s = (.ok (), { s with store := s.store.abandon }) := by
  simp only [backend, ending, trip_of_no_faults h]

theorem within_of_ok (call : StoreCall)
    {op : WriteRules → Transaction → Except Fault (α × Transaction)} {tx' : Transaction} {a : α}
    (ho : op s.store.rules tx = .ok (a, tx')) : (within call op).run (tx, s) = (.ok a, tx', s) := by
  simp only [within, ExceptT.run, trip_of_no_faults h, ho]

theorem snd_within (call : StoreCall)
    (op : WriteRules → Transaction → Except Fault (α × Transaction)) (tx : Transaction) :
    ((within call op).run (tx, s)).2.2 = s := by
  simp only [within, ExceptT.run, trip_of_no_faults h]
  cases op s.store.rules tx <;> rfl

theorem savepoint_faultless (name : String) (tx : Transaction) :
    (backend.savepoint name).run (tx, s) =
      (.ok s.store.rules.savepoints, (tx.savepoint s.store.rules name).2, s) := by
  change (within .savepoint fun rules tx => .ok (tx.savepoint rules name)).run (tx, s) = _
  refine within_of_ok h .savepoint ?_
  cases hs : s.store.rules.savepoints <;> simp [Transaction.savepoint, hs]

theorem rollbackTo_faultless {name : String} {saved : List (String × Rows)} {working : Rows}
    (hsaved : tx.savepoints = saved ++ [(name, working)]) :
    (backend.rollbackTo name).run (tx, s) = (.ok (), { tx with working }, s) := by
  change (within .rollbackTo fun _ tx => unit (tx.rollbackTo name)).run (tx, s) = _
  refine within_of_ok h .rollbackTo ?_
  simp [Transaction.rollbackTo, Transaction.upTo?, hsaved, unit, Except.map]

theorem snd_rollbackTo_faultless (name : String) (tx : Transaction) :
    ((backend.rollbackTo name).run (tx, s)).2.2 = s :=
  snd_within h .rollbackTo (fun _ tx => unit (tx.rollbackTo name)) tx

end

end FaultyStore

/-- **A file is written just if its path can be.** -/
theorem Prepared.write_faultless {chunker : Chunker} {tx tx' : Transaction} {s s' : FaultyStore}
    {r : Except Fault Nat} (hs : s.faults = [])
    (h : (f.write FaultyStore.backend chunker).run (tx, s) = (r, tx', s'))
    (hw : tx.working.WellFormed) (hf : f.Fits policy tx.working) :
    s' = s ∧ (f.path ∉ s.store.rules.rejected ∧ r = .ok (f.written chunker {}).1 ∨
      f.path ∈ s.store.rules.rejected ∧ ∃ fault, r = .error fault) := by
  have hstore := (f.carries_write chunker).faultless tx hs
  rw [h] at hstore
  refine ⟨hstore, ?_⟩
  by_cases hr : f.path ∈ s.store.rules.rejected
  · cases r with
    | error fault => exact Or.inr ⟨hr, fault, rfl⟩
    | ok chunks => exact (f.notMem_rejected_of_write chunker h hr).elim
  · have hok := @Carries.succeeds _ _ _ _ (f.carries_write chunker) tx s hs
      ⟨hw, hr, fun previous hp => hf.file?_eq.trans hp⟩
    rw [h] at hok
    refine Or.inl ⟨hr, ?_⟩
    rw [f.written_fst chunker {} tx.working]
    exact congrArg Prod.fst hok

/-- Files that can all be written one after another: what one of them was compared with
    is there when its turn comes. -/
theorem Writable.fits_replay {rows : Rows} {held : List String} {before after : List Prepared}
    (chunker : Chunker) (h : Writable policy rows held (before ++ f :: after)) (hs : rows.Sound) :
    (replay chunker rows before).Sound ∧ f.Fits policy (replay chunker rows before) := by
  obtain ⟨hbefore, hf, -⟩ := coherent_append.1 (coherent_of_fits chunker hs h.fits h.nodup)
  exact ⟨hbefore.sound hs, hf⟩

/-- Does the store have no faults after it?  What the store rejects may change. -/
def Happening.faultless : Happening → Bool
  | .disturb _ faults => faults.isEmpty
  | .act _ => true

namespace Coordinator

variable {c c' : MemoryCoordinator} {path content : String}

/-! ## Steps of requests -/

theorem markFile_faultless (hb : c.backend = FaultyStore.backend) {s : FaultyStore}
    (h : s.faults = []) (savepoints : Bool) (index : Nat) (tx : Transaction) :
    (c.markFile savepoints index (tx, s)).2.2 = s := by
  unfold markFile
  split
  · rw [hb, FaultyStore.savepoint_faultless h]
  · rfl

theorem store_trims (written : List (Prepared × Nat)) (c : MemoryCoordinator) :
    (written.foldl (fun c w => c.trim w.1) c).store = c.store := by
  induction written generalizing c with
  | nil => rfl
  | cons w written ih => exact ih (c.trim w.1)

section
variable (hb : c.backend = FaultyStore.backend) (hf : c.store.faults = [])
include hb hf

theorem StageStep.faultless {stage stage' : Stage} (h : StageStep c path content stage stage' c') :
    c'.store.faults = [] := by
  cases h with
  | unreadFile h | absent h | located h =>
    rw [hb, FaultyStore.findFile_faultless hf] at h
    exact congrArg (·.2.faults) h ▸ hf
  | unreadSymbols h | loaded h =>
    rw [hb, FaultyStore.findSymbols_faultless hf] at h
    exact congrArg (·.2.faults) h ▸ hf
  | _ => exact hf

theorem FileStep.faultless {phase phase' : FilePhase Transaction}
    (h : FileStep c path content phase phase' c') : c'.store.faults = [] := by
  cases h with
  | prepared h => exact h.faultless hb hf
  | unopened _ h | opened _ h =>
    rw [hb, FaultyStore.openTransaction_faultless hf] at h
    exact congrArg (·.2.faults) h ▸ hf
  | @unwritten file tx _ _ _ h | @wrote file tx _ _ _ h =>
    have hs := (file.carries_write c.chunker).faultless tx hf
    rw [hb] at h
    rw [h] at hs
    exact (congrArg FaultyStore.faults hs).trans hf
  | uncommitted h | committed h =>
    rw [hb, FaultyStore.commit_faultless hf] at h
    exact congrArg (·.2.faults) h ▸ hf
  | undone h =>
    rw [hb, FaultyStore.rollback_faultless hf] at h
    exact congrArg (·.2.faults) h ▸ hf
  | _ => exact hf

theorem BatchStep.faultless {phase phase' : BatchPhase Transaction}
    (h : BatchStep c phase phase' c') : c'.store.faults = [] := by
  have hwrite : ∀ {savepoints index marked tx file outcome state₁ state₂},
      c.markFile savepoints index (tx, c.store) = (marked, state₁) →
      (Prepared.write c.backend c.chunker file).run state₁ = (outcome, state₂) →
      state₂.2 = c.store := by
    rintro savepoints index marked tx file outcome ⟨tx₁, s₁⟩ ⟨tx₂, s₂⟩ hm hw
    obtain rfl : s₁ = c.store := by
      rw [← markFile_faultless hb hf savepoints index tx, hm]
    have hs := (file.carries_write c.chunker).faultless tx₁ hf
    rw [hb] at hw
    rwa [hw] at hs
  have hback : ∀ {name outcome state₂ state₃}, state₂.2 = c.store →
      (c.backend.rollbackTo name).run state₂ = (outcome, state₃) → state₃.2 = c.store := by
    rintro name outcome ⟨tx₂, s₂⟩ ⟨tx₃, s₃⟩ rfl hr
    have hs := FaultyStore.snd_rollbackTo_faultless hf name tx₂
    rw [hb] at hr
    rwa [hr] at hs
  cases h with
  | prepared h => exact h.faultless hb hf
  | unopened _ h | opened _ h =>
    rw [hb, FaultyStore.openTransaction_faultless hf] at h
    exact congrArg (·.2.faults) h ▸ hf
  | wrote hm hw => exact (congrArg FaultyStore.faults (hwrite hm hw)).trans hf
  | tookBack hm hw hr => exact (congrArg FaultyStore.faults (hback (hwrite hm hw) hr)).trans hf
  | gaveUp hm hw hr =>
    rcases hr with ⟨-, rfl⟩ | ⟨-, cause, hr⟩
    · exact (congrArg FaultyStore.faults (hwrite hm hw)).trans hf
    · exact (congrArg FaultyStore.faults (hback (hwrite hm hw) hr)).trans hf
  | uncommitted h | committed h =>
    rw [hb, FaultyStore.commit_faultless hf] at h
    exact congrArg (·.2.faults) h ▸ hf
  | undone h =>
    rw [hb, FaultyStore.rollback_faultless hf] at h
    exact congrArg (·.2.faults) h ▸ hf
  | @trimmed _ written => exact (congrArg FaultyStore.faults (store_trims written c)).trans hf
  | _ => exact hf

end

/-! ## Writes -/

section
variable (hb : c.backend = FaultyStore.backend) (hfaults : c.store.faults = []) {file : Prepared}
  {tx : Transaction}
include hb hfaults

theorem FileStep.write_faultless {phase' : FilePhase Transaction} (hs : c.rows.Sound)
    (hf : (Request.file path content (.writing file tx)).Faithful c.settings.incremental c.chunker
      c.rows) (h : FileStep c path content (.writing file tx) phase' c') :
    file.path ∉ c.store.store.rules.rejected ∧
        (∃ tx', phase' = .committing file tx' (file.written c.chunker {}).1) ∨
      file.path ∈ c.store.store.rules.rejected ∧ ∃ tx' fault, phase' = .undoing file tx' fault := by
  obtain ⟨hw, hworking⟩ := hf
  have hfits := hw.fits file List.mem_cons_self
  rw [← hworking] at hs hfits
  cases h with
  | wrote hwrite =>
    rw [hb] at hwrite
    obtain ⟨-, ⟨hr, he⟩ | ⟨-, fault, he⟩⟩ :=
      Prepared.write_faultless hfaults hwrite hs.toWellFormed hfits
    · cases he
      exact Or.inl ⟨hr, _, rfl⟩
    · cases he
  | unwritten hwrite =>
    rw [hb] at hwrite
    obtain ⟨-, ⟨-, he⟩ | ⟨hr, fault, he⟩⟩ :=
      Prepared.write_faultless hfaults hwrite hs.toWellFormed hfits
    · cases he
    · exact Or.inr ⟨hr, _, _, rfl⟩

theorem markFile_marked (hsavepoints : c.store.store.rules.savepoints = true) (index : Nat)
    (tx : Transaction) :
    c.markFile true index (tx, c.store) =
      (true, { tx with savepoints := tx.savepoints ++ [(savepointName index, tx.working)] },
        c.store) := by
  simp [markFile, hb, FaultyStore.savepoint_faultless hfaults, Transaction.savepoint, hsavepoints]

/-- With savepoints, a file of a batch is written just if its path can be, and the batch
    goes on. -/
theorem BatchStep.write_faultless (hsavepoints : c.store.store.rules.savepoints = true)
    {held : List String} {rest : List Prepared} {index : Nat} {written : List (Prepared × Nat)}
    {report : BatchReport} {phase' : BatchPhase Transaction} (hs : c.rows.Sound)
    (hf : (Request.batch (.writing held tx (file :: rest) index true written report)).Faithful
      c.settings.incremental c.chunker c.rows)
    (h : BatchStep c (.writing held tx (file :: rest) index true written report) phase' c') :
    file.path ∉ c.store.store.rules.rejected ∧
        (∃ tx', phase' = .writing held tx' rest (index + 1) true
          (written ++ [(file, (file.written c.chunker {}).1)]) report) ∨
      file.path ∈ c.store.store.rules.rejected ∧ ∃ tx' fault,
        phase' = .writing held tx' rest (index + 1) true written
          (report.fail (file.writeFailure fault)) := by
  obtain ⟨hw, hworking⟩ := hf
  obtain ⟨hsound, hfits⟩ := hw.fits_replay c.chunker hs
  rw [← hworking] at hsound hfits
  have hmark := markFile_marked hb hfaults hsavepoints index tx
  have hwrite : ∀ {outcome tx₂ s₂}, (file.write c.backend c.chunker).run
      ({ tx with savepoints := tx.savepoints ++ [(savepointName index, tx.working)] }, c.store) =
        (outcome, tx₂, s₂) →
      s₂ = c.store ∧ tx₂.savepoints = tx.savepoints ++ [(savepointName index, tx.working)] ∧
        (file.path ∉ c.store.store.rules.rejected ∧ outcome = .ok (file.written c.chunker {}).1 ∨
          file.path ∈ c.store.store.rules.rejected ∧ ∃ fault, outcome = .error fault) := by
    intro outcome tx₂ s₂ hrun
    rw [hb] at hrun
    obtain ⟨hstore, hcases⟩ :=
      Prepared.write_faultless hfaults hrun hsound.toWellFormed hfits
    exact ⟨hstore, ((file.carries_write c.chunker).run_spec hrun).1, hcases⟩
  cases h with
  | wrote hm hrun =>
    rw [hmark] at hm
    cases hm
    obtain ⟨-, -, ⟨hr, he⟩ | ⟨-, fault, he⟩⟩ := hwrite hrun
    · cases he
      exact Or.inl ⟨hr, _, rfl⟩
    · cases he
  | tookBack hm hrun =>
    rw [hmark] at hm
    cases hm
    obtain ⟨-, -, ⟨-, he⟩ | ⟨hr, fault, he⟩⟩ := hwrite hrun
    · cases he
    · exact Or.inr ⟨hr, _, _, rfl⟩
  | @gaveUp _ _ _ _ _ _ _ _ _ _ state₂ _ _ hm hrun hback =>
    -- there is a savepoint, and going back to it succeeds
    rw [hmark] at hm
    cases hm
    obtain ⟨tx₂, s₂⟩ := state₂
    obtain ⟨rfl, hsaved, -⟩ := hwrite hrun
    rcases hback with ⟨he, -⟩ | ⟨-, cause, hback⟩
    · cases he
    · rw [hb, FaultyStore.rollbackTo_faultless hfaults hsaved] at hback
      cases hback

end

end Coordinator

/-! ## Runs -/

/-- Does a happening change what the store rejects, or its faults? -/
def Happening.disturbs : Happening → Bool
  | .disturb _ _ => true
  | .act _ => false

namespace Coordinator

variable {c c' : MemoryCoordinator} {x : Happening}

/-- The store has no faults, and rejects the paths that it did before. -/
structure Faultless (c c' : MemoryCoordinator) : Prop where
  rules : c'.store.store.rules = c.store.store.rules
  faults : c'.store.faults = []

theorem Orderly.undergo_faultless {start : MemoryCoordinator} (h : Orderly c)
    (hs : Faultless start c) (hcalm : x.disturbs = false) (hx : c.undergo x = some c') : Faultless start c' := by
  cases x with
  | disturb rejected faults => cases hcalm
  | act action =>
    cases change_of_act hx with
    | @moved _ _ _ c₁ hr hstep =>
      have hfaults : c₁.store.faults = [] := by
        cases hstep with
        | file hstep => exact hstep.faultless h.backend hs.faults
        | batch hstep => exact hstep.faultless h.backend hs.faults
      exact ⟨(h.move hr hstep).rules.trans hs.rules, hfaults⟩
    | _ => exact ⟨hs.rules, hs.faults⟩

theorem Orderly.undergo_faults (h : Orderly c) (hf : c.store.faults = [])
    (hcalm : x.faultless = true) (hx : c.undergo x = some c') : c'.store.faults = [] := by
  cases x with
  | disturb rejected faults =>
    cases hx
    exact List.isEmpty_iff.1 hcalm
  | act action => exact (h.undergo_faultless ⟨rfl, hf⟩ rfl hx).faults

end Coordinator

end SourceIndex
