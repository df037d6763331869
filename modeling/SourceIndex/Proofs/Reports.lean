/-
  Every file of a batch is reported once, whatever the store does.

  * `BatchPhase.paths`, `BatchStep.paths_perm`: the paths that a batch has still to deal
    with or has reported are the same before and after every step;
  * `BatchPhase.rank`, `BatchStep.rank_lt`: every step brings a batch nearer to its report,
    and `moves_or_awaits`: it can step unless it waits for the pool or for the store;
  * `Stands`, `WrittenIn`: what the calls recorded on a transaction say of a file written there;
  * `BatchPhase.Truthful`, `BatchStep.truthful`: a file is reported as written only if it
    has been committed;
  * `Underway`: how far a batch is in a run, `batch_reported`: what its report says.
-/
import Mathlib.Algebra.GroupWithZero.Nat
import SourceIndex.Proofs.Batch
import SourceIndex.Proofs.Leases
import SourceIndex.Proofs.Recorded

namespace SourceIndex

variable {σ τ : Type}

/-! ## The paths of a batch -/

/-- The paths that a report is about. -/
def BatchReport.paths (report : BatchReport) : List String :=
  report.succeeded.map (·.path) ++ report.failed.map (·.path)

/-- The paths that a batch has still to deal with and those it has reported. -/
def BatchPhase.paths : BatchPhase τ → List String
  | .arriving todo held report => todo.map (·.1) ++ held.map (·.path) ++ report.paths
  | .preparing _ slots ready report => slots.map (·.path) ++ ready.map (·.path) ++ report.paths
  | .opening _ ready report => ready.map (·.path) ++ report.paths
  | .writing _ _ todo _ _ written report =>
    todo.map (·.path) ++ written.map (·.1.path) ++ report.paths
  | .committing _ _ written report | .trimming _ written report =>
    written.map (·.1.path) ++ report.paths
  | .undoing _ _ report | .closing _ report | .done report => report.paths

namespace Coordinator

variable {c c' : Coordinator σ τ} {phase phase' : BatchPhase τ}

theorem path_writeFailure (f : Prepared) (fault : Fault) : (f.writeFailure fault).path = f.path :=
  rfl

theorem path_report (f : Prepared) (chunks : Nat) : (f.report chunks).path = f.path := rfl

theorem BatchStep.paths_perm (h : BatchStep c phase phase' c')
    (hr : (Request.batch phase).InHand) : phase'.paths.Perm phase.paths := by
  refine List.perm_iff_count.2 fun path => ?_
  cases h with
  | refused h | leased h =>
    simp [BatchPhase.paths, BatchReport.paths, BatchReport.fail, List.count_cons, IndexError.path]
    omega
  | prepared h => simp [BatchPhase.paths]
  | @failed _ before after slot _ _ error h =>
    have hproper := hr.proper slot (List.mem_append_right before List.mem_cons_self)
    rw [h] at hproper
    simp [BatchPhase.paths, BatchReport.paths, BatchReport.fail, List.count_cons, hproper.1]
    omega
  | @skipped _ before after slot _ _ file h =>
    have hproper := hr.proper slot (List.mem_append_right before List.mem_cons_self)
    rw [h] at hproper
    simp [BatchPhase.paths, BatchReport.paths, BatchReport.succeed, List.count_cons, hproper.1]
    omega
  | @ready _ before after slot _ _ file h =>
    have hproper := hr.proper slot (List.mem_append_right before List.mem_cons_self)
    rw [h] at hproper
    simp [BatchPhase.paths, List.count_cons, hproper.1]
    omega
  | unopened hfree h | uncommitted h =>
    simp [BatchPhase.paths, BatchReport.paths, Function.comp_def, path_writeFailure]
    omega
  | wrote hmark h =>
    simp [BatchPhase.paths, List.count_cons]
    omega
  | tookBack hmark h hback =>
    simp [BatchPhase.paths, BatchReport.paths, BatchReport.fail, List.count_cons,
      path_writeFailure]
    omega
  | gaveUp hmark h hback =>
    simp [BatchPhase.paths, BatchReport.paths, Coordinator.undone, List.count_cons,
      Function.comp_def, path_writeFailure]
    omega
  | trimmed =>
    simp [BatchPhase.paths, BatchReport.paths, Function.comp_def, path_report]
    omega
  | _ => simp [BatchPhase.paths]

end Coordinator

/-! ## The way to the report -/

/-- How many steps the preparation of a file takes at most, where `limit` attempts are made
    to parse it. -/
def Stage.rank (limit : Nat) : Stage → Nat
  | .fresh => 2 * limit + 6
  | .located _ => 2 * limit + 5
  | .loaded _ => 2 * limit + 4
  | .submitting _ attempt => 2 * (limit - attempt) + 3
  | .awaiting _ attempt _ => 2 * (limit - attempt) + 2
  | .parsed _ _ _ => 1
  | .settled _ => 0

/-- How many steps a batch takes to its report at most. -/
def BatchPhase.rank (limit : Nat) : BatchPhase τ → Nat
  | .arriving todo held _ =>
    (2 * limit + 9) * todo.length + (held.map fun s => s.stage.rank limit + 2).sum + 7
  | .preparing _ slots ready _ =>
    (slots.map fun s => s.stage.rank limit + 2).sum + ready.length + 6
  | .opening _ ready _ => ready.length + 5
  | .writing _ _ todo _ _ _ _ => todo.length + 4
  | .committing _ _ _ _ => 3
  | .undoing _ _ _ | .trimming _ _ _ => 2
  | .closing _ _ => 1
  | .done _ => 0

namespace Coordinator

variable {c c' : Coordinator σ τ} {phase phase' : BatchPhase τ} {path content : String}
  {stage : Stage}

theorem StageStep.rank_lt {stage' : Stage} (h : StageStep c path content stage stage' c') :
    stage'.rank (c.settings.pool.maxRetries + 1) < stage.rank (c.settings.pool.maxRetries + 1) := by
  cases h <;> simp only [Stage.rank] <;> omega

theorem BatchStep.rank_lt (h : BatchStep c phase phase' c') :
    phase'.rank (c.settings.pool.maxRetries + 1) < phase.rank (c.settings.pool.maxRetries + 1) := by
  cases h with
  | refused h =>
    simp only [BatchPhase.rank, List.length_cons, Nat.mul_succ]
    omega
  | leased h =>
    simp only [BatchPhase.rank, List.length_cons, Nat.mul_succ, List.map_append, List.sum_append,
      List.map_cons, List.map_nil, List.sum_cons, List.sum_nil]
    rw [Stage.rank]
    omega
  | prepared h =>
    have hlt := h.rank_lt
    simp only [BatchPhase.rank, List.map_append, List.map_cons, List.sum_append, List.sum_cons]
    omega
  | failed h | skipped h | ready h =>
    simp only [BatchPhase.rank, List.map_append, List.map_cons, List.sum_append, List.sum_cons,
      List.length_append, List.length_singleton]
    omega
  | _ =>
    simp only [BatchPhase.rank, List.map_nil, List.sum_nil, List.length_nil, List.length_cons]
    omega

/-- The batch waits: for outcomes of the pool, or for another transaction to end. -/
def Awaits (c : Coordinator σ τ) : BatchPhase τ → Prop
  | .preparing _ slots _ _ => slots ≠ [] ∧ ∀ slot ∈ slots,
    ∃ ticket, slot.stage.ticket? = some ticket ∧ c.pool.outcome? ticket = none
  | .opening _ _ _ => c.backend.free c.store = false
  | _ => False

theorem prepare_isSome (hstage : ∀ outcome, stage ≠ .settled outcome)
    (h : ∀ ticket, stage.ticket? = some ticket → c.pool.outcome? ticket ≠ none) :
    (c.prepare path content stage).isSome := by
  cases stage with
  | fresh =>
    rw [prepare]
    rcases c.backend.findFile path c.store with ⟨fault | _ | file, store⟩ <;> rfl
  | located file =>
    rw [prepare]
    rcases c.backend.findSymbols file.id c.store with ⟨fault | symbols, store⟩ <;> rfl
  | loaded prior =>
    rw [prepare]
    dsimp only
    split
    · rfl
    · rcases c.cache.get c.now (.ofContent path content) with ⟨_ | parsed, cache⟩ <;> rfl
  | submitting prior attempt =>
    rw [prepare]
    rcases c.pool.submit path content with error | ⟨ticket, pool⟩ <;> rfl
  | awaiting prior attempt ticket =>
    rw [prepare]
    cases ho : c.pool.outcome? ticket with
    | none => exact (h ticket rfl ho).elim
    | some outcome => rfl
  | parsed prior attempt result => rfl
  | settled outcome => exact (hstage outcome rfl).elim

theorem turnBatch_isSome_of_slot {held : List String} {before after : List Slot} {slot : Slot}
    {ready : List Prepared} {report : BatchReport}
    (h : ∀ ticket, slot.stage.ticket? = some ticket → c.pool.outcome? ticket ≠ none) :
    (c.turnBatch before.length
      (.preparing held (before ++ slot :: after) ready report)).isSome := by
  have hpick : pick (before ++ slot :: after) before.length = some (before, slot, after) := by
    simp [pick]
  rw [turnBatch, hpick]
  · dsimp only
    cases hst : slot.stage with
    | settled outcome => rcases outcome with error | file | file <;> rfl
    | _ =>
      rw [Option.isSome_map, ← hst]
      refine prepare_isSome (fun outcome h => ?_) h
      rw [hst] at h
      cases h
  · simp

theorem moves_or_awaits (c : Coordinator σ τ) (phase : BatchPhase τ) :
    (∃ report, phase = .done report) ∨ (∃ place, (c.turnBatch place phase).isSome) ∨
      c.Awaits phase := by
  cases phase with
  | done report => exact Or.inl ⟨report, rfl⟩
  | arriving todo held report =>
    refine Or.inr (Or.inl ⟨0, ?_⟩)
    cases todo with
    | nil => rfl
    | cons entry todo =>
      rw [turnBatch]
      cases c.lease? entry.1 <;> rfl
  | preparing held slots ready report =>
    refine Or.inr ?_
    by_cases hwait : ∀ slot ∈ slots,
        ∃ ticket, slot.stage.ticket? = some ticket ∧ c.pool.outcome? ticket = none
    · by_cases hs : slots = []
      · subst hs
        exact Or.inl ⟨0, by cases ready <;> rfl⟩
      · exact Or.inr ⟨hs, hwait⟩
    · push Not at hwait
      obtain ⟨slot, hslot, hmoves⟩ := hwait
      obtain ⟨before, after, rfl⟩ := List.append_of_mem hslot
      exact Or.inl ⟨before.length, turnBatch_isSome_of_slot hmoves⟩
  | opening held ready report =>
    refine Or.inr ?_
    cases hfree : c.backend.free c.store with
    | false => exact Or.inr hfree
    | true =>
      refine Or.inl ⟨0, ?_⟩
      rw [turnBatch, if_pos hfree]
      rcases c.backend.openTransaction c.store with ⟨fault | tx, store⟩ <;> rfl
  | writing held tx todo index savepoints written report =>
    exact Or.inr (Or.inl ⟨0, by cases todo <;> rfl⟩)
  | committing held tx written report =>
    refine Or.inr (Or.inl ⟨0, ?_⟩)
    rw [turnBatch]
    rcases c.backend.commit tx c.store with ⟨fault | _, store⟩ <;> rfl
  | undoing | trimming | closing => exact Or.inr (Or.inl ⟨0, rfl⟩)

end Coordinator

/-! ## What is written and kept -/

/-- After the calls `before`, every way back to a savepoint leads to one that was made
    since, under a name that was not used before. -/
inductive Stands (before : List (WriteCall × Bool)) : List (WriteCall × Bool) → Prop where
  | nil : Stands before []
  | other {after : List (WriteCall × Bool)} {e : WriteCall × Bool} (h : Stands before after)
      (he : ∀ name, e.1 ≠ .rollbackTo name) : Stands before (after ++ [e])
  | back {after : List (WriteCall × Bool)} {name : String} {ok : Bool} (h : Stands before after)
      (hsince : (.savepoint name, true) ∈ after)
      (hunused : ∀ made, (.savepoint name, made) ∉ before) :
      Stands before (after ++ [(.rollbackTo name, ok)])

theorem Stands.append {before after new : List (WriteCall × Bool)} (h : Stands before after)
    (hnew : ∀ e ∈ new, ∀ name, e.1 ≠ .rollbackTo name) : Stands before (after ++ new) := by
  induction new generalizing after with
  | nil => rwa [List.append_nil]
  | cons e new ih =>
    obtain ⟨he, hnew⟩ := List.forall_mem_cons.1 hnew
    rw [← List.singleton_append, ← List.append_assoc]
    exact ih (h.other he) hnew

/-- Among the calls on a transaction, the file was written: every call of that write
    succeeded, and none of it was taken back since. -/
def WrittenIn (b : Backend σ τ) (chunker : Chunker) (f : Prepared) (chunks : Nat)
    (calls : List (WriteCall × Bool)) : Prop :=
  ∃ pre own post, calls = pre ++ own ++ post ∧
    (∃ tx s tx' s', (f.write b.recorded chunker).run (⟨tx, pre⟩, s) =
      (.ok chunks, ⟨tx', pre ++ own⟩, s')) ∧
    (∀ e ∈ own, e.2 = true) ∧ Stands (pre ++ own) post

/-- Savepoints have the names of files before number `index`. -/
def Named (index : Nat) (calls : List (WriteCall × Bool)) : Prop :=
  ∀ name made, (.savepoint name, made) ∈ calls →
    ∃ i < index, name = Coordinator.savepointName i

section
variable {b : Backend σ τ} {chunker : Chunker} {f : Prepared} {chunks index : Nat}
  {calls new : List (WriteCall × Bool)}

theorem WrittenIn.append (h : WrittenIn b chunker f chunks calls)
    (hnew : ∀ e ∈ new, ∀ name, e.1 ≠ .rollbackTo name) :
    WrittenIn b chunker f chunks (calls ++ new) := by
  obtain ⟨pre, own, post, rfl, hwrite, hok, hstands⟩ := h
  exact ⟨pre, own, post ++ new, List.append_assoc _ _ _, hwrite, hok, hstands.append hnew⟩

theorem Named.append (h : Named index calls)
    (hnew : ∀ name made, (.savepoint name, made) ∈ new → name = Coordinator.savepointName index) :
    Named (index + 1) (calls ++ new) := by
  intro name made hm
  rcases List.mem_append.1 hm with hm | hm
  · obtain ⟨i, hi, he⟩ := h name made hm
    exact ⟨i, Nat.lt_succ_of_lt hi, he⟩
  · exact ⟨index, Nat.lt_succ_self _, hnew name made hm⟩

/-- The number of a file can be read back from the name of its savepoint. -/
theorem savepointName_injective : Function.Injective Coordinator.savepointName := by
  refine Function.LeftInverse.injective
    (g := fun name => Nat.ofDigitChars 10 (name.toList.drop "file_".length) 0) fun index => ?_
  have hname : (Coordinator.savepointName index).toList =
      "file_".toList ++ Nat.toDigits 10 index := by
    simp [Coordinator.savepointName, Nat.repr_eq_ofList_toDigits, toString]
  change Nat.ofDigitChars 10 ((Coordinator.savepointName index).toList.drop _) 0 = index
  rw [hname, ← String.length_toList, List.drop_left, Nat.ofDigitChars_ten_toDigits]

/-- Going back to a savepoint of its own leaves what earlier files wrote. -/
theorem WrittenIn.rollbackTo (h : WrittenIn b chunker f chunks calls) (hnamed : Named index calls)
    (hnew : ∀ e ∈ new, ∀ name, e.1 ≠ .rollbackTo name)
    (hmark : (.savepoint (Coordinator.savepointName index), true) ∈ new) (ok : Bool) :
    WrittenIn b chunker f chunks
      (calls ++ new ++ [(.rollbackTo (Coordinator.savepointName index), ok)]) := by
  obtain ⟨pre, own, post, rfl, hwrite, hok, hstands⟩ := h
  refine ⟨pre, own, post ++ new ++ [(.rollbackTo (Coordinator.savepointName index), ok)], ?_,
    hwrite, hok, (hstands.append hnew).back (List.mem_append_right _ hmark) fun made hm => ?_⟩
  · simp only [List.append_assoc]
  · obtain ⟨i, hi, he⟩ := hnamed _ made (List.mem_append_left _ hm)
    exact Nat.ne_of_lt hi (savepointName_injective he).symm

end

namespace Coordinator

variable {b : Backend σ τ} {d d' : Coordinator σ (Recorded τ)} {t : Recorded τ} {s s' : σ}
  {savepoints marked : Bool} {index : Nat}

theorem calls_markFile (hb : d.backend = b.recorded) {t' : Recorded τ}
    (h : d.markFile savepoints index (t, s) = (marked, t', s')) :
    ∃ mark, t'.calls = t.calls ++ mark ∧
      (mark = [] ∧ marked = false ∨ mark = [(.savepoint (savepointName index), marked)]) := by
  cases savepoints with
  | false =>
    cases h
    exact ⟨[], (List.append_nil _).symm, Or.inl ⟨rfl, rfl⟩⟩
  | true =>
    have hrecorded : (b.recorded.savepoint (savepointName index)).run (t, s) = _ :=
      run_recordCall (.savepoint (savepointName index)) (b.savepoint (savepointName index)) id t s
    rw [markFile, if_pos rfl, hb, hrecorded] at h
    refine ⟨[(.savepoint (savepointName index), marked)], ?_, Or.inr rfl⟩
    rcases hm : (b.savepoint (savepointName index)).run (t.tx, s) with
      ⟨fault | supported, tx', s₁⟩
    · rw [hm] at h; cases h; rfl
    · rw [hm] at h; cases h; rfl

/-- What is recorded when a file of a batch is written, behind a savepoint or not. -/
theorem calls_writeFile (hb : d.backend = b.recorded) {state₁ state₂ : Recorded τ × σ}
    {file : Prepared} {outcome : Except Fault Nat}
    (hmark : d.markFile savepoints index (t, s) = (marked, state₁))
    (h : (file.write d.backend d.chunker).run state₁ = (outcome, state₂)) :
    ∃ new, state₂.1.calls = t.calls ++ new ∧ (∀ e ∈ new, ∀ name, e.1 ≠ .rollbackTo name) ∧
      (∀ name made, (.savepoint name, made) ∈ new → name = savepointName index) ∧
      (marked = true → (.savepoint (savepointName index), true) ∈ new) ∧
      ∀ chunks, outcome = .ok chunks → WrittenIn b d.chunker file chunks state₂.1.calls := by
  obtain ⟨mark, hmarked, hcases⟩ := calls_markFile hb hmark
  obtain ⟨own, hcalls, hwrites, hok⟩ := (mirrors_write b d.chunker file).calls state₁.1 state₁.2
  rw [hb] at h
  rw [h] at hcalls hok
  have hown : ∀ e ∈ own, (∀ name, e.1 ≠ .rollbackTo name) ∧ ∀ name, e.1 ≠ .savepoint name := by
    intro e he
    have hw := hwrites e he
    constructor
    · intro name hname
      rw [hname] at hw
      cases hw
    · intro name hname
      rw [hname] at hw
      cases hw
  have hnew : state₂.1.calls = t.calls ++ (mark ++ own) := by
    rw [hcalls, hmarked, List.append_assoc]
  refine ⟨mark ++ own, hnew, List.forall_mem_append.2 ⟨?_, fun e he => (hown e he).1⟩, ?_, ?_, ?_⟩
  · rcases hcases with ⟨rfl, -⟩ | rfl
    · exact List.forall_mem_nil _
    · exact List.forall_mem_singleton.2 nofun
  · intro name made hm
    rcases List.mem_append.1 hm with hm | hm
    · rcases hcases with ⟨rfl, -⟩ | rfl
      · cases hm
      · cases List.mem_singleton.1 hm
        rfl
    · exact ((hown _ hm).2 name rfl).elim
  · rintro rfl
    rcases hcases with ⟨-, hfalse⟩ | rfl
    · cases hfalse
    · exact List.mem_append_left _ List.mem_cons_self
  · rintro chunks rfl
    refine ⟨state₁.1.calls, own, [], ?_, ⟨state₁.1.tx, state₁.2, state₂.1.tx, state₂.2, ?_⟩,
      hok chunks rfl, .nil⟩
    · rw [hcalls, List.append_nil]
    · rw [← hcalls]
      exact h

theorem calls_rollbackTo {name : String} {state state' : Recorded τ × σ}
    {outcome : Except Fault Unit}
    (h : (b.recorded.rollbackTo name).run state = (outcome, state')) :
    ∃ ok, state'.1.calls = state.1.calls ++ [(.rollbackTo name, ok)] := by
  have hrecorded : (b.recorded.rollbackTo name).run state = _ :=
    run_recordCall (.rollbackTo name) (b.rollbackTo name) (fun _ => true) state.1 state.2
  rw [hrecorded] at h
  cases h
  exact ⟨_, rfl⟩

theorem calls_openTransaction (h : b.recorded.openTransaction s = (.ok t, s')) : t.calls = [] := by
  have hopened : (b.openTransaction s).1.map (fun tx => ({ tx } : Recorded τ)) = .ok t :=
    congrArg Prod.fst h
  cases ho : (b.openTransaction s).1 with
  | error fault => rw [ho] at hopened; cases hopened
  | ok tx => rw [ho] at hopened; cases hopened; rfl

end Coordinator

/-- A report tells no file to be written. -/
def BatchReport.OnlySkips (report : BatchReport) : Prop :=
  ∀ r ∈ report.succeeded, r.mode = .skipped

/-- What a batch has written on its transaction is kept there, and what it reports as
    written has `Landed`. -/
def BatchPhase.Truthful (b : Backend σ τ) (chunker : Chunker) (Landed : Prepared × Nat → Prop) :
    BatchPhase (Recorded τ) → Prop
  | .arriving _ _ report | .preparing _ _ _ report | .opening _ _ report | .undoing _ _ report =>
    report.OnlySkips
  | .writing _ tx _ index _ written report =>
    report.OnlySkips ∧ Named index tx.calls ∧ ∀ w ∈ written, WrittenIn b chunker w.1 w.2 tx.calls
  | .committing _ tx written report =>
    report.OnlySkips ∧ ∀ w ∈ written, WrittenIn b chunker w.1 w.2 tx.calls
  | .trimming _ written report => report.OnlySkips ∧ ∀ w ∈ written, Landed w
  | .closing _ report | .done report =>
    ∀ r ∈ report.succeeded, r.mode ≠ .skipped → ∃ w, Landed w ∧ r = w.1.report w.2

theorem BatchPhase.Truthful.mono {b : Backend σ τ} {chunker : Chunker}
    {Landed Landed' : Prepared × Nat → Prop} {phase : BatchPhase (Recorded τ)}
    (h : phase.Truthful b chunker Landed)
    (hmono : ∀ {w}, Landed w → Landed' w) : phase.Truthful b chunker Landed' := by
  cases phase with
  | trimming => exact ⟨h.1, fun w hw => hmono (h.2 w hw)⟩
  | closing | done =>
    intro r hr hmode
    obtain ⟨w, hw, he⟩ := h r hr hmode
    exact ⟨w, hmono hw, he⟩
  | _ => exact h

namespace Coordinator

variable {b : Backend σ τ} {d d' : Coordinator σ (Recorded τ)} {Landed : Prepared × Nat → Prop}

theorem truthful_of_onlySkips {report : BatchReport} (h : report.OnlySkips) :
    ∀ r ∈ report.succeeded, r.mode ≠ .skipped → ∃ w, Landed w ∧ r = w.1.report w.2 :=
  fun r hr hmode => (hmode (h r hr)).elim

/-- A step of a batch keeps that, where files that it commits have landed then. -/
theorem BatchStep.truthful {phase phase' : BatchPhase (Recorded τ)}
    (h : BatchStep d phase phase' d') (hb : d.backend = b.recorded)
    (hr : (Request.batch phase).InHand)
    (hcommit : ∀ {held tx written report}, phase = .committing held tx written report →
      (b.commit tx.tx d.store).1 = .ok () →
        ∀ w ∈ written, WrittenIn b d.chunker w.1 w.2 tx.calls → Landed w)
    (hp : phase.Truthful b d.chunker Landed) : phase'.Truthful b d.chunker Landed := by
  cases h with
  | arrived | refused | leased | prepared | failed | gathered | ready => exact hp
  | nothing | undone => exact truthful_of_onlySkips hp
  | @skipped _ before _ slot _ _ file h =>
    have hproper := hr.proper slot (List.mem_append_right before List.mem_cons_self)
    rw [h] at hproper
    exact List.forall_mem_append.2 ⟨hp, List.forall_mem_singleton.2 hproper.2⟩
  | unopened hfree h => exact truthful_of_onlySkips hp
  | @opened _ _ _ tx store hfree h =>
    rw [hb] at h
    refine ⟨hp, ?_, List.forall_mem_nil _⟩
    rw [calls_openTransaction h]
    exact nofun
  | wroteAll => exact ⟨hp.1, hp.2.2⟩
  | wrote hmark h =>
    obtain ⟨new, hcalls, hnew, hnames, -, hkept⟩ := calls_writeFile hb hmark h
    obtain ⟨hskips, hnamed, hwritten⟩ := hp
    refine ⟨hskips, ?_, List.forall_mem_append.2 ⟨fun w hw => ?_, ?_⟩⟩
    · rw [hcalls]
      exact hnamed.append hnames
    · rw [hcalls]
      exact (hwritten w hw).append hnew
    · exact List.forall_mem_singleton.2 (hkept _ rfl)
  | @tookBack _ _ file _ index _ _ _ _ _ _ fault hmark h hback =>
    obtain ⟨new, hcalls, hnew, hnames, hmarked, -⟩ := calls_writeFile hb hmark h
    rw [hb] at hback
    obtain ⟨ok, hcalls'⟩ := calls_rollbackTo hback
    obtain ⟨hskips, hnamed, hwritten⟩ := hp
    rw [hcalls] at hcalls'
    refine ⟨hskips, ?_, fun w hw => ?_⟩
    · rw [hcalls', List.append_assoc]
      refine hnamed.append fun name made hm => ?_
      rcases List.mem_append.1 hm with hm | hm
      · exact hnames name made hm
      · cases List.mem_singleton.1 hm
    · rw [hcalls']
      exact (hwritten w hw).rollbackTo hnamed hnew (hmarked rfl) ok
  | gaveUp hmark h hback => exact hp.1
  | uncommitted h => exact truthful_of_onlySkips hp.1
  | @committed _ tx written report store h =>
    rw [hb] at h
    refine ⟨hp.1, fun w hw => hcommit rfl ?_ w hw (hp.2 w hw)⟩
    exact congrArg Prod.fst h
  | @trimmed _ written report =>
    intro r hr hmode
    rcases List.mem_append.1 hr with hr | hr
    · exact (hmode (hp.1 r hr)).elim
    · obtain ⟨w, hw, rfl⟩ := List.mem_map.1 hr
      exact ⟨w, hp.2 w hw, rfl⟩
  | closed => exact hp

/-! ## Batches in runs -/

/-- Among the events, the request with a number commits the file: the commit of its
    transaction succeeds, and what was written of the file is kept on that. -/
def Persists (b : Backend σ τ) (d : Coordinator σ (Recorded τ)) (id : RequestId)
    (es : List (Event σ)) (w : Prepared × Nat) : Prop :=
  ∃ es₁ place es₂ d₁ held tx written report, es = es₁ ++ .act (.turn ⟨id, place⟩) :: es₂ ∧
    d.after es₁ = some d₁ ∧
    d₁.requests.get? id = some (.batch (.committing held tx written report)) ∧ w ∈ written ∧
    (b.commit tx.tx d₁.store).1 = .ok () ∧ WrittenIn b d.chunker w.1 w.2 tx.calls

theorem Persists.append {id : RequestId} {es : List (Event σ)} {w : Prepared × Nat}
    (h : d.Persists b id es w) (e : Event σ) : d.Persists b id (es ++ [e]) w := by
  obtain ⟨es₁, place, es₂, d₁, held, tx, written, report, rfl, hrest⟩ := h
  exact ⟨es₁, place, es₂ ++ [e], d₁, held, tx, written, report, by simp, hrest⟩

end Coordinator

/-- Is the event a step of the request with a number? -/
def Event.turns (id : RequestId) : Event σ → Bool
  | .act (.turn t) => t.request = id
  | _ => false

namespace Coordinator

variable {b : Backend σ τ} {d d' : Coordinator σ (Recorded τ)} {id : RequestId}
  {files : List (String × String)} {es : List (Event σ)} {phase : BatchPhase (Recorded τ)}

/-- How far a batch is after the events `es`: it has dealt with its files each once, has
    made no more than so many steps, and its report is truthful. -/
structure Underway (b : Backend σ τ) (d : Coordinator σ (Recorded τ)) (id : RequestId)
    (files : List (String × String)) (es : List (Event σ)) (phase : BatchPhase (Recorded τ)) :
    Prop where
  inHand : (Request.batch phase).InHand
  paths : phase.paths.Perm (files.map (·.1))
  steps : es.countP (·.turns id) + phase.rank (d.settings.pool.maxRetries + 1) ≤
    (2 * d.settings.pool.maxRetries + 11) * files.length + 7
  truthful : phase.Truthful b d.chunker (d.Persists b id es)

theorem underway_ofFiles (b : Backend σ τ) (d : Coordinator σ (Recorded τ)) (id : RequestId)
    (files : List (String × String)) : Underway b d id files [] (.arriving files [] {}) where
  inHand := ⟨List.forall_mem_nil _, List.nil_sublist _⟩
  paths := by simp [BatchPhase.paths, BatchReport.paths]
  steps := by
    simp only [BatchPhase.rank, List.countP_nil, List.map_nil, List.sum_nil]
    have hfactor : 2 * (d.settings.pool.maxRetries + 1) + 9 =
        2 * d.settings.pool.maxRetries + 11 := by
      omega
    rw [hfactor]
    omega
  truthful := List.forall_mem_nil _

theorem Underway.step {phase' : BatchPhase (Recorded τ)} {d₁ d₂ : Coordinator σ (Recorded τ)}
    (h : Underway b d id files es phase) (hb : d.backend = b.recorded) (hrun : d.after es = some d₁)
    (hr : d₁.requests.get? id = some (.batch phase)) (hs : BatchStep d₁ phase phase' d₂)
    (place : Nat) : Underway b d id files (es ++ [.act (.turn ⟨id, place⟩)]) phase' := by
  obtain ⟨hbackend, hsettings, hchunker⟩ := setup_after hrun
  refine ⟨(RequestStep.batch hs).inHand h.inHand, (hs.paths_perm h.inHand).trans h.paths, ?_, ?_⟩
  · have hlt := hs.rank_lt
    have hsteps := h.steps
    rw [hsettings] at hlt
    have hturn : (Event.act (.turn ⟨id, place⟩) : Event σ).turns id = true := decide_eq_true rfl
    rw [List.countP_append, List.countP_singleton, hturn, if_pos rfl]
    omega
  · have hold := h.truthful.mono fun hw => hw.append (.act (.turn ⟨id, place⟩))
    rw [← hchunker] at hold ⊢
    refine hs.truthful (hbackend.trans hb) h.inHand ?_ hold
    rintro held tx written report rfl hcommit w hw hkept
    exact ⟨es, place, [], d₁, held, tx, written, report, rfl, hrun, hr, hw, hcommit,
      hchunker ▸ hkept⟩

theorem Underway.rest (h : Underway b d id files es phase) {e : Event σ}
    (he : ∀ place, e ≠ .act (.turn ⟨id, place⟩)) : Underway b d id files (es ++ [e]) phase where
  inHand := h.inHand
  paths := h.paths
  steps := by
    have hturns : e.turns id = false := by
      cases e with
      | shift store => rfl
      | act action =>
        cases action with
        | turn t => exact decide_eq_false fun ht => he t.place (ht ▸ rfl)
        | _ => rfl
    rw [List.countP_append, List.countP_singleton, hturns]
    exact h.steps
  truthful := h.truthful.mono fun hw => hw.append e

theorem Numbered.underway (h : d.Numbered) (hb : d.backend = b.recorded)
    (hr : d.requests.get? id = some (.ofFiles files)) (hrun : d.after es = some d') :
    ∃ phase, d'.requests.get? id = some (.batch phase) ∧ Underway b d id files es phase := by
  have hfollow : ∃ r, d'.requests.get? id = some r ∧
      ∃ phase, r = .batch phase ∧ Underway b d id files es phase := by
    refine h.follow (P := fun es r => ∃ phase, r = .batch phase ∧ Underway b d id files es phase)
      ?_ ?_ hr ⟨_, rfl, underway_ofFiles b d id files⟩ hrun
    · rintro es d₁ place _ r' d₂ hrun hr hs ⟨phase, rfl, hunder⟩
      cases hs with
      | batch hs => exact ⟨_, rfl, hunder.step hb hrun hr hs place⟩
    · rintro es e _ he ⟨phase, rfl, hunder⟩
      exact ⟨phase, rfl, hunder.rest he⟩
  obtain ⟨_, hr', phase, rfl, hunder⟩ := hfollow
  exact ⟨phase, hr', hunder⟩

/-- **Every file of a batch is reported once**, whatever the store does.  From the time it
    comes, a batch is done, can step, or waits for the pool or for the right to write, and
    it makes no more than so many steps.  Once it is done, the paths in its report are
    those of its files, each as often as asked for.  With the calls of the store recorded
    the run goes the same way, and a file is told to be written only if the batch has
    committed it and that succeeded: all calls that wrote it had succeeded, and the
    transaction was not taken back to a savepoint before them. -/
theorem batch_reported {settings : Settings} {chunker : Option Chunker} {store : σ}
    {starts : StartPlan} {c₀ c₁ c₂ c : Coordinator σ τ} {before es : List (Event σ)}
    {files : List (String × String)}
    (hstart : start b settings chunker store starts = .ok c₀)
    (hbefore : c₀.after before = some c₁) (hasked : c₁.act (.batch files) = some c₂)
    (hrun : c₂.after es = some c) :
    ∃ phase, c.requests.get? c₂.lastRequest = some (.batch phase) ∧
      ((∃ report, phase = .done report) ∨
        (∃ place, (c.act (.turn ⟨c₂.lastRequest, place⟩)).isSome) ∨ c.Awaits phase) ∧
      es.countP (·.turns c₂.lastRequest) ≤
        (2 * c.settings.pool.maxRetries + 11) * files.length + 7 ∧
      ∀ report, phase = .done report →
        (report.succeeded.map (·.path) ++ report.failed.map (·.path)).Perm (files.map (·.1)) ∧
        ∃ d₂ : Coordinator σ (Recorded τ), d₂.backend = b.recorded ∧
          (∀ es', c₂.after es' = (d₂.after es').map (forget b)) ∧
          ∀ r ∈ report.succeeded, r.mode ≠ .skipped →
            ∃ (f : Prepared) (chunks : Nat), r = f.report chunks ∧
              d₂.Persists b c₂.lastRequest es (f, chunks) := by
  obtain ⟨d₀, hd₀, rfl⟩ := forget_start hstart
  have hb₀ := (eq_of_start hd₀).1
  -- the recorded run up to the batch, and from there on
  rw [forget_after hb₀] at hbefore
  obtain ⟨d₁, hd₁, rfl⟩ := Option.map_eq_some_iff.1 hbefore
  have hb₁ : d₁.backend = b.recorded := (setup_after hd₁).1.trans hb₀
  have hmeet : (d₁.forget b).meet (.act (.batch files)) = some c₂ := hasked
  rw [forget_meet hb₁] at hmeet
  obtain ⟨d₂, hd₂, rfl⟩ := Option.map_eq_some_iff.1 hmeet
  have hb₂ : d₂.backend = b.recorded := (change_of_meet hd₂).setup.1.trans hb₁
  rw [forget_after hb₂] at hrun
  obtain ⟨d, hd, rfl⟩ := Option.map_eq_some_iff.1 hrun
  have hnumbered : d₂.Numbered := ((Numbered.start hd₀).after hd₁).change (change_of_meet hd₂)
  have hr : d₂.requests.get? d₂.lastRequest = some (.ofFiles files) := by
    cases hd₂
    exact Table.get?_put_self _ _ _
  obtain ⟨phase, hphase, hunder⟩ := hnumbered.underway hb₂ hr hd
  have hget : (d.forget b).requests.get? d₂.lastRequest =
      some (.batch (phase.map Recorded.tx)) := by
    refine (Table.get?_map _ _ _).trans ?_
    rw [hphase]
    rfl
  refine ⟨phase.map Recorded.tx, hget, ?_, ?_, fun report hreport => ?_⟩
  · refine (moves_or_awaits (d.forget b) (phase.map Recorded.tx)).imp_right (Or.imp_left ?_)
    rintro ⟨place, hmoves⟩
    refine ⟨place, ?_⟩
    change ((d.forget b).turn ⟨d₂.lastRequest, place⟩).isSome
    rw [turn, hget, Option.isSome_map]
    exact hmoves
  · change _ ≤ (2 * d.settings.pool.maxRetries + 11) * files.length + 7
    rw [(setup_after hd).2.1]
    exact Nat.le_trans (Nat.le_add_right _ _) hunder.steps
  · obtain rfl : phase = .done report := by
      cases phase with
      | done report' => cases hreport; rfl
      | _ => cases hreport
    refine ⟨hunder.paths, d₂, hb₂, fun es' => forget_after hb₂ es', fun r hr hmode => ?_⟩
    obtain ⟨w, hw, he⟩ := hunder.truthful r hr hmode
    exact ⟨w.1, w.2, he, hw⟩

/-- The file `a` is written and committed, and `b`, which the store rejects, is taken
    back. -/
theorem batch_reported_sample :
    let turns (place count : Nat) : List (Event FaultyStore) :=
      List.replicate count (.act (.turn ⟨1, place⟩))
    let parse : List (Event FaultyStore) := [.act (.pool .takeCommand), .act (.pool (.receive 0)),
      .act (.pool (.finish 0 (.returned (.ok ⟨[.ofLines "f" .function 1 1], 0⟩)))),
      .act (.pool .takeEvent)]
    let es := turns 0 3 ++ turns 0 3 ++ turns 1 3 ++ parse ++ parse ++ turns 0 6 ++ turns 0 8
    ∃ c₁ c₂ c report, Chronicle.sample.coordinator.after
        [.shift ⟨{ rules := { rejected := ["b"] } }, []⟩] = some c₁ ∧
      c₁.act (.batch [("a", "fn f"), ("b", "fn g")]) = some c₂ ∧ c₂.after es = some c ∧
      c.requests.get? 1 = some (.batch (.done report)) ∧
      report.failed.map (·.path) = ["b"] ∧
      ∃ r ∈ report.succeeded, r.path = "a" ∧ r.mode = .full ∧
        ∃ (d₂ : Coordinator FaultyStore (Recorded Transaction)) (f : Prepared) (chunks : Nat),
          d₂.forget FaultyStore.backend = c₂ ∧ r = f.report chunks ∧
          d₂.Persists FaultyStore.backend 1 es (f, chunks) := by
  intro turns parse es
  have hcheck : (Chronicle.sample.coordinator.after
      [.shift ⟨{ rules := { rejected := ["b"] } }, []⟩]).any (fun c₁ =>
        (c₁.act (.batch [("a", "fn f"), ("b", "fn g")])).any fun c₂ => (c₂.after es).any fun c =>
          ((c.requests.get? 1).bind Request.report?).any fun report =>
            report.succeeded.head?.any fun r =>
              decide (c₂.lastRequest = 1 ∧ report.failed.map (·.path) = ["b"] ∧ r.path = "a" ∧
                r.mode = .full)) = true := by
    decide +kernel
  obtain ⟨c₁, h₁, hcheck⟩ := (Option.any_eq_true _ _).1 hcheck
  obtain ⟨c₂, h₂, hcheck⟩ := (Option.any_eq_true _ _).1 hcheck
  obtain ⟨c, hc, hcheck⟩ := (Option.any_eq_true _ _).1 hcheck
  obtain ⟨report, hreport, hcheck⟩ := (Option.any_eq_true _ _).1 hcheck
  obtain ⟨r, hr, hcheck⟩ := (Option.any_eq_true _ _).1 hcheck
  obtain ⟨hid, hfailed, hpath, hmode⟩ := of_decide_eq_true hcheck
  obtain ⟨q, hq, hreport⟩ := Option.bind_eq_some_iff.1 hreport
  rw [Request.eq_of_report? hreport] at hq
  obtain ⟨settings, starts, store, -, -, hstart, -⟩ := Chronicle.sample_started
  obtain ⟨phase, hphase, -, -, hdone⟩ := batch_reported hstart h₁ h₂ hc
  rw [hid] at hphase hdone
  obtain rfl : phase = .done report := by
    have he := hphase.symm.trans hq
    cases he
    rfl
  obtain ⟨-, d₂, -, hforget, hwritten⟩ := hdone report rfl
  have hmem := List.mem_of_mem_head? hr
  obtain ⟨f, chunks, he, hpersists⟩ := hwritten r hmem (by rw [hmode]; decide)
  refine ⟨c₁, c₂, c, report, h₁, h₂, hc, hq, hfailed, r, hmem, hpath, hmode, d₂, f, chunks, ?_, he,
    hpersists⟩
  exact (Option.some.inj (hforget [])).symm

end Coordinator

end SourceIndex
