/-
  Steps of requests on a store without faults, with a parser that is a function.

  * `Request.pending`, `Request.outcomes`: the paths that a request has still to deal
    with, and the outcomes that are settled;
  * `Coordinator.Foretold`, `Coordinator.Drafted`: outcomes and files that are what the
    fates of the revisions asked for say;
  * `Coordinator.Sure`: all that a request has at hand goes as the fates say;
  * `Advance`: what a step of a request does to these;
  * `FileStep.advance`, `BatchStep.advance`: every step does that.
-/
import SourceIndex.Proofs.Fate

namespace SourceIndex

/-! ## Pending paths and settled outcomes -/

/-- The outcomes that a report tells. -/
def BatchReport.outcomes (r : BatchReport) : List FileOutcome :=
  r.succeeded.map .ok ++ r.failed.map .error

theorem BatchReport.outcomes_fail (r : BatchReport) (error : IndexError) :
    (r.fail error).outcomes = r.outcomes ++ [.error error] := by
  simp [outcomes, fail]

theorem BatchReport.perm_outcomes_succeed (r : BatchReport) (reports : List FileReport) :
    (outcomes { r with succeeded := r.succeeded ++ reports }).Perm
      (r.outcomes ++ reports.map .ok) := by
  simp only [outcomes, List.map_append, List.append_assoc]
  exact List.Perm.append_left _ List.perm_append_comm

theorem perm_pick {α β : Type} (f : α → β) (before : List α) (a : α) (after : List α)
    (rest : List β) :
    ((before ++ a :: after).map f ++ rest).Perm ((before ++ after).map f ++ rest ++ [f a]) := by
  have hperm : ((before ++ a :: after).map f).Perm (f a :: (before ++ after).map f) :=
    List.perm_middle.map f
  exact (hperm.append_right rest).trans (List.perm_append_singleton _ _).symm

namespace Request

variable {τ : Type} {q : Request τ}

/-- The paths that a request has still to deal with. -/
def pending (q : Request τ) : List String :=
  q.todo.map (·.1) ++ q.slots.map (·.path) ++ q.ready.map (·.path)

/-- The outcomes that are settled.  A file that is committed counts as written. -/
def outcomes : Request τ → List FileOutcome
  | .file _ _ (.undoing f _ cause) => [.error (f.writeFailure cause)]
  | .file _ _ (.trimming f chunks) => [.ok (f.report chunks)]
  | .file _ _ (.closing outcome) | .file _ _ (.done outcome) => [outcome]
  | .file _ _ _ => []
  | .batch (.trimming _ written report) =>
    report.outcomes ++ written.map fun w => .ok (w.1.report w.2)
  | .batch (.arriving _ _ report) | .batch (.preparing _ _ _ report)
  | .batch (.opening _ _ report) | .batch (.writing _ _ _ _ _ _ report)
  | .batch (.undoing _ _ report) | .batch (.committing _ _ _ report)
  | .batch (.closing _ report) | .batch (.done report) => report.outcomes

/-- All paths that a request is about. -/
def aims (q : Request τ) : List String :=
  q.pending ++ q.outcomes.map FileOutcome.path

theorem pending_of_over (h : q.Over) : q.pending = [] := by
  cases q with
  | file path content phase =>
    cases phase with
    | undoing | trimming | closing | done => rfl
    | _ => cases h
  | batch phase =>
    cases phase with
    | undoing | trimming | closing | done => rfl
    | _ => cases h

theorem held_of_mem_todo {e : String × String} (h : e ∈ q.todo) :
    q.held = q.slots.map (·.path) := by
  cases q with
  | file path content phase =>
    cases phase with
    | arriving => rfl
    | _ => cases h
  | batch phase =>
    cases phase with
    | arriving => rfl
    | _ => cases h

end Request

namespace Coordinator

/-! ## What the fates say -/

section
variable (start : MemoryCoordinator) (parser : Parser) (files : List (String × String))

/-- The outcome is about one of the files, and is what its fate says. -/
def Foretold (o : FileOutcome) : Prop :=
  ∃ content, (o.path, content) ∈ files ∧ start.Foretells parser content o

/-- The file is one of those asked for, and the one that its fate speaks of. -/
structure Drafted (f : Prepared) : Prop where
  mem : (f.path, f.content) ∈ files
  drafts : start.Drafts parser f

/-- The file has been written: its path is not rejected, and its chunks are counted. -/
def Penned (f : Prepared) (chunks : Nat) : Prop :=
  f.path ∉ start.store.store.rules.rejected ∧ chunks = (f.written start.chunker {}).1

/-- The files that a request has written can be, and no write is undone that need not
    be. -/
def Pens : Request Transaction → Prop
  | .file _ _ (.committing f _ chunks) => start.Penned f chunks
  | .batch (.writing _ _ _ _ savepoints written _) =>
    savepoints = true ∧ ∀ w ∈ written, start.Penned w.1 w.2
  | .batch (.committing _ _ written _) => ∀ w ∈ written, start.Penned w.1 w.2
  | .batch (.undoing _ _ _) => False
  | _ => True

/-- All that a request has at hand goes as the fates say. -/
structure Sure (q : Request Transaction) : Prop where
  todo : ∀ e ∈ q.todo, e ∈ files
  slots : ∀ s ∈ q.slots, (s.path, s.content) ∈ files ∧
    s.stage.Bears start parser s.path s.content
  ready : ∀ f ∈ q.ready, start.Drafted parser files f
  pens : start.Pens q

end

variable {start c c' : MemoryCoordinator} {parser : Parser} {files : List (String × String)}
  {path content : String} {r r' : Request Transaction} {f : Prepared} {report : BatchReport}
  {phase' : BatchPhase Transaction}

theorem Drafted.foretold {chunks : Nat} (h : start.Drafted parser files f)
    (hp : start.Penned f chunks) : start.Foretold parser files (.ok (f.report chunks)) := by
  refine ⟨f.content, h.mem, ?_⟩
  obtain ⟨hr, rfl⟩ := hp
  have hfate := h.drafts
  rw [Drafts, if_neg hr] at hfate
  change Except.ok _ = (start.fate parser f.path f.content).outcome start.chunker f.path
  rw [hfate, f.essence_report]
  rfl

theorem Drafted.foretold_failure (h : start.Drafted parser files f)
    (hr : f.path ∈ start.store.store.rules.rejected) (fault : Fault) :
    start.Foretold parser files (.error (f.writeFailure fault)) := by
  refine ⟨f.content, h.mem, ?_⟩
  have hfate := h.drafts
  rw [Drafts, if_pos hr] at hfate
  change Except.error _ = (start.fate parser f.path f.content).outcome start.chunker f.path
  rw [hfate]
  rfl

theorem foretold_error {error : IndexError} (hm : (path, content) ∈ files)
    (h : Stage.Bears start parser path content (.settled (.error error))) :
    error.path = path ∧ start.Foretold parser files (.error error) := by
  obtain ⟨rfl, hfate⟩ := h
  refine ⟨rfl, content, hm, ?_⟩
  change Except.error _ = (start.fate parser error.path content).outcome start.chunker error.path
  rw [hfate]
  rfl

theorem foretold_skipped {report : FileReport} (hm : (path, content) ∈ files)
    (h : Stage.Bears start parser path content (.settled (.ok (.skipped report)))) :
    report.path = path ∧ FileOutcome.wrote? (.ok report) = none ∧
      start.Foretold parser files (.ok report) := by
  obtain ⟨rfl, hmode, hessence⟩ := report_of_fate h
  refine ⟨rfl, if_pos hmode, content, hm, ?_⟩
  change Except.ok _ = (start.fate parser report.path content).outcome start.chunker report.path
  rw [hessence, show start.fate parser report.path content = .skipped report from h]
  rfl

/-! ## What a step does -/

/-- A step of a request: outcomes are settled, as the fates say, and what is committed
    is among them. -/
structure Advance (start : MemoryCoordinator) (parser : Parser) (files : List (String × String))
    (r : Request Transaction) (commit : Option (List Prepared)) (r' : Request Transaction)
    (settled : List FileOutcome) : Prop where
  pending : r.pending.Perm (r'.pending ++ settled.map FileOutcome.path)
  outcomes : r'.outcomes.Perm (r.outcomes ++ settled)
  wrote : settled.filterMap FileOutcome.wrote? = (commit.getD []).map (·.path)
  foretold : ∀ o ∈ settled, start.Foretold parser files o
  committed : ∀ f ∈ commit.getD [], start.Drafted parser files f ∧
    f.path ∉ start.store.store.rules.rejected
  sure : start.Sure parser files r'
  held : ∀ p ∈ r'.held, p ∈ r.held ∨ p ∈ r.pending

theorem Advance.aims {commit : Option (List Prepared)} {settled : List FileOutcome}
    (h : Advance start parser files r commit r' settled) : r'.aims.Perm r.aims := by
  have houtcomes := h.outcomes.map FileOutcome.path
  rw [List.map_append] at houtcomes
  refine ((houtcomes.trans List.perm_append_comm).append_left r'.pending).trans ?_
  rw [← List.append_assoc]
  exact h.pending.symm.append_right _

theorem Advance.quiet (hp : r.pending.Perm r'.pending) (ho : r'.outcomes = r.outcomes)
    (hs : start.Sure parser files r') (hheld : ∀ p ∈ r'.held, p ∈ r.held ∨ p ∈ r.pending) :
    ∃ settled, Advance start parser files r none r' settled := by
  refine ⟨[], ?_, ?_, rfl, List.forall_mem_nil _, List.forall_mem_nil _, hs, hheld⟩
  · simpa using hp
  · rw [ho, List.append_nil]

theorem Advance.settle {o : FileOutcome} (hp : r.pending.Perm (r'.pending ++ [o.path]))
    (ho : r'.outcomes.Perm (r.outcomes ++ [o])) (hw : o.wrote? = none)
    (hf : start.Foretold parser files o) (hs : start.Sure parser files r')
    (hheld : ∀ p ∈ r'.held, p ∈ r.held ∨ p ∈ r.pending) :
    ∃ settled, Advance start parser files r none r' settled :=
  ⟨[o], hp, ho, by simp [hw], List.forall_mem_singleton.2 hf, List.forall_mem_nil _, hs, hheld⟩

/-- Nothing disturbs the store or the parser. -/
structure Unhindered (start : MemoryCoordinator) (parser : Parser)
    (asked : List (String × String)) (c : MemoryCoordinator) : Prop
    extends SameRules start c, Faultless start c where
  orderly : Orderly c
  regular : c.Regular parser asked

section
variable {asked : List (String × String)} {id : RequestId} {r : Request Transaction}
  (hu : Unhindered start parser asked c) (hd : Distinguished asked)
  (hasked : ∀ e ∈ files, e ∈ asked) (hr : c.requests.get? id = some r)
  (hprior : ∀ p ∈ r.pending, c.rows.prior p = start.rows.prior p)
  (hs : start.Sure parser files r)
include hu hd hasked hr hprior hs

theorem Unhindered.bears {slot : Slot} {stage : Stage} (hslot : slot ∈ r.slots)
    (hreads : slot.stage.Reads c.settings.incremental c.rows slot.path slot.content)
    (h : StageStep c slot.path slot.content slot.stage stage c') :
    stage.Bears start parser slot.path slot.content := by
  obtain ⟨Job, ht⟩ := hu.regular.traced
  have hmem : slot.path ∈ r.pending :=
    List.mem_append_left _ (List.mem_append_right _ (List.mem_map_of_mem hslot))
  obtain ⟨hfile, hbears⟩ := hs.slots slot hslot
  exact h.bears hu.orderly.backend hu.faults hu.settings (hprior _ hmem) hu.regular.wired
    ht.toSourced hd (hasked _ hfile) hreads ((ht.request hr).slots slot hslot).2 hbears

end

theorem BatchStep.advance_arriving {todo : List (String × String)} {slots : List Slot}
    (hfree : ∀ e ∈ todo, e.1 ∉ c.leases)
    (hs : start.Sure parser files (.batch (.arriving todo slots report)))
    (h : BatchStep c (.arriving todo slots report) phase' c') :
    ∃ settled, Advance start parser files (.batch (.arriving todo slots report)) none
      (.batch phase') settled := by
  cases h with
  | arrived =>
    exact Advance.quiet (.refl _) rfl ⟨List.forall_mem_nil _, hs.slots, List.forall_mem_nil _,
      trivial⟩ fun p hp => Or.inl hp
  | refused h => exact (hfree _ List.mem_cons_self h).elim
  | @leased path content todo _ _ h =>
    obtain ⟨hfile, htodo⟩ := List.forall_mem_cons.1 hs.todo
    refine Advance.quiet ?_ rfl ⟨htodo, ?_, List.forall_mem_nil _, trivial⟩ ?_
    · simp only [Request.pending, Request.todo, Request.slots, Request.ready, List.map_cons,
        List.map_append, List.map_nil, List.append_nil, List.cons_append]
      rw [← List.append_assoc]
      exact (List.perm_append_singleton _ _).symm
    · exact List.forall_mem_append.2 ⟨hs.slots, List.forall_mem_singleton.2 ⟨hfile, trivial⟩⟩
    · intro p hp
      simp only [Request.held, List.map_append, List.map_cons, List.map_nil, List.mem_append,
        List.mem_singleton] at hp
      refine hp.imp_right ?_
      rintro rfl
      exact List.mem_append_left _ (List.mem_append_left _ List.mem_cons_self)

/-- A step of a batch that writes a file, behind a savepoint. -/
theorem BatchStep.advance_writing {asked : List (String × String)} {id : RequestId}
    (hu : Unhindered start parser asked c)
    (hsavepoints : start.store.store.rules.savepoints = true) {held : List String}
    {tx : Transaction} {todo : List Prepared} {index : Nat} {savepoints : Bool}
    {written : List (Prepared × Nat)} (hr : c.requests.get? id =
      some (.batch (.writing held tx todo index savepoints written report)))
    (hs : start.Sure parser files (.batch (.writing held tx todo index savepoints written report)))
    (h : BatchStep c (.writing held tx todo index savepoints written report) phase' c') :
    ∃ settled, Advance start parser files
      (.batch (.writing held tx todo index savepoints written report)) none (.batch phase')
      settled := by
  have hf := hu.orderly.faithful _ (Table.mem_values_of_get? hr)
  have hrejected := congrArg WriteRules.rejected hu.rules
  have hsaves := (congrArg WriteRules.savepoints hu.rules).trans hsavepoints
  have hheld : ∀ p ∈ held, p ∈ held ∨ p ∈ (Request.batch
      (.writing held tx todo index savepoints written report) : Request Transaction).pending :=
    fun p hp => Or.inl hp
  obtain ⟨rfl, hpens⟩ := hs.pens
  have hready := hs.ready
  rw [Request.ready, List.forall_mem_append] at hready
  cases todo with
  | nil =>
    cases h
    refine Advance.quiet (.of_eq ?_) rfl ⟨List.forall_mem_nil _, List.forall_mem_nil _,
      hready.1, hpens⟩ hheld
    simp [Request.pending, Request.todo, Request.slots, Request.ready]
  | cons file rest =>
    obtain ⟨hwritten, hrest⟩ := hready
    rw [List.forall_mem_cons] at hrest
    rcases h.write_faultless hu.orderly.backend hu.faults hsaves hu.orderly.sound hf with
      ⟨hpath, tx', rfl⟩ | ⟨hpath, tx', fault, rfl⟩
    · refine Advance.quiet (.of_eq ?_) rfl ⟨List.forall_mem_nil _, List.forall_mem_nil _, ?_, rfl,
        ?_⟩ hheld
      · simp [Request.pending, Request.todo, Request.slots, Request.ready]
      · rw [Request.ready, List.map_append, List.forall_mem_append, List.forall_mem_append]
        exact ⟨⟨hwritten, List.forall_mem_singleton.2 hrest.1⟩, hrest.2⟩
      · refine List.forall_mem_append.2 ⟨hpens, List.forall_mem_singleton.2 ⟨?_, ?_⟩⟩
        · rwa [hrejected] at hpath
        · rw [hu.chunker]
    · rw [hrejected] at hpath
      refine Advance.settle ?_ (.of_eq (report.outcomes_fail _)) rfl
        (hrest.1.foretold_failure hpath fault)
        ⟨List.forall_mem_nil _, List.forall_mem_nil _,
          List.forall_mem_append.2 ⟨hwritten, hrest.2⟩, rfl, hpens⟩ hheld
      simp only [Request.pending, Request.todo, Request.slots, Request.ready, List.map_nil,
        List.nil_append]
      have hperm := perm_pick (·.path) (written.map (·.1)) file rest []
      rwa [List.append_nil, List.append_nil] at hperm

section
variable {asked : List (String × String)} {id : RequestId}
  (hu : Unhindered start parser asked c) (hd : Distinguished asked)
  (hasked : ∀ e ∈ files, e ∈ asked)
include hu hd hasked

theorem FileStep.advance {phase phase' : FilePhase Transaction}
    (hr : c.requests.get? id = some (.file path content phase))
    (hfree : ∀ e ∈ (Request.file path content phase).todo, e.1 ∉ c.leases)
    (hprior : ∀ p ∈ (Request.file path content phase).pending,
      c.rows.prior p = start.rows.prior p)
    (hs : start.Sure parser files (.file path content phase))
    (h : FileStep c path content phase phase' c') :
    ∃ settled, Advance start parser files (.file path content phase)
      (c.commitOf? (.file path content phase)) (.file path content phase') settled := by
  have hf := hu.orderly.faithful _ (Table.mem_values_of_get? hr)
  have hb := hu.orderly.backend
  have hrejected := congrArg WriteRules.rejected hu.rules
  -- a request that has no file at hand any more
  have hover : ∀ {phase'}, (Request.file path content phase').todo = [] →
      (Request.file path content phase').slots = [] →
      (Request.file path content phase').ready = [] →
      start.Pens (.file path content phase') →
      start.Sure parser files (.file path content phase') := by
    intro phase' htodo hslots hready hpens
    refine ⟨?_, ?_, ?_, hpens⟩
    · rw [htodo]; exact List.forall_mem_nil _
    · rw [hslots]; exact List.forall_mem_nil _
    · rw [hready]; exact List.forall_mem_nil _
  cases h with
  | refused h => exact (hfree (path, content) List.mem_cons_self h).elim
  | leased =>
    refine Advance.quiet (.refl _) rfl ⟨List.forall_mem_nil _, ?_, List.forall_mem_nil _, trivial⟩
      fun p hp => Or.inr hp
    exact List.forall_mem_singleton.2 ⟨hs.todo _ List.mem_cons_self, trivial⟩
  | @prepared stage stage' _ h =>
    have hslot : ({ path, content, stage } : Slot) ∈
        (Request.file path content (.preparing stage) : Request Transaction).slots :=
      List.mem_cons_self
    have hbears := hu.bears hd hasked hr hprior hs hslot hf h
    exact Advance.quiet (.refl _) rfl ⟨List.forall_mem_nil _,
      List.forall_mem_singleton.2 ⟨(hs.slots _ hslot).1, hbears⟩, List.forall_mem_nil _, trivial⟩
      fun p hp => Or.inl hp
  | failed =>
    obtain ⟨hfile, hbears⟩ := hs.slots _ List.mem_cons_self
    obtain ⟨hpath, hforetold⟩ := foretold_error hfile hbears
    refine Advance.settle ?_ (.refl _) rfl hforetold (hover rfl rfl rfl trivial)
      fun p hp => Or.inl hp
    exact .of_eq (congrArg (fun p => [p]) hpath.symm)
  | skipped =>
    obtain ⟨hfile, hbears⟩ := hs.slots _ List.mem_cons_self
    obtain ⟨hpath, hwrote, hforetold⟩ := foretold_skipped hfile hbears
    refine Advance.settle ?_ (.refl _) hwrote hforetold (hover rfl rfl rfl trivial)
      fun p hp => Or.inl hp
    exact .of_eq (congrArg (fun p => [p]) hpath.symm)
  | ready =>
    obtain ⟨hfile, hbears⟩ := hs.slots _ List.mem_cons_self
    obtain ⟨hpath, hcontent, -⟩ := hf
    refine Advance.quiet (.of_eq (congrArg (fun p => [p]) hpath.symm)) rfl
      ⟨List.forall_mem_nil _, List.forall_mem_nil _, ?_, trivial⟩ fun p hp => Or.inl hp
    refine List.forall_mem_singleton.2 ⟨?_, hbears⟩
    rw [hpath, hcontent]
    exact hfile
  | unopened _ h =>
    rw [hb, FaultyStore.openTransaction_faultless hu.faults] at h
    cases h
  | opened =>
    exact Advance.quiet (.refl _) rfl
      ⟨List.forall_mem_nil _, List.forall_mem_nil _, hs.ready, trivial⟩ fun p hp => Or.inl hp
  | unwritten h =>
    rcases (FileStep.unwritten h).write_faultless hb hu.faults hu.orderly.sound hf with
      ⟨-, tx', he⟩ | ⟨hpath, -⟩
    · cases he
    · rw [hrejected] at hpath
      exact Advance.settle (.refl _) (.refl _) rfl
        ((hs.ready _ List.mem_cons_self).foretold_failure hpath _) (hover rfl rfl rfl trivial)
        fun p hp => Or.inl hp
  | wrote h =>
    rcases (FileStep.wrote h).write_faultless hb hu.faults hu.orderly.sound hf with
      ⟨hpath, tx', he⟩ | ⟨-, tx', fault, he⟩
    · cases he
      rw [hrejected] at hpath
      exact Advance.quiet (.refl _) rfl ⟨List.forall_mem_nil _, List.forall_mem_nil _, hs.ready,
        hpath, by rw [hu.chunker]⟩ fun p hp => Or.inl hp
    · cases he
  | uncommitted h =>
    rw [hb, FaultyStore.commit_faultless hu.faults] at h
    cases h
  | @committed f tx chunks _ h =>
    have hdrafted := hs.ready f List.mem_cons_self
    have hcommit : c.commitOf? (.file path content (.committing f tx chunks)) = some [f] := by
      rw [commitOf?, h]
      rfl
    rw [hcommit]
    refine ⟨[.ok (f.report chunks)], .refl _, .refl _, ?_, ?_, ?_, hover rfl rfl rfl trivial,
      fun p hp => Or.inl hp⟩
    · simp [f.wrote?_report]
    · exact List.forall_mem_singleton.2 (hdrafted.foretold hs.pens)
    · exact List.forall_mem_singleton.2 ⟨hdrafted, hs.pens.1⟩
  | undone | trimmed =>
    exact Advance.quiet (.refl _) rfl (hover rfl rfl rfl trivial) fun p hp => Or.inl hp
  | closed =>
    exact Advance.quiet (.refl _) rfl (hover rfl rfl rfl trivial) (List.forall_mem_nil _)

theorem BatchStep.advance_preparing {held : List String} {slots : List Slot} {ready : List Prepared}
    (hr : c.requests.get? id = some (.batch (.preparing held slots ready report)))
    (hprior : ∀ p ∈ (Request.batch (.preparing held slots ready report) :
      Request Transaction).pending, c.rows.prior p = start.rows.prior p)
    (hs : start.Sure parser files (.batch (.preparing held slots ready report)))
    (h : BatchStep c (.preparing held slots ready report) phase' c') :
    ∃ settled, Advance start parser files (.batch (.preparing held slots ready report)) none
      (.batch phase') settled := by
  have hf := hu.orderly.faithful _ (Table.mem_values_of_get? hr)
  have hheld : ∀ p ∈ held, p ∈ held ∨
      p ∈ (Request.batch (.preparing held slots ready report) : Request Transaction).pending :=
    fun p hp => Or.inl hp
  cases h with
  | nothing =>
    exact Advance.quiet (.refl _) rfl ⟨List.forall_mem_nil _, List.forall_mem_nil _,
      List.forall_mem_nil _, trivial⟩ hheld
  | gathered =>
    exact Advance.quiet (.refl _) rfl ⟨List.forall_mem_nil _, List.forall_mem_nil _, hs.ready,
      trivial⟩ hheld
  | @prepared _ before after slot _ _ stage _ h =>
    have hslot : slot ∈ before ++ slot :: after := List.mem_append_right _ List.mem_cons_self
    have hbears := hu.bears hd hasked hr hprior hs hslot (hf.reads slot hslot) h
    have hslots := hs.slots
    simp only [Request.slots, List.forall_mem_append, List.forall_mem_cons] at hslots
    refine Advance.quiet (.of_eq ?_) rfl ⟨List.forall_mem_nil _, ?_, hs.ready, trivial⟩ hheld
    · simp [Request.pending, Request.todo, Request.slots, Request.ready]
    · simp only [Request.slots, List.forall_mem_append, List.forall_mem_cons]
      exact ⟨hslots.1, ⟨hslots.2.1.1, hbears⟩, hslots.2.2⟩
  | @failed _ before after slot _ _ error h =>
    have hslots := hs.slots
    simp only [Request.slots, List.forall_mem_append, List.forall_mem_cons] at hslots
    obtain ⟨hbefore, ⟨hfile, hbears⟩, hafter⟩ := hslots
    rw [h] at hbears
    obtain ⟨hpath, hforetold⟩ := foretold_error hfile hbears
    refine Advance.settle ?_ (.of_eq (report.outcomes_fail error)) rfl hforetold
      ⟨List.forall_mem_nil _, List.forall_mem_append.2 ⟨hbefore, hafter⟩, hs.ready, trivial⟩ hheld
    rw [FileOutcome.path, hpath]
    exact perm_pick Slot.path before slot after (ready.map (·.path))
  | @skipped _ before after slot _ _ file h =>
    have hslots := hs.slots
    simp only [Request.slots, List.forall_mem_append, List.forall_mem_cons] at hslots
    obtain ⟨hbefore, ⟨hfile, hbears⟩, hafter⟩ := hslots
    rw [h] at hbears
    obtain ⟨hpath, hwrote, hforetold⟩ := foretold_skipped hfile hbears
    refine Advance.settle ?_ (report.perm_outcomes_succeed [file]) hwrote hforetold
      ⟨List.forall_mem_nil _, List.forall_mem_append.2 ⟨hbefore, hafter⟩, hs.ready, trivial⟩ hheld
    rw [FileOutcome.path, hpath]
    exact perm_pick Slot.path before slot after (ready.map (·.path))
  | @ready _ before after slot _ _ file h =>
    have hslots := hs.slots
    simp only [Request.slots, List.forall_mem_append, List.forall_mem_cons] at hslots
    obtain ⟨hbefore, ⟨hfile, hbears⟩, hafter⟩ := hslots
    have hreads := hf.reads slot (List.mem_append_right _ List.mem_cons_self)
    rw [h] at hbears hreads
    obtain ⟨hpath, hcontent, -⟩ := hreads
    refine Advance.quiet ?_ rfl ⟨List.forall_mem_nil _,
      List.forall_mem_append.2 ⟨hbefore, hafter⟩, ?_, trivial⟩ hheld
    · have hperm := perm_pick Slot.path before slot after (ready.map (·.path))
      rw [List.append_assoc, ← hpath] at hperm
      simpa [Request.pending, Request.todo, Request.slots, Request.ready] using hperm
    · refine List.forall_mem_append.2 ⟨hs.ready, List.forall_mem_singleton.2 ⟨?_, hbears⟩⟩
      rw [hpath, hcontent]
      exact hfile

/-- A step of a request for a batch, on a store with savepoints. -/
theorem BatchStep.advance (hsavepoints : start.store.store.rules.savepoints = true)
    {phase : BatchPhase Transaction} (hr : c.requests.get? id = some (.batch phase))
    (hfree : ∀ e ∈ (Request.batch phase : Request Transaction).todo, e.1 ∉ c.leases)
    (hprior : ∀ p ∈ (Request.batch phase).pending, c.rows.prior p = start.rows.prior p)
    (hs : start.Sure parser files (.batch phase)) (h : BatchStep c phase phase' c') :
    ∃ settled, Advance start parser files (.batch phase) (c.commitOf? (.batch phase))
      (.batch phase') settled := by
  have hb := hu.orderly.backend
  cases phase with
  | arriving todo slots report => exact h.advance_arriving hfree hs
  | preparing held slots ready report => exact h.advance_preparing hu hd hasked hr hprior hs
  | writing held tx todo index savepoints written report =>
    exact h.advance_writing hu hsavepoints hr hs
  | undoing held tx report => cases hs.pens
  | opening held ready report =>
    cases h with
    | unopened _ h =>
      rw [hb, FaultyStore.openTransaction_faultless hu.faults] at h
      cases h
    | opened =>
      exact Advance.quiet (.refl _) rfl ⟨List.forall_mem_nil _, List.forall_mem_nil _, hs.ready,
        rfl, List.forall_mem_nil _⟩ fun p hp => Or.inl hp
  | committing held tx written report =>
    cases h with
    | uncommitted h =>
      rw [hb, FaultyStore.commit_faultless hu.faults] at h
      cases h
    | committed h =>
      have hready := List.forall_mem_map.1 hs.ready
      have hcommit : c.commitOf? (.batch (.committing held tx written report)) =
          some (written.map (·.1)) := by
        rw [commitOf?, h]
        rfl
      rw [hcommit]
      refine ⟨written.map fun w => .ok (w.1.report w.2), .of_eq ?_, .refl _, ?_, ?_, ?_,
        ⟨List.forall_mem_nil _, List.forall_mem_nil _, List.forall_mem_nil _, trivial⟩,
        fun p hp => Or.inl hp⟩
      · simp [Request.pending, Request.todo, Request.slots, Request.ready, FileOutcome.path,
          Prepared.report]
      · simp [List.filterMap_map, Function.comp_def, Prepared.wrote?_report]
      · exact List.forall_mem_map.2 fun w hw => (hready w hw).foretold (hs.pens w hw)
      · exact List.forall_mem_map.2 fun w hw => ⟨hready w hw, (hs.pens w hw).1⟩
  | trimming held written report =>
    cases h
    refine ⟨[], .refl _, ?_, rfl, List.forall_mem_nil _, List.forall_mem_nil _,
      ⟨List.forall_mem_nil _, List.forall_mem_nil _, List.forall_mem_nil _, trivial⟩,
      fun p hp => Or.inl hp⟩
    have hperm := report.perm_outcomes_succeed (written.map fun w => w.1.report w.2)
    rw [List.map_map] at hperm
    rw [List.append_nil]
    exact hperm
  | closing held report =>
    cases h
    exact Advance.quiet (.refl _) rfl ⟨List.forall_mem_nil _, List.forall_mem_nil _,
      List.forall_mem_nil _, trivial⟩ (List.forall_mem_nil _)
  | done report => cases h

theorem RequestStep.advance (hsavepoints : start.store.store.rules.savepoints = true)
    (h : RequestStep c r r' c') (hr : c.requests.get? id = some r)
    (hfree : ∀ e ∈ r.todo, e.1 ∉ c.leases)
    (hprior : ∀ p ∈ r.pending, c.rows.prior p = start.rows.prior p)
    (hs : start.Sure parser files r) :
    ∃ settled, Advance start parser files r (c.commitOf? r) r' settled := by
  cases h with
  | file h => exact h.advance hu hd hasked hr hfree hprior hs
  | batch h => exact h.advance hu hd hasked hsavepoints hr hfree hprior hs

end

end Coordinator

end SourceIndex
