/-
  Every report is true of the step of its request that it is about.

  * `Request.reports`, `Request.staged`: the reports that a request has settled, and the
    files that it has written but not committed;
  * `Coordinator.Arises`: a report comes up when the content is found to be stored
    already, or when the file is committed;
  * `FileStep.arises`, `BatchStep.arises`: a step settles reports only as they come up;
  * `Chronicle.Fulfils`, `tells_of_run`: so the report of a request is accurate for one of
    its steps;
  * `OpenedWith.reports_accurate`: in every run from the start.
-/
import SourceIndex.Proofs.Accuracy

namespace SourceIndex

/-! ## The reports of a request -/

/-- The report of a preparation that has found its content stored already. -/
def Stage.skipped? : Stage → Option FileReport
  | .settled (.ok (.skipped report)) => some report
  | _ => none

namespace Request

variable {τ : Type}

/-- The reports that are settled: on files that are skipped or committed. -/
def reports : Request τ → List FileReport
  | .file _ _ (.preparing stage) => stage.skipped?.toList
  | .file _ _ (.trimming f chunks) => [f.report chunks]
  | .file _ _ (.closing (.ok report)) | .file _ _ (.done (.ok report)) => [report]
  | .file _ _ _ => []
  | .batch (.preparing _ slots _ report) =>
    report.succeeded ++ slots.filterMap (·.stage.skipped?)
  | .batch (.trimming _ written report) =>
    report.succeeded ++ written.map fun w => w.1.report w.2
  | .batch (.arriving _ _ report) | .batch (.opening _ _ report)
  | .batch (.writing _ _ _ _ _ _ report) | .batch (.undoing _ _ report)
  | .batch (.committing _ _ _ report) | .batch (.closing _ report)
  | .batch (.done report) => report.succeeded

/-- The files that a request has written but not committed yet, with the numbers of
    their chunks. -/
def staged : Request τ → List (Prepared × Nat)
  | .file _ _ (.committing f _ chunks) => [(f, chunks)]
  | .batch (.writing _ _ _ _ _ written _) | .batch (.committing _ _ written _) => written
  | _ => []

end Request

/-- The reports of an outcome, on one file or on many. -/
def RequestOutcome.reports : RequestOutcome → List FileReport
  | .file (.ok report) => [report]
  | .file (.error _) => []
  | .batch report => report.succeeded

/-- The reports of a request that is done. -/
def Request.reports? {τ : Type} (r : Request τ) : Option (List FileReport) :=
  r.outcome?.map RequestOutcome.reports

theorem Request.reports_eq {τ : Type} {r : Request τ} {reports : List FileReport}
    (h : r.reports? = some reports) : r.reports = reports := by
  cases r with
  | file path content phase =>
    cases phase with
    | done outcome =>
      cases h
      cases outcome <;> rfl
    | _ => cases h
  | batch phase =>
    cases phase with
    | done report => cases h; rfl
    | _ => cases h

namespace Coordinator

variable {c c' : MemoryCoordinator} {path content : String} {report : FileReport} {x : Happening}
  {id : RequestId} {phase phase' : FilePhase Transaction} {w : Prepared × Nat}
  {r r' : Request Transaction}

/-- What is stored for the path has the fingerprint of the content. -/
def HasContent (c : MemoryCoordinator) (path content : String) : Prop :=
  (c.rows.file? path).map (·.contentHash) = some (.ofText content)

/-- How a report comes up in a step of a request: the content of a path that it holds is
    stored already and nothing is written, or the file is committed. -/
inductive Arises (c : MemoryCoordinator) (r : Request Transaction) : FileReport → Prop where
  | skipped {slot : Slot} (hnone : c.commitOf? r = none) (hslot : slot ∈ r.slots)
      (hheld : slot.path ∈ r.held) (hhas : c.HasContent slot.path slot.content) :
      Arises c r (.unchangedContent slot.path (c.rows.prior slot.path).symbols.length)
  | committed {files : List Prepared} {w : Prepared × Nat} (hcommit : c.commitOf? r = some files)
      (hf : w.1 ∈ files) (hw : w ∈ r.staged) : Arises c r (w.1.report w.2)

theorem StageStep.eq_of_skipped? {stage stage' : Stage}
    (h : StageStep c path content stage stage' c')
    (hr : stage.Reads c.settings.incremental c.rows path content)
    (hreport : report ∈ stage'.skipped?) :
    report = .unchangedContent path (c.rows.prior path).symbols.length ∧
      c.HasContent path content := by
  cases h with
  | @unchanged prior hsame =>
    cases hreport
    obtain rfl : prior = c.rows.prior path := hr
    rw [c.rows.prior_previous] at hsame
    exact ⟨rfl, hsame⟩
  | _ => cases hreport

theorem FileStep.arises (h : FileStep c path content phase phase' c')
    (hf : (Request.file path content phase).Faithful c.settings.incremental c.chunker c.rows)
    (hreport : report ∈ (Request.file path content phase').reports) :
    report ∈ (Request.file path content phase).reports ∨
      c.Arises (.file path content phase) report := by
  cases h with
  | @prepared stage _ _ hs =>
    obtain ⟨rfl, hhas⟩ := hs.eq_of_skipped? hf (Option.mem_toList.1 hreport)
    have hslot : ⟨path, content, stage⟩ ∈
        (Request.file path content (.preparing stage) : Request Transaction).slots :=
      List.mem_cons_self
    have harises := Arises.skipped (c := c) rfl hslot List.mem_cons_self hhas
    exact Or.inr harises
  | @committed file tx chunks _ hc =>
    have hcommit : c.commitOf? (.file path content (.committing file tx chunks)) = some [file] := by
      rw [commitOf?, hc]
      rfl
    cases List.mem_singleton.1 hreport
    exact Or.inr (.committed hcommit List.mem_cons_self List.mem_cons_self)
  | skipped | trimmed => exact Or.inl hreport
  | @closed outcome =>
    cases outcome with
    | error => cases hreport
    | ok => exact Or.inl hreport
  | _ => cases hreport

theorem BatchStep.arises {phase phase' : BatchPhase Transaction} (h : BatchStep c phase phase' c')
    (hf : (Request.batch phase).Faithful c.settings.incremental c.chunker c.rows)
    (hreport : report ∈ (Request.batch phase').reports) :
    report ∈ (Request.batch phase).reports ∨ c.Arises (.batch phase) report := by
  have hdrop : ∀ {before after : List Slot} {slot : Slot},
      ((before ++ after).filterMap (·.stage.skipped?)).Sublist
        ((before ++ slot :: after).filterMap (·.stage.skipped?)) :=
    (List.Sublist.append_left (List.sublist_cons_self _ _) _).filterMap _
  cases h with
  | arrived =>
    -- nothing is prepared yet
    rcases List.mem_append.1 hreport with hreport | hreport
    · exact Or.inl hreport
    · obtain ⟨slot, hslot, hskipped⟩ := List.mem_filterMap.1 hreport
      rw [hf slot hslot] at hskipped
      cases hskipped
  | @prepared _ before after slot _ _ stage _ hs =>
    rcases List.mem_append.1 hreport with hreport | hreport
    · exact Or.inl (List.mem_append_left _ hreport)
    obtain ⟨slot', hslot, hskipped⟩ := List.mem_filterMap.1 hreport
    have hold : slot' ∈ before ++ slot :: after → report ∈ (before ++ slot :: after).filterMap
        (·.stage.skipped?) := fun hm => List.mem_filterMap.2 ⟨slot', hm, hskipped⟩
    simp only [List.mem_append, List.mem_cons] at hslot
    rcases hslot with hslot | rfl | hslot
    · exact Or.inl (List.mem_append_right _ (hold (List.mem_append_left _ hslot)))
    · have hmem : slot ∈ before ++ slot :: after := List.mem_append_right _ List.mem_cons_self
      obtain ⟨rfl, hhas⟩ := hs.eq_of_skipped? (hf.reads slot hmem) hskipped
      exact Or.inr (.skipped rfl hmem (hf.mem_held slot hmem) hhas)
    · exact Or.inl (List.mem_append_right _
        (hold (List.mem_append_right _ (List.mem_cons_of_mem _ hslot))))
  | failed | ready => exact Or.inl ((hdrop.append_left _).subset hreport)
  | @skipped _ before after slot _ early file hs =>
    rw [Request.reports, BatchReport.succeed, List.append_assoc] at hreport
    rcases List.mem_append.1 hreport with hreport | hreport
    · exact Or.inl (List.mem_append_left _ hreport)
    rcases List.mem_cons.1 hreport with rfl | hreport
    · refine Or.inl (List.mem_append_right _ (List.mem_filterMap.2
        ⟨slot, List.mem_append_right _ List.mem_cons_self, ?_⟩))
      rw [hs]
      rfl
    · exact Or.inl (List.mem_append_right _ (hdrop.subset hreport))
  | nothing | gathered => exact Or.inl (List.mem_append_left _ hreport)
  | @committed _ _ written _ _ hc =>
    rcases List.mem_append.1 hreport with hreport | hreport
    · exact Or.inl hreport
    · obtain ⟨w, hw, rfl⟩ := List.mem_map.1 hreport
      exact Or.inr (.committed (by rw [commitOf?, hc]; rfl) (List.mem_map_of_mem hw) hw)
  | _ => exact Or.inl hreport

theorem FileStep.staged (hb : c.backend = FaultyStore.backend)
    (h : FileStep c path content phase phase' c')
    (hw : w ∈ (Request.file path content phase').staged) :
    w ∈ (Request.file path content phase).staged ∨ w.2 = (w.1.written c.chunker {}).1 := by
  cases h with
  | @wrote file _ _ chunks _ hrun =>
    rw [hb] at hrun
    cases List.mem_singleton.1 hw
    have hcount := ((file.carries_write c.chunker).run_spec hrun).2.2 _ rfl
    exact Or.inr ((congrArg Prod.fst hcount).trans (file.written_fst _ _ _))
  | _ => cases hw

theorem BatchStep.staged (hb : c.backend = FaultyStore.backend)
    {phase phase' : BatchPhase Transaction} (h : BatchStep c phase phase' c')
    (hw : w ∈ (Request.batch phase').staged) :
    w ∈ (Request.batch phase).staged ∨ w.2 = (w.1.written c.chunker {}).1 := by
  cases h with
  | @wrote _ _ file _ _ _ _ _ _ _ _ chunks hmark hrun =>
    rcases List.mem_append.1 hw with hw | hw
    · exact Or.inl hw
    · cases List.mem_singleton.1 hw
      have hcount := (markFile_write_spec hb hmark hrun).2.1 _ rfl
      exact Or.inr ((congrArg Prod.fst hcount).trans (file.written_fst _ _ _))
  | wroteAll | tookBack => exact Or.inl hw
  | _ => cases hw

/-- A request that was not there before has just come. -/
theorem undergo_of_absent (hx : c.undergo x = some c') (hnone : c.requests.get? id = none)
    (hr : c'.requests.get? id = some r) :
    (∃ path content, r = .ofFile path content) ∨ ∃ files, r = .ofFiles files := by
  have hreceive : ∀ {request}, (c.receive request).2.requests.get? id = some r → r = request := by
    intro request hr
    rcases Table.get?_of_put hr with ⟨-, rfl⟩ | ⟨-, hr⟩
    · rfl
    · cases hnone.symm.trans hr
  cases x with
  | disturb rejected faults => cases hx; cases hnone.symm.trans hr
  | act action =>
    cases change_of_act hx with
    | asked path content => exact Or.inl ⟨path, content, hreceive hr⟩
    | askedMany files => exact Or.inr ⟨files, hreceive hr⟩
    | @moved t r₁ r' c₁ hr₁ =>
      have hne : t.request ≠ id := fun he => by cases hnone.symm.trans (he ▸ hr₁)
      change (c.requests.put t.request r').get? id = some r at hr
      rw [Table.get?_put, if_neg hne] at hr
      cases hnone.symm.trans hr
    | _ => cases hnone.symm.trans hr

theorem RequestStep.staged (h : RequestStep c r r' c') (hb : c.backend = FaultyStore.backend)
    {w : Prepared × Nat} (hw : w ∈ r'.staged) :
    w ∈ r.staged ∨ w.2 = (w.1.written c.chunker {}).1 := by
  cases h with
  | file h => exact h.staged hb hw
  | batch h => exact h.staged hb hw

theorem RequestStep.arises (h : RequestStep c r r' c')
    (hf : r.Faithful c.settings.incremental c.chunker c.rows) {report : FileReport}
    (hreport : report ∈ r'.reports) : report ∈ r.reports ∨ c.Arises r report := by
  cases h with
  | file h => exact h.arises hf hreport
  | batch h => exact h.arises hf hreport

/-- All is in order, the chunks of a chunker point into its symbols, and those of the
    files that requests have staged are counted. -/
structure Counting (c : MemoryCoordinator) : Prop where
  orderly : Orderly c
  points : c.chunker.Points
  staged : ∀ {id r}, c.requests.get? id = some r →
    ∀ w ∈ r.staged, w.2 = (w.1.written c.chunker {}).1

/-- Whatever happens, a request counts the chunks of what it stages, and its reports are
    settled before or come up in a step of it. -/
theorem Counting.undergo_request (h : Counting c) (hx : c.undergo x = some c')
    (hr' : c'.requests.get? id = some r') :
    (∀ w ∈ r'.staged, w.2 = (w.1.written c.chunker {}).1) ∧ ∀ report ∈ r'.reports,
      (∃ r, c.requests.get? id = some r ∧ report ∈ r.reports) ∨
        ∃ place r, x = .act (.turn ⟨id, place⟩) ∧ c.requests.get? id = some r ∧
          c.Arises r report := by
  cases hr : c.requests.get? id with
  | none =>
    rcases undergo_of_absent hx hr hr' with ⟨path, content, rfl⟩ | ⟨files, rfl⟩ <;>
      exact ⟨List.forall_mem_nil _, List.forall_mem_nil _⟩
  | some r =>
    rcases h.orderly.undergo_of_request hx hr with ⟨place, r₁, c₁, rfl, hs, rfl⟩ | ⟨-, hsame⟩
    · obtain rfl : r₁ = r' := Option.some.inj ((Table.get?_put_self _ _ _).symm.trans hr')
      have hf := h.orderly.faithful _ (Table.mem_values_of_get? hr)
      refine ⟨fun w hw => (hs.staged h.orderly.backend hw).elim (h.staged hr w) fun hw => hw,
        fun report hm => (hs.arises hf hm).imp (fun hm => ⟨r, rfl, hm⟩) fun ha => ?_⟩
      exact ⟨place, r, rfl, rfl, ha⟩
    · obtain rfl : r = r' := Option.some.inj (hsame.symm.trans hr')
      exact ⟨h.staged hr, fun report hm => Or.inl ⟨r, rfl, hm⟩⟩

theorem Counting.undergo (h : Counting c) (hx : c.undergo x = some c') : Counting c' := by
  have hchunker := (h.orderly.undergo_rows hx).2.1
  refine ⟨h.orderly.undergo hx, hchunker ▸ h.points, fun hr' => ?_⟩
  rw [hchunker]
  exact (h.undergo_request hx hr').1

end Coordinator

namespace Chronicle

open Coordinator

variable {start s s' a b : Chronicle} {xs : List Happening} {id : RequestId}
  {report : FileReport}

/-- From `a` to `b` a request does what the report says about a path that it holds: it
    finds the content stored already and writes nothing, or it commits the file.  The
    counts are those of the rows just before and just after. -/
structure Fulfils (a : Chronicle) (t : Turn) (report : FileReport) (b : Chronicle) : Prop where
  held : ∃ r, a.coordinator.requests.get? t.request = some r ∧ report.path ∈ r.held
  cause : report.mode = .skipped ∧ b.coordinator.rows = a.coordinator.rows ∨
    ∃ files f, a.coordinator.commit? (.act (.turn t)) = some ⟨t.request, files⟩ ∧ f ∈ files ∧
      f.path = report.path ∧ f.mode = report.mode
  accurate : report.Accurate a.coordinator.rows b.coordinator.rows

theorem fulfils_of_arises (h : Counting a.coordinator) {place : Nat} {r : Request Transaction}
    (hr : a.coordinator.requests.get? id = some r)
    (hx : a.step (.act (.turn ⟨id, place⟩)) = some b) (ha : a.coordinator.Arises r report) :
    a.Fulfils ⟨id, place⟩ report b := by
  obtain ⟨c', hc, rfl⟩ := Option.map_eq_some_iff.1 hx
  have hsound := h.orderly.sound
  obtain ⟨-, -, hcoherent, hn, hrows⟩ := h.orderly.undergo_rows hc
  rw [commits_turn hr] at hcoherent hn hrows
  cases ha with
  | @skipped slot hnone hslot hheld hhas =>
    rw [hnone] at hrows
    have hsame : c'.rows = a.coordinator.rows := hrows
    refine ⟨⟨r, hr, hheld⟩, Or.inl ⟨rfl, hsame⟩, ?_⟩
    rw [hsame]
    exact FileReport.accurate_unchangedContent hsound.toWellFormed slot.path
  | @committed files w hcommit hf hw =>
    obtain ⟨f, chunks⟩ := w
    obtain rfl : chunks = (f.written a.coordinator.chunker {}).1 := h.staged hr _ hw
    have hheld : f.path ∈ r.held := by
      obtain ⟨t, r₁, he, hr₁, hheld⟩ := h.orderly.mem_commits hc
        (f := f) (by rw [commits_turn hr, hcommit]; exact hf)
      cases he
      cases hr.symm.trans hr₁
      exact hheld
    rw [hcommit] at hcoherent hn hrows
    refine ⟨⟨r, hr, hheld⟩, Or.inr ⟨files, f, ?_, hf, rfl, rfl⟩,
      hrows ▸ hcoherent.accurate hsound h.points hn hf⟩
    rw [commit?_turn hr, hcommit]
    rfl

/-- In the run a step of the request fulfils the report. -/
def Tells (s : Chronicle) (id : RequestId) (xs : List Happening) (report : FileReport)
    (s' : Chronicle) : Prop :=
  ∃ before place after a b, xs = before ++ .act (.turn ⟨id, place⟩) :: after ∧
    s.run before = some a ∧ a.step (.act (.turn ⟨id, place⟩)) = some b ∧ b.run after = some s' ∧
    a.Fulfils ⟨id, place⟩ report b

/-- A report that a request has after a run, but did not have before, is fulfilled in the
    run. -/
theorem tells_of_run (h : Counting s.coordinator) (hx : s.run xs = some s')
    {r' : Request Transaction} (hr' : s'.coordinator.requests.get? id = some r')
    (hm : report ∈ r'.reports) :
    (∃ r, s.coordinator.requests.get? id = some r ∧ report ∈ r.reports) ∨
      s.Tells id xs report s' := by
  induction xs generalizing s with
  | nil =>
    cases hx
    exact Or.inl ⟨r', hr', hm⟩
  | cons x xs ih =>
    obtain ⟨s₁, hs, hx⟩ := Option.bind_eq_some_iff.1 hx
    obtain ⟨c₁, hc, he⟩ := Option.map_eq_some_iff.1 hs
    subst he
    rcases ih (h.undergo hc) hx with ⟨r₁, hr₁, hm₁⟩ | ⟨before, place, after, a, b, rfl, ha, hab,
      hb, hf⟩
    · rcases (h.undergo_request hc hr₁).2 report hm₁ with hold | ⟨place, r, rfl, hr, harises⟩
      · exact Or.inl hold
      · exact Or.inr ⟨[], place, xs, s, _, rfl, rfl, hs, hx, fulfils_of_arises h hr hs harises⟩
    · exact Or.inr ⟨x :: before, place, after, a, b, rfl, (run_cons hs).trans ha, hab, hb, hf⟩

/-- A coordinator that has just been started, over a store that may hold rows.  Without a
    chunker of its own it cuts files as the settings say. -/
def OpenedWith (s : Chronicle) (chunker : Option Chunker) : Prop :=
  ∃ settings starts store, store.store.committed.Sound ∧ store.store.busy = false ∧
    Coordinator.start FaultyStore.backend settings chunker store starts = .ok s.coordinator ∧
    s.record = {}

theorem OpenedWith.counting {custom : Option Chunker} (h : start.OpenedWith custom)
    (hpoints : ∀ chunker ∈ custom, chunker.Points) :
    Counting start.coordinator ∧ ∀ id, start.coordinator.requests.get? id = none := by
  obtain ⟨settings, starts, store, hsound, hbusy, hstart, hrecord⟩ := h
  have hopened : start.Opened := ⟨settings, custom, starts, store, hsound, hbusy, hstart, hrecord⟩
  obtain ⟨settings', pool, -, -, hc⟩ := start_eq_ok hstart
  have hnone : ∀ id, start.coordinator.requests.get? id = none := fun id => by
    rw [hc]
    rfl
  refine ⟨⟨hopened.orderly, ?_, fun hr => ?_⟩, hnone⟩
  · rw [hc]
    cases custom with
    | none => exact points_chunkFile _
    | some chunker => exact hpoints chunker rfl
  · cases (hnone _).symm.trans hr

/-- **Reports tell the truth about the store.**  Every report of a request that is done,
    for one file or for many, was settled by a step of the request: it has found the
    content stored already, or has committed the file.  Of what is stored for the path just
    before and just after that step the report counts the symbols that are added, removed,
    modified and unchanged: their balance is the change in their number, as many symbols as
    are added or modified have new numbers, and as many chunks have new numbers as the
    report says were written.  The chunks of a chunker of one's own have to point into the
    symbols it is handed. -/
theorem OpenedWith.reports_accurate {custom : Option Chunker} (h : start.OpenedWith custom)
    (hpoints : ∀ chunker ∈ custom, chunker.Points) (hx : start.run xs = some s)
    {reports : List FileReport}
    (hr : (s.coordinator.requests.get? id).bind Request.reports? = some reports)
    (hm : report ∈ reports) : start.Tells id xs report s := by
  obtain ⟨hcounting, hnone⟩ := h.counting hpoints
  obtain ⟨r, hr, hreports⟩ := Option.bind_eq_some_iff.1 hr
  rw [← Request.reports_eq hreports] at hm
  refine (tells_of_run hcounting hx hr hm).resolve_left ?_
  rintro ⟨r₀, hr₀, -⟩
  cases (hnone id).symm.trans hr₀

/-- A coordinator that has just been started, with chunks of one line each, that lets any
    share of the symbols change. -/
def lined : Chronicle where
  coordinator := (Coordinator.start FaultyStore.backend
    { incremental := { changeRatioThreshold := 1 } } (some (chunkFile 1)) {} {}).toOption.get
      (by decide +kernel)

theorem lined_openedWith : lined.OpenedWith (some (chunkFile 1)) :=
  ⟨{ incremental := { changeRatioThreshold := 1 } }, {}, {}, .empty, rfl,
    start_eq_get (by decide +kernel), rfl⟩

/-- A file is written as a whole, then symbol by symbol, and then asked for again in a
    batch that writes another one. -/
theorem OpenedWith.reports_accurate_sample :
    let first := "a\nb\nc\nx"
    let second := "a\nz\nd\ny"
    let found (names : List String) : List Symbol :=
      names.zipIdx.map fun n => .ofLines n.1 .function (n.2 + 1) (n.2 + 1)
    let xs : List Happening := [.act (.index "p" first)] ++
      Happening.turns 1 4 ++ Happening.parse 0 (found ["a", "b", "c"]) ++
      Happening.turns 1 8 ++ [.act (.index "p" second)] ++
      Happening.turns 2 5 ++ Happening.parse 0 (found ["a", "b", "d"]) ++
      Happening.turns 2 8 ++ [.act (.batch [("p", second), ("q", "k")])] ++
      Happening.turns 3 10 ++ Happening.parse 0 (found ["k"]) ++ Happening.turns 3 10
    ∃ (s : Chronicle) (whole changed both : List FileReport),
      lined.OpenedWith (some (chunkFile 1)) ∧ Chunker.Points (chunkFile 1) ∧
      lined.run xs = some s ∧
      (s.coordinator.requests.get? 1).bind Request.reports? = some whole ∧
      (s.coordinator.requests.get? 2).bind Request.reports? = some changed ∧
      (s.coordinator.requests.get? 3).bind Request.reports? = some both ∧
      whole.map (fun r => (r.mode, r.added, r.chunksWritten)) = [(.full, 3, 4)] ∧
      changed.map (fun r =>
        (r.mode, r.added, r.removed, r.modified, r.unchanged, r.chunksWritten)) =
          [(.incremental, 1, 1, 1, 1, 3)] ∧
      both.map (fun r => (r.mode, r.unchanged, r.chunksWritten)) =
        [(.skipped, 3, 0), (.full, 0, 1)] ∧
      (∀ r ∈ whole, lined.Tells 1 xs r s) ∧ (∀ r ∈ changed, lined.Tells 2 xs r s) ∧
      ∀ r ∈ both, lined.Tells 3 xs r s := by
  intro first second found xs
  have hcheck : (lined.run xs).any (fun s =>
      ((s.coordinator.requests.get? 1).bind Request.reports?).any fun whole =>
        ((s.coordinator.requests.get? 2).bind Request.reports?).any fun changed =>
          ((s.coordinator.requests.get? 3).bind Request.reports?).any fun both =>
            decide (whole.map (fun r => (r.mode, r.added, r.chunksWritten)) = [(.full, 3, 4)] ∧
              changed.map (fun r =>
                (r.mode, r.added, r.removed, r.modified, r.unchanged, r.chunksWritten)) =
                  [(.incremental, 1, 1, 1, 1, 3)] ∧
              both.map (fun r => (r.mode, r.unchanged, r.chunksWritten)) =
                [(.skipped, 3, 0), (.full, 0, 1)])) = true := by
    decide +kernel
  obtain ⟨s, hs, hcheck⟩ := (Option.any_eq_true _ _).1 hcheck
  obtain ⟨whole, hwhole, hcheck⟩ := (Option.any_eq_true _ _).1 hcheck
  obtain ⟨changed, hchanged, hcheck⟩ := (Option.any_eq_true _ _).1 hcheck
  obtain ⟨both, hboth, hcheck⟩ := (Option.any_eq_true _ _).1 hcheck
  obtain ⟨hcounts₁, hcounts₂, hcounts₃⟩ := of_decide_eq_true hcheck
  have hpoints : ∀ chunker ∈ some (chunkFile 1), chunker.Points := by
    rintro chunker ⟨⟩
    exact points_chunkFile 1
  exact ⟨s, whole, changed, both, lined_openedWith, points_chunkFile 1, hs, hwhole, hchanged, hboth,
    hcounts₁, hcounts₂, hcounts₃,
    fun r hm => lined_openedWith.reports_accurate hpoints hs hwhole hm,
    fun r hm => lined_openedWith.reports_accurate hpoints hs hchanged hm,
    fun r hm => lined_openedWith.reports_accurate hpoints hs hboth hm⟩

end Chronicle

end SourceIndex
