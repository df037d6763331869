/-
  A batch does what requests for its files do one by one.

  What becomes of a file is settled by what is stored for its path when it is asked for.
  So it does not matter in which requests files of different paths are asked for, and in
  which order, but for the numbers that rows get.

  * `Coordinator.Poised`: nothing is under way, and nothing will fail by chance;
  * `Chronicle.Completes`: an undisturbed run after which all requests are done;
  * `Completes.dump_of_destined`, `Completes.dump_of_not_destined`: what is stored for each
    path after such a run;
  * `Completes.agree`: two such runs where the same files are asked for agree;
  * `Opened.batch_agrees`: a batch and any other requests for its files agree.
-/
import SourceIndex.Proofs.Course
import SourceIndex.Proofs.Renaming

namespace SourceIndex

/-- A new request comes. -/
def Happening.isRequest : Happening → Bool
  | .act (.index _ _) | .act (.batch _) => true
  | _ => false

theorem Happening.asks_of_isRequest_eq_false {x : Happening} (h : x.isRequest = false) :
    x.asks = [] := by
  cases x with
  | disturb rejected faults => rfl
  | act action =>
    cases action with
    | index | batch => cases h
    | _ => rfl

namespace Coordinator

variable {c c' : MemoryCoordinator} {parser : Parser} {asked : List (String × String)}

/-- All requests are done. -/
def Idle (c : MemoryCoordinator) : Prop :=
  ∀ q ∈ c.requests.values, q.outcome?.isSome

instance (c : MemoryCoordinator) : Decidable c.Idle :=
  inferInstanceAs (Decidable (∀ q ∈ c.requests.values, q.outcome?.isSome))

theorem Idle.recent (h : c.Idle) (start : MemoryCoordinator) :
    ∀ q ∈ start.recent c, q.outcome?.isSome := by
  intro q hq
  obtain ⟨e, he, rfl⟩ := List.mem_map.1 hq
  exact h _ (List.mem_map_of_mem (List.mem_filter.1 he).1)

/-- Nothing is under way, the store has savepoints and no faults, and fingerprints tell
    the revisions `asked` for apart. -/
structure Poised (parser : Parser) (asked : List (String × String)) (c : MemoryCoordinator) :
    Prop where
  orderly : Orderly c
  regular : c.Regular parser asked
  idle : c.Idle
  savepoints : c.store.store.rules.savepoints = true
  faults : c.store.faults = []
  distinguished : Distinguished asked

theorem undergo_lastRequest {x : Happening} (hx : c.undergo x = some c')
    (hr : x.isRequest = false) : c'.lastRequest = c.lastRequest := by
  cases x with
  | disturb rejected faults => cases hx; rfl
  | act action =>
    cases change_of_act hx with
    | asked | askedMany => cases hr
    | moved _ hs => exact hs.alike.lastRequest
    | _ => rfl

/-- The fate of the revision asked for of a path is to be written. -/
def Destined (start : MemoryCoordinator) (parser : Parser) (files : List (String × String))
    (path : String) (g : Prepared) : Prop :=
  ∃ content, (path, content) ∈ files ∧ start.fate parser path content = .written g

theorem Destined.mono {path : String} {g : Prepared} {files files' : List (String × String)}
    (h : c.Destined parser files path g) (hfiles : ∀ e ∈ files, e ∈ files') :
    c.Destined parser files' path g := by
  obtain ⟨content, hm, hfate⟩ := h
  exact ⟨content, hfiles _ hm, hfate⟩

end Coordinator

namespace Chronicle

open Coordinator

variable {start s₀ s s' : Chronicle} {parser : Parser} {asked files : List (String × String)}
  {xs ys : List Happening}

/-! ## Runs to the end -/

/-- In the run nothing disturbs the store, nothing crashes or runs out of time, and the
    parser says what the function says.  After it all requests are done. -/
structure Completes (parser : Parser) (s₀ : Chronicle) (xs : List Happening) (s : Chronicle) :
    Prop where
  run : s₀.run xs = some s
  regular : s₀.Regular parser xs
  undisturbed : ∀ x ∈ xs, x.disturbs = false
  idle : s.coordinator.Idle

section
variable (h : s₀.Completes parser xs s) (hp : s₀.coordinator.Poised parser asked)
  (hasked : ∀ e ∈ xs.flatMap Happening.asks, e ∈ asked)
  (hn : ((xs.flatMap Happening.asks).map (·.1)).Nodup) {path : String}
include h hp hasked hn

theorem Completes.course : Course s₀.coordinator parser asked (xs.flatMap Happening.asks)
    ((s₀.commitLog xs).flatMap Commit.files) s.coordinator := by
  have hstart : Course s₀.coordinator parser asked [] [] s₀.coordinator :=
    .refl hp.orderly hp.faults hp.regular fun hq => hp.idle _ (Table.mem_values_of_get? hq)
  exact course_run hstart hp.savepoints hp.distinguished h.regular h.undisturbed hasked hn h.run

theorem Completes.outcomes :
    ((s₀.coordinator.outcomesSince s.coordinator).map FileOutcome.essence).Perm
      ((xs.flatMap Happening.asks).map fun e =>
        (s₀.coordinator.fate parser e.1 e.2).outcome s₀.coordinator.chunker e.1) :=
  (h.course hp hasked hn).outcomes_of_idle hn (h.idle.recent s₀.coordinator)

theorem Completes.dump_of_destined {g : Prepared}
    (hg : s₀.coordinator.Destined parser (xs.flatMap Happening.asks) path g) :
    g.path = path ∧ ∃ rows : Rows, rows.Sound ∧
      rows.dump path = s₀.coordinator.rows.dump path ∧
      g.Fits s₀.coordinator.settings.incremental rows ∧
      s.coordinator.rows.dump path = (g.rowsAfter s₀.coordinator.chunker rows).dump path := by
  have hc := continues_run hp.orderly h.run
  obtain ⟨content, hm, hfate⟩ := hg
  obtain ⟨f, hfilter, rfl⟩ :=
    (h.course hp hasked hn).filter_writes hn (h.idle.recent s₀.coordinator) hm hfate
  obtain ⟨rows, hsound, hdump, hfits, hafter⟩ :=
    hc.coherent.dump_of_once hp.orderly.sound hfilter
  have hpath : f.path = path := by
    have hf := List.mem_singleton_self f
    rw [← hfilter] at hf
    exact of_decide_eq_true (List.mem_filter.1 hf).2
  refine ⟨hpath, rows, hsound, hdump, hfits.core, ?_⟩
  rw [hc.rows_eq, Prepared.rowsAfter_core]
  exact hafter

theorem Completes.dump_of_not_destined
    (hg : ¬∃ g, s₀.coordinator.Destined parser (xs.flatMap Happening.asks) path g) :
    s.coordinator.rows.dump path = s₀.coordinator.rows.dump path := by
  have hc := continues_run hp.orderly h.run
  rw [hc.rows_eq]
  refine hc.coherent.dump_replay hp.orderly.sound fun hm => hg ?_
  obtain ⟨f, hf, rfl⟩ := List.mem_map.1 hm
  obtain ⟨hfile, hfate⟩ := (h.course hp hasked hn).written f hf
  exact ⟨f.core, f.content, hfile, hfate⟩

/-- **Two runs where the same files are asked for** agree: the same is stored up to the
    numbers of rows, and the outcomes are the same. -/
theorem Completes.agree (h' : s₀.Completes parser ys s')
    (hperm : (xs.flatMap Happening.asks).Perm (ys.flatMap Happening.asks)) :
    s.coordinator.rows.SameUpToIds s'.coordinator.rows ∧
      ((s₀.coordinator.outcomesSince s.coordinator).map FileOutcome.essence).Perm
        ((s₀.coordinator.outcomesSince s'.coordinator).map FileOutcome.essence) := by
  have hasked' : ∀ e ∈ ys.flatMap Happening.asks, e ∈ asked := fun e he =>
    hasked e (hperm.mem_iff.2 he)
  have hn' := (hperm.map (·.1)).nodup_iff.1 hn
  have hs := (continues_run hp.orderly h.run).orderly.sound
  have hs' := (continues_run hp.orderly h'.run).orderly.sound
  refine ⟨hs.sameUpToIds hs' fun path => ?_, ?_⟩
  · by_cases hg : ∃ g, s₀.coordinator.Destined parser (xs.flatMap Happening.asks) path g
    · -- both runs write the same file, each on rows of its own
      obtain ⟨g, hg⟩ := hg
      obtain ⟨rfl, rows, hsound, hdump, hfits, hafter⟩ := h.dump_of_destined hp hasked hn hg
      obtain ⟨-, rows', hsound', hdump', hfits', hafter'⟩ :=
        h'.dump_of_destined hp hasked' hn' (hg.mono fun _ => hperm.mem_iff.1)
      refine ⟨.between rows rows', ?_⟩
      rw [hafter, hafter']
      exact hfits.rename_dump _ hfits' hsound hsound' (hdump'.trans hdump.symm)
    · have hg' : ¬∃ g, s₀.coordinator.Destined parser (ys.flatMap Happening.asks) path g := by
        rintro ⟨g, hg'⟩
        exact hg ⟨g, hg'.mono fun _ => hperm.mem_iff.2⟩
      refine ⟨.same, ?_⟩
      rw [StoreDump.rename_same, h.dump_of_not_destined hp hasked hn hg,
        h'.dump_of_not_destined hp hasked' hn' hg']
  · exact ((h.outcomes hp hasked hn).trans (hperm.map _)).trans
      (h'.outcomes hp hasked' hn').symm

end

/-! ## Batches -/

theorem lastRequest_run (hr : ∀ x ∈ xs, x.isRequest = false)
    (hx : s.run xs = some s') : s'.coordinator.lastRequest = s.coordinator.lastRequest := by
  induction xs generalizing s with
  | nil => cases hx; rfl
  | cons x xs ih =>
    obtain ⟨s₁, hs, hx⟩ := Option.bind_eq_some_iff.1 hx
    obtain ⟨c₁, hc, rfl⟩ := Option.map_eq_some_iff.1 hs
    rw [List.forall_mem_cons] at hr
    exact (ih hr.2 hx).trans (undergo_lastRequest hc hr.1)

/-- A batch that is the only request of a run ends with a report, which tells all
    outcomes. -/
theorem report_of_batch (h : Orderly s₀.coordinator) (hys : ∀ y ∈ ys, y.isRequest = false)
    (hx : s₀.run (.act (.batch files) :: ys) = some s) (hidle : s.coordinator.Idle) :
    ∃ report, s.coordinator.requests.get? (s₀.coordinator.lastRequest + 1) =
        some (.batch (.done report)) ∧
      s₀.coordinator.outcomesSince s.coordinator = report.outcomes := by
  obtain ⟨s₁, hs, hx⟩ := Option.bind_eq_some_iff.1 hx
  have h₁ : Orderly s₁.coordinator := (continues_step h hs).orderly
  have h₂ : Orderly s.coordinator := orderly_run h₁ hx
  have hlast : s₁.coordinator.lastRequest = s₀.coordinator.lastRequest + 1 := by
    obtain ⟨c₁, hc, rfl⟩ := Option.map_eq_some_iff.1 hs
    cases hc
    rfl
  have hlast' := (lastRequest_run hys hx).trans hlast
  obtain ⟨phase, hphase, -⟩ := follow_batch (I := fun _ => True) (P := fun _ _ => True)
    (fun _ _ _ _ => trivial) (fun _ _ _ _ _ => trivial) h₁ trivial (request_of_batch hs) []
    trivial hx
  rw [hlast] at hphase
  have hdone := hidle _ (Table.mem_values_of_get? hphase)
  cases phase with
  | done report =>
    have hrecent : s₀.coordinator.recent s.coordinator = [.batch (.done report)] :=
      Table.valuesAbove_eq_singleton h₂.nodup (hlast' ▸ h₂.le) hphase
    exact ⟨report, hphase, by rw [outcomesSince, hrecent, List.flatMap_singleton]; rfl⟩
  | _ => cases hdone

theorem asked_run (hx : s.run xs = some s') :
    s'.record.asked = s.record.asked ++ xs.flatMap Happening.asks := by
  induction xs generalizing s with
  | nil => cases hx; simp
  | cons x xs ih =>
    obtain ⟨s₁, hs, hx⟩ := Option.bind_eq_some_iff.1 hx
    obtain ⟨c₁, -, rfl⟩ := Option.map_eq_some_iff.1 hs
    rw [ih hx, List.flatMap_cons, ← List.append_assoc]
    rfl

/-- **A batch agrees with other requests for its files**, such as requests for one file
    each, in any order and beside each other or not.  If the parser is a function, the
    store has savepoints and fails for some paths only, and no two revisions of a path have
    the same fingerprint, then from a state where all requests are done both lead to rows
    that are the same up to their numbers, and the report of the batch tells the outcomes of
    the other requests. -/
theorem Opened.batch_agrees {b z : Chronicle} {zs : List Happening} (h : start.Opened)
    (hxs : start.run xs = some s₀) (hparser : start.Regular parser xs)
    (hidle : s₀.coordinator.Idle)
    (hsavepoints : s₀.coordinator.store.store.rules.savepoints = true)
    (hfaults : s₀.coordinator.store.faults = []) (hn : (files.map (·.1)).Nodup)
    (hdistinguished : Distinguished (s₀.record.asked ++ files))
    (hb : s₀.Completes parser (.act (.batch files) :: ys) b) (hys : ∀ y ∈ ys, y.isRequest = false)
    (hz : s₀.Completes parser zs z) (hzs : (zs.flatMap Happening.asks).Perm files) :
    b.coordinator.rows.SameUpToIds z.coordinator.rows ∧
      ∃ report, b.coordinator.requests.get? (s₀.coordinator.lastRequest + 1) =
          some (.batch (.done report)) ∧
        (report.outcomes.map FileOutcome.essence).Perm
          ((s₀.coordinator.outcomesSince z.coordinator).map FileOutcome.essence) := by
  have ho := orderly_run h.orderly hxs
  have hpast : ∀ x ∈ xs, ∀ e ∈ x.asks, e ∈ s₀.record.asked ++ files := by
    intro x hx e he
    rw [asked_run hxs]
    exact List.mem_append_left _ (List.mem_append_right _ (List.mem_flatMap.2 ⟨x, hx, he⟩))
  have hpoised : s₀.coordinator.Poised parser (s₀.record.asked ++ files) :=
    ⟨ho, regular_run h.regular hparser hpast hxs, hidle, hsavepoints, hfaults,
      hdistinguished⟩
  have hasks : (Happening.act (.batch files) :: ys).flatMap Happening.asks = files := by
    have hnil : ys.flatMap Happening.asks = [] :=
      List.flatMap_eq_nil_iff.2 fun y hy => Happening.asks_of_isRequest_eq_false (hys y hy)
    rw [List.flatMap_cons, hnil, List.append_nil]
    rfl
  obtain ⟨hrows, houtcomes⟩ := hb.agree hpoised
    (by rw [hasks]; exact fun e => List.mem_append_right _) (by rw [hasks]; exact hn) hz
    (by rw [hasks]; exact hzs.symm)
  obtain ⟨report, hreport, hsince⟩ := report_of_batch ho hys hb.run hb.idle
  exact ⟨hrows, report, hreport, hsince ▸ houtcomes⟩

/-- Of five files one has a changed symbol, one is rejected by the store, one is rejected by
    the parser, one is new and one is unchanged.  Asked for in another order, the changed
    symbol gets another number. -/
theorem Opened.batch_agrees_sample :
    let symbols : List Symbol := [.ofLines "f" .function 1 1, .ofLines "g" .function 2 2]
    let malformed : ParserError := .malformed "c" "end of file"
    let parser : Parser := fun path _ =>
      if path = "c" then .error malformed
      else if path = "a" then .ok symbols else .ok (symbols.take 1)
    let refuse : List Happening := [.act (.pool .takeCommand), .act (.pool (.receive 0)),
      .act (.pool (.finish 0 (.returned (.error malformed)))), .act (.pool .takeEvent)]
    let xs : List Happening := [.act (.index "a" "f\ng")] ++ Happening.turns 1 4 ++
      Happening.parse 0 symbols ++ Happening.turns 1 8 ++ [.act (.index "e" "f")] ++
      Happening.turns 2 4 ++ Happening.parse 0 (symbols.take 1) ++ Happening.turns 2 8 ++
      [.disturb ["b"] []]
    let files : List (String × String) :=
      [("a", "f\nk"), ("b", "f"), ("c", "f"), ("d", "f"), ("e", "f")]
    let ys : List Happening := Happening.turns 3 10 ++
      [1, 2, 3].flatMap (fun place => List.replicate 3 (.act (.turn ⟨3, place⟩))) ++
      List.replicate 4 (.act (.turn ⟨3, 4⟩)) ++ Happening.parse 0 symbols ++
      Happening.parse 0 (symbols.take 1) ++ refuse ++ Happening.parse 0 (symbols.take 1) ++
      Happening.turns 3 20
    let zs : List Happening := [.act (.index "d" "f")] ++ Happening.turns 3 4 ++
      Happening.parse 0 (symbols.take 1) ++ Happening.turns 3 8 ++ [.act (.index "c" "f")] ++
      Happening.turns 4 4 ++ refuse ++ Happening.turns 4 3 ++ [.act (.index "e" "f")] ++
      Happening.turns 5 6 ++ [.act (.index "b" "f")] ++ Happening.turns 6 4 ++
      Happening.parse 0 (symbols.take 1) ++ Happening.turns 6 7 ++ [.act (.index "a" "f\nk")] ++
      Happening.turns 7 5 ++ Happening.parse 0 symbols ++ Happening.turns 7 8
    let summary : FileOutcome → String × Option WriteMode := fun o =>
      (FileOutcome.path o, o.toOption.map FileReport.mode)
    ∃ s₀ b z report, sample.Opened ∧ sample.run xs = some s₀ ∧ sample.Regular parser xs ∧
      s₀.Completes parser (.act (.batch files) :: ys) b ∧ s₀.Completes parser zs z ∧
      (zs.flatMap Happening.asks).Perm files ∧
      b.coordinator.requests.get? 3 = some (.batch (.done report)) ∧
      report.outcomes.map summary = [("e", some .skipped), ("a", some .incremental),
        ("d", some .full), ("c", none), ("b", none)] ∧
      b.coordinator.rows.dump "a" ≠ z.coordinator.rows.dump "a" ∧
      b.coordinator.rows.SameUpToIds z.coordinator.rows ∧
      (report.outcomes.map FileOutcome.essence).Perm
        ((s₀.coordinator.outcomesSince z.coordinator).map FileOutcome.essence) := by
  intro symbols malformed parser refuse xs files ys zs summary
  have hcalm : (∀ x ∈ xs, x.Calm) ∧ (∀ x ∈ Happening.act (.batch files) :: ys, x.Calm) ∧
      ∀ x ∈ zs, x.Calm := by
    decide +kernel
  have hquiet : (∀ x ∈ Happening.act (.batch files) :: ys, x.disturbs = false) ∧
      (∀ x ∈ zs, x.disturbs = false) ∧ ∀ y ∈ ys, y.isRequest = false := by
    decide +kernel
  have hperm : (zs.flatMap Happening.asks).Perm files := by decide +kernel
  have hcheck : (sample.run xs).any (fun s₀ =>
      (s₀.run (.act (.batch files) :: ys)).any fun b => (s₀.run zs).any fun z =>
        decide ((∀ reply ∈ sample.replyLog xs, reply.Of parser) ∧ s₀.coordinator.Idle ∧
          s₀.coordinator.store.store.rules.savepoints = true ∧
          s₀.coordinator.store.faults = [] ∧ Distinguished (s₀.record.asked ++ files) ∧
          (∀ reply ∈ s₀.replyLog (.act (.batch files) :: ys), reply.Of parser) ∧
          b.coordinator.Idle ∧ (∀ reply ∈ s₀.replyLog zs, reply.Of parser) ∧
          z.coordinator.Idle ∧ s₀.coordinator.lastRequest = 2 ∧
          (b.coordinator.requests.get? 3).map (fun r => r.outcomes.map summary) =
            some [("e", some .skipped), ("a", some .incremental), ("d", some .full), ("c", none),
              ("b", none)] ∧
          b.coordinator.rows.dump "a" ≠ z.coordinator.rows.dump "a")) = true := by
    decide +kernel
  obtain ⟨s₀, hs₀, hcheck⟩ := (Option.any_eq_true _ _).1 hcheck
  obtain ⟨b, hb, hcheck⟩ := (Option.any_eq_true _ _).1 hcheck
  obtain ⟨z, hz, hcheck⟩ := (Option.any_eq_true _ _).1 hcheck
  obtain ⟨hreplies, hidle, hsavepoints, hfaults, hdistinguished, hreplies₁, hidle₁, hreplies₂,
    hidle₂, hlast, hsummary, hne⟩ := of_decide_eq_true hcheck
  have hb' : s₀.Completes parser (.act (.batch files) :: ys) b :=
    ⟨hb, ⟨hcalm.2.1, hreplies₁⟩, hquiet.1, hidle₁⟩
  have hz' : s₀.Completes parser zs z := ⟨hz, ⟨hcalm.2.2, hreplies₂⟩, hquiet.2.1, hidle₂⟩
  obtain ⟨hrows, report, hreport, houtcomes⟩ :=
    sample_started.opened.batch_agrees hs₀ ⟨hcalm.1, hreplies⟩ hidle hsavepoints hfaults
      (by decide +kernel) hdistinguished hb' hquiet.2.2 hz' hperm
  rw [hlast] at hreport
  rw [hreport] at hsummary
  exact ⟨s₀, b, z, report, sample_started.opened, hs₀, ⟨hcalm.1, hreplies⟩, hb', hz', hperm,
    hreport, Option.some.inj hsummary, hne, hrows, houtcomes⟩

end Chronicle

end SourceIndex
