/-
  What becomes of a file that is indexed.

  On a store without faults and with a parser that is a function, what becomes of a file
  is settled by what is stored for its path when it is asked for.

  * `Coordinator.fate`: what becomes of a revision, given what the coordinator has stored;
  * `Prepared.core`, `FileOutcome.essence`: a file that is ready, and an outcome, without
    what depends on the cache and the clock;
  * `Coordinator.Drafts`, `Stage.Bears`: a file that is ready, and the stage of a
    preparation, are what the fate of the revision says;
  * `StageStep.bears`: every step of a preparation keeps this.
-/
import SourceIndex.Proofs.Commits
import SourceIndex.Proofs.Faultless
import SourceIndex.Proofs.Regular

namespace SourceIndex

/-! ## Files and outcomes -/

/-- The file without what depends on the cache and the clock. -/
def Prepared.core (f : Prepared) : Prepared :=
  { f with
    parsed := { f.parsed with parseTimeMs := 0 }
    cacheHit := false
    attempts := 0 }

/-- The report without what depends on the cache. -/
def FileReport.essence (r : FileReport) : FileReport :=
  { r with cacheHit := false, parseAttempts := 0 }

/-- The outcome for one file. -/
abbrev FileOutcome := Except IndexError FileReport

namespace FileOutcome

/-- The file that an outcome is about. -/
def path : FileOutcome → String
  | .ok report => report.path
  | .error error => error.path

/-- A report without what depends on the cache, or the path and the kind of a failure. -/
def essence : FileOutcome → Except (String × ErrorKind) FileReport
  | .ok report => .ok report.essence
  | .error error => .error (error.path, error.kind)

/-- The path of a file that was written. -/
def wrote? : FileOutcome → Option String
  | .ok report => if report.mode = .skipped then none else some report.path
  | .error _ => none

end FileOutcome

namespace Prepared

theorem rowsAfter_core (chunker : Chunker) (f : Prepared) :
    f.core.rowsAfter chunker = f.rowsAfter chunker := rfl

theorem Fits.core {policy : DiffPolicy} {rows : Rows} {f : Prepared} (h : f.Fits policy rows) :
    f.core.Fits policy rows :=
  ⟨h.previous_eq, h.oldSymbolCount_eq, h.hash_eq, h.diff_eq⟩

theorem essence_report (f : Prepared) (chunks : Nat) :
    (f.report chunks).essence = f.core.report chunks := rfl

theorem wrote?_report (f : Prepared) (chunks : Nat) :
    FileOutcome.wrote? (.ok (f.report chunks)) = some f.path :=
  if_neg f.mode_ne_skipped

end Prepared

/-! ## Fates -/

/-- What becomes of a file that is indexed. -/
inductive Fate where
  /-- its content is stored already -/
  | skipped (report : FileReport)
  | failed (kind : ErrorKind)
  | written (file : Prepared)

/-- The outcome for the file, without what depends on the cache. -/
def Fate.outcome (chunker : Chunker) (path : String) :
    Fate → Except (String × ErrorKind) FileReport
  | .skipped report => .ok report
  | .failed kind => .error (path, kind)
  | .written file => .ok (file.report (file.written chunker {}).1)

namespace Coordinator

/-- The content is not the one that is stored for the path. -/
def Changed (c : MemoryCoordinator) (path content : String) : Prop :=
  (c.rows.prior path).previous.map (·.contentHash) ≠ some (.ofText content)

instance (c : MemoryCoordinator) (path content : String) : Decidable (c.Changed path content) :=
  inferInstanceAs (Decidable (_ ≠ _))

/-- What becomes of a revision that is indexed with a parser, if nothing else is written
    for its path. -/
def fate (c : MemoryCoordinator) (parser : Parser) (path content : String) : Fate :=
  if c.Changed path content then
    match parser path content with
    | .error _ => .failed .parseFailure
    | .ok symbols =>
      if path ∈ c.store.store.rules.rejected then .failed .storageWriteFailure
      else .written
        (c.prepared path content (c.rows.prior path) { symbols, parseTimeMs := 0 } false 0)
  else .skipped (.unchangedContent path (c.rows.prior path).symbols.length)

/-- The file is the one that its fate speaks of, and is written just if its path can
    be. -/
def Drafts (c : MemoryCoordinator) (parser : Parser) (f : Prepared) : Prop :=
  c.fate parser f.path f.content =
    if f.path ∈ c.store.store.rules.rejected then .failed .storageWriteFailure
    else .written f.core

/-- An outcome is what the fate of a revision says. -/
def Foretells (c : MemoryCoordinator) (parser : Parser) (content : String) (o : FileOutcome) :
    Prop :=
  o.essence = (c.fate parser o.path content).outcome c.chunker o.path

end Coordinator

/-- The preparation of a revision goes as its fate says. -/
def Stage.Bears (c : MemoryCoordinator) (parser : Parser) (path content : String) : Stage → Prop
  | .fresh | .located _ | .loaded _ => True
  | .submitting _ _ | .awaiting _ _ _ | .parsed _ _ _ => c.Changed path content
  | .settled (.error error) => error.path = path ∧ c.fate parser path content = .failed error.kind
  | .settled (.ok (.skipped report)) => c.fate parser path content = .skipped report
  | .settled (.ok (.ready file)) => c.Drafts parser file

namespace Coordinator

variable {start c c' : MemoryCoordinator} {parser : Parser} {path content : String}

theorem fate_unchanged (h : ¬c.Changed path content) :
    c.fate parser path content =
      .skipped (.unchangedContent path (c.rows.prior path).symbols.length) :=
  if_neg h

theorem fate_unparsed (h : c.Changed path content) {error : ParserError}
    (hp : parser path content = .error error) :
    c.fate parser path content = .failed .parseFailure := by
  rw [fate, if_pos h, hp]

theorem report_of_fate {report : FileReport} (h : c.fate parser path content = .skipped report) :
    report.path = path ∧ report.mode = .skipped ∧ report.essence = report := by
  unfold fate at h
  split at h
  · split at h
    · cases h
    · split at h <;> cases h
  · cases h
    exact ⟨rfl, rfl, rfl⟩

theorem drafts_prepared (hsettings : c.settings = start.settings)
    (h : start.Changed path content) {parsed : ParseResult}
    (hp : parser path content = .ok parsed.symbols) (hit : Bool) (attempts : Nat) :
    start.Drafts parser
      (c.prepared path content (start.rows.prior path) parsed hit attempts) := by
  change start.fate parser path content = if path ∈ _ then _ else _
  rw [fate, if_pos h, hp]
  simp only [prepared, Prepared.core, hsettings]

/-! ## Preparing a file -/

section
variable {asked : List (String × String)} {Job : Task → Prop}
  (hb : c.backend = FaultyStore.backend) (hfaults : c.store.faults = [])
  (hsettings : c.settings = start.settings)
  (hprior : c.rows.prior path = start.rows.prior path) (hwired : c.pool.Wired)
  (hsourced : Sourced (parser.source asked) Job c) (hd : Distinguished asked)
  (hasked : (path, content) ∈ asked)
include hb hfaults hsettings hprior hwired hsourced hd hasked

/-- **A step of a preparation** goes as the fate of the revision says. -/
theorem StageStep.bears {stage stage' : Stage} (h : StageStep c path content stage stage' c')
    (hr : stage.Reads c.settings.incremental c.rows path content)
    (ht : stage.Traced (parser.source asked) Job path content)
    (hs : stage.Bears start parser path content) : stage'.Bears start parser path content := by
  obtain ⟨Job', -, -, ht'⟩ := hsourced.prepare hasked ht h
  cases h with
  | unreadFile h =>
    rw [hb, FaultyStore.findFile_faultless hfaults] at h
    cases h
  | unreadSymbols h =>
    rw [hb, FaultyStore.findSymbols_faultless hfaults] at h
    cases h
  | absent | located | loaded => trivial
  | @unchanged prior h =>
    obtain rfl : prior = start.rows.prior path := Eq.trans hr hprior
    exact fate_unchanged (not_not.2 h)
  | @cached prior parsed _ h =>
    obtain rfl : prior = start.rows.prior path := Eq.trans hr hprior
    exact drafts_prepared hsettings h (Parser.said_of_found hd hasked ht'.2).symm true 0
  | @uncached prior _ h =>
    obtain rfl : prior = start.rows.prior path := Eq.trans hr hprior
    exact h
  | refused h => exact ((Pool.submit_eq_error h).2 hwired.running).elim
  | submitted | parsed => exact hs
  | @retried _ _ _ outcome error ho he htransient =>
    obtain ⟨said, hsaid⟩ := hwired.said_of_outcome ho
    cases outcome with
    | rejected error' =>
      cases he
      cases htransient
    | ok result => cases he
    | _ => cases hsaid
  | @gaveUp _ _ _ outcome error ho he =>
    obtain ⟨said, hsaid⟩ := hwired.said_of_outcome ho
    cases outcome with
    | rejected error' =>
      cases he
      exact ⟨rfl, fate_unparsed hs (Parser.said_of_found hd hasked ht').symm⟩
    | ok result => cases he
    | _ => cases hsaid
  | @stored prior attempt result =>
    obtain rfl : prior = start.rows.prior path := Eq.trans hr hprior
    exact drafts_prepared hsettings hs (Parser.said_of_found hd hasked ht).symm false attempt

end

end Coordinator

end SourceIndex
