/-
  Requests to index files, and how far they are.

  * `Stage`: how far the preparation of a file is, up to a file that is ready to
    be written;
  * `FilePhase`, `BatchPhase`: how far the indexing of one file and of many files
    is;
  * `Request`: a request, and `Request.outcome?`, its outcome once it is done.
-/
import SourceIndex.Coordinator.Prepared

namespace SourceIndex

/-! ## Preparing one file -/

/-- What the preparation of a file comes to, if it does not fail. -/
inductive Preparation where
  /-- the content is stored already -/
  | skipped (report : FileReport)
  | ready (file : Prepared)
  deriving DecidableEq, Inhabited

/-- How far a file is prepared. -/
inductive Stage where
  /-- nothing is read yet -/
  | fresh
  /-- the stored file is read -/
  | located (file : FileRecord)
  /-- everything stored is read -/
  | loaded (prior : Prior)
  /-- the file has to be parsed; this is attempt number `attempt` -/
  | submitting (prior : Prior) (attempt : Nat)
  /-- the pool has the file -/
  | awaiting (prior : Prior) (attempt : Nat) (ticket : TaskId)
  /-- the pool has parsed the file -/
  | parsed (prior : Prior) (attempt : Nat) (result : ParseResult)
  | settled (outcome : Except IndexError Preparation)

/-- The report on a file whose content is stored already. -/
def FileReport.unchangedContent (path : String) (symbols : Nat) : FileReport :=
  { path
    mode := .skipped
    cacheHit := false
    parseAttempts := 0
    added := 0
    removed := 0
    modified := 0
    unchanged := symbols
    chunksWritten := 0
    fullReason := none }

/-- What follows an outcome of attempt number `attempt`, where `limit` attempts
    are made at most: a parse result or an error is final, but timeouts and
    crashes lead to another attempt. -/
def Stage.afterAttempt (path : String) (limit : Nat) (prior : Prior) (attempt : Nat)
    (outcome : TaskResult) : Stage :=
  match outcome.toExcept with
  | .ok result => .parsed prior attempt result
  | .error error =>
    if error.isTransient && attempt < limit then .submitting prior (attempt + 1)
    else .settled (.error (.parseFailure path attempt error))

/-! ## Requests -/

/-- How far the indexing of one file is. -/
inductive FilePhase (τ : Type) where
  /-- the lease is not asked for yet -/
  | arriving
  | preparing (stage : Stage)
  /-- a transaction has to be opened -/
  | opening (file : Prepared)
  | writing (file : Prepared) (tx : τ)
  | committing (file : Prepared) (tx : τ) (chunks : Nat)
  | undoing (file : Prepared) (tx : τ) (cause : Fault)
  /-- it is committed, and older parse results have to go -/
  | trimming (file : Prepared) (chunks : Nat)
  /-- the outcome has to be counted and the lease given back -/
  | closing (outcome : Except IndexError FileReport)
  | done (outcome : Except IndexError FileReport)

/-- A file of a batch that is being prepared. -/
structure Slot where
  path : String
  content : String
  stage : Stage := .fresh

/-- How far the indexing of a batch is.  `held` are the paths it has leases of. -/
inductive BatchPhase (τ : Type) where
  /-- the leases of `todo` are not asked for yet -/
  | arriving (todo : List (String × String)) (held : List Slot) (report : BatchReport)
  | preparing (held : List String) (slots : List Slot) (ready : List Prepared)
      (report : BatchReport)
  /-- a transaction has to be opened -/
  | opening (held : List String) (ready : List Prepared) (report : BatchReport)
  /-- file number `index` and those after it have to be written -/
  | writing (held : List String) (tx : τ) (todo : List Prepared) (index : Nat)
      (savepoints : Bool) (written : List (Prepared × Nat)) (report : BatchReport)
  /-- the whole transaction has to be undone -/
  | undoing (held : List String) (tx : τ) (report : BatchReport)
  | committing (held : List String) (tx : τ) (written : List (Prepared × Nat))
      (report : BatchReport)
  /-- it is committed, and older parse results have to go -/
  | trimming (held : List String) (written : List (Prepared × Nat)) (report : BatchReport)
  /-- the outcomes have to be counted and the leases given back -/
  | closing (held : List String) (report : BatchReport)
  | done (report : BatchReport)

/-- A request and how far it is. -/
inductive Request (τ : Type) where
  | file (path content : String) (phase : FilePhase τ)
  | batch (phase : BatchPhase τ)

/-- A request that has just come. -/
def Request.ofFile {τ : Type} (path content : String) : Request τ :=
  .file path content .arriving

/-- A request for many files that has just come. -/
def Request.ofFiles {τ : Type} (files : List (String × String)) : Request τ :=
  .batch (.arriving files [] {})

/-- The outcome of a request. -/
inductive RequestOutcome where
  | file (outcome : Except IndexError FileReport)
  | batch (report : BatchReport)

/-- The outcome of a request that is done. -/
def Request.outcome? {τ : Type} : Request τ → Option RequestOutcome
  | .file _ _ (.done outcome) => some (.file outcome)
  | .batch (.done report) => some (.batch report)
  | _ => none

end SourceIndex
