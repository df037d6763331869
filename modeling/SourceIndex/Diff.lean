/-
  The difference between the stored and the new symbols of a file.

  * `Diff`: the new symbols sorted into added, modified and unchanged ones, the
    stored symbols that are gone, and the reason, if any, why the file has to be
    written anew as a whole;
  * `Diff.between`: the difference of a new revision to a stored one.  Symbols
    are matched by key, and a matched symbol is unchanged if the text it covers
    has the same fingerprint as before.
-/
import SourceIndex.ContentHash
import SourceIndex.Settings
import SourceIndex.Span

namespace SourceIndex

/-- The number of a stored file, counted from 1. -/
abbrev FileId := Nat

/-- The number of a stored symbol, counted from 1. -/
abbrev SymbolId := Nat

/-- A stored symbol. -/
structure SymbolRecord where
  id : SymbolId
  fileId : FileId
  symbol : Symbol
  deriving DecidableEq, Inhabited

/-- Why a file has to be written anew as a whole. -/
inductive Reason where
  /-- nothing is stored for the path yet -/
  | noPreviousVersion
  /-- the new revision has no symbols to compare -/
  | noSymbols
  /-- the number of symbols moved too far -/
  | symbolCountShift
  /-- too many symbols changed -/
  | changeRatio
  /-- a symbol lies outside its text -/
  | spanOutOfRange
  /-- two symbols of one revision share their key -/
  | ambiguousKeys
  deriving DecidableEq, Inhabited

/-- The wording of a reason. -/
def Reason.text : Reason → String
  | noPreviousVersion => "no previous version"
  | noSymbols => "no symbols"
  | symbolCountShift => "symbol count shift"
  | changeRatio => "change ratio"
  | spanOutOfRange => "span out of range"
  | ambiguousKeys => "ambiguous symbol keys"

/-- The difference between the stored and the new symbols of a file. -/
structure Diff where
  added : List Symbol := []
  removed : List Symbol := []
  modified : List Symbol := []
  unchanged : List Symbol := []
  /-- the stored numbers of `removed`, in the same order -/
  affectedIds : List SymbolId := []
  /-- the stored numbers of the old versions of `modified`, in the same order -/
  replacedIds : List SymbolId := []
  /-- why everything has to be written anew, if it has to -/
  reason : Option Reason := none
  deriving DecidableEq, Inhabited

namespace Diff

/-- The difference that only says that everything is written anew. -/
def full (reason : Reason) : Diff :=
  { reason := some reason }

/-- Does the file have to be written anew as a whole? -/
def needsFull (d : Diff) : Bool :=
  d.reason.isSome

/-- The number of changes. -/
def changeCount (d : Diff) : Nat :=
  d.added.length + d.removed.length + d.modified.length

/-- Is there nothing to write? -/
def isNoop (d : Diff) : Bool :=
  !d.needsFull && d.changeCount == 0

/-- Are the keys pairwise different? -/
def distinct : List Key → Bool
  | [] => true
  | key :: keys => !keys.contains key && distinct keys

/-- Did the number of symbols move too far? -/
def countShifted (policy : DiffPolicy) (old new : Nat) : Bool :=
  let delta := (new - old) + (old - new)
  policy.minCountDelta ≤ delta &&
    Float.ofNat delta > policy.symbolCountThreshold * Float.ofNat new

/-- Are there too many changes for so many symbols? -/
def ratioExceeded (policy : DiffPolicy) (changes new : Nat) : Bool :=
  Float.ofNat changes / Float.ofNat new > policy.changeRatioThreshold

/-- What became of a new symbol. -/
inductive Verdict where
  | added
  | modified (old : SymbolRecord)
  | unchanged (old : SymbolRecord)
  deriving DecidableEq

/-- The verdict on a new symbol that covers the text `span`; nothing if the
    stored symbol with its key lies outside the stored lines. -/
def judge (oldLines : List String) (records : List SymbolRecord) (symbol : Symbol)
    (span : String) : Option Verdict :=
  match records.find? (·.symbol.key = symbol.key) with
  | none => some .added
  | some old =>
    match spanText oldLines old.symbol with
    | none => none
    | some oldSpan =>
      if ContentHash.ofText oldSpan = ContentHash.ofText span then some (.unchanged old)
      else some (.modified old)

/-- The verdict on a new symbol; nothing if it, or the stored symbol with its
    key, lies outside its lines. -/
def verdict (oldLines newLines : List String) (records : List SymbolRecord) (symbol : Symbol) :
    Option Verdict :=
  match spanText newLines symbol with
  | none => none
  | some span => judge oldLines records symbol span

/-- The symbols sorted by their verdicts, and the stored symbols that are gone. -/
def sorted (records : List SymbolRecord) (judged : List (Symbol × Verdict)) : Diff :=
  let gone := records.filter fun r => !(judged.map (·.1.key)).contains r.symbol.key
  { added := judged.filterMap fun j => if j.2 = .added then some j.1 else none
    removed := gone.map (·.symbol)
    modified := judged.filterMap fun j => match j.2 with
      | .modified _ => some j.1
      | _ => none
    unchanged := judged.filterMap fun j => match j.2 with
      | .unchanged _ => some j.1
      | _ => none
    affectedIds := gone.map (·.id)
    replacedIds := judged.filterMap fun j => match j.2 with
      | .modified old => some old.id
      | _ => none }

/-- The difference with the reason that there are too many changes, if so. -/
def weighed (policy : DiffPolicy) (new : Nat) (d : Diff) : Diff :=
  if ratioExceeded policy d.changeCount new then { d with reason := some .changeRatio } else d

/-- The difference of the symbols of `content` to the stored revision. -/
def between (policy : DiffPolicy) (previous : Option (String × List SymbolRecord))
    (content : String) (symbols : List Symbol) : Diff :=
  match previous with
  | none => full .noPreviousVersion
  | some (oldContent, records) =>
    if symbols.isEmpty then full .noSymbols
    else if countShifted policy records.length symbols.length then full .symbolCountShift
    else if !distinct (records.map (·.symbol.key)) || !distinct (symbols.map (·.key)) then
      full .ambiguousKeys
    else
      let oldLines := Text.lines oldContent
      let newLines := Text.lines content
      match symbols.mapM fun s => (verdict oldLines newLines records s).map fun v => (s, v) with
      | none => full .spanOutOfRange
      | some judged => weighed policy symbols.length (sorted records judged)

end Diff

end SourceIndex
