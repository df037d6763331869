/-
  Which log lines are written.

  A filter is a list of directives with commas between them.  A directive sets how
  much is written for all targets or for those whose name begins with a text; the
  longest such text decides, and of equal ones the last.

  * `Threshold`: how much is written;
  * `Filter.ofText?`, `Filter.ofTextLenient`: the filter that a text stands for;
  * `LogSetup`: what comes of setting the log up once or several times.
-/
import SourceIndex.Numeral.Reader
import SourceIndex.Settings
import SourceIndex.Text.Blank

namespace SourceIndex

/-- The levels of log lines. -/
inductive LogLevel where
  | trace
  | debug
  | info
  | warn
  | error
  deriving DecidableEq, Inhabited

namespace LogLevel

/-- All levels, those with the most lines first. -/
def all : List LogLevel := [trace, debug, info, warn, error]

/-- The name of a level. -/
def name : LogLevel → String
  | trace => "trace"
  | debug => "debug"
  | info => "info"
  | warn => "warn"
  | error => "error"

/-- How many levels weigh as much as this one or more. -/
def weight : LogLevel → Nat
  | trace => 5
  | debug => 4
  | info => 3
  | warn => 2
  | error => 1

end LogLevel

/-- How much is written: levels up to this weight, and nothing for zero. -/
abbrev Threshold := Nat

/-- The threshold with a name or a number. -/
def Threshold.ofText? (text : String) : Option Threshold :=
  match Numeral.unsigned? Numeral.max64 text with
  | some n => if n ≤ 5 then some n else none
  | none =>
    let word := String.ofList (text.toList.map Char.toLower)
    if word = "off" then some 0
    else (LogLevel.all.find? fun level => level.name = word).map LogLevel.weight

/-- How much is written for the targets whose name begins with a text. -/
structure Directive where
  target : String := ""
  threshold : Threshold
  deriving DecidableEq, Inhabited

/-- Characters that a directive may begin with. -/
def Directive.canBegin (c : Char) : Bool :=
  c.isAlphanum || c = '-' || c = '_' || c = ':' || c = '['

/-- The directive that a text stands for: a threshold, a target that everything is
    written for, or both with an equals sign between them. -/
def Directive.ofText? (text : String) : Option Directive :=
  let text := Text.trimmed text
  match text.toList with
  | [] => none
  | c :: _ =>
    if !canBegin c then none
    else
      match Threshold.ofText? text with
      | some threshold => some { threshold }
      | none =>
        match text.splitOn "=" with
        | [target] => some { target, threshold := LogLevel.trace.weight }
        | [target, ""] => some { target, threshold := LogLevel.trace.weight }
        | [target, word] =>
          (Threshold.ofText? word).map fun threshold => { target, threshold }
        | _ => none

/-- Directives in order. -/
abbrev Filter := List Directive

namespace Filter

/-- The directives of a filter; without any, only errors are written. -/
def orErrors (directives : List Directive) : Filter :=
  if directives.isEmpty then [{ threshold := LogLevel.error.weight }] else directives

/-- The pieces of a text between commas. -/
def pieces (text : String) : List String :=
  (text.splitOn ",").filter (· ≠ "")

/-- The filter that a text stands for, if each of its pieces is a directive. -/
def ofText? (text : String) : Option Filter :=
  ((pieces text).mapM Directive.ofText?).map orErrors

/-- The filter that a text stands for, where pieces that are no directives are
    ignored. -/
def ofTextLenient (text : String) : Filter :=
  orErrors ((pieces text).filterMap Directive.ofText?)

/-- The directive that decides of two for one target: the one with the longer
    text, of equal ones the later. -/
def stronger (best : Option Directive) (d : Directive) : Option Directive :=
  match best with
  | none => some d
  | some b => if d.target.length < b.target.length then some b else some d

/-- The threshold for a target; without a directive nothing is written. -/
def threshold (f : Filter) (target : String) : Threshold :=
  let meant := f.filter fun d => d.target.toList.isPrefixOf target.toList
  match meant.foldl stronger none with
  | none => 0
  | some d => d.threshold

/-- The levels that are written for a target. -/
def enabled (f : Filter) (target : String) : List LogLevel :=
  LogLevel.all.filter fun level => level.weight ≤ f.threshold target

end Filter

/-- The target of the log lines of the indexer. -/
def logTarget : String := "codegraph_indexer"

/-- What comes of setting the log up: which attempts took effect, the levels that
    are written, and whether a line is written as a record. -/
structure LogSetup where
  installed : List Bool
  enabled : List LogLevel
  json : Bool

/-- Set the log up with each of some settings; only the first attempt takes
    effect.  A filter from the environment stands above the level of the settings,
    if it can be read. -/
def LogSetup.run (filter : Option String) : List LogSettings → LogSetup
  | [] => ⟨[], [], false⟩
  | first :: others =>
    let filter := (filter.bind Filter.ofText?).getD (Filter.ofTextLenient first.level)
    let enabled := filter.enabled logTarget
    ⟨true :: others.map fun _ => false, enabled,
      first.format = "json" && enabled.contains .error⟩

end SourceIndex
