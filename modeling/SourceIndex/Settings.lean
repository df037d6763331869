/-
  Settings of the indexer.

  * five sections, each with its defaults, and `Settings` that holds them;
  * `SettingsError`: what can be wrong with a value, with its wording;
  * `Settings.check`: the first thing that is wrong, in a fixed order.
-/
import SourceIndex.Fault
import SourceIndex.Numeral.Plain

namespace SourceIndex

/-- The processors of a machine that nothing else is said about. -/
def usualProcessors : Nat := 2

/-- The number of workers on a machine where none is given: one processor is left to the
    rest of the program. -/
def workersOn (processors : Nat := usualProcessors) : Nat :=
  max (processors - 1) 1

/-- Settings of the parse workers. -/
structure PoolSettings where
  /-- number of workers -/
  workerCount : Nat := workersOn
  /-- limit for one parse -/
  taskTimeoutMs : Nat := 30000
  /-- further attempts after a timeout or a crash -/
  maxRetries : Nat := 1
  deriving Inhabited

/-- Settings of the cache of parse results. -/
structure CacheSettings where
  /-- number of entries held at most -/
  maxSize : Nat := 1000
  /-- lifetime of an entry -/
  ttlMs : Nat := 3600000
  deriving Inhabited

/-- When a change is too large to be written incrementally. -/
structure DiffPolicy where
  /-- largest shift of the symbol count, as a share of the new count -/
  symbolCountThreshold : Float := 0.3
  /-- shifts below this never count as large -/
  minCountDelta : Nat := 2
  /-- largest number of changed symbols, as a share of the new count -/
  changeRatioThreshold : Float := 0.5
  deriving Inhabited

/-- Settings of the chunker. -/
structure ChunkSettings where
  /-- number of lines of a chunk at most -/
  maxChunkLines : Nat := 120
  deriving Inhabited

/-- Settings of the log. -/
structure LogSettings where
  /-- least level that is written -/
  level : String := "info"
  /-- layout of a line -/
  format : String := "pretty"
  deriving Inhabited

/-- All settings. -/
structure Settings where
  pool : PoolSettings := {}
  cache : CacheSettings := {}
  incremental : DiffPolicy := {}
  chunking : ChunkSettings := {}
  logging : LogSettings := {}
  deriving Inhabited

/-- What can be wrong with settings. -/
inductive SettingsError where
  | noWorkers
  | noTimeout
  | tooManyRetries (given : Nat)
  | noCacheRoom
  /-- the named share is not in `(0, 1]` -/
  | shareOutOfRange (field : String) (given : Float)
  | noChunkLines
  | unknownLevel (given : String)
  | unknownFormat (given : String)

/-- The largest number of further attempts. -/
def maxRetriesLimit : Nat := 16

/-- The wording of what is wrong. -/
def SettingsError.message : SettingsError → String
  | noWorkers => "pool.worker_count must be at least 1"
  | noTimeout => "pool.task_timeout_ms must be positive"
  | tooManyRetries given => s!"pool.max_retries must be at most {maxRetriesLimit}, got {given}"
  | noCacheRoom => "cache.max_size must be at least 1"
  | shareOutOfRange field given =>
    let text := Numeral.plain given
    s!"{field} must be in (0, 1], got {text}"
  | noChunkLines => "chunking.max_chunk_lines must be at least 1"
  | unknownLevel given =>
    s!"Invalid log level: {given}. Must be one of: trace, debug, info, warn, error"
  | unknownFormat given =>
    s!"Invalid log format: {given}. Must be one of: pretty, json, compact"

/-- A share that a threshold may have. -/
def isShare (x : Float) : Bool :=
  x > 0.0 && x ≤ 1.0

/-- The levels that a log may have. -/
def logLevels : List String := ["trace", "debug", "info", "warn", "error"]

/-- The layouts that a log line may have. -/
def logFormats : List String := ["pretty", "json", "compact"]

/-- The first thing that is wrong with the settings. -/
def Settings.firstError (s : Settings) : Option SettingsError :=
  if s.pool.workerCount = 0 then some .noWorkers
  else if s.pool.taskTimeoutMs = 0 then some .noTimeout
  else if maxRetriesLimit < s.pool.maxRetries then some (.tooManyRetries s.pool.maxRetries)
  else if s.cache.maxSize = 0 then some .noCacheRoom
  else if !isShare s.incremental.symbolCountThreshold then
    some (.shareOutOfRange "incremental.symbol_count_threshold" s.incremental.symbolCountThreshold)
  else if !isShare s.incremental.changeRatioThreshold then
    some (.shareOutOfRange "incremental.change_ratio_threshold" s.incremental.changeRatioThreshold)
  else if s.chunking.maxChunkLines = 0 then some .noChunkLines
  else if !logLevels.contains s.logging.level then
    some (.unknownLevel s.logging.level)
  else if !logFormats.contains s.logging.format then
    some (.unknownFormat s.logging.format)
  else none

/-- The settings, if nothing is wrong with them. -/
def Settings.check (s : Settings) : Except Fault Settings :=
  match s.firstError with
  | some error => .error (.config error.message)
  | none => .ok s

end SourceIndex
