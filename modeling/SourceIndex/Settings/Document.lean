/-
  Settings as data.

  A field or section that is left out has its default; one that is there must
  have the right form.
-/
import SourceIndex.Datum
import SourceIndex.Settings

namespace SourceIndex

open Datum

/-- Write settings of the pool. -/
def PoolSettings.toDatum (s : PoolSettings) : Datum :=
  .record
    [("worker_count", nat s.workerCount), ("task_timeout_ms", nat s.taskTimeoutMs),
     ("max_retries", nat s.maxRetries)]

/-- Read settings of the pool on a machine. -/
def PoolSettings.ofDatum? (open_ : Bool) (d : Datum) (processors : Nat := usualProcessors) :
    Option PoolSettings :=
  match d.parts open_ ["worker_count", "task_timeout_ms", "max_retries"] with
  | some [workerCount, taskTimeoutMs, maxRetries] =>
    let default : PoolSettings := { workerCount := workersOn processors }
    return {
      workerCount := ← orElse nat64? default.workerCount workerCount
      taskTimeoutMs := ← orElse nat64? default.taskTimeoutMs taskTimeoutMs
      maxRetries := ← orElse nat32? default.maxRetries maxRetries }
  | _ => none

/-- Write settings of the cache. -/
def CacheSettings.toDatum (s : CacheSettings) : Datum :=
  .record [("max_size", nat s.maxSize), ("ttl_ms", nat s.ttlMs)]

/-- Read settings of the cache. -/
def CacheSettings.ofDatum? (open_ : Bool) (d : Datum) : Option CacheSettings :=
  match d.parts open_ ["max_size", "ttl_ms"] with
  | some [maxSize, ttlMs] =>
    let default : CacheSettings := {}
    return {
      maxSize := ← orElse nat64? default.maxSize maxSize
      ttlMs := ← orElse nat64? default.ttlMs ttlMs }
  | _ => none

/-- Write a policy for differences. -/
def DiffPolicy.toDatum (p : DiffPolicy) : Datum :=
  .record
    [("symbol_count_threshold", .real p.symbolCountThreshold),
     ("min_count_delta", nat p.minCountDelta),
     ("change_ratio_threshold", .real p.changeRatioThreshold)]

/-- Read a policy for differences. -/
def DiffPolicy.ofDatum? (open_ : Bool) (d : Datum) : Option DiffPolicy :=
  match d.parts open_ ["symbol_count_threshold", "min_count_delta", "change_ratio_threshold"] with
  | some [symbolCountThreshold, minCountDelta, changeRatioThreshold] =>
    let default : DiffPolicy := {}
    return {
      symbolCountThreshold := ← orElse real? default.symbolCountThreshold symbolCountThreshold
      minCountDelta := ← orElse nat64? default.minCountDelta minCountDelta
      changeRatioThreshold := ← orElse real? default.changeRatioThreshold changeRatioThreshold }
  | _ => none

/-- Write settings of the chunker. -/
def ChunkSettings.toDatum (s : ChunkSettings) : Datum :=
  .record [("max_chunk_lines", nat s.maxChunkLines)]

/-- Read settings of the chunker. -/
def ChunkSettings.ofDatum? (open_ : Bool) (d : Datum) : Option ChunkSettings :=
  match d.parts open_ ["max_chunk_lines"] with
  | some [maxChunkLines] =>
    let default : ChunkSettings := {}
    return { maxChunkLines := ← orElse nat32? default.maxChunkLines maxChunkLines }
  | _ => none

/-- Write settings of the log. -/
def LogSettings.toDatum (s : LogSettings) : Datum :=
  .record [("level", .text s.level), ("format", .text s.format)]

/-- Read settings of the log. -/
def LogSettings.ofDatum? (open_ : Bool) (d : Datum) : Option LogSettings :=
  match d.parts open_ ["level", "format"] with
  | some [level, format] =>
    let default : LogSettings := {}
    return {
      level := ← orElse text? default.level level
      format := ← orElse text? default.format format }
  | _ => none

/-- Write all settings. -/
def Settings.toDatum (s : Settings) : Datum :=
  .record
    [("pool", s.pool.toDatum), ("cache", s.cache.toDatum),
     ("incremental", s.incremental.toDatum), ("chunking", s.chunking.toDatum),
     ("logging", s.logging.toDatum)]

/-- Read all settings on a machine.  With `open_` a section given as a list may be too
    long. -/
def Settings.ofDatum? (open_ : Bool) (d : Datum) (processors : Nat := usualProcessors) :
    Option Settings :=
  match d.parts open_ ["pool", "cache", "incremental", "chunking", "logging"] with
  | some [pool, cache, incremental, chunking, logging] =>
    return {
      pool := ← orElse (PoolSettings.ofDatum? open_ · processors)
        { workerCount := workersOn processors } pool
      cache := ← orElse (CacheSettings.ofDatum? open_) {} cache
      incremental := ← orElse (DiffPolicy.ofDatum? open_) {} incremental
      chunking := ← orElse (ChunkSettings.ofDatum? open_) {} chunking
      logging := ← orElse (LogSettings.ofDatum? open_) {} logging }
  | _ => none

end SourceIndex
