/-
  Symbols, chunks, reports and counts as data.

  Each type has a writer `toDatum` and a reader `ofDatum?`.  Every field of a
  record must be there, except the symbol of a chunk.
-/
import SourceIndex.Chunk
import SourceIndex.Coordinator.Report
import SourceIndex.Datum

namespace SourceIndex

open Datum

/-! ## Symbols -/

/-- A hash is written as its number. -/
def ContentHash.toDatum (h : ContentHash) : Datum := nat h.value.toNat

/-- Read a hash. -/
def ContentHash.ofDatum? (d : Datum) : Option ContentHash :=
  d.nat64?.map fun n => ⟨UInt64.ofNat n⟩

/-- The kinds that are written as a word. -/
def Kind.words : List (String × Kind) :=
  [("Function", .function), ("Method", .method), ("Class", .class_), ("Struct", .struct),
   ("Enum", .enum), ("Interface", .interface), ("Trait", .trait), ("Module", .module_),
   ("Variable", .variable_), ("Constant", .constant), ("Type", .type_)]

/-- A kind is written as a word, or as a record with the name it is known by. -/
def Kind.toDatum : Kind → Datum
  | function => .text "Function"
  | method => .text "Method"
  | class_ => .text "Class"
  | struct => .text "Struct"
  | enum => .text "Enum"
  | interface => .text "Interface"
  | trait => .text "Trait"
  | module_ => .text "Module"
  | variable_ => .text "Variable"
  | constant => .text "Constant"
  | type_ => .text "Type"
  | other name => .record [("Other", .text name)]

/-- Read a kind. -/
def Kind.ofDatum? : Datum → Option Kind
  | .record [("Other", .text name)] => some (.other name)
  | d => choice? Kind.words d

/-- Write a symbol. -/
def Symbol.toDatum (s : Symbol) : Datum :=
  .record
    [("name", .text s.name), ("kind", s.kind.toDatum), ("start_line", nat s.startLine),
     ("start_column", nat s.startColumn), ("end_line", nat s.endLine),
     ("end_column", nat s.endColumn)]

/-- Read a symbol. -/
def Symbol.ofDatum? (d : Datum) : Option Symbol :=
  match d.parts false
    ["name", "kind", "start_line", "start_column", "end_line", "end_column"] with
  | some [some name, some kind, some startLine, some startColumn, some endLine, some endColumn] =>
    return {
      name := ← name.text?
      kind := ← Kind.ofDatum? kind
      startLine := ← startLine.nat32?
      startColumn := ← startColumn.nat32?
      endLine := ← endLine.nat32?
      endColumn := ← endColumn.nat32? }
  | _ => none

/-- Write a key. -/
def Key.toDatum (k : Key) : Datum :=
  .record
    [("kind", k.kind.toDatum), ("name", .text k.name), ("start_line", nat k.startLine)]

/-- Read a key. -/
def Key.ofDatum? (d : Datum) : Option Key :=
  match d.parts false ["kind", "name", "start_line"] with
  | some [some kind, some name, some startLine] =>
    return {
      kind := ← Kind.ofDatum? kind
      name := ← name.text?
      startLine := ← startLine.nat32? }
  | _ => none

/-- Write a stored symbol. -/
def SymbolRecord.toDatum (r : SymbolRecord) : Datum :=
  .record [("id", nat r.id), ("file_id", nat r.fileId), ("symbol", r.symbol.toDatum)]

/-- Read a stored symbol. -/
def SymbolRecord.ofDatum? (d : Datum) : Option SymbolRecord :=
  match d.parts false ["id", "file_id", "symbol"] with
  | some [some id, some fileId, some symbol] =>
    return {
      id := ← id.nat64?
      fileId := ← fileId.nat64?
      symbol := ← Symbol.ofDatum? symbol }
  | _ => none

/-- Write a parse result. -/
def ParseResult.toDatum (r : ParseResult) : Datum :=
  .record
    [("symbols", ofList Symbol.toDatum r.symbols), ("parse_time_ms", nat r.parseTimeMs)]

/-- Read a parse result. -/
def ParseResult.ofDatum? (d : Datum) : Option ParseResult :=
  match d.parts false ["symbols", "parse_time_ms"] with
  | some [some symbols, some parseTimeMs] =>
    return {
      symbols := ← symbols.list? Symbol.ofDatum?
      parseTimeMs := ← parseTimeMs.nat64? }
  | _ => none

/-- Write a chunk. -/
def Chunk.toDatum (c : Chunk) : Datum :=
  .record
    [("symbol_index", optional nat c.symbolIndex), ("start_line", nat c.startLine),
     ("end_line", nat c.endLine), ("content", .text c.content)]

/-- Read a chunk. -/
def Chunk.ofDatum? (d : Datum) : Option Chunk :=
  match d.parts false ["symbol_index", "start_line", "end_line", "content"] with
  | some [symbolIndex, some startLine, some endLine, some content] =>
    return {
      symbolIndex := ← orElse (optional? nat64?) none symbolIndex
      startLine := ← startLine.nat32?
      endLine := ← endLine.nat32?
      content := ← content.text? }
  | _ => none

/-! ## Names of values -/

/-- The name of a mode as a value. -/
def WriteMode.word : WriteMode → String
  | full => "Full"
  | incremental => "Incremental"
  | skipped => "Skipped"

/-- Read a mode. -/
def WriteMode.ofDatum? : Datum → Option WriteMode :=
  choice? ([.full, .incremental, .skipped].map fun mode => (mode.word, mode))

/-- The name of a kind of failures. -/
def ErrorKind.word : ErrorKind → String
  | parseFailure => "ParseFailure"
  | workerTimeout => "WorkerTimeout"
  | workerCrashed => "WorkerCrashed"
  | poolShutdown => "PoolShutdown"
  | storageWriteFailure => "StorageWriteFailure"
  | storageRead => "StorageRead"
  | pathBusy => "PathBusy"

/-- Read a kind of failures. -/
def ErrorKind.ofDatum? : Datum → Option ErrorKind :=
  choice?
    ([.parseFailure, .workerTimeout, .workerCrashed, .poolShutdown, .storageWriteFailure,
      .storageRead, .pathBusy].map fun kind => (kind.word, kind))

/-- The name of a reason. -/
def Reason.word : Reason → String
  | noPreviousVersion => "NoPreviousVersion"
  | noSymbols => "NoSymbols"
  | symbolCountShift => "SymbolCountShift"
  | changeRatio => "ChangeRatio"
  | spanOutOfRange => "SpanOutOfRange"
  | ambiguousKeys => "AmbiguousKeys"

/-- Read a reason. -/
def Reason.ofDatum? : Datum → Option Reason :=
  choice?
    ([.noPreviousVersion, .noSymbols, .symbolCountShift, .changeRatio, .spanOutOfRange,
      .ambiguousKeys].map fun reason => (reason.word, reason))

/-! ## Counts -/

/-- Write the counts of a cache. -/
def CacheStats.toDatum (s : CacheStats) : Datum :=
  .record
    [("size", nat s.size), ("hits", nat s.hits), ("misses", nat s.misses),
     ("hit_rate", .real s.hitRate), ("evictions", nat s.evictions),
     ("expirations", nat s.expirations), ("invalidations", nat s.invalidations)]

/-- Read the counts of a cache. -/
def CacheStats.ofDatum? (d : Datum) : Option CacheStats :=
  match d.parts false
    ["size", "hits", "misses", "hit_rate", "evictions", "expirations", "invalidations"] with
  | some [some size, some hits, some misses, some hitRate, some evictions, some expirations,
      some invalidations] =>
    return {
      size := ← size.nat64?
      hits := ← hits.nat64?
      misses := ← misses.nat64?
      hitRate := ← hitRate.real?
      evictions := ← evictions.nat64?
      expirations := ← expirations.nat64?
      invalidations := ← invalidations.nat64? }
  | _ => none

/-- Write the counts of a pool. -/
def PoolStats.toDatum (s : PoolStats) : Datum :=
  .record
    [("workers", nat s.workers), ("queued", nat s.queued), ("active", nat s.active),
     ("completed", nat s.completed), ("failed", nat s.failed), ("timed_out", nat s.timedOut),
     ("crashed", nat s.crashed), ("deduplicated", nat s.deduplicated),
     ("cancelled", nat s.cancelled)]

/-- Read the counts of a pool. -/
def PoolStats.ofDatum? (d : Datum) : Option PoolStats :=
  match d.parts false
    ["workers", "queued", "active", "completed", "failed", "timed_out", "crashed",
     "deduplicated", "cancelled"] with
  | some [some workers, some queued, some active, some completed, some failed, some timedOut,
      some crashed, some deduplicated, some cancelled] =>
    return {
      workers := ← workers.nat64?
      queued := ← queued.nat64?
      active := ← active.nat64?
      completed := ← completed.nat64?
      failed := ← failed.nat64?
      timedOut := ← timedOut.nat64?
      crashed := ← crashed.nat64?
      deduplicated := ← deduplicated.nat64?
      cancelled := ← cancelled.nat64? }
  | _ => none

/-- Write the counts of a coordinator. -/
def CoordinatorStats.toDatum (s : CoordinatorStats) : Datum :=
  .record
    [("cache", s.cache.toDatum), ("pool", s.pool.toDatum),
     ("files_indexed", nat s.tallies.filesIndexed), ("files_failed", nat s.tallies.filesFailed),
     ("full_writes", nat s.tallies.fullWrites),
     ("incremental_writes", nat s.tallies.incrementalWrites), ("skipped", nat s.tallies.skipped)]

/-- Read the counts of a coordinator. -/
def CoordinatorStats.ofDatum? (d : Datum) : Option CoordinatorStats :=
  match d.parts false
    ["cache", "pool", "files_indexed", "files_failed", "full_writes", "incremental_writes",
     "skipped"] with
  | some [some cache, some pool, some filesIndexed, some filesFailed, some fullWrites,
      some incrementalWrites, some skipped] =>
    return {
      cache := ← CacheStats.ofDatum? cache
      pool := ← PoolStats.ofDatum? pool
      tallies := {
        filesIndexed := ← filesIndexed.nat64?
        filesFailed := ← filesFailed.nat64?
        fullWrites := ← fullWrites.nat64?
        incrementalWrites := ← incrementalWrites.nat64?
        skipped := ← skipped.nat64? } }
  | _ => none

end SourceIndex
