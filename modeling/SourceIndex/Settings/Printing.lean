/-
  Settings as a document: a section for each part, in order.
-/
import SourceIndex.Numeral.Plain
import SourceIndex.Settings

namespace SourceIndex

/-- A line with a key and its value. -/
def settingLine (key value : String) : String := s!"{key} = {value}\n"

/-- A text in double quotes, for a text without quotes, backslashes and control
    characters. -/
def quotedSetting (text : String) : String := "\"" ++ text ++ "\""

/-- The settings as a document. -/
def Settings.document (s : Settings) : String :=
  let pool := String.join
    ["[pool]\n", settingLine "worker_count" (toString s.pool.workerCount),
     settingLine "task_timeout_ms" (toString s.pool.taskTimeoutMs),
     settingLine "max_retries" (toString s.pool.maxRetries)]
  let cache := String.join
    ["[cache]\n", settingLine "max_size" (toString s.cache.maxSize),
     settingLine "ttl_ms" (toString s.cache.ttlMs)]
  let incremental := String.join
    ["[incremental]\n",
     settingLine "symbol_count_threshold" (Numeral.withPoint s.incremental.symbolCountThreshold),
     settingLine "min_count_delta" (toString s.incremental.minCountDelta),
     settingLine "change_ratio_threshold" (Numeral.withPoint s.incremental.changeRatioThreshold)]
  let chunking := String.join
    ["[chunking]\n", settingLine "max_chunk_lines" (toString s.chunking.maxChunkLines)]
  let logging := String.join
    ["[logging]\n", settingLine "level" (quotedSetting s.logging.level),
     settingLine "format" (quotedSetting s.logging.format)]
  "\n".intercalate [pool, cache, incremental, chunking, logging]

end SourceIndex
