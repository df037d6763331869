/-
  Settings from the environment.

  Some variables stand above the settings of a file.  A value that cannot be read
  is ignored.
-/
import SourceIndex.Numeral.Reader
import SourceIndex.Settings

namespace SourceIndex

/-- The values of the variables that are set. -/
abbrev Environment := String → Option String

/-- The number in a variable, or a default. -/
def Environment.natD (env : Environment) (name : String) (default : Nat) : Nat :=
  ((env name).bind (Numeral.unsigned? Numeral.max64)).getD default

/-- The double in a variable, or a default. -/
def Environment.floatD (env : Environment) (name : String) (default : Float) : Float :=
  ((env name).bind Numeral.float?).getD default

/-- The settings with the values of the environment. -/
def Settings.override (s : Settings) (env : Environment) : Settings :=
  { s with
    pool := { s.pool with
      workerCount := env.natD "CODEGRAPH_WORKERS" s.pool.workerCount
      taskTimeoutMs := env.natD "CODEGRAPH_TASK_TIMEOUT_MS" s.pool.taskTimeoutMs }
    cache := {
      maxSize := env.natD "CODEGRAPH_CACHE_MAX_SIZE" s.cache.maxSize
      ttlMs := env.natD "CODEGRAPH_CACHE_TTL_MS" s.cache.ttlMs }
    incremental := { s.incremental with
      symbolCountThreshold :=
        env.floatD "CODEGRAPH_SYMBOL_COUNT_THRESHOLD" s.incremental.symbolCountThreshold
      changeRatioThreshold :=
        env.floatD "CODEGRAPH_CHANGE_RATIO_THRESHOLD" s.incremental.changeRatioThreshold } }

end SourceIndex
