/-
  Settings from files.

  The settings of a directory stand above those of a user, and both above the
  defaults; only one file is read.  The environment comes last, then the settings
  are checked.

  * `Settings.ofFile`: the settings in a file;
  * `LoadedSettings.ofFile`, `LoadedSettings.ofPlaces`: settings that are ready.
-/
import SourceIndex.Settings.Document
import SourceIndex.Settings.Override
import SourceIndex.Toml.Document

namespace SourceIndex

/-- The bytes of a file, if there is one. -/
abbrev FileBytes := Option ByteArray

/-- Why a file cannot be read as text. -/
inductive ReadError where
  | missing
  | notText
  deriving DecidableEq, Inhabited

/-- The wording of a read error. -/
def ReadError.message : ReadError → String
  | missing => "No such file or directory (os error 2)"
  | notText => "stream did not contain valid UTF-8"

/-- The text of a file. -/
def FileBytes.text (file : FileBytes) : Except ReadError String :=
  match file with
  | none => .error .missing
  | some bytes =>
    match String.fromUTF8? bytes with
    | none => .error .notText
    | some text => .ok text

/-- The settings in a file, on a machine. -/
def Settings.ofFile (path : String) (file : FileBytes) (processors : Nat := usualProcessors) :
    Except Fault Settings :=
  match file.text with
  | .error error =>
    let cause := error.message
    .error (.config s!"Failed to read {path}: {cause}")
  | .ok text =>
    match (Toml.parse? text).bind (Settings.ofDatum? true · processors) with
    | none => .error (.config s!"Failed to parse {path}")
    | some settings => .ok settings

/-- Settings that are ready, and the file that they come from, if any. -/
structure LoadedSettings where
  path : Option String
  settings : Settings

namespace LoadedSettings

/-- The settings under an environment, checked. -/
def ready (path : Option String) (settings : Settings) (env : Environment) :
    Except Fault LoadedSettings := do
  let settings ← (settings.override env).check
  return { path, settings }

/-- The settings in a file, on a machine. -/
def ofFile (path : String) (file : FileBytes) (env : Environment)
    (processors : Nat := usualProcessors) : Except Fault LoadedSettings := do
  ready (some path) (← Settings.ofFile path file processors) env

/-- The file with the settings of a directory. -/
def localPath : String := ".codegraph.toml"

/-- The file with the settings of a user. -/
def userPath : String := "~/.codegraph/indexer.toml"

/-- The settings of the first file that is there, or the defaults. -/
def ofPlaces (localFile userFile : FileBytes) (env : Environment)
    (processors : Nat := usualProcessors) : Except Fault LoadedSettings :=
  if localFile.isSome then ofFile localPath localFile env processors
  else if userFile.isSome then ofFile userPath userFile env processors
  else ready none { pool.workerCount := workersOn processors } env

end LoadedSettings

end SourceIndex
