/-
  Failures of settings, files and storage.

  * `Fault`: the cause of such a failure;
  * `Fault.message`: its wording.
-/
import SourceIndex.Parse

namespace SourceIndex

/-- The cause of a failure outside the worker pool. -/
inductive Fault where
  /-- the file system refused -/
  | io
  /-- a record could not be written out or read back -/
  | serialization
  /-- the settings are unusable -/
  | config (reason : String)
  /-- a parser rejected a file -/
  | parse (source : ParserError)
  /-- the store refused -/
  | storage (reason : String)
  /-- there is no such file -/
  | fileNotFound (path : String)
  /-- the call makes no sense in this state -/
  | invalidOperation (reason : String)
  deriving DecidableEq, Inhabited

/-- The wording of a failure.  The file system and the record format bring their
    own wording, of which only the heading is kept. -/
def Fault.message : Fault → String
  | io => "IO error"
  | serialization => "Serialization error"
  | config reason => s!"Configuration error: {reason}"
  | parse source =>
    let text := source.message
    s!"Parse error: {text}"
  | storage reason => s!"Storage error: {reason}"
  | fileNotFound path => s!"File not found: {path}"
  | invalidOperation reason => s!"Invalid operation: {reason}"

end SourceIndex
