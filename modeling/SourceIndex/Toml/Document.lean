/-
  Documents: assignments under headers.

  * `Section`: a header and the assignments under it;
  * `sections`: the sections of a text;
  * `Section.addTo`: put a section into the tables that came before it;
  * `parse?`: the values of a text.
-/
import SourceIndex.Toml.Value

namespace SourceIndex.Toml

/-- The name of a table; a repeated header adds a table to a list. -/
structure Header where
  repeated : Bool
  path : List String
  key : String

/-- A key and its value. -/
structure Assignment where
  path : List String
  key : String
  value : Node

/-- A header and the assignments under it. -/
structure Section where
  header : Header
  body : List Assignment

/-- A line of a document. -/
inductive Line where
  | header (header : Header)
  | assignment (assignment : Assignment)

/-! ## Lines -/

/-- A header, after its first bracket. -/
def header : Reader Header := fun cs =>
  match cs with
  | '[' :: rest => do
    let ((path, key), rest) ← keyPath (skipBlank rest)
    match skipBlank rest with
    | ']' :: ']' :: rest => return (⟨true, path, key⟩, rest)
    | _ => none
  | _ => do
    let ((path, key), rest) ← keyPath (skipBlank cs)
    match skipBlank rest with
    | ']' :: rest => return (⟨false, path, key⟩, rest)
    | _ => none

/-- A line that is not empty. -/
def line : Reader Line
  | '[' :: rest => (header rest).map fun r => (.header r.1, r.2)
  | cs => (assignment cs).map fun r => (.assignment ⟨r.1.1.1, r.1.1.2, r.1.2⟩, r.2)

/-- The lines of a text, `n` at most. -/
def linesUpTo : Nat → List Char → Option (List Line)
  | 0, _ => none
  | n + 1, cs => do
    match ← gap cs with
    | [] => return []
    | cs =>
      let (first, rest) ← line cs
      let lines ← linesUpTo n (← lineEnd rest)
      return first :: lines

/-- The assignments before the first header, and the sections. -/
def sections : List Line → List Assignment × List Section
  | [] => ([], [])
  | .assignment a :: lines =>
    let (body, rest) := sections lines
    (a :: body, rest)
  | .header h :: lines =>
    let (body, rest) := sections lines
    ([], ⟨h, body⟩ :: rest)

/-! ## Tables -/

/-- Carry out assignments in a table. -/
def assignAll (body : List Assignment) (table : Node) : Option Node :=
  body.foldlM (fun table a => table.assign a.path a.key a.value) table

/-- Put a section into the tables that came before it.  A header names a new table,
    or one that other headers lead through; a repeated header adds a table to
    those under it. -/
def Section.addTo (s : Section) (document : Node) : Option Node :=
  let change := fun (parent : Node) =>
    match parent with
    | .table origin entries =>
      let put := fun node => Node.table origin (Node.set s.header.key node entries)
      if s.header.repeated then
        match entries.lookup s.header.key with
        | none => (assignAll s.body (.table .header [])).map fun t => put (.tables [t])
        | some (.tables items) =>
          (assignAll s.body (.table .header [])).map fun t => put (.tables (items ++ [t]))
        | some _ => none
      else
        match entries.lookup s.header.key with
        | none => (assignAll s.body (.table .header [])).map put
        | some (.table .path entries) => (assignAll s.body (.table .header entries)).map put
        | some _ => none
    | _ => none
  document.under false change s.header.path

/-- The text without a byte order mark in front. -/
def dropMark : List Char → List Char
  | '\ufeff' :: rest => rest
  | cs => cs

/-- The values of a document. -/
def parse? (text : String) : Option Datum := do
  let cs := dropMark text.toList
  let (body, rest) := sections (← linesUpTo (cs.length + 1) cs)
  let root ← assignAll body (.table .header [])
  let tree ← rest.foldlM (fun tree (s : Section) => s.addTo tree) root
  return tree.toDatum

end SourceIndex.Toml
