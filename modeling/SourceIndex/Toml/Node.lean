/-
  Tables of a document as they grow.

  A table can be added to from several places, depending on how it came to be:
  `Origin` tells that.  A header may complete a table that was only passed
  through by other headers; keys with dots may add to tables made by keys with
  dots; a table in braces is complete.

  * `Node`: a value, a list, or a table;
  * `Node.under`: change the table at the end of a path, with these rules;
  * `Node.assign`: give a key of a table its value;
  * `Node.toDatum`: the values alone.
-/
import SourceIndex.Datum

namespace SourceIndex.Toml

/-- How a table came to be. -/
inductive Origin where
  /-- it has a header of its own, or is the document -/
  | header
  /-- a header leads through it -/
  | path
  /-- keys with dots lead through it -/
  | dotted
  /-- it stands in braces -/
  | braces
  deriving DecidableEq, Inhabited

/-- A part of a document. -/
inductive Node where
  | leaf (value : Datum)
  | list (items : List Node)
  /-- the tables under one repeated header -/
  | tables (items : List Node)
  | table (origin : Origin) (entries : List (String × Node))
  deriving Inhabited

namespace Node

/-- The entries with another value for a key. -/
def set (key : String) (node : Node) : List (String × Node) → List (String × Node)
  | [] => [(key, node)]
  | entry :: entries =>
    if entry.1 = key then (key, node) :: entries else entry :: set key node entries

/-- Change the table at the end of a path, where tables that are missing are
    made.  `dotted` tells whether keys with dots or a header lead there.  A
    repeated header stands for its last table. -/
def under (table : Node) (dotted : Bool) (change : Node → Option Node) :
    List String → Option Node
  | [] => change table
  | key :: path =>
    match table with
    | .table origin entries =>
      let changed := match entries.lookup key with
        | none => under (.table (if dotted then .dotted else .path) []) dotted change path
        | some (.tables items) =>
          match items.getLast? with
          | some last => (last.under dotted change path).map fun t => .tables (items.dropLast ++ [t])
          | none => none
        | some (.table .braces _) => none
        | some (.table .header entries) =>
          if dotted then none else under (.table .header entries) dotted change path
        | some (.table origin entries) => under (.table origin entries) dotted change path
        | some _ => none
      changed.map fun node => .table origin (set key node entries)
    | _ => none

/-- Give a new key of a table its value.  A key with dots ends in a table made by
    keys with dots, and a key without dots in any other. -/
def assign (table : Node) (path : List String) (key : String) (value : Node) : Option Node :=
  let change := fun (node : Node) =>
    match node with
    | .table origin entries =>
      if decide (origin = .dotted) = path.isEmpty || (entries.lookup key).isSome then none
      else some (.table origin (entries ++ [(key, value)]))
    | _ => none
  table.under true change path

mutual

/-- The values of a part of a document. -/
def toDatum : Node → Datum
  | .leaf value => value
  | .list items => .list (listToData items)
  | .tables items => .list (listToData items)
  | .table _ entries => .record (entriesToData entries)

/-- The values of a list. -/
def listToData : List Node → List Datum
  | [] => []
  | node :: nodes => node.toDatum :: listToData nodes

/-- The values of a table. -/
def entriesToData : List (String × Node) → List (String × Datum)
  | [] => []
  | (key, node) :: entries => (key, node.toDatum) :: entriesToData entries

end

end Node

end SourceIndex.Toml
