/-
  Symbols: the named elements that a parse finds in a file.

  * `Kind`: what an element is, with its name and the reading of names;
  * `Symbol`: a name, a kind and a span.  Lines are counted from 1 and belong to
    the span at both ends; columns are counted in characters from 0;
  * `Key`: kind, name and first line, which identify an element across two
    revisions of a file, and their order.
-/
import SourceIndex.Text.Casing

namespace SourceIndex

/-- What a symbol is. -/
inductive Kind where
  | function
  | method
  | class_
  | struct
  | enum
  | interface
  | trait
  | module_
  | variable_
  | constant
  | type_
  /-- a kind without a place in the list above, known by its name -/
  | other (name : String)
  deriving DecidableEq

namespace Kind

instance : Inhabited Kind := ⟨.function⟩

/-- The kinds with a name of their own, in order. -/
def named : List (String × Kind) :=
  [("function", .function), ("method", .method), ("class", .class_), ("struct", .struct),
   ("enum", .enum), ("interface", .interface), ("trait", .trait), ("module", .module_),
   ("variable", .variable_), ("constant", .constant), ("type", .type_)]

/-- The name of a kind. -/
def name : Kind → String
  | function => "function"
  | method => "method"
  | class_ => "class"
  | struct => "struct"
  | enum => "enum"
  | interface => "interface"
  | trait => "trait"
  | module_ => "module"
  | variable_ => "variable"
  | constant => "constant"
  | type_ => "type"
  | other name => name

/-- The kind with a name; letter case does not matter, and an unknown name, in
    lower case, is a kind of its own. -/
def ofName (text : String) : Kind :=
  let lowered := Text.lowerCase text
  (named.lookup lowered).getD (.other lowered)

/-- The place of a kind in the order of kinds. -/
def rank : Kind → Nat
  | function => 0
  | method => 1
  | class_ => 2
  | struct => 3
  | enum => 4
  | interface => 5
  | trait => 6
  | module_ => 7
  | variable_ => 8
  | constant => 9
  | type_ => 10
  | other _ => 11

/-- Kinds are ordered by rank, the nameless ones by their name. -/
def order : Kind → Kind → Ordering
  | other a, other b => compare a b
  | a, b => compare a.rank b.rank

end Kind

/-- A named element of a file and the span it covers. -/
structure Symbol where
  name : String
  kind : Kind
  startLine : Nat
  startColumn : Nat
  endLine : Nat
  endColumn : Nat
  deriving DecidableEq, Inhabited

/-- What identifies a symbol across two revisions of a file.  The first line
    tells apart symbols that share their name. -/
structure Key where
  kind : Kind
  name : String
  startLine : Nat
  deriving DecidableEq, Inhabited

namespace Symbol

/-- The column past every line: a span that ends there ends with its last line. -/
def lastColumn : Nat := 4294967295

/-- The symbol that covers whole lines. -/
def ofLines (name : String) (kind : Kind) (startLine endLine : Nat) : Symbol :=
  ⟨name, kind, startLine, 0, endLine, lastColumn⟩

/-- The key of a symbol. -/
def key (s : Symbol) : Key :=
  ⟨s.kind, s.name, s.startLine⟩

/-- The number of lines of a symbol; one that ends before it starts counts as one
    line. -/
def lineCount (s : Symbol) : Nat :=
  s.endLine - s.startLine + 1

end Symbol

namespace Key

/-- The key as text: kind, name and line. -/
def text (k : Key) : String :=
  let kind := k.kind.name
  let name := k.name
  let line := k.startLine
  s!"{kind} {name}@{line}"

/-- Keys are ordered by kind, then name, then line. -/
def order (a b : Key) : Ordering :=
  (a.kind.order b.kind).then ((compare a.name b.name).then (compare a.startLine b.startLine))

/-- Keys in increasing order. -/
def sorted (keys : List Key) : List Key :=
  keys.mergeSort fun a b => a.order b != .gt

end Key

end SourceIndex
