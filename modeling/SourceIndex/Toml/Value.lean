/-
  Keys and values of a document.

  * `keyPath`: keys with dots between them;
  * `gap`: blank space, comments and line breaks between values;
  * `value`: a value of any kind, nested to a limited depth;
  * `assignment`: a key and its value.
-/
import SourceIndex.Toml.Moment
import SourceIndex.Toml.Node
import SourceIndex.Toml.Number
import SourceIndex.Toml.Quoted

namespace SourceIndex.Toml

/-- The characters after blank space. -/
def skipBlank (cs : List Char) : List Char := cs.dropWhile isBlank

/-! ## Keys -/

/-- Characters of a key without quotes. -/
def isBare (c : Char) : Bool := c.isAlphanum || c = '_' || c = '-'

/-- A key. -/
def key : Reader String
  | '"' :: rest => (basic rest).map fun r => (String.ofList r.1, r.2)
  | '\'' :: rest => (literal rest).map fun r => (String.ofList r.1, r.2)
  | cs =>
    let word := cs.takeWhile isBare
    if word.isEmpty then none else some (String.ofList word, cs.dropWhile isBare)

/-- Keys with dots between them, `n` at most; all keys but the last, and the last. -/
def keyPathUpTo : Nat → Reader (List String × String)
  | 0, _ => none
  | n + 1, cs => do
    let (first, rest) ← key cs
    match skipBlank rest with
    | '.' :: rest =>
      let ((path, last), rest) ← keyPathUpTo n (skipBlank rest)
      return ((first :: path, last), rest)
    | rest => return (([], first), rest)

/-- Keys with dots between them; all keys but the last, and the last. -/
def keyPath : Reader (List String × String) := fun cs => keyPathUpTo (cs.length + 1) cs

/-! ## Between values -/

/-- What follows blank space, comments and line breaks; `inComment` tells that a
    comment is going on. -/
def gapFrom (inComment : Bool) : List Char → Option (List Char)
  | [] => some []
  | '\n' :: rest => gapFrom false rest
  | '\r' :: '\n' :: rest => gapFrom false rest
  | c :: rest =>
    if inComment then (if isPlain c then gapFrom true rest else none)
    else if isBlank c then gapFrom false rest
    else if c = '#' then gapFrom true rest
    else some (c :: rest)

/-- What follows blank space, comments and line breaks. -/
def gap : List Char → Option (List Char) := gapFrom false

/-- What follows the end of a line, where only blank space and a comment may
    stand. -/
def lineEnd (cs : List Char) : Option (List Char) :=
  match skipBlank cs with
  | '#' :: rest => after (rest.dropWhile isPlain)
  | rest => after rest
where
  after : List Char → Option (List Char)
    | [] => some []
    | '\n' :: rest => some rest
    | '\r' :: '\n' :: rest => some rest
    | _ => none

/-! ## Values -/

/-- Characters of a word that stands for a value. -/
def isWordChar (c : Char) : Bool :=
  c.isAlphanum || c = '+' || c = '-' || c = '_' || c = '.' || c = ':'

/-- A word that stands for a value, and the rest.  A time may follow a date behind
    a space. -/
def word (cs : List Char) : List Char × List Char :=
  let first := cs.takeWhile isWordChar
  let rest := cs.dropWhile isWordChar
  match rest with
  | ' ' :: c :: more =>
    if isDate first && c.isDigit then
      (first ++ ' ' :: (c :: more).takeWhile isWordChar, (c :: more).dropWhile isWordChar)
    else (first, rest)
  | _ => (first, rest)

/-- The value of a word.  A moment is kept as its text, in a record of its own. -/
def wordValue? (cs : List Char) : Option Datum :=
  if cs = ['t', 'r', 'u', 'e'] then some (.bool true)
  else if cs = ['f', 'a', 'l', 's', 'e'] then some (.bool false)
  else if isMoment cs then some (.record [("moment", .text (String.ofList cs))])
  else number? cs

/-- A value that holds no other values. -/
def simple : Reader Node := fun cs =>
  match cs with
  | '"' :: _ => (quoted cs).map fun r => (.leaf (.text r.1), r.2)
  | '\'' :: _ => (quoted cs).map fun r => (.leaf (.text r.1), r.2)
  | _ =>
    let (first, rest) := word cs
    (wordValue? first).map fun value => (.leaf value, rest)

/-- A key and its value, for a reader of values. -/
def assignmentOf (value : Reader Node) : Reader ((List String × String) × Node) := fun cs => do
  let (keys, rest) ← keyPath cs
  match skipBlank rest with
  | '=' :: rest =>
    let (node, rest) ← value (skipBlank rest)
    return ((keys, node), rest)
  | _ => none

/-- The rest of a list, `n` items at most, up to its closing bracket. -/
def itemsUpTo (value : Reader Node) : Nat → Reader (List Node)
  | 0, _ => none
  | n + 1, cs => do
    match ← gap cs with
    | ']' :: rest => return ([], rest)
    | cs =>
      let (node, rest) ← value cs
      match ← gap rest with
      | ',' :: rest =>
        let (nodes, rest) ← itemsUpTo value n rest
        return (node :: nodes, rest)
      | ']' :: rest => return ([node], rest)
      | _ => none

/-- The rest of a table in braces, `n` entries at most, up to its closing brace.
    An entry must stand here. -/
def bracesUpTo (value : Reader Node) : Nat → Node → Reader Node
  | 0, _, _ => none
  | n + 1, table, cs => do
    let (((path, key), node), rest) ← assignmentOf value (skipBlank cs)
    let table ← table.assign path key node
    match skipBlank rest with
    | ',' :: rest => bracesUpTo value n table rest
    | '\x7d' :: rest => return (table, rest)
    | _ => none

/-- A value where lists and tables are nested less than `depth` times. -/
def valueWithin : Nat → Reader Node
  | 0, _ => none
  | depth + 1, '[' :: rest =>
    if depth = 0 then none
    else (itemsUpTo (valueWithin depth) (rest.length + 1) rest).map fun r => (.list r.1, r.2)
  | depth + 1, '\x7b' :: rest =>
    if depth = 0 then none
    else
      match skipBlank rest with
      | '\x7d' :: rest => some (.table .braces [], rest)
      | rest => bracesUpTo (valueWithin depth) (rest.length + 1) (.table .braces []) rest
  | _ + 1, cs => simple cs

/-- The number of times that lists and tables may be nested. -/
def maxNesting : Nat := 80

/-- A key and its value. -/
def assignment : Reader ((List String × String) × Node) :=
  assignmentOf (valueWithin (maxNesting + 1))

end SourceIndex.Toml
