/-
  Values of a data format.

  * `Datum`: nothing, truth values, numbers, texts, lists and records;
  * readers for the simple values, each of which accepts one form only;
  * `Datum.parts`: the fields of a record, which may also be given by position.
-/
import SourceIndex.Numeral.Reader

namespace SourceIndex

/-- A value of a data format.  A whole number is not the same as a double. -/
inductive Datum where
  | null
  | bool (value : Bool)
  | int (value : Int)
  | real (value : Float)
  | text (value : String)
  | list (items : List Datum)
  | record (fields : List (String × Datum))
  deriving Inhabited

namespace Datum

/-- A natural number. -/
def nat (n : Nat) : Datum := .int n

/-- A value that may be missing. -/
def optional {α : Type} (write : α → Datum) : Option α → Datum
  | none => .null
  | some a => write a

/-- The values of a list. -/
def ofList {α : Type} (write : α → Datum) (items : List α) : Datum :=
  .list (items.map write)

/-! ## Simple values -/

/-- A truth value. -/
def bool? : Datum → Option Bool
  | .bool value => some value
  | _ => none

/-- A text. -/
def text? : Datum → Option String
  | .text value => some value
  | _ => none

/-- A natural number up to a limit. -/
def upTo? (limit : Nat) : Datum → Option Nat
  | .int value => if 0 ≤ value ∧ value ≤ limit then some value.toNat else none
  | _ => none

/-- A natural number of 64 bits. -/
def nat64? : Datum → Option Nat := upTo? Numeral.max64

/-- A natural number of 32 bits. -/
def nat32? : Datum → Option Nat := upTo? Numeral.max32

/-- A double; a whole number of 64 bits, with or without a sign, is rounded to
    one. -/
def real? : Datum → Option Float
  | .real value => some value
  | .int value =>
    if -(Numeral.twoTo 63 : Int) ≤ value ∧ value ≤ Numeral.max64 then some (Numeral.ofInt value)
    else none
  | _ => none

/-- A list of values. -/
def list? {α : Type} (read : Datum → Option α) : Datum → Option (List α)
  | .list items => items.mapM read
  | _ => none

/-- A value, or `null` for none. -/
def optional? {α : Type} (read : Datum → Option α) : Datum → Option (Option α)
  | .null => some none
  | d => (read d).map some

/-! ## Records and choices -/

/-- The field of a record. -/
def field? (name : String) : Datum → Option Datum
  | .record fields => fields.lookup name
  | _ => none

/-- The named fields of a record, those it has; other fields do not matter.  The
    fields may also be given as a list, in their order and without the last ones.
    With `open_` such a list may go on. -/
def parts (open_ : Bool) (names : List String) : Datum → Option (List (Option Datum))
  | .record fields => some (names.map fun name => fields.lookup name)
  | .list items =>
    if open_ || items.length ≤ names.length then some (names.mapIdx fun i _ => items[i]?)
    else none
  | _ => none

/-- A field that may be left out. -/
def orElse {α : Type} (read : Datum → Option α) (default : α) : Option Datum → Option α
  | none => some default
  | some d => read d

/-- One of some named values: its name, or a record with its name alone and no
    value. -/
def choice? {α : Type} (named : List (String × α)) : Datum → Option α
  | .text name => named.lookup name
  | .record [(name, .null)] => named.lookup name
  | _ => none

end Datum

end SourceIndex
