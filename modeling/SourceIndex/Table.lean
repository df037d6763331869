/-
  Finite maps as lists of pairs.

  * `Table.get?`: the value of a key;
  * `Table.put`: the table with a value for a key; a key that is there keeps its
    place, a new one goes to the end;
  * `Table.erase`: the table without a key.

  The lemmas `get?_put` and `get?_erase` say what a change does to every value.
-/
namespace SourceIndex

/-- A finite map as a list of pairs. -/
structure Table (κ α : Type) where
  pairs : List (κ × α) := []
  deriving DecidableEq

namespace Table

variable {κ α : Type}

instance : Inhabited (Table κ α) := ⟨{}⟩

/-- The table without pairs. -/
def empty : Table κ α := {}

/-- The keys in order. -/
def keys (t : Table κ α) : List κ :=
  t.pairs.map (·.1)

/-- The values in order. -/
def values (t : Table κ α) : List α :=
  t.pairs.map (·.2)

/-- The number of pairs. -/
def size (t : Table κ α) : Nat :=
  t.pairs.length

/-- Is there no pair? -/
def isEmpty (t : Table κ α) : Bool :=
  t.pairs.isEmpty

variable [DecidableEq κ]

/-- The value of a key in a list of pairs. -/
def find? (k : κ) : List (κ × α) → Option α
  | [] => none
  | p :: ps => if p.1 = k then some p.2 else find? k ps

/-- The list of pairs with a value for a key. -/
def putIn (k : κ) (v : α) : List (κ × α) → List (κ × α)
  | [] => [(k, v)]
  | p :: ps => if p.1 = k then (k, v) :: ps else p :: putIn k v ps

/-- The value of a key. -/
def get? (t : Table κ α) (k : κ) : Option α :=
  find? k t.pairs

/-- Does the key have a value? -/
def contains (t : Table κ α) (k : κ) : Bool :=
  (t.get? k).isSome

/-- The table with a value for a key. -/
def put (t : Table κ α) (k : κ) (v : α) : Table κ α :=
  ⟨putIn k v t.pairs⟩

/-- The table without a key. -/
def erase (t : Table κ α) (k : κ) : Table κ α :=
  ⟨t.pairs.filter fun p => p.1 ≠ k⟩

/-- The pairs whose value passes the test. -/
def keep (t : Table κ α) (test : α → Bool) : Table κ α :=
  ⟨t.pairs.filter fun p => test p.2⟩

/-- The table with the value of a key changed, if it has one. -/
def modify (t : Table κ α) (k : κ) (f : α → α) : Table κ α :=
  match t.get? k with
  | some v => t.put k (f v)
  | none => t

/-! ## Values after a change -/

@[simp] theorem get?_empty (k : κ) : (empty : Table κ α).get? k = none := rfl

theorem find?_putIn (k k' : κ) (v : α) (ps : List (κ × α)) :
    find? k' (putIn k v ps) = if k = k' then some v else find? k' ps := by
  induction ps with
  | nil => simp [putIn, find?]
  | cons p ps ih =>
    by_cases hp : p.1 = k
    · by_cases hk : k = k' <;> simp_all [putIn, find?]
    · by_cases hk : k = k'
      · subst hk; simp [putIn, find?, hp, ih]
      · simp [putIn, find?, hp, ih, hk]

theorem get?_put (t : Table κ α) (k k' : κ) (v : α) :
    (t.put k v).get? k' = if k = k' then some v else t.get? k' :=
  find?_putIn k k' v t.pairs

@[simp] theorem get?_put_self (t : Table κ α) (k : κ) (v : α) :
    (t.put k v).get? k = some v := by
  simp [get?_put]

theorem find?_filter_ne (k k' : κ) (ps : List (κ × α)) :
    find? k' (ps.filter fun p => p.1 ≠ k) = if k = k' then none else find? k' ps := by
  induction ps with
  | nil => simp [find?]
  | cons p ps ih =>
    by_cases hp : p.1 = k <;> by_cases hk : k = k' <;> simp_all [find?]

theorem get?_erase (t : Table κ α) (k k' : κ) :
    (t.erase k).get? k' = if k = k' then none else t.get? k' :=
  find?_filter_ne k k' t.pairs

end Table

end SourceIndex
