/-
  Tables as lists of pairs.

  A table whose keys are pairwise different is determined by its values under
  its keys, and every change of it is a change of its list of pairs: a new key
  goes to the end, a key that is dropped takes its one pair with it.

  * `mem_pairs_iff`: the pairs of such a table are its keys with their values;
  * `pairs_put_new`, `get?_keep`: what a new key and a test do;
  * `exists_split`: where the pair of a key stands;
  * `valuesAbove`: the values of the keys above a number.
-/
import Mathlib.Data.List.Nodup
import SourceIndex.Table

namespace SourceIndex.Table

variable {κ α : Type} {t : Table κ α} {k k' : κ} {v : α}

@[simp] theorem keys_mk (ps : List (κ × α)) : (⟨ps⟩ : Table κ α).keys = ps.map (·.1) := rfl

@[simp] theorem values_mk (ps : List (κ × α)) : (⟨ps⟩ : Table κ α).values = ps.map (·.2) := rfl

theorem mem_values : v ∈ t.values ↔ ∃ k, (k, v) ∈ t.pairs := by
  simp [values]

theorem nodup_keep (hn : t.keys.Nodup) (test : α → Bool) : (t.keep test).keys.Nodup :=
  (List.filter_sublist.map _).nodup hn

theorem values_keep (t : Table κ α) (test : α → Bool) :
    (t.keep test).values = t.values.filter test := by
  simp only [keep, values, List.filter_map]; rfl

variable [DecidableEq κ]

theorem mem_of_find? : ∀ {ps : List (κ × α)}, find? k ps = some v → (k, v) ∈ ps
  | [], h => by simp [find?] at h
  | p :: ps, h => by
    by_cases hp : p.1 = k
    · simp only [find?, hp, if_true, Option.some.injEq] at h
      subst hp; subst h; exact List.mem_cons_self
    · simp only [find?, hp, if_false] at h
      exact List.mem_cons_of_mem _ (mem_of_find? h)

theorem mem_of_get? (h : t.get? k = some v) : (k, v) ∈ t.pairs :=
  mem_of_find? h

theorem mem_values_of_get? (h : t.get? k = some v) : v ∈ t.values :=
  mem_values.2 ⟨k, mem_of_get? h⟩

theorem find?_eq_none_iff {ps : List (κ × α)} : find? k ps = none ↔ k ∉ ps.map (·.1) := by
  induction ps with
  | nil => simp [find?]
  | cons p ps ih =>
    by_cases hp : p.1 = k
    · simp [find?, hp]
    · have hp' : ¬ k = p.1 := fun h => hp h.symm
      simp [find?, hp, hp', ih]

theorem get?_eq_none_iff : t.get? k = none ↔ k ∉ t.keys :=
  find?_eq_none_iff

theorem mem_keys_iff : k ∈ t.keys ↔ ∃ v, t.get? k = some v := by
  rw [← not_iff_not, ← get?_eq_none_iff]
  cases t.get? k <;> simp

/-! ## Tables with one pair for a key -/

theorem find?_of_mem : ∀ {ps : List (κ × α)}, (ps.map (·.1)).Nodup →
    (k, v) ∈ ps → find? k ps = some v
  | [], _, h => by simp at h
  | p :: ps, hn, h => by
    rw [List.map_cons, List.nodup_cons] at hn
    rcases List.mem_cons.1 h with rfl | h
    · simp [find?]
    · have hp : p.1 ≠ k := fun he => hn.1 (he ▸ List.mem_map_of_mem h)
      simp only [find?, hp, if_false]
      exact find?_of_mem hn.2 h

theorem mem_pairs_iff (hn : t.keys.Nodup) : (k, v) ∈ t.pairs ↔ t.get? k = some v :=
  ⟨find?_of_mem hn, mem_of_get?⟩

theorem exists_get?_of_mem_values (hn : t.keys.Nodup) (h : v ∈ t.values) :
    ∃ k, t.get? k = some v := by
  obtain ⟨k, hk⟩ := mem_values.1 h
  exact ⟨k, (mem_pairs_iff hn).1 hk⟩

theorem map_values_eq_keys (hn : t.keys.Nodup) {key : α → κ}
    (h : ∀ {k v}, t.get? k = some v → key v = k) : t.values.map key = t.keys := by
  rw [values, keys, List.map_map]
  exact List.map_congr_left fun p hp => h ((mem_pairs_iff hn).1 hp)

/-- Where the pair of a key stands, and what another value for the key does. -/
theorem exists_split (h : t.get? k = some v) :
    ∃ l₁ l₂, t.pairs = l₁ ++ (k, v) :: l₂ ∧ k ∉ l₁.map (·.1) ∧
      ∀ w, (t.put k w).pairs = l₁ ++ (k, w) :: l₂ := by
  obtain ⟨ps⟩ := t
  induction ps with
  | nil => simp [get?, find?] at h
  | cons p ps ih =>
    by_cases hp : p.1 = k
    · simp only [get?, find?, hp, if_true, Option.some.injEq] at h
      refine ⟨[], ps, ?_, by simp, fun w => by simp [put, putIn, hp]⟩
      rw [← h, ← hp]; rfl
    · simp only [get?, find?, hp, if_false] at h
      obtain ⟨l₁, l₂, h₁, h₂, h₃⟩ := ih h
      refine ⟨p :: l₁, l₂, by simpa using h₁, ?_, fun w => ?_⟩
      · simpa using ⟨fun he => hp he.symm, by simpa using h₂⟩
      · have := h₃ w
        simp only [put, putIn, hp, if_false, List.cons_append] at this ⊢
        rw [this]

/-- Where the value of a key stands, what another value for the key does, and that
    the values of the other keys stand around it. -/
theorem exists_values_split (h : t.get? k = some v) :
    ∃ l₁ l₂, t.values = l₁ ++ v :: l₂ ∧ (∀ w, (t.put k w).values = l₁ ++ w :: l₂) ∧
      ∀ {k' v'}, k' ≠ k → t.get? k' = some v' → v' ∈ l₁ ++ l₂ := by
  obtain ⟨l₁, l₂, h₁, -, h₂⟩ := exists_split h
  refine ⟨l₁.map (·.2), l₂.map (·.2), by simp [values, h₁], fun w => by simp [values, h₂ w],
    fun {k' v'} hne hk => ?_⟩
  have hm := mem_of_get? hk
  rw [h₁, List.mem_append, List.mem_cons] at hm
  rcases hm with hm | hm | hm
  · exact List.mem_append_left _ (List.mem_map.2 ⟨_, hm, rfl⟩)
  · exact (hne (congrArg Prod.fst hm)).elim
  · exact List.mem_append_right _ (List.mem_map.2 ⟨_, hm, rfl⟩)

theorem putIn_new : ∀ {ps : List (κ × α)}, k ∉ ps.map (·.1) →
    putIn k v ps = ps ++ [(k, v)]
  | [], _ => rfl
  | p :: ps, h => by
    rw [List.map_cons, List.mem_cons, not_or] at h
    have hp : p.1 ≠ k := fun he => h.1 he.symm
    rw [putIn, if_neg hp, putIn_new h.2, List.cons_append]

theorem pairs_put_new (v : α) (h : k ∉ t.keys) : (t.put k v).pairs = t.pairs ++ [(k, v)] :=
  putIn_new h

theorem keys_put_old (w : α) (h : t.get? k = some v) : (t.put k w).keys = t.keys := by
  obtain ⟨l₁, l₂, h₁, -, h₃⟩ := exists_split h
  simp [keys, h₁, h₃ w]

theorem size_put_old (w : α) (h : t.get? k = some v) : (t.put k w).size = t.size := by
  obtain ⟨l₁, l₂, h₁, -, h₃⟩ := exists_split h
  simp [size, h₁, h₃ w]

theorem mem_keys_put : k' ∈ (t.put k v).keys ↔ k' = k ∨ k' ∈ t.keys := by
  rw [mem_keys_iff, mem_keys_iff, get?_put]
  by_cases h : k = k'
  · simp [h]
  · have h' : ¬ k' = k := fun he => h he.symm
    simp [h, h']

theorem isEmpty_iff : t.isEmpty = true ↔ ∀ k, t.get? k = none := by
  obtain ⟨ps⟩ := t
  cases ps with
  | nil => simp [isEmpty, get?, find?]
  | cons p ps =>
    simp only [isEmpty, List.isEmpty_cons, Bool.false_eq_true, false_iff, not_forall]
    exact ⟨p.1, by simp [get?, find?]⟩

theorem isEmpty_put (t : Table κ α) (k : κ) (v : α) : (t.put k v).isEmpty = false := by
  rw [← Bool.not_eq_true, isEmpty_iff]
  intro h
  simpa using h k

theorem nodup_put (hn : t.keys.Nodup) (k : κ) (v : α) : (t.put k v).keys.Nodup := by
  by_cases h : k ∈ t.keys
  · obtain ⟨w, hw⟩ := mem_keys_iff.1 h
    rwa [keys_put_old v hw]
  · rw [keys, pairs_put_new v h, List.map_append]
    refine List.Nodup.append hn (List.nodup_singleton k) fun k' hk' hk => ?_
    have he : k' = k := by simpa using hk
    exact h (he ▸ hk')

theorem nodup_erase (hn : t.keys.Nodup) (k : κ) : (t.erase k).keys.Nodup :=
  (List.filter_sublist.map _).nodup hn

theorem mem_keys_erase : k' ∈ (t.erase k).keys ↔ k' ≠ k ∧ k' ∈ t.keys := by
  rw [mem_keys_iff, mem_keys_iff, get?_erase]
  by_cases h : k = k'
  · simp [h]
  · have h' : ¬ k' = k := fun he => h he.symm
    simp [h, h']

theorem get?_keep (hn : t.keys.Nodup) (test : α → Bool) (k : κ) :
    (t.keep test).get? k = (t.get? k).filter test := by
  apply Option.ext
  intro v
  rw [← mem_pairs_iff (nodup_keep hn test), Option.filter_eq_some_iff, ← mem_pairs_iff hn]
  simp [keep]

theorem get?_of_keep (hn : t.keys.Nodup) {test : α → Bool} (h : (t.keep test).get? k = some v) :
    t.get? k = some v := by
  rw [get?_keep hn] at h
  exact (Option.filter_eq_some_iff.1 h).1

theorem get?_of_put {v' : α} (h : (t.put k v).get? k' = some v') :
    k' = k ∧ v' = v ∨ k' ≠ k ∧ t.get? k' = some v' := by
  rw [get?_put] at h
  split at h
  · rename_i he
    exact Or.inl ⟨he.symm, (Option.some.inj h).symm⟩
  · rename_i hne
    exact Or.inr ⟨fun he => hne he.symm, h⟩

theorem get?_eq_none_of_put (h : (t.put k v).get? k' = none) : k' ≠ k ∧ t.get? k' = none := by
  rw [get?_put] at h
  split at h
  · cases h
  · rename_i hne
    exact ⟨Ne.symm hne, h⟩

theorem get?_of_erase (h : (t.erase k).get? k' = some v) : t.get? k' = some v := by
  rw [get?_erase] at h
  split at h
  · cases h
  · exact h

/-- A key that is dropped takes its one value with it. -/
theorem perm_values_erase (hn : t.keys.Nodup) (h : t.get? k = some v) :
    t.values.Perm (v :: (t.erase k).values) := by
  obtain ⟨l₁, l₂, h₁, h₂, -⟩ := exists_split h
  have h₃ : k ∉ l₂.map (·.1) := by
    rw [keys, h₁, List.map_append, List.map_cons] at hn
    exact (List.nodup_cons.1 hn.of_append_right).1
  have hkeep : ∀ {l : List (κ × α)}, k ∉ l.map (·.1) → l.filter (fun p => p.1 ≠ k) = l :=
    fun hl => List.filter_eq_self.2 fun p hp =>
      decide_eq_true fun he => hl (List.mem_map.2 ⟨p, hp, he⟩)
  have he : (t.erase k).pairs = l₁ ++ l₂ := by
    rw [erase, h₁, List.filter_append, List.filter_cons_of_neg (by simp), hkeep h₂, hkeep h₃]
  rw [values, values, h₁, he, List.map_append, List.map_append]
  exact List.perm_middle

theorem perm_keys_erase (hn : t.keys.Nodup) (h : k ∈ t.keys) :
    t.keys.Perm (k :: (t.erase k).keys) := by
  refine (List.perm_ext_iff_of_nodup hn ?_).2 fun k' => ?_
  · refine List.nodup_cons.2 ⟨fun hm => (mem_keys_erase.1 hm).1 rfl, nodup_erase hn k⟩
  · rw [List.mem_cons, mem_keys_erase]
    by_cases he : k' = k
    · simp [he, h]
    · simp [he]

theorem keys_put_new (v : α) (h : k ∉ t.keys) : (t.put k v).keys = t.keys ++ [k] := by
  rw [keys, pairs_put_new v h, List.map_append]; rfl

theorem values_put_new (v : α) (h : k ∉ t.keys) : (t.put k v).values = t.values ++ [v] := by
  rw [values, pairs_put_new v h, List.map_append]; rfl

/-! ## Tables with numbers as keys -/

/-- The values of the keys above a number, in order. -/
def valuesAbove (n : Nat) (t : Table Nat α) : List α :=
  (t.pairs.filter (n < ·.1)).map (·.2)

section
variable {t : Table Nat α} {n : Nat}

theorem valuesAbove_put_new {k : Nat} (v : α) (h : k ∉ t.keys) (hk : n < k) :
    (t.put k v).valuesAbove n = t.valuesAbove n ++ [v] := by
  simp [valuesAbove, pairs_put_new v h, hk]

theorem valuesAbove_eq_nil (h : ∀ k ∈ t.keys, k ≤ n) : t.valuesAbove n = [] := by
  have hnil : t.pairs.filter (n < ·.1) = [] := by
    refine List.filter_eq_nil_iff.2 fun p hp hlt => ?_
    have hle := h p.1 (List.mem_map_of_mem hp)
    simp only [decide_eq_true_eq] at hlt
    omega
  rw [valuesAbove, hnil, List.map_nil]

theorem valuesAbove_eq_singleton (hn : t.keys.Nodup) (hle : ∀ k ∈ t.keys, k ≤ n + 1)
    (h : t.get? (n + 1) = some v) : t.valuesAbove n = [v] := by
  obtain ⟨l₁, l₂, hpairs, -⟩ := exists_split h
  have hnil : ∀ l : List (Nat × α), (∀ p ∈ l, p ∈ t.pairs) → n + 1 ∉ l.map (·.1) →
      l.filter (n < ·.1) = [] := by
    intro l hl hnot
    refine List.filter_eq_nil_iff.2 fun p hp hlt => hnot ?_
    have hkey := hle p.1 (List.mem_map_of_mem (hl p hp))
    rw [decide_eq_true_eq] at hlt
    exact List.mem_map.2 ⟨p, hp, Nat.le_antisymm hkey hlt⟩
  rw [keys, hpairs, List.map_append, List.map_cons] at hn
  obtain ⟨hnot, -⟩ := List.nodup_cons.1 (List.perm_middle.nodup_iff.1 hn)
  rw [List.mem_append, not_or] at hnot
  rw [valuesAbove, hpairs, List.filter_append, List.filter_cons,
    hnil l₁ (by grind) hnot.1, hnil l₂ (by grind) hnot.2]
  simp

/-- What stands beside the value of a key, and what another value for the key does. -/
theorem exists_valuesAbove_split {k : Nat} (h : t.get? k = some v) (hk : n < k) :
    ∃ others, (t.valuesAbove n).Perm (v :: others) ∧
      (∀ w, ((t.put k w).valuesAbove n).Perm (w :: others)) ∧
      ∀ {k' v'}, k' ≠ k → n < k' → t.get? k' = some v' → v' ∈ others := by
  obtain ⟨l₁, l₂, h₁, -, h₂⟩ := exists_split h
  refine ⟨((l₁ ++ l₂).filter (n < ·.1)).map (·.2), ?_, ?_, ?_⟩
  · simp only [valuesAbove, h₁, List.filter_append, List.map_append]
    simp [hk]
  · intro w
    simp only [valuesAbove, h₂ w, List.filter_append, List.map_append]
    simp [hk]
  · intro k' v' hne hk' hget
    have hm := mem_of_get? hget
    rw [h₁, List.mem_append, List.mem_cons] at hm
    refine List.mem_map.2 ⟨(k', v'), List.mem_filter.2 ⟨?_, decide_eq_true hk'⟩, rfl⟩
    rcases hm with hm | hm | hm
    · exact List.mem_append_left _ hm
    · exact (hne (congrArg Prod.fst hm)).elim
    · exact List.mem_append_right _ hm

end

end SourceIndex.Table
