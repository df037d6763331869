/-
  The entries of a cache and the index of their paths.

  The index is kept beside the entries, and every operation that drops entries has to
  drop them from both.

  * `Cache.Lists`: an index that lists the fingerprints of some keys under their paths;
    one lemma for each change of an index;
  * `entries_remove`, `entries_removeAll`, `size_evict`: what operations do to the entries;
    no operation changes the limits (`sameLimits_run`);
  * `Cache.Indexed`: a cache with one entry under a key at most, with no more entries than
    it has room for, and with an index that lists its entries.  Every operation keeps it
    so (`Indexed.set`, …), and so does a run (`indexed_after`);
  * `Indexed.perm_hashes`: the fingerprints under a path are those of its entries, so that
    the operations which go by the index drop exactly the entries they should
    (`invalidate_spec`, `invalidateStale_spec`).
-/
import Mathlib.Data.List.Nodup
import Mathlib.Data.List.Perm.Basic
import SourceIndex.Cache
import SourceIndex.Proofs.Table

namespace SourceIndex

namespace Cache

variable {α : Type} {key : CacheKey}

/-! ## The index -/

/-- The fingerprints that an index has under a path. -/
def hashesAt (index : Table String (List ContentHash)) (path : String) : List ContentHash :=
  (index.get? path).getD []

/-- The index lists the keys: under each path their fingerprints, each of them once, and
    nothing under a path without a key. -/
structure Lists (index : Table String (List ContentHash)) (listed : List CacheKey) : Prop where
  nonempty : ∀ {path hashes}, index.get? path = some hashes → hashes ≠ []
  nodup : ∀ path, (hashesAt index path).Nodup
  mem_iff : ∀ {path hash}, hash ∈ hashesAt index path ↔ ⟨path, hash⟩ ∈ listed

variable {index : Table String (List ContentHash)} {listed listed' : List CacheKey}

theorem hashesAt_of_get? {path : String} {hashes : List ContentHash}
    (h : index.get? path = some hashes) : hashesAt index path = hashes := by
  rw [hashesAt, h]; rfl

theorem hashesAt_put (path path' : String) (hashes : List ContentHash) :
    hashesAt (index.put path hashes) path' =
      if path = path' then hashes else hashesAt index path' := by
  rw [hashesAt, Table.get?_put]
  split <;> rfl

theorem hashesAt_erase (path path' : String) :
    hashesAt (index.erase path) path' = if path = path' then [] else hashesAt index path' := by
  rw [hashesAt, Table.get?_erase]
  split <;> rfl

theorem hashesAt_unlist (key : CacheKey) (path : String) :
    hashesAt (unlist index key) path =
      if key.path = path then (hashesAt index path).filter (· ≠ key.hash)
      else hashesAt index path := by
  unfold unlist
  cases hg : index.get? key.path with
  | none =>
    by_cases hp : key.path = path
    · subst hp
      simp [hashesAt, hg]
    · simp [hp]
  | some hashes =>
    dsimp only
    split
    · rename_i hempty
      rw [hashesAt_erase]
      by_cases hp : key.path = path
      · subst hp
        rw [if_pos rfl, if_pos rfl, hashesAt_of_get? hg, List.isEmpty_iff.1 hempty]
      · rw [if_neg hp, if_neg hp]
    · rw [hashesAt_put]
      by_cases hp : key.path = path
      · subst hp
        rw [if_pos rfl, if_pos rfl, hashesAt_of_get? hg]
      · rw [if_neg hp, if_neg hp]

theorem hashesAt_enlist (key : CacheKey) (path : String) :
    hashesAt (enlist index key) path =
      if key.path = path ∧ key.hash ∉ hashesAt index path then hashesAt index path ++ [key.hash]
      else hashesAt index path := by
  have henlist : enlist index key =
      if (hashesAt index key.path).contains key.hash then index
      else index.put key.path (hashesAt index key.path ++ [key.hash]) := rfl
  rw [henlist, List.contains_eq_mem]
  by_cases hp : key.path = path
  · subst hp
    by_cases hm : key.hash ∈ hashesAt index key.path <;> simp [hm, hashesAt_put]
  · by_cases hm : key.hash ∈ hashesAt index key.path <;> simp [hm, hp, hashesAt_put]

namespace Lists

theorem congr (h : Lists index listed) (hk : ∀ key, key ∈ listed ↔ key ∈ listed') :
    Lists index listed' where
  nonempty := h.nonempty
  nodup := h.nodup
  mem_iff := h.mem_iff.trans (hk _)

theorem unlist (h : Lists index listed) (key : CacheKey) :
    Lists (Cache.unlist index key) (listed.filter (· ≠ key)) where
  nonempty {path hashes} hg := by
    unfold Cache.unlist at hg
    cases hg' : index.get? key.path with
    | none =>
      rw [hg'] at hg
      exact h.nonempty hg
    | some old =>
      rw [hg'] at hg
      dsimp only at hg
      split at hg
      · exact h.nonempty (Table.get?_of_erase hg)
      · rename_i hne
        rcases Table.get?_of_put hg with ⟨-, rfl⟩ | ⟨-, hg⟩
        · simpa using hne
        · exact h.nonempty hg
  nodup path := by
    rw [hashesAt_unlist]
    split
    · exact (h.nodup path).filter _
    · exact h.nodup path
  mem_iff {path hash} := by
    rw [hashesAt_unlist, List.mem_filter, ← h.mem_iff]
    obtain ⟨p, x⟩ := key
    by_cases hp : p = path
    · simp [hp]
    · have hp' : ¬ path = p := fun he => hp he.symm
      simp [hp, hp']

theorem enlist (h : Lists index listed) (key : CacheKey) :
    Lists (Cache.enlist index key) (key :: listed) where
  nonempty {path hashes} hg := by
    unfold Cache.enlist at hg
    dsimp only at hg
    split at hg
    · exact h.nonempty hg
    · rcases Table.get?_of_put hg with ⟨-, rfl⟩ | ⟨-, hg⟩
      · simp
      · exact h.nonempty hg
  nodup path := by
    rw [hashesAt_enlist]
    split
    · rename_i hnew
      exact (h.nodup path).append (List.nodup_singleton _) (by simpa using hnew.2)
    · exact h.nodup path
  mem_iff {path hash} := by
    rw [hashesAt_enlist, List.mem_cons, ← h.mem_iff]
    obtain ⟨p, x⟩ := key
    by_cases hp : p = path
    · subst hp
      by_cases hx : x ∈ hashesAt index p
      · simp only [hx, not_true, and_false, if_false, CacheKey.mk.injEq, true_and]
        exact ⟨Or.inr, fun hm => hm.elim (fun he => he ▸ hx) id⟩
      · simp [hx, or_comm]
    · have hp' : ¬ path = p := fun he => hp he.symm
      simp [hp, hp']

theorem erase (h : Lists index listed) (path : String) :
    Lists (index.erase path) (listed.filter (·.path ≠ path)) where
  nonempty hg := h.nonempty (Table.get?_of_erase hg)
  nodup path' := by
    rw [hashesAt_erase]
    split
    · exact List.nodup_nil
    · exact h.nodup path'
  mem_iff {path' hash} := by
    rw [hashesAt_erase, List.mem_filter, ← h.mem_iff]
    by_cases hp : path = path'
    · simp [hp]
    · have hp' : ¬ path' = path := fun he => hp he.symm
      simp [hp, hp']

end Lists

/-! ## The entries -/

variable {c : Cache α}

/-- The keys of the entries. -/
def keys (c : Cache α) : List CacheKey :=
  c.entries.map (·.key)

theorem find?_eq_none_iff : c.find? key = none ↔ key ∉ c.keys := by
  simp only [find?, List.find?_eq_none, decide_eq_true_eq, keys, List.mem_map, not_exists, not_and]

theorem entries_filter_of_notMem (h : key ∉ c.keys) :
    c.entries.filter (·.key ≠ key) = c.entries := by
  refine List.filter_eq_self.2 fun e he => decide_eq_true ?_
  rintro rfl
  exact h (List.mem_map.2 ⟨e, he, rfl⟩)

theorem map_key_filter (c : Cache α) (test : CacheKey → Bool) :
    (c.entries.filter fun e => test e.key).map (·.key) = c.keys.filter test := by
  rw [keys, List.filter_map]; rfl

theorem entries_remove (c : Cache α) (key : CacheKey) :
    (c.remove key).entries = c.entries.filter (·.key ≠ key) := by
  unfold remove
  cases hf : c.find? key with
  | none => exact (entries_filter_of_notMem (find?_eq_none_iff.1 hf)).symm
  | some e => rfl

theorem entries_removeAll (c : Cache α) (dropped : List CacheKey) :
    (c.removeAll dropped).entries = c.entries.filter (·.key ∉ dropped) := by
  unfold removeAll
  induction dropped generalizing c with
  | nil => simp
  | cons key dropped ih =>
    rw [List.foldl_cons, ih, entries_remove, List.filter_filter]
    refine List.filter_congr fun e _ => ?_
    simp [Bool.and_comm]

theorem size_evictLast (c : Cache α) : c.evictLast.size = c.size - 1 := by
  unfold evictLast
  cases h : c.entries.getLast? with
  | none =>
    rw [List.getLast?_eq_none_iff] at h
    simp [size, h]
  | some e => simp [size]

theorem size_evict (n : Nat) (c : Cache α) : (evict n c).size = c.size - n := by
  induction n generalizing c with
  | zero => rfl
  | succ n ih =>
    rw [evict, ih, size_evictLast]
    omega

/-! ## The limits -/

/-- The second cache has the limits of the first one. -/
def SameLimits (c c' : Cache α) : Prop :=
  c'.maxSize = c.maxSize ∧ c'.ttl = c.ttl

theorem SameLimits.refl (c : Cache α) : SameLimits c c :=
  ⟨rfl, rfl⟩

theorem SameLimits.trans {c' c'' : Cache α} (h : SameLimits c c') (h' : SameLimits c' c'') :
    SameLimits c c'' :=
  ⟨h'.1.trans h.1, h'.2.trans h.2⟩

theorem sameLimits_remove (c : Cache α) (key : CacheKey) : SameLimits c (c.remove key) := by
  unfold remove
  split <;> exact .refl c

theorem sameLimits_removeAll (c : Cache α) (dropped : List CacheKey) :
    SameLimits c (c.removeAll dropped) := by
  unfold removeAll
  induction dropped generalizing c with
  | nil => exact .refl c
  | cons key dropped ih => exact (sameLimits_remove c key).trans (ih _)

theorem sameLimits_evict (n : Nat) (c : Cache α) : SameLimits c (evict n c) := by
  induction n generalizing c with
  | zero => exact .refl c
  | succ n ih =>
    have hlast : SameLimits c c.evictLast := by
      unfold evictLast
      split <;> exact .refl c
    exact hlast.trans (ih _)

theorem sameLimits_makeRoom (now : Nat) (c : Cache α) : SameLimits c (c.makeRoom now) := by
  have hstale := sameLimits_removeAll c ((c.staleTail now).map (·.key))
  exact ⟨(sameLimits_evict _ _).1.trans hstale.1, (sameLimits_evict _ _).2.trans hstale.2⟩

theorem sameLimits_set (now : Nat) (key : CacheKey) (value : α) (c : Cache α) :
    SameLimits c (c.set now key value) := by
  unfold set
  dsimp only
  split
  · exact sameLimits_makeRoom now c
  · exact .refl c

theorem sameLimits_get (now : Nat) (key : CacheKey) (c : Cache α) :
    SameLimits c (c.get now key).2 := by
  unfold get
  cases c.find? key with
  | none => exact .refl c
  | some e =>
    dsimp only
    split
    · exact sameLimits_remove c key
    · exact .refl c

theorem sameLimits_invalidate (path : String) (c : Cache α) :
    SameLimits c (c.invalidate path).2 := by
  unfold invalidate
  cases c.byPath.get? path <;> exact .refl c

theorem sameLimits_invalidateStale (path : String) (kept : ContentHash) (c : Cache α) :
    SameLimits c (c.invalidateStale path kept).2 := by
  unfold invalidateStale
  cases c.byPath.get? path with
  | none => exact .refl c
  | some hashes => exact sameLimits_removeAll c _

/-- No operation changes the limits. -/
theorem sameLimits_run (s : TimedCache α) (op : CacheOp α) :
    SameLimits s.cache (op.run s).2.cache := by
  cases op with
  | set key value => exact sameLimits_set s.now key value s.cache
  | get key => exact sameLimits_get s.now key s.cache
  | invalidate path => exact sameLimits_invalidate path s.cache
  | invalidateStale path kept => exact sameLimits_invalidateStale path kept s.cache
  | purgeExpired => exact sameLimits_removeAll s.cache _
  | contains | clear | stats | advance => exact .refl s.cache

/-! ## Caches with an index in order -/

/-- A cache with one entry under a key at most and no more entries than it has room for,
    where the index lists the entries. -/
structure Indexed (c : Cache α) : Prop where
  nodup : c.keys.Nodup
  pos : 1 ≤ c.maxSize
  size_le : c.size ≤ c.maxSize
  lists : Lists c.byPath c.keys

namespace Indexed

variable {e : CacheEntry α}

theorem ofSettings (s : CacheSettings) : (Cache.ofSettings s : Cache α).Indexed where
  nodup := List.nodup_nil
  pos := Nat.le_max_right _ _
  size_le := Nat.zero_le _
  lists := by
    refine ⟨fun hg => ?_, fun path => List.nodup_nil, fun {path hash} => ?_⟩
    · cases hg
    · exact iff_of_false List.not_mem_nil List.not_mem_nil

theorem congr (h : c.Indexed) {c' : Cache α} (he : c'.entries = c.entries)
    (hi : c'.byPath = c.byPath) (hm : c'.maxSize = c.maxSize) : c'.Indexed := by
  have hkeys : c'.keys = c.keys := by rw [keys, he, keys]
  refine ⟨hkeys ▸ h.nodup, hm ▸ h.pos, ?_, hi ▸ hkeys ▸ h.lists⟩
  rw [size, he, hm]
  exact h.size_le

theorem remove (h : c.Indexed) (key : CacheKey) : (c.remove key).Indexed := by
  have hkeys : (c.remove key).keys = c.keys.filter (· ≠ key) := by
    rw [keys, entries_remove]
    exact map_key_filter c (· ≠ key)
  refine ⟨?_, ?_, ?_, ?_⟩
  · rw [hkeys]
    exact h.nodup.filter _
  · rw [(sameLimits_remove c key).1]
    exact h.pos
  · rw [size, entries_remove, (sameLimits_remove c key).1]
    exact Nat.le_trans (List.length_filter_le _ _) h.size_le
  · rw [hkeys]
    unfold Cache.remove
    cases hf : c.find? key with
    | none =>
      refine h.lists.congr fun key' => ?_
      rw [List.mem_filter, decide_eq_true_eq]
      refine ⟨fun hm => ⟨hm, ?_⟩, And.left⟩
      rintro rfl
      exact find?_eq_none_iff.1 hf hm
    | some e => exact h.lists.unlist key

theorem removeAll (h : c.Indexed) (dropped : List CacheKey) : (c.removeAll dropped).Indexed := by
  unfold Cache.removeAll
  induction dropped generalizing c with
  | nil => exact h
  | cons key dropped ih => exact ih (h.remove key)

theorem dropLast_eq (h : c.Indexed) (he : c.entries.getLast? = some e) :
    c.entries.dropLast = c.entries.filter (·.key ≠ e.key) := by
  have hsplit := List.dropLast_append_getLast? e he
  have hnodup := h.nodup
  rw [keys, ← hsplit, List.map_append, List.nodup_append] at hnodup
  conv_rhs => rw [← hsplit]
  rw [List.filter_append, List.filter_cons_of_neg (by simp), List.filter_nil, List.append_nil]
  refine (List.filter_eq_self.2 fun e' he' => decide_eq_true ?_).symm
  exact hnodup.2.2 e'.key (List.mem_map_of_mem he') e.key (by simp)

theorem evictLast (h : c.Indexed) : c.evictLast.Indexed := by
  unfold Cache.evictLast
  cases he : c.entries.getLast? with
  | none => exact h
  | some e =>
    have hkeys : c.entries.dropLast.map (·.key) = c.keys.filter (· ≠ e.key) := by
      rw [h.dropLast_eq he]
      exact map_key_filter c (· ≠ e.key)
    refine ⟨?_, h.pos, ?_, ?_⟩
    · show (c.entries.dropLast.map (·.key)).Nodup
      rw [hkeys]
      exact h.nodup.filter _
    · have hlength : c.entries.dropLast.length = c.entries.length - 1 := List.length_dropLast
      have hle : c.entries.length ≤ c.maxSize := h.size_le
      simp only [size, hlength]
      omega
    · rw [keys, hkeys]
      exact h.lists.unlist e.key

theorem evict (h : c.Indexed) (n : Nat) : (Cache.evict n c).Indexed := by
  induction n generalizing c with
  | zero => exact h
  | succ n ih => exact ih h.evictLast

theorem makeRoom (h : c.Indexed) (now : Nat) :
    (c.makeRoom now).Indexed ∧ (c.makeRoom now).size + 1 ≤ (c.makeRoom now).maxSize := by
  rw [(sameLimits_makeRoom now c).1]
  unfold Cache.makeRoom
  dsimp only
  generalize hdropped : (c.staleTail now).map (·.key) = dropped
  have hkept := h.removeAll dropped
  have hmax : (c.removeAll dropped).maxSize = c.maxSize := (sameLimits_removeAll c dropped).1
  constructor
  · apply evict
    exact hkept.congr rfl rfl rfl
  · rw [size_evict]
    have hpos := h.pos
    simp only [hmax]
    omega

/-- The entry under a key, which is put in front of the others, is still the only one
    under its key. -/
theorem front (h : c.Indexed) (hroom : e.key ∈ c.keys ∨ c.size + 1 ≤ c.maxSize)
    (hlists : Lists index (e.key :: c.keys)) :
    { c with entries := e :: c.entries.filter (·.key ≠ e.key), byPath := index }.Indexed := by
  have hkeys : (e :: c.entries.filter (·.key ≠ e.key)).map (·.key) =
      e.key :: c.keys.filter (· ≠ e.key) :=
    congrArg (e.key :: ·) (map_key_filter c (· ≠ e.key))
  refine ⟨?_, h.pos, ?_, ?_⟩
  · rw [keys, hkeys]
    exact List.nodup_cons.2 ⟨by simp, h.nodup.filter _⟩
  · simp only [size, List.length_cons]
    rcases hroom with hmem | hroom
    · obtain ⟨e', he', hkey⟩ := List.mem_map.1 hmem
      have hlt : (c.entries.filter (·.key ≠ e.key)).length < c.entries.length :=
        List.length_filter_lt_length_iff_exists.2 ⟨e', he', by simp [hkey]⟩
      have hle : c.entries.length ≤ c.maxSize := h.size_le
      omega
    · have hle := List.length_filter_le (fun e' : CacheEntry α => decide (e'.key ≠ e.key)) c.entries
      have hroom : c.entries.length + 1 ≤ c.maxSize := hroom
      omega
  · rw [keys, hkeys]
    refine hlists.congr fun key => ?_
    by_cases hkey : key = e.key <;> simp [hkey]

theorem get (h : c.Indexed) (now : Nat) (key : CacheKey) : (c.get now key).2.Indexed := by
  unfold Cache.get
  cases hf : c.find? key with
  | none => exact h.congr rfl rfl rfl
  | some e =>
    dsimp only
    split
    · exact (h.remove key).congr rfl rfl rfl
    · have hkey : e.key = key := by simpa using List.find?_some hf
      have hmem : e.key ∈ c.keys := List.mem_map_of_mem (List.mem_of_find?_eq_some hf)
      subst hkey
      have hfront := h.front (Or.inl hmem) (h.lists.congr fun key => by
        rw [List.mem_cons]
        exact ⟨Or.inr, fun hk => hk.elim (fun he => he ▸ hmem) id⟩)
      exact hfront.congr rfl rfl rfl

theorem set (h : c.Indexed) (now : Nat) (key : CacheKey) (value : α) :
    (c.set now key value).Indexed := by
  unfold Cache.set
  by_cases hfull : (c.find? key).isNone && c.maxSize ≤ c.size
  · rw [if_pos hfull]
    obtain ⟨hmade, hroom⟩ := h.makeRoom now
    exact hmade.front (e := ⟨key, value, now⟩) (Or.inr hroom) (hmade.lists.enlist key)
  · rw [if_neg hfull]
    refine h.front (e := ⟨key, value, now⟩) ?_ (h.lists.enlist key)
    by_contra hno
    rw [not_or, Nat.not_le] at hno
    have hnone := find?_eq_none_iff.2 hno.1
    exact hfull (by simp [hnone, Nat.le_of_lt_succ hno.2])

theorem clear (h : c.Indexed) : c.clear.Indexed where
  nodup := List.nodup_nil
  pos := h.pos
  size_le := Nat.zero_le _
  lists := by
    refine ⟨fun hg => ?_, fun path => List.nodup_nil, ?_⟩
    · cases hg
    · exact iff_of_false List.not_mem_nil List.not_mem_nil

theorem purgeExpired (h : c.Indexed) (now : Nat) : (c.purgeExpired now).2.Indexed :=
  (h.removeAll _).congr rfl rfl rfl

/-! ## Dropping by the index -/

theorem perm_hashes (h : c.Indexed) (path : String) :
    (hashesAt c.byPath path).Perm ((c.entries.filter (·.key.path = path)).map (·.key.hash)) := by
  refine (List.perm_ext_iff_of_nodup (h.lists.nodup path) ?_).2 fun hash => ?_
  · -- entries with one path differ in their fingerprints
    have hentries : c.entries.Nodup := List.Nodup.of_map _ h.nodup
    refine (hentries.filter _).map_on fun e he e' he' hhash => ?_
    simp only [List.mem_filter, decide_eq_true_eq] at he he'
    refine List.inj_on_of_nodup_map h.nodup he.1 he'.1 ?_
    show CacheKey.mk e.key.path e.key.hash = CacheKey.mk e'.key.path e'.key.hash
    rw [he.2, he'.2, hhash]
  · rw [h.lists.mem_iff, keys, List.mem_map, List.mem_map]
    constructor
    · rintro ⟨e, he, hkey⟩
      exact ⟨e, List.mem_filter.2 ⟨he, by simp [hkey]⟩, by rw [hkey]⟩
    · rintro ⟨e, he, rfl⟩
      obtain ⟨he, hpath⟩ := List.mem_filter.1 he
      rw [decide_eq_true_eq] at hpath
      exact ⟨e, he, by rw [← hpath]⟩

theorem notMem_of_get?_eq_none (h : c.Indexed) {path : String} (hg : c.byPath.get? path = none)
    (he : e ∈ c.entries) : e.key.path ≠ path := by
  rintro rfl
  have hmem : e.key.hash ∈ hashesAt c.byPath e.key.path :=
    h.lists.mem_iff.2 (List.mem_map.2 ⟨e, he, rfl⟩)
  simp [hashesAt, hg] at hmem

/-- Dropping a path drops its entries, and says how many there were. -/
theorem invalidate_spec (h : c.Indexed) (path : String) :
    (c.invalidate path).1 = (c.entries.filter (·.key.path = path)).length ∧
      (c.invalidate path).2.entries = c.entries.filter (·.key.path ≠ path) := by
  unfold Cache.invalidate
  cases hg : c.byPath.get? path with
  | none =>
    have hother := fun {e} => h.notMem_of_get?_eq_none (e := e) hg
    dsimp only
    rw [List.filter_eq_nil_iff.2 fun e he => by simpa using hother he,
      List.filter_eq_self.2 fun e he => by simpa using hother he]
    exact ⟨rfl, rfl⟩
  | some hashes =>
    have hhashes := hashesAt_of_get? hg
    have hheld : hashes.filter (fun hash => (c.find? ⟨path, hash⟩).isSome) = hashes := by
      refine List.filter_eq_self.2 fun hash hmem => ?_
      rw [← hhashes, h.lists.mem_iff] at hmem
      by_contra hnone
      rw [Option.not_isSome_iff_eq_none] at hnone
      exact find?_eq_none_iff.1 hnone hmem
    dsimp only
    rw [hheld]
    constructor
    · have hlength := (h.perm_hashes path).length_eq
      rwa [hhashes, List.length_map] at hlength
    · refine List.filter_congr fun e he => ?_
      have hlisted : e.key.path = path → e.key.hash ∈ hashes := by
        rintro rfl
        rw [← hhashes]
        exact h.lists.mem_iff.2 (List.mem_map.2 ⟨e, he, rfl⟩)
      by_cases hp : e.key.path = path <;> simp [hp, hlisted]

theorem invalidate (h : c.Indexed) (path : String) : (c.invalidate path).2.Indexed := by
  have hentries := (h.invalidate_spec path).2
  have hkeys : (c.invalidate path).2.keys = c.keys.filter (·.path ≠ path) := by
    rw [keys, hentries]
    exact map_key_filter c (·.path ≠ path)
  have hlimits := (sameLimits_invalidate path c).1
  refine ⟨hkeys ▸ h.nodup.filter _, hlimits ▸ h.pos, ?_, ?_⟩
  · rw [size, hentries, hlimits]
    exact Nat.le_trans (List.length_filter_le _ _) h.size_le
  · rw [hkeys]
    unfold Cache.invalidate
    cases hg : c.byPath.get? path with
    | none =>
      refine h.lists.congr fun key => ?_
      rw [List.mem_filter, decide_eq_true_eq]
      refine ⟨fun hm => ⟨hm, ?_⟩, And.left⟩
      obtain ⟨e, he, rfl⟩ := List.mem_map.1 hm
      exact h.notMem_of_get?_eq_none hg he
    | some hashes => exact h.lists.erase path

/-- Dropping the stale entries of a path drops its entries with other fingerprints, and
    says how many there were. -/
theorem invalidateStale_spec (h : c.Indexed) (path : String) (kept : ContentHash) :
    (c.invalidateStale path kept).1 =
        (c.entries.filter fun e => e.key.path = path ∧ e.key.hash ≠ kept).length ∧
      (c.invalidateStale path kept).2.entries =
        c.entries.filter fun e => ¬ (e.key.path = path ∧ e.key.hash ≠ kept) := by
  unfold Cache.invalidateStale
  cases hg : c.byPath.get? path with
  | none =>
    have hother := fun {e} => h.notMem_of_get?_eq_none (e := e) hg
    dsimp only
    rw [List.filter_eq_nil_iff.2 fun e he => by simp [hother he],
      List.filter_eq_self.2 fun e he => by simp [hother he]]
    exact ⟨rfl, rfl⟩
  | some hashes =>
    have hhashes := hashesAt_of_get? hg
    dsimp only
    constructor
    · have hperm := (h.perm_hashes path).filter (fun hash => decide (hash ≠ kept))
      rw [hhashes, List.filter_map] at hperm
      rw [hperm.length_eq, List.length_map, List.filter_filter]
      refine congrArg List.length (List.filter_congr fun e _ => ?_)
      simp [Bool.and_comm]
    · rw [entries_removeAll]
      refine List.filter_congr fun e he => ?_
      have hmem : e.key ∈ (hashes.filter (· ≠ kept)).map (CacheKey.mk path) ↔
          e.key.path = path ∧ e.key.hash ≠ kept := by
        rw [List.mem_map]
        constructor
        · rintro ⟨hash, hhash, he'⟩
          rw [← he']
          exact ⟨rfl, by simpa using (List.mem_filter.1 hhash).2⟩
        · rintro ⟨rfl, hne⟩
          refine ⟨e.key.hash, List.mem_filter.2 ⟨?_, by simpa using hne⟩, rfl⟩
          rw [← hhashes]
          exact h.lists.mem_iff.2 (List.mem_map.2 ⟨e, he, rfl⟩)
      exact decide_eq_decide.2 (not_congr hmem)

theorem invalidateStale (h : c.Indexed) (path : String) (kept : ContentHash) :
    (c.invalidateStale path kept).2.Indexed := by
  unfold Cache.invalidateStale
  cases c.byPath.get? path with
  | none => exact h
  | some hashes => exact (h.removeAll _).congr rfl rfl rfl

theorem run {s : TimedCache α} (h : s.cache.Indexed) (op : CacheOp α) :
    (op.run s).2.cache.Indexed := by
  cases op with
  | set key value => exact h.set s.now key value
  | get key => exact h.get s.now key
  | invalidate path => exact h.invalidate path
  | invalidateStale path kept => exact h.invalidateStale path kept
  | purgeExpired => exact h.purgeExpired s.now
  | clear => exact h.clear
  | contains | stats | advance => exact h

end Indexed

end Cache

/-! ## Runs -/

namespace TimedCache

variable {α : Type}

/-- The cache and the time after some operations. -/
def after (s : TimedCache α) (ops : List (CacheOp α)) : TimedCache α :=
  ops.foldl (fun s op => (op.run s).2) s

theorem indexed_after {s : TimedCache α} (h : s.cache.Indexed) (ops : List (CacheOp α)) :
    (s.after ops).cache.Indexed ∧ s.cache.SameLimits (s.after ops).cache := by
  induction ops generalizing s with
  | nil => exact ⟨h, .refl _⟩
  | cons op ops ih =>
    obtain ⟨hafter, hlimits⟩ := ih (h.run op)
    exact ⟨hafter, (Cache.sameLimits_run s op).trans hlimits⟩

/-- **The index of a cache is exact.**  Whatever is done to a cache, at whatever times: it
    has one entry under a key at most, no more entries than it has room for, and its index
    has under each path the fingerprints of the entries with that path, and no path without
    one.  Hence dropping a path drops its entries, whatever their fingerprint and age,
    dropping the stale entries of a path drops its entries with another fingerprint, both
    say how many these were, and all other entries stay as they are. -/
theorem index_exact (settings : CacheSettings) (now : Nat) (ops : List (CacheOp α)) :
    let c := (after { now, cache := .ofSettings settings } ops).cache
    (c.entries.map (·.key)).Nodup ∧ c.size ≤ max 1 settings.maxSize ∧
    (∀ path hashes, c.byPath.get? path = some hashes → hashes ≠ [] ∧ hashes.Nodup ∧
      ∀ hash, hash ∈ hashes ↔ ∃ e ∈ c.entries, e.key = ⟨path, hash⟩) ∧
    (∀ path, c.byPath.get? path = none ↔ ∀ e ∈ c.entries, e.key.path ≠ path) ∧
    (∀ path, (c.invalidate path).1 = (c.entries.filter (·.key.path = path)).length ∧
      (c.invalidate path).2.entries = c.entries.filter (·.key.path ≠ path)) ∧
    ∀ path kept,
      (c.invalidateStale path kept).1 =
          (c.entries.filter fun e => e.key.path = path ∧ e.key.hash ≠ kept).length ∧
        (c.invalidateStale path kept).2.entries =
          c.entries.filter fun e => ¬ (e.key.path = path ∧ e.key.hash ≠ kept) := by
  intro c
  obtain ⟨h, hlimits⟩ : c.Indexed ∧ Cache.SameLimits (.ofSettings settings) c :=
    indexed_after (.ofSettings settings) ops
  have hroom : c.maxSize = max 1 settings.maxSize := hlimits.1.trans (Nat.max_comm _ _)
  refine ⟨h.nodup, hroom ▸ h.size_le, fun path hashes hg => ?_, fun path => ?_,
    h.invalidate_spec, h.invalidateStale_spec⟩
  · have hhashes := Cache.hashesAt_of_get? hg
    refine ⟨h.lists.nonempty hg, hhashes ▸ h.lists.nodup path, fun hash => ?_⟩
    rw [← hhashes, h.lists.mem_iff, Cache.keys, List.mem_map]
  · refine ⟨fun hg e he => h.notMem_of_get?_eq_none hg he, fun hno => ?_⟩
    cases hg : c.byPath.get? path with
    | none => rfl
    | some hashes =>
      obtain ⟨hash, hmem⟩ := List.exists_mem_of_ne_nil _ (h.lists.nonempty hg)
      rw [← Cache.hashesAt_of_get? hg, h.lists.mem_iff] at hmem
      obtain ⟨e, he, hkey⟩ := List.mem_map.1 hmem
      exact (hno e he (by rw [hkey])).elim

end TimedCache

end SourceIndex
