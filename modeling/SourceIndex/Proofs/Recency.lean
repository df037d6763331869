/-
  Which entries a cache gives up.

  A key is touched when it is set and when a look-up finds it.  The entries stand in the
  order of their last touch, so that the last one is the one to give up.

  * `CacheOp.touched?`, `TimedCache.touches`: the keys that operations touch;
  * `Cache.Recent`: the entries stand in the order of their last touch, `recent_after`
    that they do so after any operations;
  * `Indexed.makeRoom_spec`: a full cache gives up the expired entries at the end of the
    list, or else the last entry;
  * `TimedCache.lru_exact`: the order of the entries, and what is given up for a new one.
-/
import SourceIndex.Proofs.Cache

namespace SourceIndex

namespace Cache

variable {α : Type} {c c' : Cache α} {key : CacheKey} {kept : List (CacheEntry α)}

/-! ## Counts -/

/-- What a cache has counted. -/
structure Counts where
  hits : Nat
  misses : Nat
  evictions : Nat
  expirations : Nat
  invalidations : Nat
  deriving DecidableEq

/-- The counts of a cache. -/
def counts (c : Cache α) : Counts :=
  ⟨c.hits, c.misses, c.evictions, c.expirations, c.invalidations⟩

theorem counts_remove (c : Cache α) (key : CacheKey) : (c.remove key).counts = c.counts := by
  unfold remove
  split <;> rfl

theorem counts_removeAll (c : Cache α) (dropped : List CacheKey) :
    (c.removeAll dropped).counts = c.counts := by
  unfold removeAll
  induction dropped generalizing c with
  | nil => rfl
  | cons key dropped ih => rw [List.foldl_cons, ih, counts_remove]

/-! ## Making room -/

/-- The expired entries at the end of the list are all that stand behind the last one that
    lives. -/
theorem exists_kept (c : Cache α) (now : Nat) :
    ∃ kept, c.entries = kept ++ (c.staleTail now).reverse ∧
      (∀ e ∈ c.staleTail now, c.expired now e = true) ∧
      ∀ e, kept.getLast? = some e → c.expired now e = false := by
  refine ⟨(c.entries.reverse.dropWhile (c.expired now)).reverse, ?_, ?_, ?_⟩
  · rw [staleTail, ← List.reverse_append, List.takeWhile_append_dropWhile, List.reverse_reverse]
  · exact List.all_eq_true.1 List.all_takeWhile
  · intro e he
    rw [List.getLast?_reverse] at he
    have hnot := List.head?_dropWhile_not (c.expired now) c.entries.reverse
    rwa [he] at hnot

theorem sublist_makeRoom (now : Nat) (c : Cache α) :
    (c.makeRoom now).entries.Sublist c.entries := by
  have hevict : ∀ (n : Nat) (c : Cache α), (evict n c).entries.Sublist c.entries := by
    intro n
    induction n with
    | zero => exact fun c => List.Sublist.refl _
    | succ n ih =>
      intro c
      refine (ih c.evictLast).trans ?_
      unfold evictLast
      split
      · exact List.Sublist.refl _
      · exact List.dropLast_sublist _
  refine (hevict _ _).trans ?_
  change (c.removeAll _).entries.Sublist c.entries
  rw [entries_removeAll]
  exact List.filter_sublist

/-- Dropping the keys of the entries at the end of the list leaves those before them. -/
theorem Indexed.entries_removeAll_tail (h : c.Indexed) {tail : List (CacheEntry α)}
    (hsplit : c.entries = kept ++ tail) {dropped : List CacheKey}
    (hdropped : ∀ key, key ∈ dropped ↔ ∃ e ∈ tail, e.key = key) :
    (c.removeAll dropped).entries = kept := by
  have hnodup := h.nodup
  rw [keys, hsplit, List.map_append, List.nodup_append] at hnodup
  rw [entries_removeAll, hsplit, List.filter_append, List.filter_eq_self.2,
    List.filter_eq_nil_iff.2, List.append_nil]
  · intro e he
    simpa [hdropped] using ⟨e, he, rfl⟩
  · intro e he
    rw [decide_eq_true_eq, hdropped]
    rintro ⟨e', he', hkey⟩
    exact hnodup.2.2 e.key (List.mem_map_of_mem he) e'.key (List.mem_map_of_mem he') hkey.symm

/-- What a full cache gives up: the expired entries at the end of the list if there are any,
    and the last entry if not. -/
theorem Indexed.makeRoom_spec (h : c.Indexed) (hfull : c.maxSize ≤ c.size) (now : Nat)
    (hkept : c.entries = kept ++ (c.staleTail now).reverse) :
    if c.staleTail now = [] then
      ∃ last, c.entries = (c.makeRoom now).entries ++ [last] ∧
        (c.makeRoom now).counts = { c.counts with evictions := c.evictions + 1 }
    else
      (c.makeRoom now).entries = kept ∧ (c.makeRoom now).counts =
        { c.counts with expirations := c.expirations + (c.staleTail now).length } := by
  have hlength : c.entries.length = kept.length + (c.staleTail now).length := by
    rw [hkept, List.length_append, List.length_reverse]
  have hle : c.entries.length ≤ c.maxSize := h.size_le
  have hge : c.maxSize ≤ c.entries.length := hfull
  let c₁ : Cache α := { c.removeAll ((c.staleTail now).map (·.key)) with
    expirations := c.expirations + (c.staleTail now).length }
  have hmake : c.makeRoom now = Cache.evict (c₁.size + 1 - c₁.maxSize) c₁ := rfl
  have hmax : c₁.maxSize = c.maxSize := (sameLimits_removeAll c _).1
  have hentries : c₁.entries = kept := by
    refine h.entries_removeAll_tail hkept fun key => ?_
    simp
  have hcounts : c₁.counts =
      { c.counts with expirations := c.expirations + (c.staleTail now).length } := by
    have hsame := counts_removeAll c ((c.staleTail now).map (·.key))
    simp only [counts, Counts.mk.injEq] at hsame ⊢
    exact ⟨hsame.1, hsame.2.1, hsame.2.2.1, rfl, hsame.2.2.2.2⟩
  split
  · rename_i hnone
    have hpos := h.pos
    simp only [hnone, List.length_nil] at hlength hcounts
    have hone : c₁.size + 1 - c₁.maxSize = 1 := by
      rw [hmax, size, hentries]
      omega
    have hne : kept ≠ [] := by
      rintro rfl
      simp only [List.length_nil] at hlength
      omega
    have hlast : c₁.entries.getLast? = some (kept.getLast hne) := by
      rw [hentries, List.getLast?_eq_some_getLast hne]
    have hevict : c.makeRoom now = c₁.evictLast := by
      rw [hmake, hone]
      rfl
    refine ⟨kept.getLast hne, ?_, ?_⟩
    · rw [hevict, Cache.evictLast, hlast, hkept, hnone, List.reverse_nil, List.append_nil]
      dsimp only
      rw [hentries, List.dropLast_append_getLast]
    · rw [hevict, Cache.evictLast, hlast]
      simp only [counts, Counts.mk.injEq] at hcounts ⊢
      simpa using hcounts
  · rename_i hsome
    have hpos : 0 < (c.staleTail now).length := List.length_pos_iff.2 hsome
    have hzero : c₁.size + 1 - c₁.maxSize = 0 := by
      rw [hmax, size, hentries]
      omega
    rw [hmake, hzero]
    exact ⟨hentries, hcounts⟩

/-! ## Looking up a result -/

/-- A look-up finds no entry, or one that is expired and goes, or one that lives and moves
    to the front. -/
theorem get_cases (now : Nat) (key : CacheKey) (c : Cache α) :
    c.find? key = none ∧ c.get now key = (none, { c with misses := c.misses + 1 }) ∨
      ∃ e, c.find? key = some e ∧
        (c.expired now e = true ∧ c.get now key = (none, { c.remove key with
            expirations := c.expirations + 1, misses := c.misses + 1 }) ∨
          c.expired now e = false ∧ c.get now key = (some e.value, { c with
            entries := e :: c.entries.filter (·.key ≠ key), hits := c.hits + 1 })) := by
  unfold get
  cases hf : c.find? key with
  | none => exact Or.inl ⟨rfl, rfl⟩
  | some e =>
    refine Or.inr ⟨e, rfl, ?_⟩
    dsimp only
    cases hexpired : c.expired now e with
    | true => exact Or.inl ⟨rfl, rfl⟩
    | false => exact Or.inr ⟨rfl, rfl⟩

theorem key_of_find? {e : CacheEntry α} (h : c.find? key = some e) : e.key = key := by
  simpa using List.find?_some h

/-! ## Entering a result -/

/-- A result under a key with an entry takes the place of the old one, in front. -/
theorem set_of_mem (hkey : key ∈ c.keys) (now : Nat) (value : α) :
    (c.set now key value).entries = ⟨key, value, now⟩ :: c.entries.filter (·.key ≠ key) ∧
      (c.set now key value).counts = c.counts := by
  have hsome : (c.find? key).isNone = false := by
    rw [Option.isNone_eq_false_iff, Option.isSome_iff_ne_none, ne_eq, find?_eq_none_iff]
    exact fun hnot => hnot hkey
  unfold set
  rw [hsome]
  exact ⟨rfl, rfl⟩

/-- A result under a new key goes in front, after room was made if there was none. -/
theorem set_of_notMem (hkey : key ∉ c.keys) (now : Nat) (value : α) :
    let c₁ := if c.maxSize ≤ c.size then c.makeRoom now else c
    (c.set now key value).entries = ⟨key, value, now⟩ :: c₁.entries ∧
      (c.set now key value).counts = c₁.counts := by
  intro c₁
  have hset : c.set now key value = { c₁ with
      entries := ⟨key, value, now⟩ :: c₁.entries.filter (·.key ≠ key)
      byPath := enlist c₁.byPath key } := by
    unfold set
    simp [find?_eq_none_iff.2 hkey, c₁]
  have hsub : c₁.entries.Sublist c.entries := by
    unfold c₁
    split
    · exact sublist_makeRoom now c
    · exact List.Sublist.refl _
  have hnew : key ∉ c₁.keys := fun hm => hkey ((hsub.map _).subset hm)
  rw [hset, entries_filter_of_notMem hnew]
  exact ⟨rfl, rfl⟩

/-- What a full cache gives up for a result under a new key. -/
theorem Indexed.set_of_full (h : c.Indexed) (hfull : c.maxSize ≤ c.size) (hkey : key ∉ c.keys)
    (now : Nat) (value : α) :
    ∃ rest last, c.entries = rest ++ [last] ∧
      if c.expired now last then
        ∃ kept stale, c.entries = kept ++ stale ∧ stale ≠ [] ∧
          (∀ e ∈ stale, c.expired now e = true) ∧
          (∀ e, kept.getLast? = some e → c.expired now e = false) ∧
          (c.set now key value).entries = ⟨key, value, now⟩ :: kept ∧
          (c.set now key value).counts =
            { c.counts with expirations := c.expirations + stale.length }
      else
        (c.set now key value).entries = ⟨key, value, now⟩ :: rest ∧
          (c.set now key value).counts =
            { c.counts with evictions := c.evictions + 1 } := by
  obtain ⟨hentries, hcounts⟩ := set_of_notMem hkey now value
  rw [if_pos hfull] at hentries hcounts
  obtain ⟨kept, hsplit, hstale, hlive⟩ := c.exists_kept now
  have hspec := h.makeRoom_spec hfull now hsplit
  have hne : c.entries ≠ [] := by
    intro hnil
    have hpos := h.pos
    rw [size, hnil, List.length_nil] at hfull
    omega
  obtain ⟨rest, last, hlast⟩ : ∃ rest last, c.entries = rest ++ [last] :=
    ⟨_, _, (List.dropLast_append_getLast hne).symm⟩
  refine ⟨rest, last, hlast, ?_⟩
  split
  · rename_i hexpired
    have hsome : c.staleTail now ≠ [] := by simp [staleTail, hlast, hexpired]
    rw [if_neg hsome] at hspec
    refine ⟨kept, (c.staleTail now).reverse, hsplit, by simpa using hsome, ?_, hlive, ?_, ?_⟩
    · exact fun e he => hstale e (List.mem_reverse.1 he)
    · rw [hentries, hspec.1]
    · rw [hcounts, hspec.2, List.length_reverse]
  · rename_i hliving
    have hnone : c.staleTail now = [] := by simp [staleTail, hlast, hliving]
    rw [if_pos hnone] at hspec
    obtain ⟨last', hlast', hcounts'⟩ := hspec
    have hrest : rest = (c.makeRoom now).entries := by
      rw [hlast] at hlast'
      exact (List.append_inj' hlast' rfl).1
    rw [hentries, hcounts, hcounts', hrest]
    exact ⟨rfl, rfl⟩

/-! ## The order of the entries -/

/-- The entries stand in the order of their last touch, where `trail` are the keys touched,
    latest first. -/
structure Recent (trail : List CacheKey) (c : Cache α) : Prop where
  subset : c.keys ⊆ trail
  sorted : c.keys.Pairwise fun key key' => trail.idxOf key < trail.idxOf key'

namespace Recent

variable {trail : List CacheKey}

theorem sublist (h : c.Recent trail) (hs : c'.entries.Sublist c.entries) : c'.Recent trail where
  subset := List.Subset.trans (hs.map _).subset h.subset
  sorted := h.sorted.sublist (hs.map _)

theorem touch (h : c.Recent trail) {rest : List CacheKey} (hkeys : c'.keys = key :: rest)
    (hrest : rest.Sublist c.keys) (hkey : key ∉ rest) : c'.Recent (key :: trail) := by
  have hlater : ∀ k ∈ rest, (key :: trail).idxOf k = trail.idxOf k + 1 := by
    intro k hk
    refine List.idxOf_cons_ne _ ?_
    rintro rfl
    exact hkey hk
  constructor
  · rw [hkeys]
    refine List.cons_subset_cons _ ?_
    exact List.Subset.trans hrest.subset h.subset
  · rw [hkeys, List.pairwise_cons]
    constructor
    · intro k hk
      rw [List.idxOf_cons_self, hlater k hk]
      exact Nat.succ_pos _
    · refine (h.sorted.sublist hrest).imp_of_mem ?_
      intro k k' hk hk' hlt
      rw [hlater k hk, hlater k' hk']
      exact Nat.succ_lt_succ hlt

end Recent

end Cache

/-! ## Touches -/

namespace CacheOp

variable {α : Type} {s : TimedCache α} {op : CacheOp α}

/-- The key that an operation touches: one that is set, or that a look-up finds. -/
def touched? (s : TimedCache α) : CacheOp α → Option CacheKey
  | set key _ => some key
  | get key => if (s.cache.get s.now key).1.isSome then some key else none
  | _ => none

/-- An operation that touches nothing leaves the entries in their order. -/
theorem sublist_of_untouched (h : op.touched? s = none) :
    (op.run s).2.cache.entries.Sublist s.cache.entries := by
  have hremove : ∀ keys, (s.cache.removeAll keys).entries.Sublist s.cache.entries := by
    intro keys
    rw [Cache.entries_removeAll]
    exact List.filter_sublist
  cases op with
  | set key value => cases h
  | get key =>
    change (s.cache.get s.now key).2.entries.Sublist s.cache.entries
    rcases Cache.get_cases s.now key s.cache with ⟨-, hget⟩ | ⟨e, -, ⟨-, hget⟩ | ⟨-, hget⟩⟩
    · rw [hget]
    · rw [hget]
      change (s.cache.remove key).entries.Sublist s.cache.entries
      rw [Cache.entries_remove]
      exact List.filter_sublist
    · simp [touched?, hget] at h
  | invalidate path =>
    change (s.cache.invalidate path).2.entries.Sublist s.cache.entries
    unfold Cache.invalidate
    split
    · exact List.Sublist.refl _
    · exact List.filter_sublist
  | invalidateStale path kept =>
    change (s.cache.invalidateStale path kept).2.entries.Sublist s.cache.entries
    unfold Cache.invalidateStale
    split
    · exact List.Sublist.refl _
    · exact hremove _
  | purgeExpired => exact hremove _
  | clear => exact List.nil_sublist _
  | contains | stats | advance => exact List.Sublist.refl _

/-- An operation that touches a key puts its entry in front of the others. -/
theorem keys_of_touched {key : CacheKey} (h : op.touched? s = some key) :
    ∃ rest, (op.run s).2.cache.keys = key :: rest ∧ rest.Sublist s.cache.keys ∧ key ∉ rest := by
  have hfront : ∀ {entries : List (CacheEntry α)}, entries.Sublist s.cache.entries →
      ((entries.filter (·.key ≠ key)).map (·.key)).Sublist s.cache.keys ∧
        key ∉ (entries.filter (·.key ≠ key)).map (·.key) := by
    intro entries hs
    refine ⟨(List.filter_sublist.trans hs).map _, ?_⟩
    simp
  cases op with
  | set key' value =>
    obtain rfl : key' = key := Option.some.inj h
    refine ⟨_, rfl, hfront ?_⟩
    split
    · exact Cache.sublist_makeRoom _ _
    · exact List.Sublist.refl _
  | get key' =>
    change ∃ rest, (s.cache.get s.now key').2.keys = key :: rest ∧ _
    rcases Cache.get_cases s.now key' s.cache with ⟨-, hget⟩ | ⟨e, hf, ⟨-, hget⟩ | ⟨-, hget⟩⟩
    · simp [touched?, hget] at h
    · simp [touched?, hget] at h
    · obtain rfl : key' = key := by simpa [touched?, hget] using h
      rw [hget]
      exact ⟨_, congrArg (· :: _) (Cache.key_of_find? hf), hfront (List.Sublist.refl _)⟩
  | contains | invalidate | invalidateStale | purgeExpired | clear | stats | advance => cases h

end CacheOp

namespace TimedCache

variable {α : Type}

/-- The keys that operations touch, in order. -/
def touches (s : TimedCache α) : List (CacheOp α) → List CacheKey
  | [] => []
  | op :: ops => (op.touched? s).toList ++ (op.run s).2.touches ops

/-- The entries stand in the order of their last touch after any operations. -/
theorem recent_after {s : TimedCache α} {trail : List CacheKey} (h : s.cache.Recent trail)
    (ops : List (CacheOp α)) :
    (s.after ops).cache.Recent ((s.touches ops).reverse ++ trail) := by
  induction ops generalizing s trail with
  | nil => exact h
  | cons op ops ih =>
    rw [touches, List.reverse_append, List.append_assoc]
    cases htouched : op.touched? s with
    | none => exact ih (h.sublist (CacheOp.sublist_of_untouched htouched))
    | some key =>
      obtain ⟨rest, hkeys, hrest, hkey⟩ := CacheOp.keys_of_touched htouched
      exact ih (h.touch hkeys hrest hkey)

/-- **The entry touched longest ago goes first.**  Whatever is done to a cache, at whatever
    times: its entries stand in the order of their last touch, latest first, and operations
    that touch nothing leave them in that order.  A result that is set

    * under a key with an entry takes its place, and no other entry goes;
    * under a new key, while there is room, is added to the entries;
    * under a new key of a full cache, whose entry touched longest ago is expired, has all
      expired entries given up that stand behind those that live, each counted as an
      expiration, and nothing is evicted;
    * under a new key of a full cache, whose entry touched longest ago lives, has just that
      one evicted, and nothing counts as an expiration. -/
theorem lru_exact (settings : CacheSettings) (now : Nat) (ops : List (CacheOp α)) :
    let s₀ : TimedCache α := { now, cache := .ofSettings settings }
    let s := s₀.after ops
    let c := s.cache
    let ago := fun e : CacheEntry α => (s₀.touches ops).reverse.idxOf e.key
    (∀ e ∈ c.entries, e.key ∈ s₀.touches ops) ∧
    c.entries.Pairwise (fun e e' => ago e < ago e') ∧
    (∀ op : CacheOp α, op.touched? s = none → (op.run s).2.cache.entries.Sublist c.entries) ∧
    ∀ key value,
      let new : CacheEntry α := ⟨key, value, s.now⟩
      let c' := ((CacheOp.set key value).run s).2.cache
      if key ∈ c.keys then
        c'.entries = new :: c.entries.filter (·.key ≠ key) ∧ c'.counts = c.counts ∧
          ∀ k, k ∈ c'.keys ↔ k ∈ c.keys
      else if c.size < max 1 settings.maxSize then
        c'.entries = new :: c.entries ∧ c'.counts = c.counts
      else
        ∃ rest last, c.entries = rest ++ [last] ∧ (∀ e ∈ rest, ago e < ago last) ∧
          if c.expired s.now last then
            ∃ kept stale, c.entries = kept ++ stale ∧ stale ≠ [] ∧
              (∀ e ∈ stale, c.expired s.now e = true) ∧
              (∀ e, kept.getLast? = some e → c.expired s.now e = false) ∧
              c'.entries = new :: kept ∧
              c'.counts = { c.counts with expirations := c.expirations + stale.length }
          else
            c'.entries = new :: rest ∧
              c'.counts = { c.counts with evictions := c.evictions + 1 } := by
  intro s₀ s c ago
  obtain ⟨h, hlimits⟩ : c.Indexed ∧ Cache.SameLimits (.ofSettings settings) c :=
    indexed_after (.ofSettings settings) ops
  have hroom : c.maxSize = max 1 settings.maxSize := hlimits.1.trans (Nat.max_comm _ _)
  have hfresh : s₀.cache.Recent [] := ⟨List.nil_subset _, List.Pairwise.nil⟩
  have hrecent := recent_after hfresh ops
  rw [List.append_nil] at hrecent
  have hsorted : c.entries.Pairwise fun e e' => ago e < ago e' := by
    have hkeys := hrecent.sorted
    rwa [Cache.keys, List.pairwise_map] at hkeys
  refine ⟨?_, hsorted, fun op hop => CacheOp.sublist_of_untouched hop, ?_⟩
  · intro e he
    exact List.mem_reverse.1 (hrecent.subset (List.mem_map_of_mem he))
  · intro key value new c'
    split
    · rename_i hkey
      obtain ⟨hentries, hcounts⟩ := Cache.set_of_mem hkey s.now value
      refine ⟨hentries, hcounts, fun k => ?_⟩
      have hkeys : c'.keys = key :: c.keys.filter (· ≠ key) := by
        rw [Cache.keys, show c'.entries = _ from hentries, List.map_cons]
        exact congrArg (key :: ·) (c.map_key_filter (· ≠ key))
      rw [hkeys]
      by_cases hk : k = key <;> simp [hk, hkey]
    rename_i hkey
    split
    · rename_i hlt
      obtain ⟨hentries, hcounts⟩ := Cache.set_of_notMem hkey s.now value
      rw [if_neg (by omega)] at hentries hcounts
      exact ⟨hentries, hcounts⟩
    · rename_i hnot
      have hfull : c.maxSize ≤ c.size := by omega
      obtain ⟨rest, last, hlast, hgiven⟩ := h.set_of_full hfull hkey s.now value
      refine ⟨rest, last, hlast, ?_, hgiven⟩
      intro e he
      rw [hlast, List.pairwise_append] at hsorted
      exact hsorted.2.2 e he last List.mem_cons_self

/-- Room for two results that live for ten milliseconds. -/
def small : TimedCache Nat :=
  { cache := .ofSettings { maxSize := 2, ttlMs := 10 } }

/-- Two results, of which the first one was looked up. -/
def filled : List (CacheOp Nat) :=
  [.set ⟨"p", ⟨1⟩⟩ 1, .set ⟨"p", ⟨2⟩⟩ 2, .get ⟨"p", ⟨1⟩⟩]

/-- The result that was looked up stays when a third one comes, and the other one goes.  A
    third one that comes late finds both expired. -/
theorem lru_exact_small :
    let soon := small.after filled
    let late := small.after (filled ++ [.advance 10])
    soon.cache.keys = [⟨"p", ⟨1⟩⟩, ⟨"p", ⟨2⟩⟩] ∧
    (∃ rest last, soon.cache.entries = rest ++ [last] ∧
      (soon.cache.set 0 ⟨"p", ⟨3⟩⟩ 3).entries = ⟨⟨"p", ⟨3⟩⟩, 3, 0⟩ :: rest ∧
      (soon.cache.set 0 ⟨"p", ⟨3⟩⟩ 3).counts = ⟨1, 0, 1, 0, 0⟩) ∧
    ∃ kept stale, late.cache.entries = kept ++ stale ∧ stale ≠ [] ∧
      (late.cache.set 10 ⟨"p", ⟨3⟩⟩ 3).entries = ⟨⟨"p", ⟨3⟩⟩, 3, 10⟩ :: kept ∧
      (late.cache.set 10 ⟨"p", ⟨3⟩⟩ 3).counts = ⟨1, 0, 0, stale.length, 0⟩ := by
  intro soon late
  have hlive : ∀ e ∈ soon.cache.entries, soon.cache.expired 0 e = false := by decide
  have hexpired : ∀ e ∈ late.cache.entries, late.cache.expired 10 e = true := by decide
  let settings : CacheSettings := { maxSize := 2, ttlMs := 10 }
  have hsoon := (lru_exact settings 0 filled).2.2.2 ⟨"p", ⟨3⟩⟩ 3
  have hlate := (lru_exact settings 0 (filled ++ [.advance 10])).2.2.2 ⟨"p", ⟨3⟩⟩ 3
  -- the third key is new, and the cache is full
  rw [if_neg (by decide), if_neg (by decide)] at hsoon hlate
  refine ⟨by decide, ?_, ?_⟩
  · obtain ⟨rest, last, hlast, -, hgiven⟩ := hsoon
    have hlast' : last ∈ soon.cache.entries := by
      rw [show soon.cache.entries = _ from hlast]
      simp
    have hnot := Bool.eq_false_iff.1 (hlive last hlast')
    exact ⟨rest, last, hlast, (if_neg hnot).mp hgiven⟩
  · obtain ⟨rest, last, hlast, -, hgiven⟩ := hlate
    have hlast' : last ∈ late.cache.entries := by
      rw [show late.cache.entries = _ from hlast]
      simp
    obtain ⟨kept, stale, hcut, hstale, -, -, hentries, hcounts⟩ :=
      (if_pos (hexpired last hlast')).mp hgiven
    refine ⟨kept, stale, hcut, hstale, hentries, hcounts.trans ?_⟩
    exact congrArg (Cache.Counts.mk 1 0 0 · 0) (Nat.zero_add _)

end TimedCache

end SourceIndex
