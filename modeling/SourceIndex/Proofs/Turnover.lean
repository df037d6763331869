/-
  What enters a cache and what leaves it.

  An entry enters when a key without one is set.  It leaves in one of seven ways: it is
  evicted, it is found to have expired by a look-up, by a purge or when room is made, it is
  dropped with its path or as stale, or the cache is cleared.

  * `CacheOp.leaving`, `CacheOp.cause`, `CacheOp.newcomer?`: the entries that leave with an
    operation and why, and the key that enters with it;
  * `CacheOp.perm_keys_run`: an operation loses no other key and brings in no other;
  * `CacheOp.exists_countsAs`: the entries that leave with an operation do so for one reason,
    and are counted under that one;
  * `TimedCache.departures`, `TimedCache.newcomers`: the same for a run, with
    `perm_keys_after` and `counts_after`;
  * `TimedCache.turnover_conserved`: what has entered is still there, or was counted once.
-/
import SourceIndex.Proofs.Lookup

namespace SourceIndex

namespace Cache

/-- Why an entry leaves the cache. -/
inductive Cause where
  | eviction
  | expiration
  | invalidation
  | clearing
  deriving DecidableEq

namespace Counts

/-- The counts after `n` entries have left.  Those that are cleared are not counted. -/
def lose (k : Counts) (n : Nat) : Cause → Counts
  | .eviction => { k with evictions := k.evictions + n }
  | .expiration => { k with expirations := k.expirations + n }
  | .invalidation => { k with invalidations := k.invalidations + n }
  | .clearing => k

/-- The counts after a look-up, if there was one, and whether it has found something. -/
def ask (k : Counts) : Option Bool → Counts
  | none => k
  | some true => { k with hits := k.hits + 1 }
  | some false => { k with misses := k.misses + 1 }

/-- The number of entries that have left for a reason, as far as it is counted. -/
def lost (k : Counts) : Cause → Nat
  | .eviction => k.evictions
  | .expiration => k.expirations
  | .invalidation => k.invalidations
  | .clearing => 0

@[simp] theorem lose_zero (k : Counts) (cause : Cause) : k.lose 0 cause = k := by
  cases cause <;> rfl

theorem lookups_lose (k : Counts) (n : Nat) (cause : Cause) :
    (k.lose n cause).hits + (k.lose n cause).misses = k.hits + k.misses := by
  cases cause <;> rfl

theorem lookups_ask (k : Counts) (found? : Option Bool) :
    (k.ask found?).hits + (k.ask found?).misses =
      k.hits + k.misses + if found?.isSome then 1 else 0 := by
  cases found? with
  | none => rfl
  | some found =>
    cases found with
    | true => exact Nat.add_right_comm _ _ _
    | false => rfl

theorem lost_ask (k : Counts) (found? : Option Bool) (cause : Cause) :
    (k.ask found?).lost cause = k.lost cause := by
  cases found? with
  | none => rfl
  | some found => cases found <;> cases cause <;> rfl

theorem lost_lose (k : Counts) (n : Nat) {cause cause' : Cause} (hcounted : cause' ≠ .clearing) :
    (k.lose n cause).lost cause' = k.lost cause' + if cause = cause' then n else 0 := by
  cases cause <;> cases cause' <;> first | rfl | exact (hcounted rfl).elim

end Counts

variable {α : Type} {c : Cache α} {e : CacheEntry α}

/-! ## Counts of the operations -/

theorem counts_invalidate (path : String) (c : Cache α) :
    (c.invalidate path).2.counts = c.counts.lose (c.invalidate path).1 .invalidation := by
  unfold invalidate
  cases c.byPath.get? path with
  | none => rfl
  | some hashes => rfl

theorem counts_invalidateStale (path : String) (kept : ContentHash) (c : Cache α) :
    (c.invalidateStale path kept).2.counts =
      c.counts.lose (c.invalidateStale path kept).1 .invalidation := by
  unfold invalidateStale
  cases c.byPath.get? path with
  | none => rfl
  | some hashes =>
    have hsame := counts_removeAll c ((hashes.filter (· ≠ kept)).map fun h => ⟨path, h⟩)
    simp only [counts, Counts.mk.injEq] at hsame
    simp only [counts, Counts.lose, hsame]

theorem counts_purgeExpired (now : Nat) (c : Cache α) :
    (c.purgeExpired now).2.counts = c.counts.lose (c.purgeExpired now).1 .expiration := by
  have hsame := counts_removeAll c ((c.entries.filter (c.expired now)).map (·.key))
  simp only [counts, Counts.mk.injEq] at hsame
  simp only [counts, Counts.lose, purgeExpired, hsame]

theorem Indexed.mem_keys_filter (h : c.Indexed) (he : e ∈ c.entries) (test : CacheEntry α → Bool) :
    e.key ∈ (c.entries.filter test).map (·.key) ↔ test e = true := by
  rw [List.mem_map]
  constructor
  · rintro ⟨e', he', hkey⟩
    rw [List.mem_filter] at he'
    rw [← h.eq_of_key he'.1 he hkey]
    exact he'.2
  · exact fun htest => ⟨e, List.mem_filter.2 ⟨he, htest⟩, rfl⟩

theorem Indexed.entries_purgeExpired (h : c.Indexed) (now : Nat) :
    (c.purgeExpired now).2.entries = c.entries.filter (!c.expired now ·) := by
  change (c.removeAll _).entries = _
  rw [entries_removeAll]
  refine List.filter_congr fun e he => ?_
  simp [h.mem_keys_filter he (c.expired now)]

theorem Indexed.filter_key (h : c.Indexed) (he : e ∈ c.entries) :
    (c.entries.filter fun e' => !decide (e'.key ≠ e.key)) = [e] := by
  obtain ⟨before, behind, hsplit⟩ := List.append_of_mem he
  have hother : ∀ e' ∈ before ++ behind, e'.key ≠ e.key := by
    have hnodup := h.nodup
    rw [keys, hsplit, List.map_append, List.map_cons, List.nodup_middle, ← List.map_append,
      List.nodup_cons] at hnodup
    intro e' he' hkey
    exact hnodup.1 (List.mem_map.2 ⟨e', he', hkey⟩)
  simp only [List.mem_append] at hother
  rw [hsplit, List.filter_append, List.filter_cons_of_pos (by simp), List.filter_eq_nil_iff.2,
    List.filter_eq_nil_iff.2, List.nil_append]
  · intro e' he'
    simp [hother e' (Or.inr he')]
  · intro e' he'
    simp [hother e' (Or.inl he')]

end Cache

open Cache

/-! ## One operation -/

namespace CacheOp

variable {α : Type}

/-- The entries that leave the cache with an operation: it has none under their keys
    afterwards. -/
def leaving (s : TimedCache α) (op : CacheOp α) : List (CacheEntry α) :=
  s.cache.entries.filter (·.key ∉ (op.run s).2.cache.keys)

/-- Why an entry leaves with an operation.  An entry that leaves although nobody asked for it
    has expired, or is evicted. -/
def cause (s : TimedCache α) (e : CacheEntry α) : CacheOp α → Cause
  | invalidate _ | invalidateStale _ _ => .invalidation
  | clear => .clearing
  | _ => if s.cache.expired s.now e then .expiration else .eviction

/-- The key that enters with an operation: one that is set, and has no entry. -/
def newcomer? (s : TimedCache α) : CacheOp α → Option CacheKey
  | set key _ => if key ∈ s.cache.keys then none else some key
  | _ => none

/-- The number of entries that the operation clears. -/
def cleared (s : TimedCache α) : CacheOp α → Nat
  | clear => s.cache.size
  | _ => 0

/-- Is the operation a look-up? -/
def isGet : CacheOp α → Bool
  | get _ => true
  | _ => false

/-- Whether a look-up finds something. -/
def found? (s : TimedCache α) : CacheOp α → Option Bool
  | get key => some (s.cache.get s.now key).1.isSome
  | _ => none

theorem isSome_found? (s : TimedCache α) (op : CacheOp α) : (op.found? s).isSome = op.isGet := by
  cases op <;> rfl

variable {s : TimedCache α}

/-- The keys that are there after an operation and those that leave are the keys that were
    there before and the one that enters. -/
theorem perm_keys_run (hi : s.cache.Indexed) (op : CacheOp α) :
    ((op.run s).2.cache.keys ++ (op.leaving s).map (·.key)).Perm
      (s.cache.keys ++ (op.newcomer? s).toList) := by
  have hleaving : (op.leaving s).map (·.key) =
      s.cache.keys.filter (· ∉ (op.run s).2.cache.keys) :=
    s.cache.map_key_filter (· ∉ (op.run s).2.cache.keys)
  have hnew : ∀ key ∈ op.newcomer? s,
      key ∉ s.cache.keys ∧ key ∈ (op.run s).2.cache.keys := by
    intro key hkey
    cases op with
    | set key' value =>
      by_cases hm : key' ∈ s.cache.keys
      · simp [newcomer?, hm] at hkey
      · obtain rfl : key' = key := by simpa [newcomer?, hm] using hkey
        exact ⟨hm, List.mem_cons_self⟩
    | _ => cases hkey
  have hold : ∀ key ∈ (op.run s).2.cache.keys, key ∈ s.cache.keys ∨ key ∈ op.newcomer? s := by
    intro key hkey
    obtain ⟨e, he, rfl⟩ := List.mem_map.1 hkey
    rcases mem_of_mem_run he with ⟨rfl, -⟩ | ⟨hold, -⟩
    · by_cases hm : e.key ∈ s.cache.keys
      · exact Or.inl hm
      · exact Or.inr (by simp [newcomer?, hm])
    · exact Or.inl (List.mem_map_of_mem hold)
  rw [hleaving]
  refine (List.perm_ext_iff_of_nodup ?_ ?_).2 fun key => ?_
  · refine (hi.run op).nodup.append (hi.nodup.filter _) ?_
    intro key hm hleft
    exact of_decide_eq_true (List.mem_filter.1 hleft).2 hm
  · refine hi.nodup.append (by cases op.newcomer? s <;> simp) ?_
    intro key hm hentered
    exact (hnew key (Option.mem_toList.1 hentered)).1 hm
  · rw [List.mem_append, List.mem_append, List.mem_filter, Option.mem_toList, decide_eq_true_eq]
    constructor
    · rintro (hm | ⟨hm, -⟩)
      · exact hold key hm
      · exact Or.inl hm
    · rintro (hm | hm)
      · by_cases hstays : key ∈ (op.run s).2.cache.keys
        · exact Or.inl hstays
        · exact Or.inr ⟨hm, hstays⟩
      · exact Or.inl (hnew key hm).2

/-! ## What leaves -/

variable {op : CacheOp α}

theorem leaving_of_filter (hi : s.cache.Indexed) (op : CacheOp α) {test : CacheEntry α → Bool}
    (h : (op.run s).2.cache.entries = s.cache.entries.filter test) :
    op.leaving s = s.cache.entries.filter (!test ·) := by
  refine List.filter_congr fun e he => ?_
  have hmem : e.key ∈ (op.run s).2.cache.keys ↔ test e = true := by
    rw [keys, h]
    exact hi.mem_keys_filter he test
  simp [hmem]

theorem leaving_of_subset (h : s.cache.keys ⊆ (op.run s).2.cache.keys) : op.leaving s = [] :=
  List.filter_eq_nil_iff.2 fun e he => by simpa using h (List.mem_map_of_mem he)

/-- The entries at the end of the list leave, and an entry under a new key goes in front. -/
theorem leaving_of_front (hi : s.cache.Indexed) {new : CacheEntry α} (hnew : new.key ∉ s.cache.keys)
    {kept gone : List (CacheEntry α)} (hsplit : s.cache.entries = kept ++ gone)
    (h : (op.run s).2.cache.entries = new :: kept) : op.leaving s = gone := by
  have hkeys : (op.run s).2.cache.keys = new.key :: kept.map (·.key) := by
    rw [keys, h, List.map_cons]
  have hnodup := hi.nodup
  rw [keys, hsplit, List.map_append, List.nodup_append] at hnodup
  rw [leaving, hkeys, hsplit, List.filter_append, List.filter_eq_nil_iff.2, List.filter_eq_self.2,
    List.nil_append]
  · intro e he
    rw [decide_eq_true_eq, List.mem_cons, not_or]
    constructor
    · intro hkey
      refine hnew ?_
      rw [← hkey, keys, hsplit]
      exact List.mem_map_of_mem (List.mem_append_right kept he)
    · intro hm
      exact hnodup.2.2 e.key hm e.key (List.mem_map_of_mem he) rfl
  · intro e he
    rw [decide_eq_true_eq, not_not]
    exact List.mem_cons_of_mem _ (List.mem_map_of_mem he)

/-! ## What is counted -/

/-- The entries that leave do so for the reason, and the counts are those of the look-up, if
    there is one, and of the entries that leave. -/
structure CountsAs (s : TimedCache α) (op : CacheOp α) (reason : Cause) : Prop where
  cause : ∀ e ∈ op.leaving s, op.cause s e = reason
  counts : (op.run s).2.cache.counts =
    (s.cache.counts.ask (op.found? s)).lose (op.leaving s).length reason
  cleared : op.cleared s = if reason = .clearing then (op.leaving s).length else 0

theorem CountsAs.of_subset (h : s.cache.keys ⊆ (op.run s).2.cache.keys)
    (hcounts : (op.run s).2.cache.counts = s.cache.counts.ask (op.found? s))
    (hcleared : op.cleared s = 0) : op.CountsAs s .eviction := by
  have hnone := leaving_of_subset h
  refine ⟨?_, ?_, hcleared⟩
  · rw [hnone]
    exact List.forall_mem_nil _
  · rw [hnone, List.length_nil, Counts.lose_zero, hcounts]

theorem countsAs_set (hi : s.cache.Indexed) (key : CacheKey) (value : α) :
    ∃ reason, (CacheOp.set key value).CountsAs s reason := by
  by_cases hkey : key ∈ s.cache.keys
  · obtain ⟨hentries, hcounts⟩ := set_of_mem hkey s.now value
    refine ⟨_, .of_subset (fun k hk => ?_) hcounts rfl⟩
    change k ∈ (s.cache.set s.now key value).keys
    rw [keys, hentries, List.map_cons, s.cache.map_key_filter (· ≠ key)]
    by_cases hne : k = key <;> simp [hne, hk]
  · by_cases hfull : s.cache.maxSize ≤ s.cache.size
    · obtain ⟨rest, last, hlast, hgiven⟩ := hi.set_of_full hfull hkey s.now value
      split at hgiven
      · obtain ⟨kept, stale, hsplit, -, hstale, -, hentries, hcounts⟩ := hgiven
        have hleaving : (CacheOp.set key value).leaving s = stale :=
          leaving_of_front hi hkey hsplit hentries
        refine ⟨.expiration, ?_, ?_, rfl⟩
        · intro e he
          rw [hleaving] at he
          simp [cause, hstale e he]
        · rw [hleaving]
          exact hcounts
      · rename_i hlive
        have hleaving : (CacheOp.set key value).leaving s = [last] :=
          leaving_of_front hi hkey hlast hgiven.1
        refine ⟨.eviction, ?_, ?_, rfl⟩
        · intro e he
          rw [hleaving, List.mem_singleton] at he
          simp [cause, he, hlive]
        · rw [hleaving]
          exact hgiven.2
    · obtain ⟨hentries, hcounts⟩ := set_of_notMem hkey s.now value
      rw [if_neg hfull] at hentries hcounts
      refine ⟨_, .of_subset (fun k hk => ?_) hcounts rfl⟩
      change k ∈ (s.cache.set s.now key value).keys
      rw [keys, hentries]
      exact List.mem_cons_of_mem _ hk

theorem countsAs_get (hi : s.cache.Indexed) (key : CacheKey) :
    ∃ reason, (CacheOp.get (α := α) key).CountsAs s reason := by
  rcases get_cases s.now key s.cache with ⟨-, hget⟩ | ⟨e, hf, ⟨hexpired, hget⟩ | ⟨-, hget⟩⟩
  · refine ⟨_, .of_subset ?_ ?_ rfl⟩
    · change s.cache.keys ⊆ (s.cache.get s.now key).2.keys
      rw [hget]
      exact List.Subset.refl _
    · change (s.cache.get s.now key).2.counts = _
      simp only [found?, hget]
      rfl
  · obtain ⟨he, rfl⟩ := hi.find?_eq_some_iff.1 hf
    have hentries : ((CacheOp.get e.key).run s).2.cache.entries =
        s.cache.entries.filter (·.key ≠ e.key) := by
      change (s.cache.get s.now e.key).2.entries = _
      rw [hget]
      exact entries_remove s.cache e.key
    have hleaving : (CacheOp.get e.key).leaving s = [e] := by
      rw [leaving_of_filter hi _ hentries]
      exact hi.filter_key he
    refine ⟨.expiration, ?_, ?_, rfl⟩
    · intro e' he'
      rw [hleaving, List.mem_singleton] at he'
      simp [cause, he', hexpired]
    · change (s.cache.get s.now e.key).2.counts = _
      have hsame := counts_remove s.cache e.key
      simp only [counts, Counts.mk.injEq] at hsame
      rw [hleaving]
      simp [found?, hget, counts, Counts.ask, Counts.lose, hsame]
  · refine ⟨_, .of_subset ?_ ?_ rfl⟩
    · change s.cache.keys ⊆ (s.cache.get s.now key).2.keys
      rw [hget]
      intro k hk
      change k ∈ e.key :: (s.cache.entries.filter (·.key ≠ key)).map (·.key)
      rw [key_of_find? hf, s.cache.map_key_filter (· ≠ key)]
      by_cases hne : k = key <;> simp [hne, hk]
    · change (s.cache.get s.now key).2.counts = _
      simp only [found?, hget]
      rfl

/-- The entries that leave with an operation do so for one reason, under which they are
    counted. -/
theorem exists_countsAs (hi : s.cache.Indexed) (op : CacheOp α) :
    ∃ reason, op.CountsAs s reason := by
  cases op with
  | set key value => exact countsAs_set hi key value
  | get key => exact countsAs_get hi key
  | invalidate path =>
    obtain ⟨hdropped, hentries⟩ := hi.invalidate_spec path
    have hleaving : ((CacheOp.invalidate path).leaving s).length =
        (s.cache.invalidate path).1 := by
      rw [leaving_of_filter hi (.invalidate path) hentries, hdropped]
      simp
    refine ⟨.invalidation, fun _ _ => rfl, ?_, rfl⟩
    rw [hleaving]
    exact counts_invalidate path s.cache
  | invalidateStale path kept =>
    obtain ⟨hdropped, hentries⟩ := hi.invalidateStale_spec path kept
    have hleaving : ((CacheOp.invalidateStale path kept).leaving s).length =
        (s.cache.invalidateStale path kept).1 := by
      rw [leaving_of_filter hi (.invalidateStale path kept) hentries, hdropped]
      simp
    refine ⟨.invalidation, fun _ _ => rfl, ?_, rfl⟩
    rw [hleaving]
    exact counts_invalidateStale path kept s.cache
  | purgeExpired =>
    have hleaving : CacheOp.purgeExpired.leaving s =
        s.cache.entries.filter (s.cache.expired s.now) := by
      rw [leaving_of_filter hi .purgeExpired (hi.entries_purgeExpired s.now)]
      simp
    refine ⟨.expiration, fun e he => ?_, ?_, rfl⟩
    · rw [hleaving, List.mem_filter] at he
      simp [cause, he.2]
    · rw [hleaving]
      exact counts_purgeExpired s.now s.cache
  | clear =>
    have hleaving : CacheOp.clear.leaving s = s.cache.entries := by
      refine List.filter_eq_self.2 fun e he => ?_
      exact decide_eq_true List.not_mem_nil
    refine ⟨.clearing, fun _ _ => rfl, rfl, ?_⟩
    rw [hleaving]
    rfl
  | contains | stats | advance => exact ⟨_, .of_subset (List.Subset.refl _) rfl rfl⟩

end CacheOp

/-! ## Runs -/

namespace TimedCache

variable {α : Type}

/-- The entries that leave the cache with some operations, and why. -/
def departures (s : TimedCache α) : List (CacheOp α) → List (Cause × CacheEntry α)
  | [] => []
  | op :: ops =>
    (op.leaving s).map (fun e => (op.cause s e, e)) ++ (op.run s).2.departures ops

/-- The keys that enter the cache with some operations. -/
def newcomers (s : TimedCache α) : List (CacheOp α) → List CacheKey
  | [] => []
  | op :: ops => (op.newcomer? s).toList ++ (op.run s).2.newcomers ops

/-- The number of entries that some operations clear. -/
def cleared (s : TimedCache α) : List (CacheOp α) → Nat
  | [] => 0
  | op :: ops => op.cleared s + (op.run s).2.cleared ops

variable {s : TimedCache α}

/-- What is there after some operations and what has left are what was there before and what
    has entered. -/
theorem perm_keys_after (hi : s.cache.Indexed) (ops : List (CacheOp α)) :
    ((s.after ops).cache.keys ++ (s.departures ops).map (·.2.key)).Perm
      (s.cache.keys ++ s.newcomers ops) := by
  induction ops generalizing s with
  | nil => exact .refl _
  | cons op ops ih =>
    have hop := List.perm_iff_count.1 (CacheOp.perm_keys_run hi op)
    have hops := List.perm_iff_count.1 (ih (hi.run op))
    refine List.perm_iff_count.2 fun key => ?_
    have hop := hop key
    have hops := hops key
    change List.count key (((op.run s).2.after ops).cache.keys ++ _) = _
    simp only [departures, newcomers, List.map_append, List.map_map, Function.comp_def,
      List.count_append] at hop hops ⊢
    omega

/-- The number of departures for a reason. -/
def departed (s : TimedCache α) (ops : List (CacheOp α)) (cause : Cause) : Nat :=
  (s.departures ops).countP (·.1 = cause)

theorem departed_cons {op : CacheOp α} {reason : Cause} (h : op.CountsAs s reason)
    (ops : List (CacheOp α)) (cause : Cause) :
    s.departed (op :: ops) cause =
      (if reason = cause then (op.leaving s).length else 0) +
        (op.run s).2.departed ops cause := by
  rw [departed, departures, List.countP_append, List.countP_map]
  congr 1
  split
  · rename_i hreason
    refine List.countP_eq_length.2 fun e he => ?_
    simp [h.cause e he, hreason]
  · rename_i hreason
    refine List.countP_eq_zero.2 fun e he => ?_
    simp [h.cause e he, hreason]

/-- A cache has counted its look-ups, and what has left it under its cause. -/
theorem counts_after (hi : s.cache.Indexed) (ops : List (CacheOp α)) :
    let c := (s.after ops).cache
    c.hits + c.misses = s.cache.hits + s.cache.misses + ops.countP (·.isGet) ∧
      (∀ cause ≠ .clearing,
        c.counts.lost cause = s.cache.counts.lost cause + s.departed ops cause) ∧
      s.cleared ops = s.departed ops .clearing := by
  induction ops generalizing s with
  | nil => exact ⟨rfl, fun _ _ => rfl, rfl⟩
  | cons op ops ih =>
    intro c
    obtain ⟨reason, hop⟩ := CacheOp.exists_countsAs hi op
    obtain ⟨hlookups, hlost, hcleared⟩ := ih (hi.run op)
    refine ⟨?_, fun cause hcounted => ?_, ?_⟩
    · have hasked := Counts.lookups_ask s.cache.counts (op.found? s)
      rw [← Counts.lookups_lose _ (op.leaving s).length reason, ← hop.counts,
        CacheOp.isSome_found?] at hasked
      rw [List.countP_cons]
      change _ = s.cache.hits + s.cache.misses + _ at hasked
      change (op.run s).2.cache.hits + (op.run s).2.cache.misses = _ at hasked
      change ((op.run s).2.after ops).cache.hits + ((op.run s).2.after ops).cache.misses = _
      omega
    · rw [departed_cons hop, ← Nat.add_assoc]
      change ((op.run s).2.after ops).cache.counts.lost cause = _
      rw [hlost cause hcounted, hop.counts, Counts.lost_lose _ _ hcounted, Counts.lost_ask]
    · rw [departed_cons hop, cleared, hop.cleared, hcleared]

/-- Every departure has one of the four causes. -/
theorem length_departures (s : TimedCache α) (ops : List (CacheOp α)) :
    (s.departures ops).length = s.departed ops .eviction + s.departed ops .expiration +
      s.departed ops .invalidation + s.departed ops .clearing := by
  unfold departed
  induction s.departures ops with
  | nil => rfl
  | cons d ds ih =>
    obtain ⟨cause, e⟩ := d
    cases cause <;> simp [ih] <;> omega

/-- **The accounts of a cache balance.**  Whatever is done to a cache, at whatever times:

    * it has counted as many hits and misses as there were look-ups;
    * the entries it holds, and those it has counted as evicted, expired or invalidated or
      that were cleared, are as many as there were results set under a key without an entry;
    * every entry that has left did so for one cause, each count is the number of entries
      that left for its cause, and the keys that have entered are just those of the entries
      that are there and of those that have left. -/
theorem turnover_conserved (settings : CacheSettings) (now : Nat) (ops : List (CacheOp α)) :
    let s₀ : TimedCache α := { now, cache := .ofSettings settings }
    let c := (s₀.after ops).cache
    c.stats.hits + c.stats.misses = ops.countP (·.isGet) ∧
    c.stats.size + c.stats.evictions + c.stats.expirations + c.stats.invalidations +
      s₀.cleared ops = (s₀.newcomers ops).length ∧
    c.stats.evictions = s₀.departed ops .eviction ∧
    c.stats.expirations = s₀.departed ops .expiration ∧
    c.stats.invalidations = s₀.departed ops .invalidation ∧
    s₀.cleared ops = s₀.departed ops .clearing ∧
    (c.keys ++ (s₀.departures ops).map (·.2.key)).Perm (s₀.newcomers ops) := by
  intro s₀ c
  have hi : s₀.cache.Indexed := .ofSettings settings
  obtain ⟨hlookups, hlost, hcleared⟩ := counts_after hi ops
  have hkeys : (c.keys ++ (s₀.departures ops).map (·.2.key)).Perm (s₀.newcomers ops) :=
    perm_keys_after hi ops
  have hevictions : c.evictions = s₀.departed ops .eviction :=
    (hlost .eviction (by decide)).trans (Nat.zero_add _)
  have hexpirations : c.expirations = s₀.departed ops .expiration :=
    (hlost .expiration (by decide)).trans (Nat.zero_add _)
  have hinvalidations : c.invalidations = s₀.departed ops .invalidation :=
    (hlost .invalidation (by decide)).trans (Nat.zero_add _)
  refine ⟨hlookups.trans (Nat.zero_add _), ?_, hevictions, hexpirations, hinvalidations, hcleared,
    hkeys⟩
  have hlength := hkeys.length_eq
  rw [List.length_append, List.length_map, length_departures] at hlength
  have hsize : c.keys.length = c.size := List.length_map _
  change c.size + c.evictions + c.expirations + c.invalidations + _ = _
  omega

-- each of the four causes, in a cache with room for two
example : (small.departures [.set ⟨"p", ⟨1⟩⟩ 1, .set ⟨"p", ⟨2⟩⟩ 2, .set ⟨"q", ⟨3⟩⟩ 3,
      .invalidate "p", .advance 10, .get ⟨"q", ⟨3⟩⟩, .set ⟨"q", ⟨4⟩⟩ 4, .clear]).map
        (fun d => (d.1, d.2.key.hash)) =
    [(.eviction, ⟨1⟩), (.invalidation, ⟨2⟩), (.expiration, ⟨3⟩), (.clearing, ⟨4⟩)] := by
  decide

end TimedCache

end SourceIndex
