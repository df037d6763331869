/-
  A larger cache holds all that a smaller one holds.

  Two caches with different room are given the same operations.  As long as no entry
  expires, the entries of the smaller one are among those of the larger one, in the same
  order.  To keep it so, the larger cache must not be full before the smaller one is, though
  operations that drop entries free more room in the one than in the other.

  * `CacheOp.duration`, `CacheOp.elapsed`: the time that operations take;
  * `Cache.Live`: no entry has expired; `TimedCache.live_after`: this is so as long as less
    time has passed than an entry lives;
  * `Cache.Within`: what the second cache holds beside the first one, and that it has as
    much room left.  Every operation keeps it so (`Within.set`, `Within.get`, …), and so
    does a run (`TimedCache.within_after`);
  * `TimedCache.larger_never_hits_less`: what the larger cache finds and gives up.
-/
import Mathlib.Algebra.GroupWithZero.Nat
import SourceIndex.Proofs.Turnover

namespace SourceIndex

/-! ## Time -/

namespace CacheOp

variable {α : Type}

/-- The time that an operation takes. -/
def duration : CacheOp α → Nat
  | advance ms => ms
  | _ => 0

/-- The time that operations take. -/
def elapsed (ops : List (CacheOp α)) : Nat :=
  (ops.map duration).sum

theorem elapsed_append (ops more : List (CacheOp α)) :
    elapsed (ops ++ more) = elapsed ops + elapsed more := by
  simp [elapsed]

theorem now_run (s : TimedCache α) (op : CacheOp α) : (op.run s).2.now = s.now + op.duration := by
  cases op with
  | _ => rfl

end CacheOp

theorem TimedCache.now_after {α : Type} (s : TimedCache α) (ops : List (CacheOp α)) :
    (s.after ops).now = s.now + CacheOp.elapsed ops := by
  induction ops generalizing s with
  | nil => rfl
  | cons op ops ih =>
    change ((op.run s).2.after ops).now = s.now + (op.duration + CacheOp.elapsed ops)
    rw [ih, CacheOp.now_run, Nat.add_assoc]

namespace Cache

variable {α : Type} {c d : Cache α} {now : Nat}

/-- No entry has expired. -/
def Live (now : Nat) (c : Cache α) : Prop :=
  ∀ e ∈ c.entries, c.expired now e = false

/-! ## Operations on live caches -/

/-- A look-up in a live cache finds the entry under the key. -/
theorem Live.get_cases (h : c.Live now) (key : CacheKey) :
    c.find? key = none ∧ c.get now key = (none, { c with misses := c.misses + 1 }) ∨
      ∃ e, c.find? key = some e ∧ c.get now key = (some e.value, { c with
        entries := e :: c.entries.filter (·.key ≠ key), hits := c.hits + 1 }) := by
  rcases Cache.get_cases now key c with hnone | ⟨e, hf, ⟨hexpired, -⟩ | ⟨-, hget⟩⟩
  · exact Or.inl hnone
  · rw [h e (List.mem_of_find?_eq_some hf)] at hexpired
    cases hexpired
  · exact Or.inr ⟨e, hf, hget⟩

/-- A result that is set in a live cache goes in front of the others.  The old result under
    its key goes, or, if there is none and the cache is full, the last entry. -/
theorem Live.set_cases (h : c.Live now) (hi : c.Indexed) (key : CacheKey) (value : α) :
    let c' := c.set now key value
    ∃ rest, c'.entries = ⟨key, value, now⟩ :: rest ∧ c'.hits = c.hits ∧
      (key ∈ c.keys ∧ rest = c.entries.filter (·.key ≠ key) ∧ c'.evictions = c.evictions ∨
        key ∉ c.keys ∧ c.size < c.maxSize ∧ rest = c.entries ∧ c'.evictions = c.evictions ∨
        key ∉ c.keys ∧ c.maxSize ≤ c.size ∧ (∃ last, c.entries = rest ++ [last]) ∧
          c'.evictions = c.evictions + 1) := by
  intro c'
  by_cases hkey : key ∈ c.keys
  · obtain ⟨hentries, hcounts⟩ := set_of_mem hkey now value
    simp only [counts, Counts.mk.injEq] at hcounts
    exact ⟨_, hentries, hcounts.1, Or.inl ⟨hkey, rfl, hcounts.2.2.1⟩⟩
  by_cases hfull : c.maxSize ≤ c.size
  · obtain ⟨rest, last, hlast, hgiven⟩ := hi.set_of_full hfull hkey now value
    have hlive := h last (by simp [hlast])
    rw [if_neg (by simp [hlive])] at hgiven
    obtain ⟨hentries, hcounts⟩ := hgiven
    simp only [counts, Counts.mk.injEq] at hcounts
    exact ⟨rest, hentries, hcounts.1,
      Or.inr (Or.inr ⟨hkey, hfull, ⟨last, hlast⟩, hcounts.2.2.1⟩)⟩
  · obtain ⟨hentries, hcounts⟩ := set_of_notMem hkey now value
    rw [if_neg hfull] at hentries hcounts
    simp only [counts, Counts.mk.injEq] at hcounts
    exact ⟨_, hentries, hcounts.1,
      Or.inr (Or.inl ⟨hkey, Nat.lt_of_not_le hfull, rfl, hcounts.2.2.1⟩)⟩

theorem Live.purgeExpired (h : c.Live now) : (c.purgeExpired now).2 = c := by
  have hnone : c.entries.filter (c.expired now) = [] :=
    List.filter_eq_nil_iff.2 fun e he => by simp [h e he]
  unfold Cache.purgeExpired
  rw [hnone]
  rfl

theorem length_filter_key {key : CacheKey} (hkey : key ∈ c.keys) :
    (c.entries.filter (·.key ≠ key)).length < c.entries.length := by
  obtain ⟨e, he, rfl⟩ := List.mem_map.1 hkey
  exact List.length_filter_lt_length_iff_exists.2 ⟨e, he, by simp⟩

/-! ## Two caches side by side -/

/-- The second cache holds what the first one holds, in the same order, and has as much room
    left at least.  It has evicted no more and found no less. -/
structure Within (c d : Cache α) : Prop where
  entries : c.entries.Sublist d.entries
  room : d.size + c.maxSize ≤ c.size + d.maxSize
  evictions : d.evictions ≤ c.evictions
  hits : c.hits ≤ d.hits

theorem length_filter_of_sublist {β : Type} {xs ys : List β} (h : xs.Sublist ys)
    (test : β → Bool) :
    (ys.filter test).length + xs.length ≤ (xs.filter test).length + ys.length := by
  induction h with
  | slnil => exact Nat.le_refl _
  | cons y _ ih =>
    have hle := List.length_filter_le test [y]
    rw [← List.singleton_append, List.filter_append, List.length_append, List.length_append]
    omega
  | cons_cons x _ ih =>
    simp only [List.filter_cons, apply_ite List.length, List.length_cons]
    split <;> omega

namespace Within

variable {c' d' : Cache α} {key : CacheKey} {e : CacheEntry α}

theorem keys (h : c.Within d) : c.keys ⊆ d.keys :=
  (h.entries.map _).subset

theorem filter (h : c.Within d) (test : CacheEntry α → Bool)
    (hc : c'.entries = c.entries.filter test) (hd : d'.entries = d.entries.filter test)
    (hlc : c.SameLimits c') (hld : d.SameLimits d') {m n : Nat}
    (hkc : c'.counts = c.counts.lose m .invalidation)
    (hkd : d'.counts = d.counts.lose n .invalidation) : c'.Within d' := by
  simp only [counts, Counts.lose, Counts.mk.injEq] at hkc hkd
  refine ⟨?_, ?_, ?_, ?_⟩
  · rw [hc, hd]
    exact h.entries.filter test
  · have hlost := length_filter_of_sublist h.entries test
    have hroom := h.room
    simp only [size] at hroom
    simp only [size, hc, hd, hlc.1, hld.1]
    omega
  · rw [hkc.2.2.1, hkd.2.2.1]
    exact h.evictions
  · rw [hkc.1, hkd.1]
    exact h.hits

theorem invalidate (h : c.Within d) (hc : c.Indexed) (hd : d.Indexed) (path : String) :
    (c.invalidate path).2.Within (d.invalidate path).2 :=
  h.filter (·.key.path ≠ path) (hc.invalidate_spec path).2 (hd.invalidate_spec path).2
    (sameLimits_invalidate path c) (sameLimits_invalidate path d) (counts_invalidate path c)
    (counts_invalidate path d)

theorem invalidateStale (h : c.Within d) (hc : c.Indexed) (hd : d.Indexed) (path : String)
    (kept : ContentHash) :
    (c.invalidateStale path kept).2.Within (d.invalidateStale path kept).2 :=
  h.filter (fun e => ¬ (e.key.path = path ∧ e.key.hash ≠ kept))
    (hc.invalidateStale_spec path kept).2 (hd.invalidateStale_spec path kept).2
    (sameLimits_invalidateStale path kept c) (sameLimits_invalidateStale path kept d)
    (counts_invalidateStale path kept c) (counts_invalidateStale path kept d)

theorem clear (h : c.Within d) : c.clear.Within d.clear :=
  h.filter (fun _ => false) (by simp [Cache.clear]) (by simp [Cache.clear]) (.refl c) (.refl d)
    (Counts.lose_zero _ _).symm (Counts.lose_zero _ _).symm

/-- The larger cache holds the entries of the smaller one also without a key that is not in
    the smaller one. -/
theorem sublist_filter (h : c.Within d) (hkey : key ∉ c.keys) :
    c.entries.Sublist (d.entries.filter (·.key ≠ key)) := by
  rw [← entries_filter_of_notMem hkey]
  exact h.entries.filter _

theorem find? (h : c.Within d) (hd : d.Indexed) (hf : c.find? key = some e) :
    d.find? key = some e :=
  hd.find?_eq_some_iff.2 ⟨h.entries.subset (List.mem_of_find?_eq_some hf), key_of_find? hf⟩

theorem front {rest rest' : List (CacheEntry α)} (hc : c'.entries = e :: rest)
    (hd : d'.entries = e :: rest') (hrest : rest.Sublist rest')
    (hroom : rest'.length + c'.maxSize ≤ rest.length + d'.maxSize)
    (hevictions : d'.evictions ≤ c'.evictions) (hhits : c'.hits ≤ d'.hits) : c'.Within d' where
  entries := by
    rw [hc, hd]
    exact hrest.cons_cons e
  room := by
    simp only [size, hc, hd, List.length_cons]
    omega
  evictions := hevictions
  hits := hhits

theorem get (h : c.Within d) (hd : d.Indexed) (hlc : c.Live now) (hld : d.Live now)
    (key : CacheKey) :
    (c.get now key).2.Within (d.get now key).2 := by
  rcases hlc.get_cases key with ⟨hnone, hget⟩ | ⟨e, hf, hget⟩
  · rcases hld.get_cases key with ⟨-, hget'⟩ | ⟨e', hf', hget'⟩
    · rw [hget, hget']
      exact ⟨h.entries, h.room, h.evictions, h.hits⟩
    · -- only the larger cache has an entry to move
      rw [hget, hget']
      refine ⟨?_, ?_, h.evictions, Nat.le_succ_of_le h.hits⟩
      · exact (h.sublist_filter (find?_eq_none_iff.1 hnone)).cons _
      · have hmem : key ∈ d.keys :=
          List.mem_map.2 ⟨e', List.mem_of_find?_eq_some hf', key_of_find? hf'⟩
        have hlength := length_filter_key hmem
        have hroom := h.room
        simp only [size, List.length_cons] at hroom ⊢
        omega
  · have hf' := h.find? hd hf
    rcases hld.get_cases key with ⟨hnone', -⟩ | ⟨e', hfound, hget'⟩
    · rw [hf'] at hnone'
      cases hnone'
    · obtain rfl : e = e' := Option.some.inj (hf'.symm.trans hfound)
      rw [hget, hget']
      have hlost := length_filter_of_sublist h.entries (·.key ≠ key)
      have hroom := h.room
      simp only [size] at hroom
      exact front rfl rfl (h.entries.filter _) (by dsimp only; omega) h.evictions
        (Nat.succ_le_succ h.hits)

/-- A result is set in both caches.  When the larger one has to evict its last entry, the
    smaller one is full as well, and evicts its own last entry. -/
theorem set (h : c.Within d) (hc : c.Indexed) (hd : d.Indexed) (hlc : c.Live now) (hld : d.Live now)
    (key : CacheKey) (value : α) : (c.set now key value).Within (d.set now key value) := by
  obtain ⟨rest, hentries, hhits, hcases⟩ := hlc.set_cases hc key value
  obtain ⟨rest', hentries', hhits', hcases'⟩ := hld.set_cases hd key value
  suffices hrest : rest.Sublist rest' ∧ rest'.length + c.maxSize ≤ rest.length + d.maxSize ∧
      (d.set now key value).evictions ≤ (c.set now key value).evictions by
    refine front hentries hentries' hrest.1 ?_ hrest.2.2 ?_
    · rw [(sameLimits_set now key value c).1, (sameLimits_set now key value d).1]
      exact hrest.2.1
    · rw [hhits, hhits']
      exact h.hits
  have hroom : d.entries.length + c.maxSize ≤ c.entries.length + d.maxSize := h.room
  have hevictions := h.evictions
  rcases hcases with ⟨hkey, rfl, hsame⟩ | ⟨hkey, hfree, rfl, hsame⟩ |
    ⟨hkey, hfull, ⟨last, hlast⟩, hevicted⟩
  · rcases hcases' with ⟨-, rfl, hsame'⟩ | ⟨hkey', -⟩ | ⟨hkey', -⟩
    · have hlost := length_filter_of_sublist h.entries (·.key ≠ key)
      exact ⟨h.entries.filter _, by omega, by omega⟩
    · exact (hkey' (h.keys hkey)).elim
    · exact (hkey' (h.keys hkey)).elim
  · rcases hcases' with ⟨hkey', rfl, hsame'⟩ | ⟨-, -, rfl, hsame'⟩ | ⟨-, hfull', -⟩
    · have hlength := length_filter_key hkey'
      exact ⟨h.sublist_filter hkey, by omega, by omega⟩
    · exact ⟨h.entries, by omega, by omega⟩
    · -- the larger cache has as much room left
      simp only [size] at hfree hfull'
      omega
  · have hlength : c.entries.length = rest.length + 1 := by rw [hlast]; simp
    have hsub : rest.Sublist c.entries := hlast ▸ List.sublist_append_left rest [last]
    have hsize' : d.entries.length ≤ d.maxSize := hd.size_le
    simp only [size] at hfull
    rcases hcases' with ⟨hkey', rfl, hsame'⟩ | ⟨-, hfree', rfl, hsame'⟩ |
      ⟨-, -, ⟨last', hlast'⟩, hevicted'⟩
    · have hlength' := length_filter_key hkey'
      exact ⟨hsub.trans (h.sublist_filter hkey), by omega, by omega⟩
    · simp only [size] at hfree'
      exact ⟨hsub.trans h.entries, by omega, by omega⟩
    · have hlength' : d.entries.length = rest'.length + 1 := by rw [hlast']; simp
      refine ⟨?_, by omega, by omega⟩
      have hreverse := h.entries.reverse
      rw [hlast, hlast', List.reverse_append, List.reverse_append] at hreverse
      exact List.reverse_sublist.1 hreverse.of_cons_cons

theorem run {s t : TimedCache α} (h : s.cache.Within t.cache) (hs : s.cache.Indexed)
    (ht : t.cache.Indexed) (hnow : t.now = s.now) (hls : s.cache.Live s.now)
    (hlt : t.cache.Live s.now) (op : CacheOp α) :
    (op.run s).2.cache.Within (op.run t).2.cache := by
  cases op with
  | set key value =>
    change (s.cache.set s.now key value).Within (t.cache.set t.now key value)
    rw [hnow]
    exact h.set hs ht hls hlt key value
  | get key =>
    change (s.cache.get s.now key).2.Within (t.cache.get t.now key).2
    rw [hnow]
    exact h.get ht hls hlt key
  | invalidate path => exact h.invalidate hs ht path
  | invalidateStale path kept => exact h.invalidateStale hs ht path kept
  | purgeExpired =>
    change (s.cache.purgeExpired s.now).2.Within (t.cache.purgeExpired t.now).2
    rw [hnow, hls.purgeExpired, hlt.purgeExpired]
    exact h
  | clear => exact h.clear
  | contains | stats | advance => exact h

end Within

end Cache

/-! ## Runs -/

namespace TimedCache

variable {α : Type} {ops : List (CacheOp α)}

/-- In a cache that was empty first no entry expires before the lifetime is over. -/
theorem live_after {s : TimedCache α} (hi : s.cache.Indexed) (hempty : s.cache.entries = [])
    (htime : CacheOp.elapsed ops < s.cache.ttl) : (s.after ops).cache.Live (s.after ops).now := by
  intro e he
  obtain ⟨before, later, -, hset, -⟩ := origin_of_mem hi hempty ops he
  have hle : s.now ≤ e.insertedAt := by
    rw [hset]
    exact now_le_after s before
  have httl : (s.after ops).cache.ttl = s.cache.ttl := (indexed_after hi ops).2.2
  simp only [Cache.expired, decide_eq_false_iff_not, httl, now_after]
  omega

/-- Two caches that are empty at first go on side by side. -/
theorem within_after (settings : CacheSettings) {large : Nat} (hlarge : settings.maxSize ≤ large)
    (now : Nat) (htime : CacheOp.elapsed ops < settings.ttlMs) :
    (after { now, cache := .ofSettings settings } ops).cache.Within
      (after { now, cache := .ofSettings { settings with maxSize := large } } ops).cache := by
  let s : TimedCache α := { now, cache := .ofSettings settings }
  let t : TimedCache α := { now, cache := .ofSettings { settings with maxSize := large } }
  have hs : s.cache.Indexed := .ofSettings _
  have ht : t.cache.Indexed := .ofSettings _
  change (s.after ops).cache.Within (t.after ops).cache
  induction ops using List.reverseRecOn with
  | nil =>
    refine ⟨List.Sublist.refl _, ?_, Nat.le_refl _, Nat.le_refl _⟩
    change 0 + max settings.maxSize 1 ≤ 0 + max large 1
    omega
  | append_singleton ops op ih =>
    have hbefore : CacheOp.elapsed ops < settings.ttlMs := by
      rw [CacheOp.elapsed_append] at htime
      omega
    have hclock : (t.after ops).now = (s.after ops).now := by
      rw [now_after, now_after]
    have hlive := live_after hs rfl hbefore
    have hlive' := live_after ht rfl hbefore
    rw [hclock] at hlive'
    rw [after_append, after_append]
    exact (ih hbefore).run (indexed_after hs ops).1 (indexed_after ht ops).1 hclock hlive hlive' op

/-- **A larger cache never finds less.**  Two caches with the same lifetime, of which the second
    one has room for as many entries at least, are given the same operations, which take less
    time than an entry lives.  After the first of them, however many, the entries of the
    smaller cache are entries of the larger one, with the same values and in the same order.
    A look-up that finds a value in the smaller one finds it in the larger one, which has
    found as many values at least, and has evicted as many entries at most. -/
theorem larger_never_hits_less (settings : CacheSettings) (large : Nat)
    (hlarge : settings.maxSize ≤ large) (now : Nat) {ops : List (CacheOp α)}
    (htime : CacheOp.elapsed ops < settings.ttlMs) {before : List (CacheOp α)}
    (hbefore : before <+: ops) :
    let s := after { now, cache := .ofSettings settings } before
    let t := after { now, cache := .ofSettings { settings with maxSize := large } } before
    s.cache.entries.Sublist t.cache.entries ∧
    (∀ key value, (s.cache.get s.now key).1 = some value →
      (t.cache.get t.now key).1 = some value) ∧
    s.cache.hits ≤ t.cache.hits ∧ t.cache.evictions ≤ s.cache.evictions := by
  intro s t
  have hsoon : CacheOp.elapsed before < settings.ttlMs := by
    obtain ⟨later, rfl⟩ := hbefore
    rw [CacheOp.elapsed_append] at htime
    omega
  have h : s.cache.Within t.cache := within_after settings hlarge now hsoon
  refine ⟨h.entries, fun key value hfound => ?_, h.hits, h.evictions⟩
  have hs : s.cache.Indexed := (indexed_after (.ofSettings _) before).1
  have ht : t.cache.Indexed := (indexed_after (.ofSettings _) before).1
  have hlive : t.cache.Live t.now := live_after (.ofSettings _) rfl hsoon
  obtain ⟨e, he, hkey, hvalue, -⟩ := hs.get_eq_some_iff.1 hfound
  have he' := h.entries.subset he
  exact ht.get_eq_some_iff.2 ⟨e, he', hkey, hvalue, hlive e he'⟩

/-- Results that are set, looked up and dropped within nine milliseconds. -/
def mixed : List (CacheOp Nat) :=
  [.set ⟨"p", ⟨1⟩⟩ 1, .set ⟨"q", ⟨2⟩⟩ 2, .advance 5, .get ⟨"p", ⟨1⟩⟩, .set ⟨"p", ⟨3⟩⟩ 3,
    .invalidateStale "p" ⟨3⟩, .get ⟨"p", ⟨3⟩⟩, .set ⟨"q", ⟨2⟩⟩ 4, .advance 4]

/-- With room for one result the last one is left of them, after three evictions.  With room
    for two it is found as well, after one eviction and one more hit. -/
theorem larger_never_hits_less_mixed :
    let s := after { cache := .ofSettings { maxSize := 1, ttlMs := 10 } } (mixed.take 8)
    let t := after { cache := .ofSettings { maxSize := 2, ttlMs := 10 } } (mixed.take 8)
    1 ≤ 2 ∧ CacheOp.elapsed mixed < 10 ∧ mixed.take 8 <+: mixed ∧
    s.cache.keys = [⟨"q", ⟨2⟩⟩] ∧ s.cache.entries.Sublist t.cache.entries ∧
    (t.cache.get t.now ⟨"q", ⟨2⟩⟩).1 = some 4 ∧
    s.cache.hits = 1 ∧ s.cache.hits ≤ t.cache.hits ∧ t.cache.hits = 2 ∧
    t.cache.evictions = 1 ∧ t.cache.evictions ≤ s.cache.evictions ∧ s.cache.evictions = 3 := by
  intro s t
  have htime : CacheOp.elapsed mixed < 10 := by decide
  have hbefore : mixed.take 8 <+: mixed := List.take_prefix 8 mixed
  obtain ⟨hentries, hfound, hhits, hevictions⟩ :=
    larger_never_hits_less { maxSize := 1, ttlMs := 10 } 2 (by decide) 0 htime hbefore
  refine ⟨by decide, htime, hbefore, by decide, hentries, hfound _ 4 (by decide), by decide, hhits,
    by decide, by decide, hevictions, by decide⟩

end TimedCache

end SourceIndex
