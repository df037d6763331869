/-
  What a look-up in the cache finds.

  * `CacheOp.Discards`: the operations that take a result from the cache before its time;
  * `TimedCache.Undisturbed`: operations that neither set a key nor discard its result;
  * `TimedCache.kept_after`: through such operations a result is kept until it expires;
  * `TimedCache.origin_of_mem`: what is kept was set, and was not disturbed since;
  * `TimedCache.lookup_exact`: a look-up finds just the result that was set last, if it is
    not too old and was not discarded.
-/
import Mathlib.Data.List.Induction
import SourceIndex.Proofs.Recency

namespace SourceIndex

namespace CacheOp

variable {α : Type}

/-- Does an operation take the result under a key from the cache, whatever its age?  Drops by
    path do, and a new result in a full cache where the last entry, which lives, has the
    key. -/
def Discards (s : TimedCache α) (key : CacheKey) : CacheOp α → Prop
  | set other _ => other ∉ s.cache.keys ∧ s.cache.maxSize ≤ s.cache.size ∧
    ∃ e, s.cache.entries.getLast? = some e ∧ e.key = key ∧ s.cache.expired s.now e = false
  | invalidate path => key.path = path
  | invalidateStale path kept => key.path = path ∧ key.hash ≠ kept
  | clear => True
  | _ => False

end CacheOp

namespace Cache

variable {α : Type} {c : Cache α} {e : CacheEntry α} {now : Nat}

/-! ## Entries under a key -/

namespace Indexed

variable {key : CacheKey}

theorem eq_of_key (h : c.Indexed) {e' : CacheEntry α} (he : e ∈ c.entries) (he' : e' ∈ c.entries)
    (hkey : e.key = e'.key) : e = e' :=
  List.inj_on_of_nodup_map h.nodup he he' hkey

theorem find?_eq_some_iff (h : c.Indexed) : c.find? key = some e ↔ e ∈ c.entries ∧ e.key = key := by
  constructor
  · intro hf
    exact ⟨List.mem_of_find?_eq_some hf, key_of_find? hf⟩
  · rintro ⟨he, hkey⟩
    cases hf : c.find? key with
    | none =>
      exact (find?_eq_none_iff.1 hf (hkey ▸ List.mem_map_of_mem he)).elim
    | some e' =>
      rw [h.eq_of_key (List.mem_of_find?_eq_some hf) he ((key_of_find? hf).trans hkey.symm)]

/-- A look-up finds the value of the entry under the key, if it lives. -/
theorem get_eq_some_iff (h : c.Indexed) {value : α} :
    (c.get now key).1 = some value ↔
      ∃ e ∈ c.entries, e.key = key ∧ e.value = value ∧ c.expired now e = false := by
  rcases get_cases now key c with ⟨hf, hget⟩ | ⟨e, hf, hcases⟩
  · rw [hget]
    refine iff_of_false (by simp) ?_
    rintro ⟨e, he, hkey, -⟩
    exact find?_eq_none_iff.1 hf (hkey ▸ List.mem_map_of_mem he)
  · obtain ⟨he, hkey⟩ := h.find?_eq_some_iff.1 hf
    have honly : ∀ e' ∈ c.entries, e'.key = key → e' = e := fun e' he' hkey' =>
      h.eq_of_key he' he (hkey'.trans hkey.symm)
    rcases hcases with ⟨hexpired, hget⟩ | ⟨hlive, hget⟩
    · rw [hget]
      refine iff_of_false (by simp) ?_
      rintro ⟨e', he', hkey', -, hlive⟩
      rw [honly e' he' hkey', hexpired] at hlive
      cases hlive
    · rw [hget]
      constructor
      · intro hvalue
        exact ⟨e, he, hkey, Option.some.inj hvalue, hlive⟩
      · rintro ⟨e', he', hkey', rfl, -⟩
        rw [honly e' he' hkey']

end Indexed

theorem expired_mono {c' : Cache α} {now' : Nat} (hlimits : SameLimits c c') (hle : now ≤ now')
    (h : c.expired now e = true) : c'.expired now' e = true := by
  simp only [expired, decide_eq_true_eq] at h ⊢
  rw [hlimits.2]
  omega

/-- To ask for a key tells whether a look-up would find it. -/
theorem contains_eq_isSome_get (c : Cache α) (now : Nat) (key : CacheKey) :
    c.contains now key = (c.get now key).1.isSome := by
  unfold contains
  rcases get_cases now key c with ⟨hf, hget⟩ | ⟨e, hf, ⟨hexpired, hget⟩ | ⟨hexpired, hget⟩⟩
  · rw [hf, hget]
    rfl
  all_goals
    rw [hf, hget]
    simp [hexpired]

theorem Indexed.get_of_expired (h : c.Indexed) (he : e ∈ c.entries)
    (hexpired : c.expired now e = true) :
    c.get now e.key = (none, { c.remove e.key with
      expirations := c.expirations + 1, misses := c.misses + 1 }) := by
  have hf : c.find? e.key = some e := h.find?_eq_some_iff.2 ⟨he, rfl⟩
  rw [Cache.get, hf]
  exact if_pos hexpired

/-- What was set is found until its lifetime is over. -/
theorem get_set (c : Cache α) (now later : Nat) (key : CacheKey) (value : α) :
    ((c.set now key value).get later key).1 =
      if later - now < c.ttl then some value else none := by
  have httl : (c.set now key value).ttl = c.ttl := (sameLimits_set now key value c).2
  have hf : (c.set now key value).find? key = some ⟨key, value, now⟩ :=
    List.find?_cons_of_pos (decide_eq_true rfl)
  rw [get, hf]
  by_cases hlt : later - now < c.ttl
  · have hlive : (c.set now key value).expired later ⟨key, value, now⟩ = false := by
      simpa [expired, httl] using hlt
    simp [hlive, hlt]
  · have hexpired : (c.set now key value).expired later ⟨key, value, now⟩ = true := by
      simpa [expired, httl] using hlt
    simp [hexpired, hlt]

/-! ## Entries that stay -/

theorem Indexed.mem_get (h : c.Indexed) (now : Nat) (key : CacheKey) (he : e ∈ c.entries) :
    e ∈ (c.get now key).2.entries ∨ c.expired now e = true := by
  rcases get_cases now key c with ⟨-, hget⟩ | ⟨e', hf, ⟨hexpired, hget⟩ | ⟨-, hget⟩⟩
  · rw [hget]
    exact Or.inl he
  · by_cases hkey : e.key = key
    · obtain ⟨he', hkey'⟩ := h.find?_eq_some_iff.1 hf
      rw [h.eq_of_key he he' (hkey.trans hkey'.symm)]
      exact Or.inr hexpired
    · rw [hget]
      change e ∈ (c.remove key).entries ∨ _
      rw [entries_remove]
      exact Or.inl (List.mem_filter.2 ⟨he, by simpa using hkey⟩)
  · rw [hget]
    refine Or.inl ?_
    by_cases hkey : e.key = key
    · obtain ⟨he', hkey'⟩ := h.find?_eq_some_iff.1 hf
      rw [h.eq_of_key he he' (hkey.trans hkey'.symm)]
      exact List.mem_cons_self
    · exact List.mem_cons_of_mem _ (List.mem_filter.2 ⟨he, by simpa using hkey⟩)

/-- A result under another key keeps the entries that live, but for the one that is
    evicted. -/
theorem Indexed.mem_set_of_ne (h : c.Indexed) {key : CacheKey} (value : α) (he : e ∈ c.entries)
    (hne : e.key ≠ key) :
    e ∈ (c.set now key value).entries ∨ c.expired now e = true ∨
      key ∉ c.keys ∧ c.maxSize ≤ c.size ∧ c.entries.getLast? = some e := by
  by_cases hkey : key ∈ c.keys
  · rw [(set_of_mem hkey now value).1]
    exact Or.inl (List.mem_cons_of_mem _ (List.mem_filter.2 ⟨he, by simpa using hne⟩))
  by_cases hfull : c.maxSize ≤ c.size
  · obtain ⟨rest, last, hlast, hgiven⟩ := h.set_of_full hfull hkey now value
    split at hgiven
    · obtain ⟨kept, stale, hsplit, -, hstale, -, hentries, -⟩ := hgiven
      rw [hsplit] at he
      rcases List.mem_append.1 he with he | he
      · rw [hentries]
        exact Or.inl (List.mem_cons_of_mem _ he)
      · exact Or.inr (Or.inl (hstale e he))
    · rw [hlast] at he
      rcases List.mem_append.1 he with he | he
      · rw [hgiven.1]
        exact Or.inl (List.mem_cons_of_mem _ he)
      · rw [List.mem_singleton.1 he]
        exact Or.inr (Or.inr ⟨hkey, hfull, by simp [hlast]⟩)
  · have hentries := (set_of_notMem hkey now value).1
    rw [if_neg hfull] at hentries
    rw [hentries]
    exact Or.inl (List.mem_cons_of_mem _ he)

theorem Indexed.mem_purgeExpired (h : c.Indexed) (now : Nat) (he : e ∈ c.entries) :
    e ∈ (c.purgeExpired now).2.entries ∨ c.expired now e = true := by
  by_cases hexpired : c.expired now e = true
  · exact Or.inr hexpired
  · refine Or.inl ?_
    change e ∈ (c.removeAll _).entries
    rw [entries_removeAll, List.mem_filter, decide_eq_true_eq]
    refine ⟨he, fun hm => ?_⟩
    obtain ⟨e', he', hkey⟩ := List.mem_map.1 hm
    rw [List.mem_filter] at he'
    rw [h.eq_of_key he he'.1 hkey.symm] at hexpired
    exact hexpired he'.2

end Cache

/-! ## One operation -/

namespace CacheOp

variable {α : Type} {s : TimedCache α} {op : CacheOp α} {e : CacheEntry α}

theorem now_le_run (s : TimedCache α) (op : CacheOp α) : s.now ≤ (op.run s).2.now := by
  cases op with
  | advance ms => exact Nat.le_add_right _ _
  | _ => exact Nat.le_refl _

/-- An operation that neither sets a key nor discards its result keeps it, unless it has
    expired. -/
theorem mem_run (h : s.cache.Indexed) (he : e ∈ s.cache.entries)
    (hset : ∀ value, op ≠ .set e.key value) (hkeep : ¬ op.Discards s e.key) :
    e ∈ (op.run s).2.cache.entries ∨ s.cache.expired s.now e = true := by
  cases op with
  | set key value =>
    have hne : e.key ≠ key := fun hkey => hset value (hkey ▸ rfl)
    rcases h.mem_set_of_ne value he hne with hstays | hexpired | ⟨hkey, hfull, hlast⟩
    · exact Or.inl hstays
    · exact Or.inr hexpired
    · cases hexpired : s.cache.expired s.now e with
      | true => exact Or.inr rfl
      | false => exact (hkeep ⟨hkey, hfull, e, hlast, rfl, hexpired⟩).elim
  | get key => exact h.mem_get s.now key he
  | invalidate path =>
    refine Or.inl ?_
    change e ∈ (s.cache.invalidate path).2.entries
    rw [(h.invalidate_spec path).2]
    exact List.mem_filter.2 ⟨he, decide_eq_true hkeep⟩
  | invalidateStale path kept =>
    refine Or.inl ?_
    change e ∈ (s.cache.invalidateStale path kept).2.entries
    rw [(h.invalidateStale_spec path kept).2]
    exact List.mem_filter.2 ⟨he, decide_eq_true hkeep⟩
  | purgeExpired => exact h.mem_purgeExpired s.now he
  | clear => exact (hkeep trivial).elim
  | contains | stats | advance => exact Or.inl he

/-- What is in the cache after an operation was set by it, or it was there before. -/
theorem mem_of_mem_run (he : e ∈ (op.run s).2.cache.entries) :
    op = .set e.key e.value ∧ e.insertedAt = s.now ∨
      e ∈ s.cache.entries ∧ ∀ value, op ≠ .set e.key value := by
  cases htouched : op.touched? s with
  | none =>
    refine Or.inr ⟨(sublist_of_untouched htouched).subset he, ?_⟩
    rintro value rfl
    cases htouched
  | some key =>
    cases op with
    | set key' value =>
      rcases List.mem_cons.1 he with rfl | hm
      · exact Or.inl ⟨rfl, rfl⟩
      · obtain ⟨hm, hne⟩ := List.mem_filter.1 hm
        refine Or.inr ⟨?_, ?_⟩
        · split at hm
          · exact (Cache.sublist_makeRoom _ _).subset hm
          · exact hm
        · intro value' hop
          cases hop
          simp at hne
    | get key' =>
      refine Or.inr ⟨?_, by simp⟩
      change e ∈ (s.cache.get s.now key').2.entries at he
      rcases Cache.get_cases s.now key' s.cache with ⟨-, hget⟩ | ⟨e', hf, ⟨-, hget⟩ | ⟨-, hget⟩⟩
      · rw [hget] at he
        exact he
      · simp [touched?, hget] at htouched
      · rw [hget] at he
        rcases List.mem_cons.1 he with rfl | hm
        · exact List.mem_of_find?_eq_some hf
        · exact List.mem_of_mem_filter hm
    | contains | invalidate | invalidateStale | purgeExpired | clear | stats | advance =>
      cases htouched

/-- An operation that discards the result under a key does not leave it in the cache. -/
theorem not_discards_of_mem (h : s.cache.Indexed) (he : e ∈ s.cache.entries)
    (he' : e ∈ (op.run s).2.cache.entries) : ¬ op.Discards s e.key := by
  intro hdiscards
  cases op with
  | set other value =>
    obtain ⟨hother, hfull, e₁, hlast₁, hkey, hlive⟩ := hdiscards
    obtain rfl := h.eq_of_key (List.mem_of_getLast? hlast₁) he hkey
    obtain ⟨rest, last, hlast, hgiven⟩ := h.set_of_full hfull hother s.now value
    obtain rfl : last = e₁ := by simpa [hlast] using hlast₁
    rw [if_neg (by simp [hlive])] at hgiven
    change last ∈ (s.cache.set s.now other value).entries at he'
    rw [hgiven.1] at he'
    rcases List.mem_cons.1 he' with hnew | hrest
    · refine hother ?_
      rw [← show last.key = other by rw [hnew]]
      exact List.mem_map_of_mem he
    · -- the keys of the entries differ
      have hnodup := h.nodup
      rw [Cache.keys, hlast, List.map_append, List.nodup_append] at hnodup
      exact hnodup.2.2 last.key (List.mem_map_of_mem hrest) last.key (by simp) rfl
  | invalidate path =>
    change e ∈ (s.cache.invalidate path).2.entries at he'
    rw [(h.invalidate_spec path).2] at he'
    exact of_decide_eq_true (List.mem_filter.1 he').2 hdiscards
  | invalidateStale path kept =>
    change e ∈ (s.cache.invalidateStale path kept).2.entries at he'
    rw [(h.invalidateStale_spec path kept).2] at he'
    exact of_decide_eq_true (List.mem_filter.1 he').2 hdiscards
  | clear => cases he'
  | get | contains | purgeExpired | stats | advance => exact hdiscards

end CacheOp

/-! ## Runs -/

namespace TimedCache

variable {α : Type} {s : TimedCache α} {key : CacheKey} {ops : List (CacheOp α)} {e : CacheEntry α}

/-- No operation sets the key, and none discards its result. -/
def Undisturbed (s : TimedCache α) (key : CacheKey) : List (CacheOp α) → Prop
  | [] => True
  | op :: ops => (∀ value, op ≠ .set key value) ∧ ¬ op.Discards s key ∧
    (op.run s).2.Undisturbed key ops

theorem after_append (s : TimedCache α) (ops more : List (CacheOp α)) :
    s.after (ops ++ more) = (s.after ops).after more :=
  List.foldl_append

theorem now_le_after (s : TimedCache α) (ops : List (CacheOp α)) : s.now ≤ (s.after ops).now := by
  induction ops generalizing s with
  | nil => exact Nat.le_refl _
  | cons op ops ih => exact Nat.le_trans (CacheOp.now_le_run s op) (ih _)

theorem Undisturbed.snoc {op : CacheOp α} (h : s.Undisturbed key ops)
    (hset : ∀ value, op ≠ .set key value) (hkeep : ¬ op.Discards (s.after ops) key) :
    s.Undisturbed key (ops ++ [op]) := by
  induction ops generalizing s with
  | nil => exact ⟨hset, hkeep, trivial⟩
  | cons first ops ih => exact ⟨h.1, h.2.1, ih h.2.2 hkeep⟩

/-- A result that is not disturbed is kept until it expires. -/
theorem kept_after (hi : s.cache.Indexed) (hu : s.Undisturbed e.key ops)
    (he : e ∈ s.cache.entries ∨ s.cache.expired s.now e = true) :
    e ∈ (s.after ops).cache.entries ∨
      (s.after ops).cache.expired (s.after ops).now e = true := by
  induction ops generalizing s with
  | nil => exact he
  | cons op ops ih =>
    have hlater : s.cache.expired s.now e = true →
        (op.run s).2.cache.expired (op.run s).2.now e = true :=
      Cache.expired_mono (Cache.sameLimits_run s op) (CacheOp.now_le_run s op)
    obtain ⟨hset, hkeep, hrest⟩ := hu
    refine ih (hi.run op) hrest ?_
    rcases he with he | hexpired
    · exact (CacheOp.mem_run hi he hset hkeep).imp_right hlater
    · exact Or.inr (hlater hexpired)

/-- A result that was set less than the lifetime ago, and was not disturbed since, is in the
    cache, and lives. -/
theorem mem_after_set {value : α} {later : List (CacheOp α)} (hi : s.cache.Indexed)
    (hu : ((CacheOp.set key value).run s).2.Undisturbed key later)
    (hlt : (s.after (.set key value :: later)).now < s.now + s.cache.ttl) :
    let s' := s.after (.set key value :: later)
    let e : CacheEntry α := ⟨key, value, s.now⟩
    e ∈ s'.cache.entries ∧ s'.cache.expired s'.now e = false := by
  intro s' e
  have httl : s'.cache.ttl = s.cache.ttl := (indexed_after hi _).2.2
  have hle : s.now ≤ s'.now := now_le_after s _
  have hlive : s'.cache.expired s'.now e = false := by
    have hlt' : s'.now < s.now + s'.cache.ttl := by rw [httl]; exact hlt
    simp only [Cache.expired, decide_eq_false_iff_not, e]
    omega
  have hnew : e ∈ ((CacheOp.set key value).run s).2.cache.entries := List.mem_cons_self
  rcases kept_after (hi.run (.set key value)) hu (Or.inl hnew) with hkept | hexpired
  · exact ⟨hkept, hlive⟩
  · exact (Bool.false_ne_true (hlive.symm.trans hexpired)).elim

/-- What is in a cache, which was empty first, was set some time ago, and was not disturbed
    since. -/
theorem origin_of_mem (hi : s.cache.Indexed) (hempty : s.cache.entries = [])
    (ops : List (CacheOp α)) (he : e ∈ (s.after ops).cache.entries) :
    ∃ before later, ops = before ++ .set e.key e.value :: later ∧
      e.insertedAt = (s.after before).now ∧
      ((CacheOp.set e.key e.value).run (s.after before)).2.Undisturbed e.key later := by
  induction ops using List.reverseRecOn with
  | nil =>
    change e ∈ s.cache.entries at he
    rw [hempty] at he
    cases he
  | append_singleton ops op ih =>
    rw [after_append] at he
    have hi' := (indexed_after hi ops).1
    rcases CacheOp.mem_of_mem_run he with ⟨rfl, htime⟩ | ⟨hold, hset⟩
    · exact ⟨ops, [], rfl, htime, trivial⟩
    · obtain ⟨before, later, rfl, htime, hu⟩ := ih hold
      refine ⟨before, later ++ [op], by simp, htime, hu.snoc hset ?_⟩
      rw [after_append] at hi' hold he
      exact CacheOp.not_discards_of_mem hi' hold he

/-- **A look-up finds the last result that lives.**  Whatever is done to a cache, at whatever
    times:

    * a look-up finds a value just if that is what the key was set to last, less than the
      lifetime ago, and no operation has discarded it since;
    * a look-up leaves every entry with the time it was set, and setting a key again gives
      it its lifetime anew;
    * a look-up of an entry that has expired drops it, and counts a miss and an expiration;
    * to ask whether a look-up would find something changes nothing. -/
theorem lookup_exact (settings : CacheSettings) (now : Nat) (ops : List (CacheOp α))
    (key : CacheKey) :
    let s₀ : TimedCache α := { now, cache := .ofSettings settings }
    let s := s₀.after ops
    let c := s.cache
    (∀ value, (c.get s.now key).1 = some value ↔
      ∃ before later, ops = before ++ .set key value :: later ∧
        s.now < (s₀.after before).now + settings.ttlMs ∧
        ((CacheOp.set key value).run (s₀.after before)).2.Undisturbed key later) ∧
    (∀ e ∈ (c.get s.now key).2.entries, e ∈ c.entries) ∧
    (∀ value ms, let s' := s.after [.set key value, .advance ms]
      (s'.cache.get s'.now key).1 = if ms < settings.ttlMs then some value else none) ∧
    (∀ e ∈ c.entries, e.key = key → c.expired s.now e = true →
      (c.get s.now key).1 = none ∧
      (c.get s.now key).2.entries = c.entries.filter (·.key ≠ key) ∧
      (c.get s.now key).2.counts =
        { c.counts with misses := c.misses + 1, expirations := c.expirations + 1 }) ∧
    (CacheOp.contains key).run s = (.held (c.get s.now key).1.isSome, s) := by
  intro s₀ s c
  obtain ⟨h, hlimits⟩ : c.Indexed ∧ Cache.SameLimits (.ofSettings settings) c :=
    indexed_after (.ofSettings settings) ops
  have httl : c.ttl = settings.ttlMs := hlimits.2
  refine ⟨?_, ?_, ?_, ?_, ?_⟩
  · intro value
    rw [h.get_eq_some_iff]
    constructor
    · rintro ⟨e, he, rfl, rfl, hlive⟩
      obtain ⟨before, later, hops, htime, hu⟩ :=
        origin_of_mem (.ofSettings settings) rfl ops he
      refine ⟨before, later, hops, ?_, hu⟩
      simp only [Cache.expired, decide_eq_false_iff_not, httl] at hlive
      omega
    · rintro ⟨before, later, rfl, hlt, hu⟩
      obtain ⟨hi, hlimits'⟩ := indexed_after (s := s₀) (.ofSettings settings) before
      have hs : s = (s₀.after before).after (.set key value :: later) := after_append s₀ before _
      have hlt' : s.now < (s₀.after before).now + (s₀.after before).cache.ttl := by
        rw [hlimits'.2]
        exact hlt
      obtain ⟨hkept, hlive⟩ := mem_after_set hi hu (hs ▸ hlt')
      rw [← hs] at hkept hlive
      exact ⟨_, hkept, rfl, rfl, hlive⟩
  · intro e he
    have hop : e ∈ ((CacheOp.get key).run s).2.cache.entries := he
    rcases CacheOp.mem_of_mem_run hop with ⟨hset, -⟩ | ⟨hold, -⟩
    · cases hset
    · exact hold
  · intro value ms s'
    change ((c.set s.now key value).get (s.now + ms) key).1 = _
    rw [Cache.get_set, httl, Nat.add_sub_cancel_left]
  · rintro e he rfl hexpired
    rw [h.get_of_expired he hexpired]
    refine ⟨rfl, Cache.entries_remove c e.key, ?_⟩
    rw [← Cache.counts_remove c e.key]
    rfl
  · rw [← Cache.contains_eq_isSome_get]
    rfl

/-- A result is found after nine milliseconds, though it was looked up in between, and dropped
    after ten. -/
theorem lookup_exact_small :
    let young := small.after [.set ⟨"p", ⟨1⟩⟩ 1, .advance 5, .get ⟨"p", ⟨1⟩⟩, .advance 4]
    let old := small.after [.set ⟨"p", ⟨1⟩⟩ 1, .advance 5, .get ⟨"p", ⟨1⟩⟩, .advance 5]
    (young.cache.get young.now ⟨"p", ⟨1⟩⟩).1 = some 1 ∧
      old.cache.keys = [⟨"p", ⟨1⟩⟩] ∧ (old.cache.get old.now ⟨"p", ⟨1⟩⟩).1 = none ∧
      (old.cache.get old.now ⟨"p", ⟨1⟩⟩).2.counts = ⟨1, 1, 0, 1, 0⟩ := by
  intro young old
  let settings : CacheSettings := { maxSize := 2, ttlMs := 10 }
  have hyoung := (lookup_exact settings 0
    [.set ⟨"p", ⟨1⟩⟩ 1, .advance 5, .get ⟨"p", ⟨1⟩⟩, .advance 4] ⟨"p", ⟨1⟩⟩).1 1
  have hold := (lookup_exact settings 0
    [.set ⟨"p", ⟨1⟩⟩ 1, .advance 5, .get ⟨"p", ⟨1⟩⟩, .advance 5] ⟨"p", ⟨1⟩⟩).2.2.2.1
      ⟨⟨"p", ⟨1⟩⟩, 1, 0⟩ List.mem_cons_self rfl (by decide)
  refine ⟨hyoung.2 ⟨[], _, rfl, by decide, ?_⟩, by decide, hold.1, hold.2.2⟩
  -- the clock and a look-up disturb nothing
  exact ⟨by simp, id, by simp, id, by simp, id, trivial⟩

end TimedCache

end SourceIndex
