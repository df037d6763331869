/-
  The cache of parse results.

  A result is kept under the path of its file and the fingerprint of the content
  that was parsed.  The entries are listed by their last touch, latest first; an
  entry is touched when it is set and when a look-up finds it.  Entries live for
  a fixed time from when they were set.

  * `Cache.get`, `Cache.set`: look up and enter a result.  A full cache first
    gives up the expired entries at the end of the list, then, if it is still
    full, the last entry;
  * `Cache.invalidate`, `Cache.invalidateStale`, `Cache.purgeExpired`,
    `Cache.clear`: drop entries;
  * `CacheOp`, `CacheOp.run`: the operations as data, with a clock, for
    statements about every sequence of them.
-/
import SourceIndex.ContentHash
import SourceIndex.Settings
import SourceIndex.Table

namespace SourceIndex

/-- What a result is kept under. -/
structure CacheKey where
  path : String
  hash : ContentHash
  deriving DecidableEq

/-- The key of a content at a path. -/
def CacheKey.ofContent (path content : String) : CacheKey :=
  ⟨path, ContentHash.ofText content⟩

/-- A result that is kept, with the time it was set. -/
structure CacheEntry (α : Type) where
  key : CacheKey
  value : α
  insertedAt : Nat

/-- The cache: entries by last touch, latest first, an index of the fingerprints
    under each path, limits and counters. -/
structure Cache (α : Type) where
  entries : List (CacheEntry α) := []
  byPath : Table String (List ContentHash) := {}
  maxSize : Nat
  ttl : Nat
  hits : Nat := 0
  misses : Nat := 0
  evictions : Nat := 0
  expirations : Nat := 0
  invalidations : Nat := 0

/-- Counts of what the cache has done. -/
structure CacheStats where
  size : Nat
  hits : Nat
  misses : Nat
  hitRate : Float
  evictions : Nat
  expirations : Nat
  invalidations : Nat

namespace Cache

variable {α : Type}

/-- An empty cache.  It has room for one entry at least. -/
def ofSettings (s : CacheSettings) : Cache α :=
  { maxSize := max s.maxSize 1, ttl := s.ttlMs }

/-- The entry under a key. -/
def find? (c : Cache α) (key : CacheKey) : Option (CacheEntry α) :=
  c.entries.find? (·.key = key)

/-- The number of entries. -/
def size (c : Cache α) : Nat :=
  c.entries.length

/-- Has the entry outlived its time? -/
def expired (c : Cache α) (now : Nat) (e : CacheEntry α) : Bool :=
  c.ttl ≤ now - e.insertedAt

/-! ## Dropping entries -/

/-- The index without a key; a path with no fingerprint left is dropped. -/
def unlist (index : Table String (List ContentHash)) (key : CacheKey) :
    Table String (List ContentHash) :=
  match index.get? key.path with
  | none => index
  | some hashes =>
    let rest := hashes.filter (· ≠ key.hash)
    if rest.isEmpty then index.erase key.path else index.put key.path rest

/-- The index with a key. -/
def enlist (index : Table String (List ContentHash)) (key : CacheKey) :
    Table String (List ContentHash) :=
  let hashes := (index.get? key.path).getD []
  if hashes.contains key.hash then index else index.put key.path (hashes ++ [key.hash])

/-- The cache without the entry under a key. -/
def remove (c : Cache α) (key : CacheKey) : Cache α :=
  match c.find? key with
  | none => c
  | some _ =>
    { c with entries := c.entries.filter (·.key ≠ key), byPath := unlist c.byPath key }

/-- The cache without the entries under some keys. -/
def removeAll (c : Cache α) (keys : List CacheKey) : Cache α :=
  keys.foldl remove c

/-- The cache without the entry that was touched longest ago. -/
def evictLast (c : Cache α) : Cache α :=
  match c.entries.getLast? with
  | none => c
  | some e =>
    { c with
      entries := c.entries.dropLast
      byPath := unlist c.byPath e.key
      evictions := c.evictions + 1 }

/-- The cache without the `n` entries that were touched longest ago. -/
def evict : Nat → Cache α → Cache α
  | 0, c => c
  | n + 1, c => evict n c.evictLast

/-- The expired entries at the end of the list, last first. -/
def staleTail (c : Cache α) (now : Nat) : List (CacheEntry α) :=
  c.entries.reverse.takeWhile (c.expired now)

/-- The cache with room for one more entry. -/
def makeRoom (now : Nat) (c : Cache α) : Cache α :=
  let stale := c.staleTail now
  let c := { c.removeAll (stale.map (·.key)) with expirations := c.expirations + stale.length }
  evict (c.size + 1 - c.maxSize) c

/-! ## Operations -/

/-- Look up the result under a key.  An expired entry is dropped and counts as a
    miss; an entry that is found moves to the front. -/
def get (now : Nat) (key : CacheKey) (c : Cache α) : Option α × Cache α :=
  match c.find? key with
  | none => (none, { c with misses := c.misses + 1 })
  | some e =>
    if c.expired now e then
      (none, { c.remove key with expirations := c.expirations + 1, misses := c.misses + 1 })
    else
      (some e.value,
        { c with entries := e :: c.entries.filter (·.key ≠ key), hits := c.hits + 1 })

/-- Enter a result under a key, in front of all others. -/
def set (now : Nat) (key : CacheKey) (value : α) (c : Cache α) : Cache α :=
  let c := if (c.find? key).isNone && c.maxSize ≤ c.size then c.makeRoom now else c
  { c with
    entries := ⟨key, value, now⟩ :: c.entries.filter (·.key ≠ key)
    byPath := enlist c.byPath key }

/-- Would a look-up find a result under the key? -/
def contains (now : Nat) (key : CacheKey) (c : Cache α) : Bool :=
  match c.find? key with
  | none => false
  | some e => !c.expired now e

/-- Drop every entry under a path; their number. -/
def invalidate (path : String) (c : Cache α) : Nat × Cache α :=
  match c.byPath.get? path with
  | none => (0, c)
  | some hashes =>
    let held := hashes.filter fun h => (c.find? ⟨path, h⟩).isSome
    (held.length,
      { c with
        entries := c.entries.filter fun e => !(e.key.path = path && hashes.contains e.key.hash)
        byPath := c.byPath.erase path
        invalidations := c.invalidations + held.length })

/-- Drop every entry under a path but the one for the fingerprint `kept`; their
    number. -/
def invalidateStale (path : String) (kept : ContentHash) (c : Cache α) : Nat × Cache α :=
  match c.byPath.get? path with
  | none => (0, c)
  | some hashes =>
    let stale := hashes.filter (· ≠ kept)
    (stale.length,
      { c.removeAll (stale.map fun h => ⟨path, h⟩) with
        invalidations := c.invalidations + stale.length })

/-- Drop every expired entry; their number. -/
def purgeExpired (now : Nat) (c : Cache α) : Nat × Cache α :=
  let stale := c.entries.filter (c.expired now)
  (stale.length,
    { c.removeAll (stale.map (·.key)) with expirations := c.expirations + stale.length })

/-- Drop every entry, without counting them. -/
def clear (c : Cache α) : Cache α :=
  { c with entries := [], byPath := {} }

/-- The counts so far.  The hit rate of a cache that was never asked is zero. -/
def stats (c : Cache α) : CacheStats :=
  let lookups := c.hits + c.misses
  { size := c.size
    hits := c.hits
    misses := c.misses
    hitRate := if lookups = 0 then 0.0 else Float.ofNat c.hits / Float.ofNat lookups
    evictions := c.evictions
    expirations := c.expirations
    invalidations := c.invalidations }

end Cache

/-! ## Operations as data -/

/-- An operation on a cache, or the passing of time. -/
inductive CacheOp (α : Type) where
  | set (key : CacheKey) (value : α)
  | get (key : CacheKey)
  | contains (key : CacheKey)
  | invalidate (path : String)
  | invalidateStale (path : String) (kept : ContentHash)
  | purgeExpired
  | clear
  | stats
  | advance (ms : Nat)

/-- What an operation answers. -/
inductive CacheReply (α : Type) where
  | done
  | found (value : Option α)
  | held (yes : Bool)
  | dropped (count : Nat)
  | counts (stats : CacheStats)

/-- A cache at a time. -/
structure TimedCache (α : Type) where
  now : Nat := 0
  cache : Cache α

/-- Carry out an operation. -/
def CacheOp.run {α : Type} (s : TimedCache α) : CacheOp α → CacheReply α × TimedCache α
  | set key value => (.done, { s with cache := s.cache.set s.now key value })
  | get key =>
    let (value, cache) := s.cache.get s.now key
    (.found value, { s with cache })
  | contains key => (.held (s.cache.contains s.now key), s)
  | invalidate path =>
    let (count, cache) := s.cache.invalidate path
    (.dropped count, { s with cache })
  | invalidateStale path kept =>
    let (count, cache) := s.cache.invalidateStale path kept
    (.dropped count, { s with cache })
  | purgeExpired =>
    let (count, cache) := s.cache.purgeExpired s.now
    (.dropped count, { s with cache })
  | clear => (.done, { s with cache := s.cache.clear })
  | stats => (.counts s.cache.stats, s)
  | advance ms => (.done, { s with now := s.now + ms })

end SourceIndex
