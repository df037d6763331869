/-
  How revisions move through the requests of a coordinator.

  * `Request.todo`, `Request.slots`, `Request.ready`: the revisions that a request has
    still to take up, those in preparation, and the files that are ready;
  * `Cache.get_spec`, `Cache.mem_set` and others: what is in a cache was entered;
  * `Coordinator.Flow`: what a step of a request makes of its revisions, and of the pool
    and the cache;
  * `RequestStep.flow`: every step of a request is of this kind.
-/
import SourceIndex.Proofs.Cache
import SourceIndex.Proofs.Orderly

namespace SourceIndex

/-! ## Revisions on their way -/

namespace Request

variable {τ : Type}

/-- The revisions that a request has still to take up. -/
def todo : Request τ → List (String × String)
  | .file path content .arriving => [(path, content)]
  | .batch (.arriving todo _ _) => todo
  | _ => []

/-- The revisions that a request prepares. -/
def slots : Request τ → List Slot
  | .file path content (.preparing stage) => [{ path, content, stage }]
  | .batch (.arriving _ slots _) | .batch (.preparing _ slots _ _) => slots
  | _ => []

/-- The files that a request has ready to be written or committed. -/
def ready : Request τ → List Prepared
  | .file _ _ (.opening f) | .file _ _ (.writing f _) | .file _ _ (.committing f _ _) => [f]
  | .batch (.preparing _ _ ready _) | .batch (.opening _ ready _) => ready
  | .batch (.writing _ _ todo _ _ written _) => written.map (·.1) ++ todo
  | .batch (.committing _ _ written _) => written.map (·.1)
  | _ => []

end Request

/-! ## The cache -/

namespace Cache

variable {α : Type} {c : Cache α} {e : CacheEntry α} {key : CacheKey} {now : Nat}

theorem mem_of_mem_remove (h : e ∈ (c.remove key).entries) : e ∈ c.entries := by
  rw [entries_remove] at h
  exact List.mem_of_mem_filter h

theorem mem_of_mem_removeAll {keys : List CacheKey} (h : e ∈ (c.removeAll keys).entries) :
    e ∈ c.entries := by
  rw [entries_removeAll] at h
  exact List.mem_of_mem_filter h

theorem mem_of_mem_evict {n : Nat} (h : e ∈ (evict n c).entries) : e ∈ c.entries := by
  induction n generalizing c with
  | zero => exact h
  | succ n ih =>
    have hlast := ih h
    unfold evictLast at hlast
    split at hlast
    · exact hlast
    · exact List.dropLast_subset _ hlast

theorem get_spec {c' : Cache α} {value : Option α} (h : c.get now key = (value, c')) :
    (∀ e ∈ c'.entries, e ∈ c.entries) ∧
      ∀ v, value = some v → ∃ e ∈ c.entries, e.key = key ∧ e.value = v := by
  unfold get at h
  split at h
  · cases h
    exact ⟨fun e he => he, fun v hv => by cases hv⟩
  rename_i e hf
  split at h
  · cases h
    exact ⟨fun e he => mem_of_mem_remove he, fun v hv => by cases hv⟩
  · cases h
    have hmem := List.mem_of_find?_eq_some hf
    refine ⟨fun e' he => ?_, fun v hv => ⟨e, hmem, ?_, Option.some.inj hv⟩⟩
    · rcases List.mem_cons.1 he with rfl | he
      · exact hmem
      · exact List.mem_of_mem_filter he
    · simpa using List.find?_some hf

theorem mem_set {value : α} (h : e ∈ (c.set now key value).entries) :
    e = ⟨key, value, now⟩ ∨ e ∈ c.entries := by
  rcases List.mem_cons.1 h with h | h
  · exact Or.inl h
  · refine Or.inr ?_
    have hroom := List.mem_of_mem_filter h
    split at hroom
    · have hkept := mem_of_mem_evict hroom
      exact mem_of_mem_removeAll hkept
    · exact hroom

theorem mem_of_mem_invalidate {path : String} (h : e ∈ (c.invalidate path).2.entries) :
    e ∈ c.entries := by
  unfold invalidate at h
  split at h
  · exact h
  · exact List.mem_of_mem_filter h

end Cache

/-! ## Steps of requests -/

namespace Coordinator

variable {c c' : MemoryCoordinator} {path content : String} {r r' : Request Transaction}
  {σ τ : Type} {e : CacheEntry ParseResult}

/-- A step of a request prepares one of its revisions, or it leaves the pool as it is
    and enters nothing into the cache. -/
inductive Flow (c : MemoryCoordinator) (r : Request Transaction) (c' : MemoryCoordinator)
    (r' : Request Transaction) : Prop where
  | prepare (slot : Slot) (stage : Stage) (hslot : slot ∈ r.slots)
      (h : StageStep c slot.path slot.content slot.stage stage c')
      (todo : ∀ e ∈ r'.todo, e ∈ r.todo)
      (slots : ∀ s ∈ r'.slots, s ∈ r.slots ∨ s = { slot with stage })
      (ready : ∀ f ∈ r'.ready, f ∈ r.ready)
  | move (pool : c'.pool = c.pool) (cache : ∀ e ∈ c'.cache.entries, e ∈ c.cache.entries)
      (todo : ∀ e ∈ r'.todo, e ∈ r.todo)
      (slots : ∀ s ∈ r'.slots, s ∈ r.slots ∨
        s.stage = .fresh ∧ (s.path, s.content) ∈ r.todo)
      (ready : ∀ f ∈ r'.ready, f ∈ r.ready ∨
        ∃ s ∈ r.slots, s.stage = .settled (.ok (.ready f)))

theorem Flow.quiet (hpool : c'.pool = c.pool) (hcache : c'.cache = c.cache) (htodo : r'.todo = [])
    (hslots : r'.slots = []) (hready : ∀ f ∈ r'.ready, f ∈ r.ready) : Flow c r c' r' := by
  refine .move hpool (fun e he => hcache ▸ he) ?_ ?_ fun f hf => Or.inl (hready f hf)
  · rw [htodo]
    exact List.forall_mem_nil _
  · rw [hslots]
    exact List.forall_mem_nil _

theorem Flow.ended (hpool : c'.pool = c.pool) (hcache : c'.cache = c.cache) (htodo : r'.todo = [])
    (hslots : r'.slots = []) (hready : r'.ready = []) : Flow c r c' r' :=
  .quiet hpool hcache htodo hslots (hready ▸ List.forall_mem_nil _)

theorem mem_entries_trim {c : Coordinator σ τ} {file : Prepared}
    (h : e ∈ (c.trim file).cache.entries) : e ∈ c.cache.entries := by
  unfold trim Cache.invalidateStale at h
  dsimp only at h
  split at h
  · exact h
  · exact Cache.mem_of_mem_removeAll h

theorem FileStep.flow {phase phase' : FilePhase Transaction}
    (h : FileStep c path content phase phase' c') :
    Flow c (.file path content phase) c' (.file path content phase') := by
  cases h with
  | leased =>
    refine .move rfl (fun e he => he) (List.forall_mem_nil _) (fun s hs => ?_)
      (List.forall_mem_nil _)
    rw [List.mem_singleton.1 hs]
    exact Or.inr ⟨rfl, List.mem_cons_self⟩
  | @prepared _ stage' _ hs =>
    exact .prepare _ stage' List.mem_cons_self hs (List.forall_mem_nil _)
      (fun s hs => Or.inr (List.mem_singleton.1 hs)) (List.forall_mem_nil _)
  | ready =>
    refine .move rfl (fun e he => he) (List.forall_mem_nil _) (List.forall_mem_nil _)
      fun f hf => ?_
    rw [List.mem_singleton.1 hf]
    exact Or.inr ⟨_, List.mem_cons_self, rfl⟩
  | opened | wrote => exact .quiet rfl rfl rfl rfl fun f hf => hf
  | trimmed =>
    exact .move rfl (fun e he => mem_entries_trim he) (List.forall_mem_nil _)
      (List.forall_mem_nil _) (List.forall_mem_nil _)
  | _ => exact .ended rfl rfl rfl rfl rfl

theorem mem_entries_trims {c : Coordinator σ τ} {written : List (Prepared × Nat)}
    (h : e ∈ (written.foldl (fun c w => c.trim w.1) c).cache.entries) : e ∈ c.cache.entries := by
  induction written generalizing c with
  | nil => exact h
  | cons w written ih => exact mem_entries_trim (ih h)

theorem pool_trims (written : List (Prepared × Nat)) (c : Coordinator σ τ) :
    (written.foldl (fun c w => c.trim w.1) c).pool = c.pool := by
  induction written generalizing c with
  | nil => rfl
  | cons w written ih => exact ih (c.trim w.1)

theorem BatchStep.flow {phase phase' : BatchPhase Transaction} (h : BatchStep c phase phase' c') :
    Flow c (.batch phase) c' (.batch phase') := by
  have hrest : ∀ {before after : List Slot} {slot : Slot}, ∀ s ∈ before ++ after,
      s ∈ before ++ slot :: after :=
    fun s hs => (List.mem_append.1 hs).elim (List.mem_append_left _)
      fun hs => List.mem_append_right _ (List.mem_cons_of_mem _ hs)
  cases h with
  | arrived =>
    exact .move rfl (fun e he => he) (List.forall_mem_nil _) (fun s hs => Or.inl hs)
      (List.forall_mem_nil _)
  | refused =>
    exact .move rfl (fun e he => he) (fun e he => List.mem_cons_of_mem _ he)
      (fun s hs => Or.inl hs) (List.forall_mem_nil _)
  | leased =>
    refine .move rfl (fun e he => he) (fun e he => List.mem_cons_of_mem _ he)
      (fun s hs => ?_) (List.forall_mem_nil _)
    rcases List.mem_append.1 hs with hs | hs
    · exact Or.inl hs
    · rw [List.mem_singleton.1 hs]
      exact Or.inr ⟨rfl, List.mem_cons_self⟩
  | @prepared _ _ _ slot _ _ stage _ hstep =>
    refine .prepare slot stage (List.mem_append_right _ List.mem_cons_self) hstep
      (List.forall_mem_nil _) (fun s hs => ?_) fun f hf => hf
    rcases List.mem_append.1 hs with hs | hs
    · exact Or.inl (List.mem_append_left _ hs)
    rcases List.mem_cons.1 hs with hs | hs
    · exact Or.inr hs
    · exact Or.inl (List.mem_append_right _ (List.mem_cons_of_mem _ hs))
  | failed | skipped =>
    exact .move rfl (fun e he => he) (List.forall_mem_nil _) (fun s hs => Or.inl (hrest s hs))
      fun f hf => Or.inl hf
  | @ready _ _ _ slot _ _ _ hs =>
    refine .move rfl (fun e he => he) (List.forall_mem_nil _)
      (fun s hs => Or.inl (hrest s hs)) fun f hf => ?_
    rcases List.mem_append.1 hf with hf | hf
    · exact Or.inl hf
    · rw [List.mem_singleton.1 hf]
      exact Or.inr ⟨slot, List.mem_append_right _ List.mem_cons_self, hs⟩
  | gathered | opened => exact .quiet rfl rfl rfl rfl fun f hf => hf
  | wroteAll => exact .quiet rfl rfl rfl rfl fun f hf => List.mem_append_left _ hf
  | wrote => exact .quiet rfl rfl rfl rfl fun f hf => by simpa [Request.ready] using hf
  | tookBack =>
    refine .quiet rfl rfl rfl rfl fun f hf => ?_
    exact (List.mem_append.1 hf).elim (List.mem_append_left _)
      fun hf => List.mem_append_right _ (List.mem_cons_of_mem _ hf)
  | @trimmed _ written =>
    exact .move (pool_trims written c) (fun e he => mem_entries_trims he) (List.forall_mem_nil _)
      (List.forall_mem_nil _) (List.forall_mem_nil _)
  | _ => exact .ended rfl rfl rfl rfl rfl

theorem RequestStep.flow (h : RequestStep c r r' c') : Flow c r c' r' := by
  cases h with
  | file h => exact h.flow
  | batch h => exact h.flow

end Coordinator

end SourceIndex
