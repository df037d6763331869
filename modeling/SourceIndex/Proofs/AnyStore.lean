/-
  Runs of a coordinator over any store.

  A run is a list of events: actions of callers, requests and the pool in any order, and
  changes that others make to the store.  Nothing is assumed of the calls of the store.

  * `Event`, `Coordinator.meet`, `Coordinator.after`: what can happen, and the coordinator
    after one event and after many;
  * `RequestStep`: a step of a request for one file or for many;
  * `Change`, `change_of_meet`: what each event makes of a coordinator;
  * `Numbered.follow`: a request from one time to a later one, step by step;
  * `Coordinator.Leasing`: the leases are the paths that requests hold, each held by one
    request.
-/
import Mathlib.Data.List.Induction
import SourceIndex.Proofs.Steps
import SourceIndex.Proofs.Table

namespace SourceIndex

/-- What can happen to a coordinator. -/
inductive Event (σ : Type) where
  | act (action : Coordinator.Action)
  /-- others have changed the store -/
  | shift (store : σ)

/-- The files that an event asks for. -/
def Event.files? {σ : Type} : Event σ → Option (List (String × String))
  | .act (.index path content) => some [(path, content)]
  | .act (.batch files) => some files
  | _ => none

namespace Coordinator

variable {σ τ : Type} {es : List (Event σ)} {r r' : Request τ}

/-- The coordinator after an event, if it is possible now. -/
def meet (c : Coordinator σ τ) : Event σ → Option (Coordinator σ τ)
  | .act action => c.act action
  | .shift store => some { c with store }

/-- The coordinator after events one after another, if each is possible in its turn. -/
def after (c : Coordinator σ τ) : List (Event σ) → Option (Coordinator σ τ)
  | [] => some c
  | e :: es => (c.meet e).bind fun c => c.after es

theorem after_append (c : Coordinator σ τ) (es es' : List (Event σ)) :
    c.after (es ++ es') = (c.after es).bind fun c => c.after es' := by
  induction es generalizing c with
  | nil => rfl
  | cons e es ih =>
    rw [List.cons_append, after, after, Option.bind_assoc]
    exact Option.bind_congr fun c₁ _ => ih c₁

theorem after_singleton (c : Coordinator σ τ) (e : Event σ) : c.after [e] = c.meet e :=
  Option.bind_fun_some _

variable {c c' c₁ : Coordinator σ τ} {e : Event σ}

/-- What every event keeps holds after a run. -/
theorem after_induction {P : Coordinator σ τ → Prop}
    (hmeet : ∀ {c e c'}, P c → meet c e = some c' → P c') (h : c.after es = some c') (hp : P c) :
    P c' := by
  induction es generalizing c with
  | nil => cases h; exact hp
  | cons e es ih =>
    obtain ⟨c₁, h₁, h⟩ := Option.bind_eq_some_iff.1 h
    exact ih h (hmeet hp h₁)

section
variable {backend : Backend σ τ} {settings : Settings} {chunker : Option Chunker} {store : σ}
  {starts : StartPlan} (h : start backend settings chunker store starts = .ok c)
include h

theorem start_eq_ok : ∃ settings' pool, settings.check = .ok settings' ∧
    Pool.start settings'.pool starts = .ok pool ∧
    c = { backend
          settings := settings'
          chunker := chunker.getD (chunkFile settings'.chunking.maxChunkLines)
          pool
          cache := .ofSettings settings'.cache
          store } := by
  unfold start at h
  cases hs : settings.check with
  | error fault => rw [hs] at h; cases h
  | ok settings' =>
    rw [hs] at h
    dsimp only [bind, Except.bind] at h
    cases hp : Pool.start settings'.pool starts with
    | error error => rw [hp] at h; cases h
    | ok pool =>
      rw [hp] at h
      cases h
      exact ⟨settings', pool, rfl, hp, rfl⟩

theorem eq_of_start : c.backend = backend ∧ c.leases = [] ∧ c.requests = {} ∧
    c.lastRequest = 0 ∧ Pool.start c.settings.pool starts = .ok c.pool := by
  obtain ⟨settings', pool, -, hp, rfl⟩ := start_eq_ok h
  exact ⟨rfl, rfl, rfl, rfl, hp⟩

end

/-! ## Steps of requests -/

/-- A step of a request. -/
inductive RequestStep (c : Coordinator σ τ) : Request τ → Request τ → Coordinator σ τ → Prop where
  | file {path content : String} {phase phase' : FilePhase τ} {c' : Coordinator σ τ}
      (h : FileStep c path content phase phase' c') :
      RequestStep c (.file path content phase) (.file path content phase') c'
  | batch {phase phase' : BatchPhase τ} {c' : Coordinator σ τ} (h : BatchStep c phase phase' c') :
      RequestStep c (.batch phase) (.batch phase') c'

/-- The calls of the store, the settings and the requests stay as they are. -/
structure Alike (c c' : Coordinator σ τ) : Prop where
  backend : c'.backend = c.backend
  settings : c'.settings = c.settings
  chunker : c'.chunker = c.chunker
  requests : c'.requests = c.requests
  lastRequest : c'.lastRequest = c.lastRequest

theorem StageStep.alike {path content : String} {stage stage' : Stage}
    (h : StageStep c path content stage stage' c') : Alike c c' := by
  cases h <;> exact ⟨rfl, rfl, rfl, rfl, rfl⟩

theorem trims_eq (written : List (Prepared × Nat)) (c : Coordinator σ τ) :
    ∃ cache, written.foldl (fun c w => c.trim w.1) c = { c with cache } := by
  induction written generalizing c with
  | nil => exact ⟨c.cache, rfl⟩
  | cons w written ih =>
    obtain ⟨cache, he⟩ := ih (c.trim w.1)
    exact ⟨cache, he⟩

theorem RequestStep.alike (h : RequestStep c r r' c') : Alike c c' := by
  cases h with
  | file h =>
    cases h with
    | prepared h => exact h.alike
    | _ => exact ⟨rfl, rfl, rfl, rfl, rfl⟩
  | batch h =>
    cases h with
    | prepared h => exact h.alike
    | @trimmed _ written =>
      obtain ⟨cache, he⟩ := trims_eq written c
      rw [he]
      exact ⟨rfl, rfl, rfl, rfl, rfl⟩
    | _ => exact ⟨rfl, rfl, rfl, rfl, rfl⟩

theorem RequestStep.outcome?_eq_none (h : RequestStep c r r' c') : r.outcome? = none := by
  cases h with
  | file h => cases h <;> rfl
  | batch h => cases h <;> rfl

theorem requestStep_of_turn {t : Turn} (h : c.turn t = some c') :
    ∃ r r' c₁, c.requests.get? t.request = some r ∧ RequestStep c r r' c₁ ∧
      c' = { c₁ with requests := c.requests.put t.request r' } := by
  unfold turn at h
  cases hr : c.requests.get? t.request with
  | none => rw [hr] at h; cases h
  | some r =>
    rw [hr] at h
    cases r with
    | file path content phase =>
      obtain ⟨⟨phase', c₁⟩, hstep, rfl⟩ := Option.map_eq_some_iff.1 h
      have hs : RequestStep c _ _ c₁ := .file (fileStep hstep)
      exact ⟨_, _, c₁, rfl, hs, by rw [← hs.alike.requests]⟩
    | batch phase =>
      obtain ⟨⟨phase', c₁⟩, hstep, rfl⟩ := Option.map_eq_some_iff.1 h
      have hs : RequestStep c _ _ c₁ := .batch (batchStep hstep)
      exact ⟨_, _, c₁, rfl, hs, by rw [← hs.alike.requests]⟩

/-! ## Events -/

/-- What an event makes of a coordinator. -/
inductive Change (c : Coordinator σ τ) : Event σ → Coordinator σ τ → Prop where
  | asked (path content : String) :
      Change c (.act (.index path content)) (c.receive (.ofFile path content)).2
  | askedMany (files : List (String × String)) :
      Change c (.act (.batch files)) (c.receive (.ofFiles files)).2
  | moved {t : Turn} {r r' : Request τ} {c₁ : Coordinator σ τ}
      (hr : c.requests.get? t.request = some r) (h : RequestStep c r r' c₁) :
      Change c (.act (.turn t)) { c₁ with requests := c.requests.put t.request r' }
  | pooled {action : PoolAction} {pool : Pool} (h : c.pool.act action = some pool)
      (hsubmit : ∀ path content, action ≠ .submit path content) (hdrop : action ≠ .drop) :
      Change c (.act (.pool action)) { c with pool }
  | invalidated (path : String) :
      Change c (.act (.invalidate path)) { c with cache := (c.cache.invalidate path).2 }
  | cleared (h : c.pool.isShutDown = true) :
      Change c (.act .clearCache) { c with cache := c.cache.clear }
  | shifted (store : σ) : Change c (.shift store) { c with store }

theorem change_of_pool {action : PoolAction} (h : c.act (.pool action) = some c') :
    Change c (.act (.pool action)) c' := by
  have hmap : (c.pool.act action).map (fun pool => { c with pool }) = some c' ∧
      (∀ path content, action ≠ .submit path content) ∧ action ≠ .drop := by
    cases action with
    | submit | drop => cases h
    | _ => exact ⟨h, by simp, by simp⟩
  obtain ⟨pool, hp, rfl⟩ := Option.map_eq_some_iff.1 hmap.1
  exact .pooled hp hmap.2.1 hmap.2.2

theorem change_of_meet (h : c.meet e = some c') : Change c e c' := by
  cases e with
  | shift store => cases h; exact .shifted store
  | act action =>
    cases action with
    | index path content => cases h; exact .asked path content
    | batch files => cases h; exact .askedMany files
    | turn t =>
      obtain ⟨r, r', c₁, hr, hs, rfl⟩ := requestStep_of_turn h
      exact .moved hr hs
    | pool action => exact change_of_pool h
    | invalidate path => cases h; exact .invalidated path
    | clearCache =>
      obtain ⟨hdown, he⟩ := Option.ite_none_right_eq_some.1 h
      cases he
      exact .cleared hdown

theorem change_of_act {action : Action} (h : c.act action = some c') : Change c (.act action) c' :=
  change_of_meet h

/-- The calls of the store, the settings and the chunker never change. -/
theorem Change.setup (h : Change c e c') :
    c'.backend = c.backend ∧ c'.settings = c.settings ∧ c'.chunker = c.chunker := by
  cases h with
  | moved hr h => exact ⟨h.alike.backend, h.alike.settings, h.alike.chunker⟩
  | _ => exact ⟨rfl, rfl, rfl⟩

theorem setup_after (h : c.after es = some c') :
    c'.backend = c.backend ∧ c'.settings = c.settings ∧ c'.chunker = c.chunker := by
  refine after_induction (P := fun c' => c'.backend = c.backend ∧ c'.settings = c.settings ∧
    c'.chunker = c.chunker) (fun hp hm => ?_) h ⟨rfl, rfl, rfl⟩
  obtain ⟨hb, hs, hc⟩ := (change_of_meet hm).setup
  exact ⟨hb.trans hp.1, hs.trans hp.2.1, hc.trans hp.2.2⟩

theorem Change.received (h : Change c e c') {files : List (String × String)}
    (hfiles : e.files? = some files) :
    ∃ r, c'.requests.get? (c.lastRequest + 1) = some r ∧
      (r = .ofFiles files ∨
        ∃ path content, files = [(path, content)] ∧ r = .ofFile path content) := by
  cases h with
  | asked path content =>
    cases hfiles
    exact ⟨_, Table.get?_put_self _ _ _, Or.inr ⟨path, content, rfl, rfl⟩⟩
  | askedMany files =>
    cases hfiles
    exact ⟨_, Table.get?_put_self _ _ _, Or.inl rfl⟩
  | _ => cases hfiles

/-! ## The numbers of requests -/

/-- Requests have numbers of their own, up to the last one given out. -/
structure Numbered (c : Coordinator σ τ) : Prop where
  nodup : c.requests.keys.Nodup
  le : ∀ id ∈ c.requests.keys, id ≤ c.lastRequest

namespace Numbered

variable {id : RequestId}

theorem start {backend : Backend σ τ} {settings : Settings} {chunker : Option Chunker}
    {store : σ} {starts : StartPlan}
    (h : Coordinator.start backend settings chunker store starts = .ok c) : c.Numbered := by
  obtain ⟨-, -, hr, -, -⟩ := eq_of_start h
  constructor
  · rw [hr]
    exact List.nodup_nil
  · rw [hr]
    exact List.forall_mem_nil _

theorem next_notMem (h : c.Numbered) : c.lastRequest + 1 ∉ c.requests.keys := fun hk =>
  Nat.not_succ_le_self _ (h.le _ hk)

/-- A new request is listed after the others. -/
theorem values_receive (h : c.Numbered) (r : Request τ) :
    (c.receive r).2.requests.values = c.requests.values ++ [r] :=
  Table.values_put_new r h.next_notMem

theorem receive (h : c.Numbered) (r : Request τ) : (c.receive r).2.Numbered where
  nodup := Table.nodup_put h.nodup _ _
  le id hid := by
    rcases Table.mem_keys_put.1 hid with rfl | hid
    · exact Nat.le_refl _
    · exact Nat.le_succ_of_le (h.le id hid)

theorem put (h : c.Numbered) (hr : c.requests.get? id = some r)
    (hlast : c'.lastRequest = c.lastRequest) (r' : Request τ) :
    Numbered { c' with requests := c.requests.put id r' } where
  nodup := Table.nodup_put h.nodup _ _
  le id' hid := by
    rw [hlast]
    rcases Table.mem_keys_put.1 hid with rfl | hid
    · exact h.le _ (Table.mem_keys_iff.2 ⟨r, hr⟩)
    · exact h.le id' hid

theorem change (h : c.Numbered) (hc : Change c e c') : c'.Numbered := by
  cases hc with
  | asked | askedMany => exact h.receive _
  | moved hr hs => exact h.put hr hs.alike.lastRequest _
  | _ => exact ⟨h.nodup, h.le⟩

theorem after (h : c.Numbered) (hrun : c.after es = some c') : c'.Numbered :=
  after_induction (fun hp hm => hp.change (change_of_meet hm)) hrun h

/-- An event is a step of a request, or leaves the request as it is. -/
theorem request (h : c.Numbered) (hc : Change c e c') (hr : c.requests.get? id = some r) :
    (∃ place r' c₁, e = .act (.turn ⟨id, place⟩) ∧ RequestStep c r r' c₁ ∧
      c' = { c₁ with requests := c.requests.put id r' }) ∨
    (∀ place, e ≠ .act (.turn ⟨id, place⟩)) ∧ c'.requests.get? id = some r := by
  have hreceive : ∀ request, (c.receive request).2.requests.get? id = some r := fun request => by
    refine (Table.get?_put _ _ _ _).trans ((if_neg fun he => ?_).trans hr)
    exact h.next_notMem (he ▸ Table.mem_keys_iff.2 ⟨r, hr⟩)
  cases hc with
  | asked | askedMany => exact Or.inr ⟨nofun, hreceive _⟩
  | @moved t r₁ r' c₁ hr₁ hs =>
    by_cases he : t.request = id
    · subst he
      obtain rfl : r₁ = r := Option.some.inj (hr₁.symm.trans hr)
      exact Or.inl ⟨t.place, r', c₁, rfl, hs, rfl⟩
    · refine Or.inr ⟨fun place ht => ?_, (Table.get?_put _ _ _ _).trans ((if_neg he).trans hr)⟩
      cases ht
      exact he rfl
  | _ => exact Or.inr ⟨nofun, hr⟩

/-- What the steps of a request and the time in between keep holds of it after a run,
    where `es` are the events so far. -/
theorem follow (h : c.Numbered) {P : List (Event σ) → Request τ → Prop}
    (hmove : ∀ {es c₁ place r r' c₂}, c.after es = some c₁ → c₁.requests.get? id = some r →
      RequestStep c₁ r r' c₂ → P es r → P (es ++ [.act (.turn ⟨id, place⟩)]) r')
    (hrest : ∀ {es e r}, (∀ place, e ≠ .act (.turn ⟨id, place⟩)) → P es r → P (es ++ [e]) r)
    (hr : c.requests.get? id = some r) (hp : P [] r) (hrun : c.after es = some c') :
    ∃ r', c'.requests.get? id = some r' ∧ P es r' := by
  induction es using List.reverseRecOn generalizing c' with
  | nil => cases hrun; exact ⟨r, hr, hp⟩
  | append_singleton es e ih =>
    rw [after_append] at hrun
    obtain ⟨c₁, h₁, hrun⟩ := Option.bind_eq_some_iff.1 hrun
    rw [after_singleton] at hrun
    obtain ⟨r₁, hr₁, hp₁⟩ := ih h₁
    rcases (h.after h₁).request (change_of_meet hrun) hr₁ with
      ⟨place, r', c₂, rfl, hs, rfl⟩ | ⟨hother, hr'⟩
    · exact ⟨r', Table.get?_put_self _ _ _, hmove h₁ hr₁ hs hp₁⟩
    · exact ⟨r₁, hr', hrest hother hp₁⟩

end Numbered

end Coordinator

/-! ## The leases of requests -/

/-- The paths that a request has leases of. -/
def Request.held {τ : Type} : Request τ → List String
  | .file _ _ .arriving | .file _ _ (.done _) => []
  | .file path _ _ => [path]
  | .batch (.arriving _ slots _) => slots.map (·.path)
  | .batch (.preparing held _ _ _) | .batch (.opening held _ _)
  | .batch (.writing held _ _ _ _ _ _) | .batch (.undoing held _ _)
  | .batch (.committing held _ _ _) | .batch (.trimming held _ _)
  | .batch (.closing held _) => held
  | .batch (.done _) => []

namespace Coordinator

variable {σ τ : Type} {c c' : Coordinator σ τ} {r : Request τ}

/-- The leases are the paths that requests hold, each held once. -/
structure Leasing (c : Coordinator σ τ) : Prop extends Numbered c where
  leases_nodup : c.leases.Nodup
  leases : c.leases.Perm (c.requests.values.flatMap Request.held)

namespace Leasing

variable {id : RequestId} {r' : Request τ} {path : String}

theorem start {backend : Backend σ τ} {settings : Settings} {chunker : Option Chunker}
    {store : σ} {starts : StartPlan}
    (h : Coordinator.start backend settings chunker store starts = .ok c) : c.Leasing := by
  obtain ⟨-, hleases, hrequests, -, -⟩ := eq_of_start h
  refine ⟨Numbered.start h, ?_, ?_⟩
  · rw [hleases]
    exact List.nodup_nil
  · rw [hleases, hrequests]
    exact List.Perm.refl _

/-- The other requests, and the paths that they hold. -/
theorem others (h : c.Leasing) (hr : c.requests.get? id = some r) :
    ∃ others, (∀ r', (c.requests.put id r').values.Perm (r' :: others)) ∧
      c.requests.values.Perm (r :: others) ∧
      c.leases.Perm (r.held ++ others.flatMap Request.held) ∧
      (∀ r' ∈ others, r' ∈ c.requests.values) ∧
      ∀ {id' r'}, id' ≠ id → c.requests.get? id' = some r' → r' ∈ others := by
  obtain ⟨l₁, l₂, hv, hput, hothers⟩ := Table.exists_values_split hr
  have hperm : c.requests.values.Perm (r :: (l₁ ++ l₂)) := hv ▸ List.perm_middle
  refine ⟨l₁ ++ l₂, fun r' => hput r' ▸ List.perm_middle, hperm, ?_, fun r' hr' => ?_, hothers⟩
  · exact h.leases.trans (hperm.flatMap_right _)
  · exact hperm.mem_iff.2 (List.mem_cons_of_mem _ hr')

theorem held_nodup (h : c.Leasing) (hr : c.requests.get? id = some r) : r.held.Nodup := by
  obtain ⟨others, -, -, hl, -⟩ := h.others hr
  exact (List.nodup_append.1 (hl.nodup_iff.1 h.leases_nodup)).1

/-- No other request holds a path that a request holds. -/
theorem disjoint (h : c.Leasing) {id' : RequestId} (hr : c.requests.get? id = some r)
    (hr' : c.requests.get? id' = some r') (hne : id' ≠ id) (hp : path ∈ r.held) :
    path ∉ r'.held := fun hp' => by
  obtain ⟨others, -, -, hl, -, hothers⟩ := h.others hr
  have hapart := (List.nodup_append.1 (hl.nodup_iff.1 h.leases_nodup)).2.2
  exact hapart path hp path (List.mem_flatMap.2 ⟨r', hothers hne hr', hp'⟩) rfl

theorem mem_leases (h : c.Leasing) :
    path ∈ c.leases ↔ ∃ id r, c.requests.get? id = some r ∧ path ∈ r.held := by
  rw [h.leases.mem_iff, List.mem_flatMap]
  constructor
  · rintro ⟨r, hr, hp⟩
    obtain ⟨id, hid⟩ := Table.exists_get?_of_mem_values h.nodup hr
    exact ⟨id, r, hid, hp⟩
  · rintro ⟨id, r, hr, hp⟩
    exact ⟨r, Table.mem_values_of_get? hr, hp⟩

theorem receive (h : c.Leasing) (hheld : r.held = []) : (c.receive r).2.Leasing := by
  refine { h with toNumbered := h.toNumbered.receive r, leases := ?_ }
  rw [h.values_receive, List.flatMap_append, List.flatMap_singleton, hheld, List.append_nil]
  exact h.leases

/-- A step of a request, where the others keep the paths that they hold. -/
theorem put (h : c.Leasing) (hr : c.requests.get? id = some r)
    (hlast : c'.lastRequest = c.lastRequest)
    (hl : ∀ {others : List String}, c.leases.Perm (r.held ++ others) →
      c'.leases.Nodup ∧ c'.leases.Perm (r'.held ++ others)) :
    Leasing { c' with requests := c.requests.put id r' } := by
  obtain ⟨others, hput, -, hold, -⟩ := h.others hr
  obtain ⟨hnodup, hnew⟩ := hl hold
  exact ⟨h.toNumbered.put hr hlast r', hnodup, hnew.trans ((hput r').flatMap_right _).symm⟩

end Leasing

end Coordinator

end SourceIndex
