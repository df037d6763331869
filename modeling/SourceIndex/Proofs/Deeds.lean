/-
  What requests do to have files parsed, over any store.

  * `Deed`: a submission, the outcome of one, or the entry of a parse result into the cache;
  * `Coordinator.deed?`, `Coordinator.deeds`: what an event and what a run of a coordinator
    does, with the request and the file that it is done for;
  * `Deals`, `deals_of_turn`: what a step of a request makes of its files, and of the pool and
    the cache;
  * `Enacts`, `enacts_of_meet`: what is said to be done to the pool and the cache is what
    happens to them;
  * `Request.concerns`, `Exclusive.concerns_nodup`: a request deals with a path once.
-/
import SourceIndex.Proofs.Reports

namespace SourceIndex

variable {σ τ : Type}

/-- Something that a request does to have a file parsed. -/
inductive Deed where
  /-- it submits the file, and the pool takes it or not -/
  | submitted (taken : Except PoolError TaskId)
  /-- it learns the outcome of a submission -/
  | answered (outcome : TaskResult)
  /-- it enters the parse result into the cache -/
  | entered (result : ParseResult)

/-- The file has to be submitted, is with the pool or has come back from it. -/
def Stage.isParsing : Stage → Bool
  | .submitting _ _ | .awaiting _ _ _ | .parsed _ _ _ => true
  | _ => false

namespace Request

/-- The file that is prepared further when it is the turn of a request. -/
def moving? (place : Nat) : Request τ → Option Slot
  | .file path content (.preparing stage) => some { path, content, stage }
  | .batch (.preparing _ slots _ _) => slots[place]?
  | _ => none

/-- The files that a request has prepared and not reported yet. -/
def finished : Request τ → List Prepared
  | .file _ _ (.opening f) | .file _ _ (.writing f _) | .file _ _ (.committing f _ _)
  | .file _ _ (.undoing f _ _) | .file _ _ (.trimming f _) => [f]
  | .batch (.preparing _ _ ready _) | .batch (.opening _ ready _) => ready
  | .batch (.writing _ _ todo _ _ written _) => todo ++ written.map (·.1)
  | .batch (.committing _ _ written _) | .batch (.trimming _ written _) => written.map (·.1)
  | _ => []

/-- The successes that a request has reported so far. -/
def told : Request τ → List FileReport
  | .file _ _ (.closing (.ok report)) | .file _ _ (.done (.ok report)) => [report]
  | .batch phase => phase.report.succeeded
  | _ => []

end Request

namespace Coordinator

/-- What the next step in preparing a file does to have it parsed. -/
def deedOf (c : Coordinator σ τ) (slot : Slot) : Option Deed :=
  match slot.stage with
  | .submitting _ _ => some (.submitted ((c.pool.submit slot.path slot.content).map Prod.fst))
  | .awaiting _ _ ticket => (c.pool.outcome? ticket).map .answered
  | .parsed _ _ result => some (.entered result)
  | _ => none

/-- What an event does to have a file parsed, and for which request and file. -/
def deed? (c : Coordinator σ τ) : Event σ → Option (RequestId × Slot × Deed)
  | .act (.turn t) =>
    ((c.requests.get? t.request).bind (·.moving? t.place)).bind fun slot =>
      (c.deedOf slot).map fun deed => (t.request, slot, deed)
  | _ => none

/-- What events do to have files parsed. -/
def deeds (c : Coordinator σ τ) : List (Event σ) → List (RequestId × Slot × Deed)
  | [] => []
  | e :: es => (c.deed? e).toList ++ ((c.meet e).map fun c => c.deeds es).getD []

/-- What a request does to have a path parsed. -/
def deedsFor (c : Coordinator σ τ) (id : RequestId) (path : String) (es : List (Event σ)) :
    List Deed :=
  ((c.deeds es).filter fun d => d.1 = id ∧ d.2.1.path = path).map (·.2.2)

variable {c c' c₁ : Coordinator σ τ} {r r' : Request τ} {e : Event σ} {es : List (Event σ)}
  {place : Nat} {slot : Slot} {id : RequestId} {path : String} {slots : List Slot}
  {phase' : BatchPhase τ} {t : Turn}

/-- Only the turn of a request does something to have a file parsed, and the file is the one
    that moves. -/
theorem deed?_eq_some {d : RequestId × Slot × Deed} :
    c.deed? e = some d ↔ ∃ place r, e = .act (.turn ⟨d.1, place⟩) ∧
      c.requests.get? d.1 = some r ∧ r.moving? place = some d.2.1 ∧
      c.deedOf d.2.1 = some d.2.2 := by
  constructor
  · intro h
    unfold deed? at h
    split at h
    · rename_i t
      obtain ⟨slot, hslot, h⟩ := Option.bind_eq_some_iff.1 h
      obtain ⟨r, hr, hslot⟩ := Option.bind_eq_some_iff.1 hslot
      obtain ⟨deed, hdeed, rfl⟩ := Option.map_eq_some_iff.1 h
      exact ⟨t.place, r, rfl, hr, hslot, hdeed⟩
    · cases h
  · rintro ⟨place, r, rfl, hr, hslot, hdeed⟩
    simp [deed?, hr, hslot, hdeed]

theorem deeds_append (h : c.after es = some c₁) (es' : List (Event σ)) :
    c.deeds (es ++ es') = c.deeds es ++ c₁.deeds es' := by
  induction es generalizing c with
  | nil => cases h; rfl
  | cons e es ih =>
    obtain ⟨c₂, h₂, h⟩ := Option.bind_eq_some_iff.1 h
    rw [List.cons_append, deeds, deeds, h₂, Option.map_some, Option.map_some, Option.getD_some,
      Option.getD_some, ih h, List.append_assoc]

theorem deeds_singleton (c : Coordinator σ τ) (e : Event σ) :
    c.deeds [e] = (c.deed? e).toList := by
  rw [deeds]
  cases c.meet e <;> simp [deeds]

theorem deeds_snoc (h : c.after es = some c₁) (e : Event σ) :
    c.deeds (es ++ [e]) = c.deeds es ++ (c₁.deed? e).toList := by
  rw [deeds_append h, deeds_singleton]

/-- An event that does nothing for a request and a path adds nothing to what was done. -/
theorem deedsFor_snoc_of_ne (h : c.after es = some c₁)
    (hne : ∀ d, c₁.deed? e = some d → ¬(d.1 = id ∧ d.2.1.path = path)) :
    c.deedsFor id path (es ++ [e]) = c.deedsFor id path es := by
  rw [deedsFor, deedsFor, deeds_snoc h, List.filter_append, List.map_append]
  cases hd : c₁.deed? e with
  | none => simp
  | some d => simp [hne d hd]

theorem deedsFor_snoc_self (h : c.after es = some c₁) {deed : Deed}
    (hd : c₁.deed? e = some (id, slot, deed)) :
    c.deedsFor id slot.path (es ++ [e]) = c.deedsFor id slot.path es ++ [deed] := by
  rw [deedsFor, deedsFor, deeds_snoc h, List.filter_append, List.map_append, hd]
  simp

/-! ## Steps -/

/-- What a request is said to do to have a file parsed is what happens to the pool and the
    cache. -/
inductive Enacts (c : Coordinator σ τ) (slot : Slot) (c' : Coordinator σ τ) : Deed → Prop where
  | taken {ticket : TaskId} (h : c.pool.submit slot.path slot.content = .ok (ticket, c'.pool))
      (cache : c'.cache = c.cache) : Enacts c slot c' (.submitted (.ok ticket))
  | refused {error : PoolError} (h : c.pool.submit slot.path slot.content = .error error)
      (pool : c'.pool = c.pool) (cache : c'.cache = c.cache) :
      Enacts c slot c' (.submitted (.error error))
  | answered {ticket : TaskId} {outcome : TaskResult} (ht : slot.stage.ticket? = some ticket)
      (h : c.pool.outcome? ticket = some outcome) (pool : c'.pool = c.pool)
      (cache : c'.cache = c.cache) : Enacts c slot c' (.answered outcome)
  | entered {result : ParseResult} (pool : c'.pool = c.pool)
      (cache : c'.cache = c.cache.set c.now (.ofContent slot.path slot.content) result) :
      Enacts c slot c' (.entered result)

/-- The pool has nothing new to parse, and the cache has no new entries. -/
def AddsNothing (c c' : Coordinator σ τ) : Prop :=
  c'.pool = c.pool ∧ ∀ e ∈ c'.cache.entries, e ∈ c.cache.entries

theorem AddsNothing.of_eq (pool : c'.pool = c.pool) (cache : c'.cache = c.cache) :
    c.AddsNothing c' :=
  ⟨pool, fun _ he => cache ▸ he⟩

theorem StageStep.enacts {stage : Stage}
    (h : StageStep c slot.path slot.content slot.stage stage c') :
    (∃ deed, c.deedOf slot = some deed ∧ Enacts c slot c' deed) ∨
      c.deedOf slot = none ∧ c.AddsNothing c' := by
  obtain ⟨path, content, stage₀⟩ := slot
  dsimp only at h
  cases h with
  | cached _ hget | uncached _ hget => exact Or.inr ⟨rfl, rfl, (Cache.get_spec hget).1⟩
  | refused h =>
    refine Or.inl ⟨_, rfl, ?_⟩
    rw [h]
    exact .refused h rfl rfl
  | submitted h =>
    refine Or.inl ⟨_, rfl, ?_⟩
    rw [h]
    exact .taken h rfl
  | parsed h | retried h | gaveUp h =>
    exact Or.inl ⟨_, congrArg (Option.map Deed.answered) h, .answered rfl h rfl rfl⟩
  | stored => exact Or.inl ⟨_, rfl, .entered rfl rfl⟩
  | _ => exact Or.inr ⟨rfl, rfl, fun e he => he⟩

/-- What a step of a request makes of its files: it prepares one of them further, or it does
    nothing to have a file parsed and only passes on what is there. -/
inductive Deals (c : Coordinator σ τ) (place : Nat) (r r' : Request τ) (c' : Coordinator σ τ) :
    Prop where
  | prepared {before after : List Slot} {slot : Slot} {stage : Stage}
      (moving : r.moving? place = some slot)
      (step : StageStep c slot.path slot.content slot.stage stage c')
      (todo : r'.todo = []) (slots : r.slots = before ++ slot :: after)
      (slots' : r'.slots = before ++ { slot with stage } :: after)
      (finished : r'.finished = r.finished) (told : r'.told = r.told)
      (errors : r'.errors = r.errors)
  | passed (idle : ∀ slot, r.moving? place = some slot → c.deedOf slot = none)
      (nothing : c.AddsNothing c') (todo : ∀ e ∈ r'.todo, e ∈ r.todo)
      (slots : ∀ s ∈ r'.slots, s ∈ r.slots ∨ s.stage = .fresh ∧ (s.path, s.content) ∈ r.todo)
      (finished : ∀ f ∈ r'.finished, f ∈ r.finished ∨
        ∃ s ∈ r.slots, s.stage = .settled (.ok (.ready f)))
      (told : ∀ x ∈ r'.told, x ∈ r.told ∨
        (∃ s ∈ r.slots, s.stage = .settled (.ok (.skipped x))) ∨
        ∃ f ∈ r.finished, ∃ n, x = f.report n)
      (errors : ∀ e ∈ r'.errors, e ∈ r.errors ∨
        (∃ s ∈ r.slots, s.stage = .settled (.error e)) ∨ (∃ path, e = .pathBusy path) ∨
        ∃ f ∈ r.finished, ∃ fault, e = f.writeFailure fault)

theorem Deals.later (moving : r.moving? place = none) (nothing : c.AddsNothing c')
    (todo : r'.todo = []) (slots : r'.slots = []) (finished : ∀ f ∈ r'.finished, f ∈ r.finished)
    (told : ∀ x ∈ r'.told, x ∈ r.told ∨ ∃ f ∈ r.finished, ∃ n, x = f.report n)
    (errors : ∀ e ∈ r'.errors, e ∈ r.errors ∨ ∃ f ∈ r.finished, ∃ fault, e = f.writeFailure fault) :
    Deals c place r r' c' := by
  refine .passed ?_ nothing ?_ ?_ (fun f hf => Or.inl (finished f hf))
    (fun x hx => (told x hx).imp_right Or.inr)
    fun e he => (errors e he).imp_right fun h => Or.inr (Or.inr h)
  · rw [moving]
    intro _ hm
    cases hm
  · rw [todo]
    exact List.forall_mem_nil _
  · rw [slots]
    exact List.forall_mem_nil _

theorem FileStep.deals {content : String} {phase phase' : FilePhase τ}
    (h : FileStep c path content phase phase' c') (place : Nat) :
    Deals c place (.file path content phase) (.file path content phase') c' := by
  have hsettled : ∀ {outcome} slot, (Request.file path content
      (.preparing (.settled outcome)) : Request τ).moving? place = some slot →
        c.deedOf slot = none := by
    intro outcome slot hslot
    cases hslot
    rfl
  cases h with
  | refused =>
    refine .passed (fun _ hm => by cases hm) (.of_eq rfl rfl) (List.forall_mem_nil _)
      (List.forall_mem_nil _) (List.forall_mem_nil _) (List.forall_mem_nil _)
      (List.forall_mem_singleton.2 ?_)
    exact Or.inr (Or.inr (Or.inl ⟨path, rfl⟩))
  | leased =>
    refine .passed (fun _ hm => by cases hm) (.of_eq rfl rfl) (List.forall_mem_nil _)
      (List.forall_mem_singleton.2 ?_) (List.forall_mem_nil _) (List.forall_mem_nil _)
      (List.forall_mem_nil _)
    exact Or.inr ⟨rfl, List.mem_cons_self⟩
  | prepared h =>
    exact .prepared rfl h rfl (List.nil_append [_]).symm (List.nil_append [_]).symm rfl rfl rfl
  | failed =>
    refine .passed hsettled (.of_eq rfl rfl) (List.forall_mem_nil _) (List.forall_mem_nil _)
      (List.forall_mem_nil _) (List.forall_mem_nil _) (List.forall_mem_singleton.2 ?_)
    exact Or.inr (Or.inl ⟨_, List.mem_cons_self, rfl⟩)
  | skipped =>
    refine .passed hsettled (.of_eq rfl rfl) (List.forall_mem_nil _) (List.forall_mem_nil _)
      (List.forall_mem_nil _) (List.forall_mem_singleton.2 ?_) (List.forall_mem_nil _)
    exact Or.inr (Or.inl ⟨_, List.mem_cons_self, rfl⟩)
  | ready =>
    refine .passed hsettled (.of_eq rfl rfl) (List.forall_mem_nil _) (List.forall_mem_nil _)
      (List.forall_mem_singleton.2 ?_) (List.forall_mem_nil _) (List.forall_mem_nil _)
    exact Or.inr ⟨_, List.mem_cons_self, rfl⟩
  | unopened | uncommitted | undone =>
    refine .later rfl (.of_eq rfl rfl) rfl rfl (List.forall_mem_nil _) (List.forall_mem_nil _)
      (List.forall_mem_singleton.2 ?_)
    exact Or.inr ⟨_, List.mem_cons_self, _, rfl⟩
  | opened | unwritten | wrote | committed =>
    exact .later rfl (.of_eq rfl rfl) rfl rfl (fun f hf => hf) (List.forall_mem_nil _)
      (List.forall_mem_nil _)
  | trimmed =>
    refine .later rfl ⟨rfl, fun e he => mem_entries_trim he⟩ rfl rfl (List.forall_mem_nil _)
      (List.forall_mem_singleton.2 ?_) (List.forall_mem_nil _)
    exact Or.inr ⟨_, List.mem_cons_self, _, rfl⟩
  | @closed outcome =>
    cases outcome <;> exact .later rfl (.of_eq rfl rfl) rfl rfl (List.forall_mem_nil _)
      (fun x hx => Or.inl hx) fun e he => Or.inl he

theorem getElem?_of_pick {before after : List Slot}
    (h : pick slots place = some (before, slot, after)) : slots[place]? = some slot := by
  unfold pick at h
  split at h
  · cases h
  · rename_i hd
    cases h
    rw [← List.head?_drop, hd]
    rfl

/-- A step of a batch in which a file is the next to move. -/
theorem deals_of_slot {held : List String} {ready : List Prepared} {report : BatchReport}
    (hs : slots ≠ [])
    (h : c.turnBatch place (.preparing held slots ready report) = some (phase', c')) :
    Deals c place (.batch (.preparing held slots ready report)) (.batch phase') c' := by
  rw [turnBatch] at h
  · cases hp : pick slots place with
    | none => rw [hp] at h; cases h
    | some found =>
      obtain ⟨before, slot, after⟩ := found
      rw [hp] at h
      have hget := getElem?_of_pick hp
      obtain rfl := pick_eq_some hp
      have hslot : slot ∈ before ++ slot :: after :=
        List.mem_append_right _ List.mem_cons_self
      have hrest : ∀ s ∈ before ++ after, s ∈ before ++ slot :: after := fun s hs =>
        (List.mem_append.1 hs).elim (List.mem_append_left _)
          fun hs => List.mem_append_right _ (List.mem_cons_of_mem _ hs)
      dsimp only at h
      cases hst : slot.stage with
      | settled outcome =>
        have hidle : ∀ s, (before ++ slot :: after)[place]? = some s → c.deedOf s = none := by
          intro s hs
          obtain rfl : slot = s := Option.some.inj (hget.symm.trans hs)
          rw [deedOf, hst]
        rw [hst] at h
        rcases outcome with error | file | file
        · cases h
          refine .passed hidle (.of_eq rfl rfl) (List.forall_mem_nil _)
            (fun s hs => Or.inl (hrest s hs)) (fun f hf => Or.inl hf) (fun x hx => Or.inl hx)
            (List.forall_mem_append.2 ⟨fun e he => Or.inl he, List.forall_mem_singleton.2 ?_⟩)
          exact Or.inr (Or.inl ⟨slot, hslot, hst⟩)
        · cases h
          refine .passed hidle (.of_eq rfl rfl) (List.forall_mem_nil _)
            (fun s hs => Or.inl (hrest s hs)) (fun f hf => Or.inl hf)
            (List.forall_mem_append.2 ⟨fun x hx => Or.inl hx, List.forall_mem_singleton.2 ?_⟩)
            fun e he => Or.inl he
          exact Or.inr (Or.inl ⟨slot, hslot, hst⟩)
        · cases h
          refine .passed hidle (.of_eq rfl rfl) (List.forall_mem_nil _)
            (fun s hs => Or.inl (hrest s hs))
            (List.forall_mem_append.2 ⟨fun f hf => Or.inl hf, List.forall_mem_singleton.2 ?_⟩)
            (fun x hx => Or.inl hx) fun e he => Or.inl he
          exact Or.inr ⟨slot, hslot, hst⟩
      | _ =>
        rw [hst] at h
        obtain ⟨⟨stage', c₁⟩, hp, he⟩ := Option.map_eq_some_iff.1 h
        cases he
        rw [← hst] at hp
        exact .prepared hget (stageStep hp) rfl rfl rfl rfl rfl rfl
  · exact hs

theorem deals_of_turnBatch {phase : BatchPhase τ}
    (h : c.turnBatch place phase = some (phase', c')) :
    Deals c place (.batch phase) (.batch phase') c' := by
  have hfailed : ∀ {errors : List IndexError} {files : List Prepared} (new : List Prepared) (fault),
      (∀ f ∈ new, f ∈ files) → ∀ e ∈ errors ++ new.map (·.writeFailure fault),
        e ∈ errors ∨ ∃ f ∈ files, ∃ fault, e = f.writeFailure fault := by
    intro errors files new fault hnew e he
    rcases List.mem_append.1 he with he | he
    · exact Or.inl he
    · obtain ⟨f, hf, rfl⟩ := List.mem_map.1 he
      exact Or.inr ⟨f, hnew f hf, fault, rfl⟩
  cases batchStep h with
  | arrived =>
    exact .passed (fun _ hm => by cases hm) (.of_eq rfl rfl) (List.forall_mem_nil _)
      (fun s hs => Or.inl hs) (List.forall_mem_nil _) (fun x hx => Or.inl hx) fun e he => Or.inl he
  | @refused path =>
    refine .passed (fun _ hm => by cases hm) (.of_eq rfl rfl)
      (fun e he => List.mem_cons_of_mem _ he) (fun s hs => Or.inl hs) (List.forall_mem_nil _)
      (fun x hx => Or.inl hx)
      (List.forall_mem_append.2 ⟨fun e he => Or.inl he, List.forall_mem_singleton.2 ?_⟩)
    exact Or.inr (Or.inr (Or.inl ⟨path, rfl⟩))
  | leased =>
    refine .passed (fun _ hm => by cases hm) (.of_eq rfl rfl)
      (fun e he => List.mem_cons_of_mem _ he)
      (List.forall_mem_append.2 ⟨fun s hs => Or.inl hs, List.forall_mem_singleton.2 ?_⟩)
      (List.forall_mem_nil _) (fun x hx => Or.inl hx) fun e he => Or.inl he
    exact Or.inr ⟨rfl, List.mem_cons_self⟩
  | prepared | failed | skipped | ready => exact deals_of_slot (by simp) h
  | @unopened _ ready =>
    exact .later rfl (.of_eq rfl rfl) rfl rfl (List.forall_mem_nil _) (fun x hx => Or.inl hx)
      (hfailed ready _ fun f hf => hf)
  | wrote =>
    refine .later rfl (.of_eq rfl rfl) rfl rfl (fun f hf => ?_) (fun x hx => Or.inl hx)
      fun e he => Or.inl he
    simp only [Request.finished, List.map_append, List.map_cons, List.map_nil, List.mem_append,
      List.mem_cons, List.not_mem_nil, or_false] at hf ⊢
    rcases hf with hf | hf | rfl
    · exact Or.inl (Or.inr hf)
    · exact Or.inr hf
    · exact Or.inl (Or.inl rfl)
  | @tookBack _ _ file _ _ _ _ _ _ _ _ fault =>
    exact .later rfl (.of_eq rfl rfl) rfl rfl (fun f hf => List.mem_cons_of_mem _ hf)
      (fun x hx => Or.inl hx)
      (hfailed [file] fault (List.forall_mem_singleton.2 List.mem_cons_self))
  | @gaveUp _ _ file rest _ _ _ written _ _ _ _ fault =>
    refine .later rfl (.of_eq rfl rfl) rfl rfl (List.forall_mem_nil _) (fun x hx => Or.inl hx)
      (List.forall_mem_append.2 ⟨fun e he => Or.inl he,
        List.forall_mem_cons.2 ⟨?_, fun e he => ?_⟩⟩)
    · exact Or.inr ⟨file, List.mem_cons_self, fault, rfl⟩
    · obtain ⟨f, hf, rfl⟩ := List.mem_map.1 he
      refine Or.inr ⟨f, ?_, _, rfl⟩
      rcases List.mem_append.1 hf with hf | hf
      · exact List.mem_append_right _ hf
      · exact List.mem_append_left _ (List.mem_cons_of_mem _ hf)
  | @uncommitted _ _ written report fault =>
    refine .later rfl (.of_eq rfl rfl) rfl rfl (List.forall_mem_nil _) (fun x hx => Or.inl hx)
      fun e he => ?_
    refine hfailed (written.map (·.1)) (.storage fault.message) (fun f hf => hf) e ?_
    rw [List.map_map]
    exact he
  | @trimmed _ written =>
    refine .later rfl ⟨pool_trims written c, fun e he => mem_entries_trims he⟩ rfl rfl
      (List.forall_mem_nil _)
      (List.forall_mem_append.2 ⟨fun x hx => Or.inl hx, fun x hx => ?_⟩) fun e he => Or.inl he
    obtain ⟨w, hw, rfl⟩ := List.mem_map.1 hx
    exact Or.inr ⟨w.1, List.mem_map_of_mem hw, w.2, rfl⟩
  | nothing | undone | closed =>
    exact .later rfl (.of_eq rfl rfl) rfl rfl (List.forall_mem_nil _) (fun x hx => Or.inl hx)
      fun e he => Or.inl he
  | gathered | wroteAll | committed =>
    exact .later rfl (.of_eq rfl rfl) rfl rfl (fun f hf => hf) (fun x hx => Or.inl hx)
      fun e he => Or.inl he
  | opened =>
    exact .later rfl (.of_eq rfl rfl) rfl rfl
      (List.forall_mem_append.2 ⟨fun f hf => hf, List.forall_mem_nil _⟩) (fun x hx => Or.inl hx)
      fun e he => Or.inl he

theorem deals_of_turn (h : c.turn t = some c') :
    ∃ r r' c₁, c.requests.get? t.request = some r ∧ RequestStep c r r' c₁ ∧
      Deals c t.place r r' c₁ ∧ c' = { c₁ with requests := c.requests.put t.request r' } := by
  unfold turn at h
  cases hr : c.requests.get? t.request with
  | none => rw [hr] at h; cases h
  | some r =>
    rw [hr] at h
    cases r with
    | file path content phase =>
      obtain ⟨⟨phase', c₁⟩, hstep, rfl⟩ := Option.map_eq_some_iff.1 h
      have hs : RequestStep c _ _ c₁ := .file (fileStep hstep)
      exact ⟨_, _, c₁, rfl, hs, (fileStep hstep).deals _, by rw [← hs.alike.requests]⟩
    | batch phase =>
      obtain ⟨⟨phase', c₁⟩, hstep, rfl⟩ := Option.map_eq_some_iff.1 h
      have hs : RequestStep c _ _ c₁ := .batch (batchStep hstep)
      exact ⟨_, _, c₁, rfl, hs, deals_of_turnBatch hstep, by rw [← hs.alike.requests]⟩

theorem enacts_of_turn (h : c.turn t = some c') :
    (∀ d, c.deed? (.act (.turn t)) = some d → Enacts c d.2.1 c' d.2.2) ∧
      (c.deed? (.act (.turn t)) = none → c.AddsNothing c') := by
  obtain ⟨r, r', c₁, hr, -, hdeals, rfl⟩ := deals_of_turn h
  have hdeed : c.deed? (.act (.turn t)) = (r.moving? t.place).bind fun slot =>
      (c.deedOf slot).map fun deed => (t.request, slot, deed) := by
    rw [deed?, hr, Option.bind_some]
  rw [hdeed]
  cases hdeals with
  | @prepared _ _ slot _ moving step =>
    rw [moving, Option.bind_some]
    rcases step.enacts with ⟨deed, hd, henacts⟩ | ⟨hd, hnothing⟩
    · rw [hd]
      refine ⟨fun d hd => ?_, fun hd => by cases hd⟩
      cases hd
      cases henacts with
      | taken h cache => exact .taken h cache
      | refused h pool cache => exact .refused h pool cache
      | answered ht h pool cache => exact .answered ht h pool cache
      | entered pool cache => exact .entered pool cache
    · rw [hd]
      refine ⟨fun d hd => ?_, fun _ => ⟨hnothing.1, hnothing.2⟩⟩
      cases hd
  | passed idle nothing =>
    have hnone : ((r.moving? t.place).bind fun slot =>
        (c.deedOf slot).map fun deed => (t.request, slot, deed)) = none := by
      cases hm : r.moving? t.place with
      | none => rfl
      | some slot => rw [Option.bind_some, idle slot hm]; rfl
    rw [hnone]
    refine ⟨fun d hd => ?_, fun _ => ⟨nothing.1, nothing.2⟩⟩
    cases hd

/-- **Events do what they are said to do** to have files parsed, and nothing else is handed to
    the pool by a request or entered into the cache. -/
theorem enacts_of_meet (h : c.meet e = some c') :
    (∀ d, c.deed? e = some d → Enacts c d.2.1 c' d.2.2) ∧
      (c.deed? e = none → (∀ x ∈ c'.cache.entries, x ∈ c.cache.entries) ∧
        ∀ t, e = .act (.turn t) → c'.pool = c.pool) := by
  by_cases ht : ∃ t, e = .act (.turn t)
  · obtain ⟨t, rfl⟩ := ht
    obtain ⟨hdeed, hnone⟩ := enacts_of_turn h
    exact ⟨hdeed, fun hd => ⟨(hnone hd).2, fun _ _ => (hnone hd).1⟩⟩
  · refine ⟨fun d hd => ?_, fun _ => ⟨?_, fun t he => (ht ⟨t, he⟩).elim⟩⟩
    · obtain ⟨place, -, he, -⟩ := deed?_eq_some.1 hd
      exact (ht ⟨_, he⟩).elim
    · cases change_of_meet h with
      | moved => exact (ht ⟨_, rfl⟩).elim
      | invalidated path => exact fun x hx => Cache.mem_of_mem_invalidate hx
      | cleared => exact List.forall_mem_nil _
      | _ => exact fun x hx => hx

theorem turn_isSome_of_moving (hr : c.requests.get? id = some r) (hm : r.moving? place = some slot)
    (h : ∀ ticket, slot.stage.ticket? = some ticket → c.pool.outcome? ticket ≠ none) :
    (c.act (.turn ⟨id, place⟩)).isSome := by
  rw [act, turn, hr]
  cases r with
  | file path content phase =>
    cases phase with
    | preparing stage =>
      cases hm
      rw [Option.isSome_map]
      by_cases hstage : ∀ outcome, stage ≠ .settled outcome
      · rw [turnFile_preparing hstage, Option.isSome_map]
        exact prepare_isSome hstage h
      · obtain ⟨outcome, rfl⟩ : ∃ outcome, stage = .settled outcome := by
          simpa using hstage
        rcases outcome with error | report | file <;> rfl
    | _ => cases hm
  | batch phase =>
    cases phase with
    | preparing held slots ready report =>
      obtain ⟨hlt, hslot⟩ := List.getElem?_eq_some_iff.1 hm
      have hsplit : slots = slots.take place ++ slot :: slots.drop (place + 1) := by
        rw [← hslot, List.getElem_cons_drop, List.take_append_drop]
      have hsome : (c.turnBatch (slots.take place).length (.preparing held
          (slots.take place ++ slot :: slots.drop (place + 1)) ready report)).isSome :=
        turnBatch_isSome_of_slot h
      rw [← hsplit, List.length_take_of_le (Nat.le_of_lt hlt)] at hsome
      rw [Option.isSome_map]
      exact hsome
    | _ => cases hm

theorem mem_slots_of_moving (h : r.moving? place = some slot) : slot ∈ r.slots := by
  cases r with
  | file path content phase =>
    cases phase with
    | preparing stage => cases h; exact List.mem_cons_self
    | _ => cases h
  | batch phase =>
    cases phase with
    | preparing held slots ready report => exact List.mem_of_getElem? h
    | _ => cases h

/-- Such a move is something that is done to have the file parsed, if it has to be. -/
theorem deed?_isSome_of_moving (hr : c.requests.get? id = some r) (hm : r.moving? place = some slot)
    (h : ∀ ticket, slot.stage.ticket? = some ticket → c.pool.outcome? ticket ≠ none)
    (hparsing : slot.stage.isParsing = true) : (c.deed? (.act (.turn ⟨id, place⟩))).isSome := by
  have hdeed : (c.deedOf slot).isSome := by
    unfold deedOf
    cases hst : slot.stage with
    | awaiting prior attempt ticket =>
      rw [hst] at h
      rw [Option.isSome_map]
      exact Option.isSome_iff_ne_none.2 (h ticket rfl)
    | submitting | parsed => rfl
    | _ => rw [hst] at hparsing; cases hparsing
  rw [deed?, hr, Option.bind_some, hm, Option.bind_some, Option.isSome_map]
  exact hdeed

/-! ## Every path once -/

/-- The request for some files has taken up, deals with or has reported each of them. -/
structure Listed (files : List (String × String)) (r : Request τ) : Prop where
  placed : Placed files r
  paths : ∀ phase, r = .batch phase → phase.paths.Perm (files.map (·.1))

theorem listed_ofFile (path content : String) :
    Listed [(path, content)] (.ofFile path content : Request τ) :=
  ⟨placed_ofFile path content, fun _ he => by cases he⟩

theorem listed_ofFiles (files : List (String × String)) :
    Listed files (.ofFiles files : Request τ) := by
  refine ⟨placed_ofFiles files, fun phase he => ?_⟩
  cases he
  simp [BatchPhase.paths, BatchReport.paths]

theorem RequestStep.listed {files : List (String × String)} (h : RequestStep c r r' c')
    (hl : Listed files r) : Listed files r' := by
  refine ⟨h.placed hl.placed, fun phase' he => ?_⟩
  cases h with
  | file h => cases he
  | batch h =>
    cases he
    exact (h.paths_perm hl.placed.inHand).trans (hl.paths _ rfl)

end Coordinator

/-- The paths that a request deals with or has dealt with, apart from those that it was
    refused. -/
def Request.concerns (r : Request τ) : List String :=
  r.slots.map (·.path) ++ r.finished.map (·.path) ++ r.told.map (·.path) ++
    (r.errors.filter (·.kind ≠ .pathBusy)).map (·.path)

theorem BatchPhase.count_paths (phase : BatchPhase τ) (path : String) :
    phase.paths.count path = ((Request.batch phase).todo.map (·.1)).count path +
      (Request.batch phase).concerns.count path +
      (busyPaths (Request.batch phase).errors).count path := by
  have herrors : ∀ errors : List IndexError, (errors.map (·.path)).count path =
      (busyPaths errors).count path +
        ((errors.filter (·.kind ≠ .pathBusy)).map (·.path)).count path := by
    intro errors
    rw [busyPaths, ← List.count_append, ← List.map_append]
    refine ((List.filter_append_perm (fun e : IndexError => e.kind = .pathBusy) errors).symm.trans
      ?_).map (·.path) |>.count_eq path
    simp
  have hreport : phase.report.paths.count path =
      (phase.report.succeeded.map (·.path)).count path +
        ((busyPaths phase.report.failed).count path +
          ((phase.report.failed.filter (·.kind ≠ .pathBusy)).map (·.path)).count path) := by
    rw [BatchReport.paths, List.count_append, herrors]
  cases phase with
  | writing | committing | trimming =>
    simp only [paths, Request.concerns, Request.todo, Request.slots, Request.finished, Request.told,
      Request.errors, report, List.count_append, List.map_append, List.map_nil, List.count_nil,
      List.map_map, Function.comp_def] at hreport ⊢
    omega
  | _ =>
    simp only [paths, Request.concerns, Request.todo, Request.slots, Request.finished, Request.told,
      Request.errors, report, List.count_append, List.map_nil, List.count_nil] at hreport ⊢
    omega

namespace Coordinator

variable {c c' : Coordinator σ τ} {r r' : Request τ}

theorem todo_of_outcome (h : r.outcome?.isSome) : r.todo = [] := by
  cases r with
  | file path content phase =>
    cases phase with
    | arriving => cases h
    | _ => rfl
  | batch phase =>
    cases phase with
    | arriving => cases h
    | _ => rfl

theorem RequestStep.concerns (h : RequestStep c r r' c') (hr : r.InHand) {path : String}
    (hp : path ∈ r.concerns) : path ∈ r'.concerns := by
  have hmove := h.leaseMove hr
  cases h with
  | @file own content phase phase' c' h =>
    cases h with
    | refused | leased => cases hp
    | @failed error =>
      obtain ⟨hpath, hbusy, -⟩ := hr.proper _ List.mem_cons_self
      obtain rfl : path = own := List.mem_singleton.1 hp
      simp [Request.concerns, Request.slots, Request.finished, Request.told, Request.errors, hpath,
        hbusy]
    | skipped | ready =>
      obtain ⟨hpath, -⟩ := hr.proper _ List.mem_cons_self
      obtain rfl : path = own := List.mem_singleton.1 hp
      exact List.mem_singleton.2 hpath.symm
    | unopened | uncommitted | undone =>
      simp only [Request.concerns, Request.errors, List.mem_append, List.mem_map, List.mem_filter,
        List.mem_singleton, decide_eq_true_eq]
      exact Or.inr ⟨_, ⟨rfl, kind_writeFailure _ _⟩, (List.mem_singleton.1 hp).symm⟩
    | @closed outcome => cases outcome <;> exact hp
    | _ => exact hp
  | @batch phase phase' c' h =>
    have hpaths := (h.paths_perm hr).count_eq path
    rw [phase.count_paths, phase'.count_paths] at hpaths
    rw [← List.count_pos_iff] at hp ⊢
    cases hmove with
    | kept new leases todo held errors busy =>
      rw [todo, errors, busyPaths_append, busyPaths_eq_nil busy, List.append_nil] at hpaths
      omega
    | leased taken content free leases todo held errors =>
      rw [todo, errors, List.map_cons, List.count_cons] at hpaths
      omega
    | refused taken content busy same todo held errors =>
      have hbusy : busyPaths [.pathBusy taken] = [taken] := rfl
      rw [todo, errors, busyPaths_append, hbusy, List.map_cons, List.count_cons,
        List.count_append, List.count_singleton] at hpaths
      dsimp only at hpaths
      omega
    | closed finished leases held errors =>
      rw [errors, todo_of_outcome finished, List.map_nil, List.count_nil] at hpaths
      omega

/-- **A request deals with a path once.** -/
theorem Exclusive.concerns_nodup (h : c.Exclusive) {id : RequestId}
    (hr : c.requests.get? id = some r) {files : List (String × String)} (hl : Listed files r)
    (hopen : r.outcome? = none) : r.concerns.Nodup := by
  cases r with
  | file path content phase =>
    cases phase with
    | closing outcome =>
      cases outcome with
      | ok report => exact List.nodup_singleton _
      | error error =>
        by_cases hk : error.kind = .pathBusy <;>
          simp [Request.concerns, Request.slots, Request.finished, Request.told, Request.errors, hk]
    | done outcome => cases hopen
    | arriving => exact List.nodup_nil
    | _ => exact List.nodup_singleton _
  | batch phase =>
    refine (List.perm_iff_count.2 fun path => ?_).nodup_iff.2 (h.held_once hr).1
    have hpaths := ((hl.paths phase rfl).trans (hl.placed.files hopen).symm).count_eq path
    rw [phase.count_paths, List.count_append, List.count_append] at hpaths
    omega

end Coordinator

end SourceIndex
