/-
  Leases give mutual exclusion.

  Requests for one file and for many step in any order, over any store and beside any
  actions of the pool.

  * `Request.errors`, `Request.awaits`: the failures that a request has reported, and the
    submissions that it waits for;
  * `LeaseMove`: what a step of a request does to the leases, to what the request has
    still to take up and to its failures;
  * `Exclusive`, `Exclusive.after`: the leases are those of `Leasing`, and what the pool has
    outstanding is what holders wait for;
  * `leases_exclusive`: so a path has one holder, a request for a path that is held is
    turned away without touching anything, no lease is left over, and the pool never has
    two submissions for one path.
-/
import SourceIndex.Coordinator.Session
import SourceIndex.Proofs.AnyStore
import SourceIndex.Proofs.Flow
import SourceIndex.Proofs.Outstanding

namespace SourceIndex

/-! ## What a request has reported and waits for -/

/-- What a batch has reported so far. -/
def BatchPhase.report {τ : Type} : BatchPhase τ → BatchReport
  | .arriving _ _ report | .preparing _ _ _ report | .opening _ _ report
  | .writing _ _ _ _ _ _ report | .undoing _ _ report | .committing _ _ _ report
  | .trimming _ _ report | .closing _ report | .done report => report

/-- The paths of files that were not indexed for want of a lease. -/
def busyPaths (errors : List IndexError) : List String :=
  (errors.filter (·.kind = .pathBusy)).map (·.path)

theorem busyPaths_append (errors new : List IndexError) :
    busyPaths (errors ++ new) = busyPaths errors ++ busyPaths new := by
  rw [busyPaths, List.filter_append, List.map_append]
  rfl

theorem busyPaths_eq_nil {errors : List IndexError} (h : ∀ e ∈ errors, e.kind ≠ .pathBusy) :
    busyPaths errors = [] := by
  rw [busyPaths, List.map_eq_nil_iff, List.filter_eq_nil_iff]
  exact fun e he => by simpa using h e he

/-- The failures that the outcome of a request tells. -/
def RequestOutcome.errors : RequestOutcome → List IndexError
  | .file (.ok _) => []
  | .file (.error error) => [error]
  | .batch report => report.failed

namespace Request

variable {τ : Type} {r : Request τ}

/-- The failures that a request has reported so far. -/
def errors : Request τ → List IndexError
  | .file _ _ (.closing (.error error)) | .file _ _ (.done (.error error)) => [error]
  | .batch phase => phase.report.failed
  | _ => []

/-- The submissions that a request waits for, each with its path. -/
def awaits (r : Request τ) : List (String × TaskId) :=
  r.slots.filterMap fun slot => slot.stage.ticket?.map fun ticket => (slot.path, ticket)

/-- The request once the file that it would take up next was refused. -/
def turnedAway : Request τ → Request τ
  | .file path content .arriving => .file path content (.done (.error (.pathBusy path)))
  | .batch (.arriving ((path, _) :: todo) held report) =>
    .batch (.arriving todo held (report.fail (.pathBusy path)))
  | r => r

/-- What a request prepares are paths that it holds, each once, and a preparation that is
    over is about its own file. -/
structure InHand (r : Request τ) : Prop where
  proper : ∀ slot ∈ r.slots, slot.stage.Proper slot.path slot.content
  held : (r.slots.map (·.path)).Sublist r.held

theorem mem_awaits {path : String} {ticket : TaskId} :
    (path, ticket) ∈ r.awaits ↔
      ∃ slot ∈ r.slots, slot.stage.ticket? = some ticket ∧ slot.path = path := by
  simp [awaits, and_comm]

theorem InHand.awaits_sublist (h : r.InHand) : (r.awaits.map (·.1)).Sublist r.held := by
  refine List.Sublist.trans ?_ h.held
  rw [awaits]
  induction r.slots with
  | nil => exact List.Sublist.refl _
  | cons slot slots ih =>
    cases ht : slot.stage.ticket? with
    | none => simpa [ht] using ih.cons slot.path
    | some ticket => simpa [ht] using ih.cons_cons slot.path

end Request

namespace Coordinator

variable {σ τ : Type} {c c' : Coordinator σ τ} {r r' : Request τ} {path content : String}
  {stage stage' : Stage} {files todo : List (String × String)} {id : RequestId}

/-! ## Steps -/

/-- What a step of a request does to the leases, to the files that it has still to take
    up and to its failures. -/
inductive LeaseMove (c : Coordinator σ τ) (r r' : Request τ) (c' : Coordinator σ τ) : Prop where
  | kept (new : List IndexError) (leases : c'.leases = c.leases) (todo : r'.todo = r.todo)
      (held : r'.held = r.held) (errors : r'.errors = r.errors ++ new)
      (busy : ∀ e ∈ new, e.kind ≠ .pathBusy)
  | leased (path content : String) (free : path ∉ c.leases)
      (leases : c'.leases = c.leases ++ [path]) (todo : r.todo = (path, content) :: r'.todo)
      (held : r'.held = r.held ++ [path]) (errors : r'.errors = r.errors)
  | refused (path content : String) (taken : path ∈ c.leases) (same : c' = c)
      (todo : r.todo = (path, content) :: r'.todo) (held : r'.held = r.held)
      (errors : r'.errors = r.errors ++ [.pathBusy path])
  | closed (finished : r'.outcome?.isSome) (leases : c'.leases = (c.release r.held).leases)
      (held : r'.held = []) (errors : r'.errors = r.errors)

theorem LeaseMove.quiet (leases : c'.leases = c.leases) (todo : r'.todo = r.todo)
    (held : r'.held = r.held) (errors : r'.errors = r.errors) : LeaseMove c r r' c' :=
  .kept [] leases todo held (errors.trans (List.append_nil _).symm) (List.forall_mem_nil _)

theorem StageStep.leases (h : StageStep c path content stage stage' c') : c'.leases = c.leases := by
  cases h <;> rfl

theorem kind_writeFailure (f : Prepared) (fault : Fault) :
    (f.writeFailure fault).kind ≠ .pathBusy := nofun

theorem kind_writeFailures (files : List Prepared) (fault : Fault) :
    ∀ e ∈ files.map (·.writeFailure fault), e.kind ≠ .pathBusy := by
  intro e he
  obtain ⟨f, -, rfl⟩ := List.mem_map.1 he
  exact kind_writeFailure f fault

theorem FileStep.leaseMove {phase phase' : FilePhase τ}
    (h : FileStep c path content phase phase' c') (hr : (Request.file path content phase).InHand) :
    LeaseMove c (.file path content phase) (.file path content phase') c' := by
  cases h with
  | refused h => exact .refused path content h rfl rfl rfl rfl
  | leased h => exact .leased path content h rfl rfl rfl rfl
  | prepared h => exact .quiet h.leases rfl rfl rfl
  | @failed error =>
    have hproper := hr.proper _ List.mem_cons_self
    exact .kept [error] rfl rfl rfl rfl (List.forall_mem_singleton.2 hproper.2.1)
  | @unopened file fault | @uncommitted file _ _ fault =>
    exact .kept _ rfl rfl rfl rfl (List.forall_mem_singleton.2 (kind_writeFailure file fault))
  | @undone file _ cause =>
    exact .kept _ rfl rfl rfl rfl (List.forall_mem_singleton.2 (kind_writeFailure file cause))
  | @closed outcome => cases outcome <;> exact .closed rfl rfl rfl rfl
  | _ => exact .quiet rfl rfl rfl rfl

theorem BatchStep.leaseMove {phase phase' : BatchPhase τ} (h : BatchStep c phase phase' c')
    (hr : (Request.batch phase).InHand) : LeaseMove c (.batch phase) (.batch phase') c' := by
  cases h with
  | @refused path content _ _ _ h => exact .refused path content h rfl rfl rfl rfl
  | @leased path content _ _ _ h =>
    refine .leased path content h rfl rfl ?_ rfl
    exact List.map_append
  | prepared h => exact .quiet h.leases rfl rfl rfl
  | @failed _ before after slot _ _ error h =>
    have hproper := hr.proper slot (List.mem_append_right before List.mem_cons_self)
    rw [h] at hproper
    exact .kept [error] rfl rfl rfl rfl (List.forall_mem_singleton.2 hproper.2.1)
  | @unopened _ ready _ fault =>
    exact .kept _ rfl rfl rfl rfl (kind_writeFailures ready _)
  | @tookBack _ _ file _ _ _ _ _ _ _ _ fault =>
    exact .kept _ rfl rfl rfl rfl (List.forall_mem_singleton.2 (kind_writeFailure file fault))
  | @gaveUp _ _ file rest _ _ _ written _ _ _ _ fault =>
    refine .kept _ rfl rfl rfl rfl (List.forall_mem_cons.2 ⟨kind_writeFailure file fault, ?_⟩)
    exact kind_writeFailures _ _
  | @uncommitted _ _ written _ fault =>
    refine .kept _ rfl rfl rfl rfl ?_
    intro e he
    obtain ⟨w, -, rfl⟩ := List.mem_map.1 he
    exact kind_writeFailure w.1 _
  | @trimmed _ written =>
    obtain ⟨cache, he⟩ := trims_eq written c
    rw [he]
    exact .quiet rfl rfl rfl rfl
  | closed => exact .closed rfl rfl rfl rfl
  | _ => exact .quiet rfl rfl rfl rfl

theorem RequestStep.leaseMove (h : RequestStep c r r' c') (hr : r.InHand) :
    LeaseMove c r r' c' := by
  cases h with
  | file h => exact h.leaseMove hr
  | batch h => exact h.leaseMove hr

theorem RequestStep.inHand (h : RequestStep c r r' c') (hr : r.InHand) : r'.InHand := by
  cases h with
  | @file path content phase phase' c' h =>
    cases h with
    | leased h => exact ⟨List.forall_mem_singleton.2 trivial, List.Sublist.refl _⟩
    | prepared h => exact ⟨List.forall_mem_singleton.2 h.proper, List.Sublist.refl _⟩
    | _ => exact ⟨List.forall_mem_nil _, List.nil_sublist _⟩
  | @batch phase phase' c' h =>
    have hdrop : ∀ {before after : List Slot} {slot : Slot} {held : List String},
        (∀ s ∈ before ++ slot :: after, s.stage.Proper s.path s.content) →
        ((before ++ slot :: after).map (·.path)).Sublist held →
        (∀ s ∈ before ++ after, s.stage.Proper s.path s.content) ∧
          ((before ++ after).map (·.path)).Sublist held := by
      intro before after slot held hproper hsub
      have hless : (before ++ after).Sublist (before ++ slot :: after) :=
        (List.sublist_cons_self slot after).append_left before
      exact ⟨fun s hs => hproper s (hless.subset hs), (hless.map _).trans hsub⟩
    cases h with
    | arrived => exact ⟨hr.proper, List.Sublist.refl _⟩
    | refused h => exact ⟨hr.proper, hr.held⟩
    | leased h =>
      refine ⟨List.forall_mem_append.2 ⟨hr.proper, ?_⟩, List.Sublist.refl _⟩
      exact List.forall_mem_singleton.2 trivial
    | @prepared held before after slot ready report stage c' h =>
      obtain ⟨hbefore, hafter⟩ := List.forall_mem_append.1 hr.proper
      refine ⟨List.forall_mem_append.2 ⟨hbefore, List.forall_mem_cons.2 ⟨h.proper, ?_⟩⟩, ?_⟩
      · exact (List.forall_mem_cons.1 hafter).2
      · have hheld := hr.held
        simp only [Request.slots, List.map_append, List.map_cons] at hheld ⊢
        exact hheld
    | failed | skipped | ready =>
      obtain ⟨hproper, hheld⟩ := hdrop hr.proper hr.held
      exact ⟨hproper, hheld⟩
    | _ => exact ⟨List.forall_mem_nil _, List.nil_sublist _⟩

/-! ## Waiting for the pool -/

/-- A preparation leaves off waiting once there is an outcome, and whenever it submits
    something it waits for it. -/
theorem StageStep.ticket (h : StageStep c path content stage stage' c') :
    (∀ ticket, stage.ticket? = some ticket → (c.pool.outcome? ticket).isSome) ∧
      (c'.pool = c.pool ∨ ∃ ticket, stage'.ticket? = some ticket ∧
        c.pool.submit path content = .ok (ticket, c'.pool)) := by
  cases h with
  | submitted h => exact ⟨nofun, Or.inr ⟨_, rfl, h⟩⟩
  | parsed h | retried h | gaveUp h =>
    refine ⟨fun ticket ht => ?_, Or.inl rfl⟩
    cases ht
    exact Option.isSome_of_eq_some h
  | _ => exact ⟨nofun, Or.inl rfl⟩

/-- Slots that stay, or that do not wait for anything open, do not matter. -/
theorem awaits_of_slots
    (h : ∀ slot ∈ r.slots, slot ∈ r'.slots ∨
      ∀ ticket, slot.stage.ticket? = some ticket → (c.pool.outcome? ticket).isSome) :
    ∀ e ∈ r.awaits, e ∈ r'.awaits ∨ (c.pool.outcome? e.2).isSome := by
  rintro ⟨path, ticket⟩ he
  obtain ⟨slot, hslot, ht, hpath⟩ := Request.mem_awaits.1 he
  exact (h slot hslot).imp (fun hm => Request.mem_awaits.2 ⟨slot, hm, ht, hpath⟩)
    fun ho => ho ticket ht

theorem RequestStep.awaits (h : RequestStep c r r' c') :
    (∀ e ∈ r.awaits, e ∈ r'.awaits ∨ (c.pool.outcome? e.2).isSome) ∧
      (c'.pool = c.pool ∨ ∃ path content ticket, (path, ticket) ∈ r'.awaits ∧
        c.pool.submit path content = .ok (ticket, c'.pool)) := by
  cases h with
  | @file path content phase phase' c' h =>
    cases h with
    | prepared h =>
      obtain ⟨hleft, hpool⟩ := h.ticket
      refine ⟨awaits_of_slots (List.forall_mem_singleton.2 (Or.inr hleft)), hpool.imp_right ?_⟩
      rintro ⟨ticket, ht, hs⟩
      exact ⟨path, content, ticket, Request.mem_awaits.2 ⟨_, List.mem_cons_self, ht, rfl⟩, hs⟩
    | failed | skipped | ready =>
      exact ⟨awaits_of_slots (List.forall_mem_singleton.2 (Or.inr nofun)), Or.inl rfl⟩
    | _ => exact ⟨List.forall_mem_nil _, Or.inl rfl⟩
  | @batch phase phase' c' h =>
    have hdrop : ∀ {before after : List Slot} {slot : Slot} {outcome},
        slot.stage = .settled outcome → ∀ s ∈ before ++ slot :: after, s ∈ before ++ after ∨
          ∀ ticket, s.stage.ticket? = some ticket → (c.pool.outcome? ticket).isSome := by
      intro before after slot outcome hsettled s hs
      rcases List.mem_append.1 hs with hs | hs
      · exact Or.inl (List.mem_append_left _ hs)
      rcases List.mem_cons.1 hs with rfl | hs
      · refine Or.inr ?_
        rw [hsettled]
        exact nofun
      · exact Or.inl (List.mem_append_right _ hs)
    cases h with
    | arrived | refused => exact ⟨awaits_of_slots fun slot hs => Or.inl hs, Or.inl rfl⟩
    | leased h =>
      exact ⟨awaits_of_slots fun slot hs => Or.inl (List.mem_append_left _ hs), Or.inl rfl⟩
    | @prepared held before after slot ready report stage c' h =>
      obtain ⟨hleft, hpool⟩ := h.ticket
      refine ⟨awaits_of_slots fun s hs => ?_, hpool.imp_right ?_⟩
      · rcases List.mem_append.1 hs with hs | hs
        · exact Or.inl (List.mem_append_left _ hs)
        rcases List.mem_cons.1 hs with rfl | hs
        · exact Or.inr hleft
        · exact Or.inl (List.mem_append_right _ (List.mem_cons_of_mem _ hs))
      · rintro ⟨ticket, ht, hs⟩
        refine ⟨slot.path, slot.content, ticket,
          Request.mem_awaits.2 ⟨{ slot with stage }, ?_, ht, rfl⟩, hs⟩
        exact List.mem_append_right _ List.mem_cons_self
    | failed h | skipped h | ready h => exact ⟨awaits_of_slots (hdrop h), Or.inl rfl⟩
    | @trimmed _ written =>
      obtain ⟨cache, he⟩ := trims_eq written c
      rw [he]
      exact ⟨List.forall_mem_nil _, Or.inl rfl⟩
    | _ => exact ⟨List.forall_mem_nil _, Or.inl rfl⟩

/-! ## Any time -/

/-- The leases are the paths that requests hold, each held once, and what the pool has
    outstanding is what requests wait for. -/
structure Exclusive (c : Coordinator σ τ) : Prop extends Leasing c where
  inHand : ∀ r ∈ c.requests.values, r.InHand
  pool : ∃ done, c.pool.InOrder done
  awaited : ∀ e ∈ c.pool.outstanding, e ∈ c.requests.values.flatMap Request.awaits
  stopped : c.pool.status = .running ∨ c.pool.outstanding = []
  deduplicated : c.pool.supervisor.stats.deduplicated = 0

namespace Exclusive

/-- No two outstanding submissions are for the same path. -/
theorem paths_nodup (h : c.Exclusive) : (c.pool.outstanding.map (·.1)).Nodup := by
  obtain ⟨done, hpool⟩ := h.pool
  have hheld : ((c.requests.values.flatMap Request.awaits).map (·.1)).Sublist
      (c.requests.values.flatMap Request.held) := by
    rw [List.map_flatMap]
    exact List.Sublist.flatMap_right _ fun r hr => (h.inHand r hr).awaits_sublist
  have hawaits := hheld.nodup (h.leases.nodup_iff.1 h.leases_nodup)
  refine (List.nodup_map_iff_inj_on (hpool.ids_outstanding_nodup.of_map _)).2 ?_
  intro e he e' he' hpath
  exact List.inj_on_of_nodup_map hawaits (h.awaited e he) (h.awaited e' he') hpath

theorem start {backend : Backend σ τ} {settings : Settings} {chunker : Option Chunker}
    {store : σ} {starts : StartPlan}
    (h : Coordinator.start backend settings chunker store starts = .ok c) : c.Exclusive := by
  obtain ⟨-, -, hrequests, -, hpool⟩ := eq_of_start h
  obtain ⟨hnone, hdup, hrun⟩ := Pool.outstanding_start hpool
  refine ⟨Leasing.start h, ?_, ⟨[], Pool.InOrder.start hpool⟩, ?_, Or.inl hrun, hdup⟩
  · rw [hrequests]
    exact List.forall_mem_nil _
  · rw [hnone]
    exact List.forall_mem_nil _

theorem receive (h : c.Exclusive) (hheld : r.held = []) (hslots : r.slots = []) :
    (c.receive r).2.Exclusive := by
  refine { h with toLeasing := h.toLeasing.receive hheld, inHand := ?_, awaited := ?_ }
  · rw [h.values_receive]
    refine List.forall_mem_append.2 ⟨h.inHand, List.forall_mem_singleton.2 ?_⟩
    constructor
    · rw [hslots]
      exact List.forall_mem_nil _
    · rw [hslots]
      exact List.nil_sublist _
  · intro e he
    rw [h.values_receive, List.flatMap_append]
    exact List.mem_append_left _ (h.awaited e he)

/-- **A step of a request** leaves every path with one holder at most. -/
theorem move (h : c.Exclusive) (hr : c.requests.get? id = some r) (hs : RequestStep c r r' c') :
    Exclusive { c' with requests := c.requests.put id r' } := by
  obtain ⟨others, hput, hperm, -, hmem, -⟩ := h.others hr
  obtain ⟨done, hpool⟩ := h.pool
  have hhand := h.inHand r (Table.mem_values_of_get? hr)
  have hleasing : Leasing { c' with requests := c.requests.put id r' } := by
    refine h.toLeasing.put hr hs.alike.lastRequest fun hl => ?_
    cases hs.leaseMove hhand with
    | kept new leases todo held errors busy =>
      rw [leases, held]
      exact ⟨h.leases_nodup, hl⟩
    | leased path content free leases todo held errors =>
      rw [leases, held]
      exact ⟨List.nodup_append_comm.1 (List.nodup_cons.2 ⟨free, h.leases_nodup⟩), perm_lease hl⟩
    | refused path content taken same todo held errors =>
      rw [same, held]
      exact ⟨h.leases_nodup, hl⟩
    | closed finished leases held errors =>
      rw [leases, held]
      exact ⟨h.leases_nodup.filter _, perm_release h.leases_nodup hl⟩
  obtain ⟨hleft, hsubmit⟩ := hs.awaits
  -- a submission that the request leaves off waiting for has its outcome
  have hstill : ∀ e ∈ c.pool.outstanding, e ∈ (r' :: others).flatMap Request.awaits := by
    intro e he
    have hmem := (hperm.flatMap_right Request.awaits).mem_iff.1 (h.awaited e he)
    rcases List.mem_append.1 hmem with hmine | htheirs
    · rcases hleft e hmine with hkept | ho
      · exact List.mem_append_left _ hkept
      · exact (hpool.notMem_outstanding h.stopped ho he).elim
    · exact List.mem_append_right _ htheirs
  refine { hleasing with
    inHand := fun r₂ hr₂ => ?_
    pool := ?_
    awaited := fun e he => ((hput r').flatMap_right Request.awaits).mem_iff.2 ?_
    stopped := ?_
    deduplicated := ?_ }
  · rcases List.mem_cons.1 ((hput r').mem_iff.1 hr₂) with rfl | ho
    · exact hs.inHand hhand
    · exact h.inHand r₂ (hmem r₂ ho)
  all_goals rcases hsubmit with hsame | ⟨path, content, ticket, hawaits, hsubmit⟩
  · exact ⟨done, hsame ▸ hpool⟩
  · exact (hpool.step (Pool.outstanding_submit hsubmit).1).1
  · exact hstill e (hsame ▸ he)
  · change e ∈ c'.pool.outstanding at he
    rw [(Pool.outstanding_submit hsubmit).2.1, List.mem_append, List.mem_singleton] at he
    rcases he with he | rfl
    · exact hstill e he
    · exact List.mem_append_left _ hawaits
  · rw [hsame]
    exact h.stopped
  · exact Or.inl (Pool.outstanding_submit hsubmit).2.2.2
  · rw [hsame]
    exact h.deduplicated
  · obtain ⟨-, -, hsupervisor, -⟩ := Pool.outstanding_submit hsubmit
    rw [hsupervisor]
    exact h.deduplicated

theorem change (h : c.Exclusive) {e : Event σ} (hc : Change c e c') : c'.Exclusive := by
  cases hc with
  | asked | askedMany => exact h.receive rfl rfl
  | moved hr hs => exact h.move hr hs
  | @pooled action pool hact hsubmit hdrop =>
    obtain ⟨done, hpool⟩ := h.pool
    have hstep := Pool.step_of_act hact
    obtain ⟨hsub, hdup, hstatus⟩ := hpool.outstanding_step h.paths_nodup hstep hsubmit hdrop
    refine { h with
      pool := (hpool.step hstep).1
      awaited := fun e he => h.awaited e (hsub.subset he)
      stopped := ?_
      deduplicated := hdup.trans h.deduplicated }
    rcases hstatus with hsame | hnone
    · refine h.stopped.imp (fun hrun => hsame.trans hrun) fun hnone => ?_
      rw [hnone] at hsub
      exact List.sublist_nil.1 hsub
    · exact Or.inr hnone
  | _ =>
    exact ⟨⟨⟨h.nodup, h.le⟩, h.leases_nodup, h.leases⟩, h.inHand, h.pool, h.awaited, h.stopped,
      h.deduplicated⟩

theorem after (h : c.Exclusive) {es : List (Event σ)} (hrun : c.after es = some c') :
    c'.Exclusive :=
  after_induction (fun hp hm => hp.change (change_of_meet hm)) hrun h

end Exclusive

/-! ## One request -/

/-- As long as a request for some files is under way, it has still to take up a file,
    holds its path or has reported that it is taken. -/
structure Placed (files : List (String × String)) (r : Request τ) : Prop where
  inHand : r.InHand
  files : r.outcome? = none →
    (r.todo.map (·.1) ++ r.held ++ busyPaths r.errors).Perm (files.map (·.1))

theorem placed_ofFiles (files : List (String × String)) :
    Placed files (.ofFiles files : Request τ) where
  inHand := ⟨List.forall_mem_nil _, List.nil_sublist _⟩
  files _ := by simp [Request.ofFiles, Request.todo, Request.held, Request.errors,
    BatchPhase.report, busyPaths]

theorem placed_ofFile (path content : String) :
    Placed [(path, content)] (.ofFile path content : Request τ) where
  inHand := ⟨List.forall_mem_nil _, List.nil_sublist _⟩
  files _ := List.Perm.refl _

theorem RequestStep.placed (h : RequestStep c r r' c') (hr : Placed files r) :
    Placed files r' := by
  have hfiles := hr.files h.outcome?_eq_none
  refine ⟨h.inHand hr.inHand, fun hopen => ?_⟩
  cases h.leaseMove hr.inHand with
  | kept new leases todo held errors busy =>
    rw [todo, held, errors, busyPaths_append, busyPaths_eq_nil busy, List.append_nil]
    exact hfiles
  | leased path content free leases todo held errors =>
    rw [todo, List.map_cons] at hfiles
    rw [held, errors, ← List.append_assoc, List.append_assoc _ [path]]
    exact List.perm_middle.trans hfiles
  | refused path content taken same todo held errors =>
    have hbusy : busyPaths [.pathBusy path] = [path] := rfl
    rw [todo, List.map_cons] at hfiles
    rw [held, errors, busyPaths_append, hbusy, ← List.append_assoc]
    exact (List.perm_append_singleton path _).trans hfiles
  | closed finished leases held errors =>
    rw [hopen] at finished
    cases finished

theorem LeaseMove.errors_isPrefix (h : LeaseMove c r r' c') : r.errors <+: r'.errors := by
  cases h with
  | kept new leases todo held errors busy => exact ⟨new, errors.symm⟩
  | refused path content taken same todo held errors => exact ⟨_, errors.symm⟩
  | leased _ _ _ _ _ _ errors | closed _ _ _ errors => exact ⟨[], by rw [errors, List.append_nil]⟩

/-- A request that is done has told its failures and holds nothing. -/
theorem spec_of_outcome {outcome : RequestOutcome} (h : r.outcome? = some outcome) :
    r.errors = outcome.errors ∧ r.held = [] := by
  cases r with
  | file path content phase =>
    cases phase with
    | done result => cases h; cases result <;> exact ⟨rfl, rfl⟩
    | _ => cases h
  | batch phase =>
    cases phase with
    | done report => cases h; exact ⟨rfl, rfl⟩
    | _ => cases h

/-- A request for a path that is held is turned away, and nothing else happens. -/
theorem turn_of_taken (hr : c.requests.get? id = some r) (htodo : r.todo = (path, content) :: todo)
    (htaken : path ∈ c.leases) (place : Nat) :
    c.act (.turn ⟨id, place⟩) = some { c with requests := c.requests.put id r.turnedAway } ∧
      r.turnedAway.todo = todo ∧ r.turnedAway.held = r.held ∧
      r.turnedAway.errors = r.errors ++ [.pathBusy path] ∧
      (r = .ofFile path content →
        r.turnedAway.outcome? = some (.file (.error (.pathBusy path)))) := by
  have hlease : c.lease? path = none := if_pos (List.contains_iff_mem.2 htaken)
  rw [act, turn, hr]
  cases r with
  | file path' content' phase =>
    cases phase with
    | arriving =>
      cases htodo
      simp only [turnFile, hlease]
      exact ⟨rfl, rfl, rfl, rfl, fun _ => rfl⟩
    | _ => cases htodo
  | batch phase =>
    cases phase with
    | arriving todo' held report =>
      obtain rfl : todo' = (path, content) :: todo := htodo
      simp only [turnBatch, hlease]
      exact ⟨rfl, rfl, rfl, rfl, fun h => by cases h⟩
    | _ => cases htodo

/-- A request for a path that nobody holds gets its lease. -/
theorem turn_of_free (hr : c.requests.get? id = some r) (htodo : r.todo = (path, content) :: todo)
    (hfree : path ∉ c.leases) (place : Nat) :
    ∃ r', c.act (.turn ⟨id, place⟩) =
        some { c with leases := c.leases ++ [path], requests := c.requests.put id r' } ∧
      r'.todo = todo ∧ r'.held = r.held ++ [path] ∧ r'.errors = r.errors := by
  have hlease : c.lease? path = some { c with leases := c.leases ++ [path] } :=
    if_neg fun h => hfree (List.contains_iff_mem.1 h)
  rw [act, turn, hr]
  cases r with
  | file path' content' phase =>
    cases phase with
    | arriving =>
      cases htodo
      simp only [turnFile, hlease]
      exact ⟨_, rfl, rfl, rfl, rfl⟩
    | _ => cases htodo
  | batch phase =>
    cases phase with
    | arriving todo' held report =>
      obtain rfl : todo' = (path, content) :: todo := htodo
      simp only [turnBatch, hlease]
      exact ⟨_, rfl, rfl, List.map_append, rfl⟩
    | _ => cases htodo

/-! ## Mutual exclusion -/

/-- The request with a number has the lease of a path. -/
def Holds (c : Coordinator σ τ) (id : RequestId) (path : String) : Prop :=
  ∃ r, c.requests.get? id = some r ∧ path ∈ r.held

namespace Exclusive

/-- A request holds a path once, and no other request holds it. -/
theorem held_once (h : c.Exclusive) (hr : c.requests.get? id = some r) :
    r.held.Nodup ∧ ∀ path ∈ r.held, ∀ id', c.Holds id' path → id' = id := by
  refine ⟨h.held_nodup hr, fun path hp id' => ?_⟩
  rintro ⟨r', hr', hp'⟩
  by_contra hne
  exact h.disjoint hr hr' hne hp hp'

theorem errors_after (h : c.Exclusive) (hr : c.requests.get? id = some r) {es : List (Event σ)}
    (hrun : c.after es = some c') :
    ∃ r', c'.requests.get? id = some r' ∧ r.errors <+: r'.errors := by
  have hhand := h.inHand r (Table.mem_values_of_get? hr)
  obtain ⟨r', hr', -, hkept⟩ := h.toNumbered.follow
    (P := fun _ r' => r'.InHand ∧ r.errors <+: r'.errors)
    (fun _ _ hs hp => ⟨hs.inHand hp.1, hp.2.trans (hs.leaseMove hp.1).errors_isPrefix⟩)
    (fun _ hp => hp) hr ⟨hhand, List.prefix_rfl⟩ hrun
  exact ⟨r', hr', hkept⟩

end Exclusive

theorem Numbered.placed (h : c.Numbered) {e : Event σ} {es : List (Event σ)}
    (hrun : c.after (e :: es) = some c') (hfiles : e.files? = some files) :
    ∃ r, c'.requests.get? (c.lastRequest + 1) = some r ∧ Placed files r := by
  obtain ⟨c₁, hmeet, hrest⟩ := Option.bind_eq_some_iff.1 hrun
  have hc := change_of_meet hmeet
  obtain ⟨r, hr, hnew⟩ := hc.received hfiles
  refine (h.change hc).follow (P := fun _ => Placed files) (fun _ _ hs hp => hs.placed hp)
    (fun _ hp => hp) hr ?_ hrest
  rcases hnew with rfl | ⟨path, content, rfl, rfl⟩
  · exact placed_ofFiles files
  · exact placed_ofFile path content

/-- **Leases exclude each other.**  At any time of any run the leases are the paths that
    requests hold, each held by one request and by that once.  A request under way holds
    the paths that it asked for, without those it has still to take up and those it was
    refused.  Where the next file of a request is taken, it is turned away: the store, the
    cache, the pool and the leases stay as they are, and the failure stays in its report.
    Once all requests are done no lease is left.  The pool never has two submissions for
    one path outstanding, and counts no duplicate. -/
theorem leases_exclusive {backend : Backend σ τ} {settings : Settings} {chunker : Option Chunker}
    {store : σ} {starts : StartPlan} {c₀ c : Coordinator σ τ} {es : List (Event σ)}
    (hstart : start backend settings chunker store starts = .ok c₀)
    (hrun : c₀.after es = some c) :
    (c.leases.Nodup ∧ ∀ path, path ∈ c.leases ↔ ∃ id, c.Holds id path) ∧
    (∀ id r, c.requests.get? id = some r →
      r.held.Nodup ∧ ∀ path ∈ r.held, ∀ id', c.Holds id' path → id' = id) ∧
    (∀ pre e post files c₁, es = pre ++ e :: post → c₀.after pre = some c₁ →
      e.files? = some files → ∃ r, c.requests.get? (c₁.lastRequest + 1) = some r ∧
        (r.outcome? = none →
          (r.todo.map (·.1) ++ r.held ++ busyPaths r.errors).Perm (files.map (·.1))) ∧
        (r.outcome? ≠ none → r.held = [])) ∧
    (∀ id r path content todo place, c.requests.get? id = some r →
      r.todo = (path, content) :: todo →
      (path ∈ c.leases →
        c.act (.turn ⟨id, place⟩) = some { c with requests := c.requests.put id r.turnedAway } ∧
        r.turnedAway.todo = todo ∧ r.turnedAway.held = r.held ∧
        r.turnedAway.errors = r.errors ++ [.pathBusy path] ∧
        (r = .ofFile path content →
          r.turnedAway.outcome? = some (.file (.error (.pathBusy path))))) ∧
      (path ∉ c.leases → ∃ r', c.act (.turn ⟨id, place⟩) =
          some { c with leases := c.leases ++ [path], requests := c.requests.put id r' } ∧
        r'.todo = todo ∧ r'.held = r.held ++ [path] ∧ r'.errors = r.errors)) ∧
    (∀ id r es' c', c.requests.get? id = some r → c.after es' = some c' →
      ∃ r', c'.requests.get? id = some r' ∧ r.errors <+: r'.errors ∧
        ∀ outcome, r'.outcome? = some outcome → r'.errors = outcome.errors) ∧
    ((∀ id r, c.requests.get? id = some r → r.outcome? ≠ none) → c.leases = []) ∧
    (c.pool.outstanding.map (·.1)).Nodup ∧ c.pool.supervisor.stats.deduplicated = 0 := by
  have h₀ := Exclusive.start hstart
  have h := h₀.after hrun
  have hheld : ∀ {r : Request τ}, r.outcome? ≠ none → r.held = [] := by
    intro r hdone
    obtain ⟨outcome, ho⟩ := Option.ne_none_iff_exists'.1 hdone
    exact (spec_of_outcome ho).2
  refine ⟨⟨h.leases_nodup, fun path => h.mem_leases⟩, fun id r hr => h.held_once hr, ?_, ?_, ?_,
    fun hdone => ?_, h.paths_nodup, h.deduplicated⟩
  · rintro pre e post files c₁ rfl hpre hfiles
    rw [after_append, hpre] at hrun
    obtain ⟨r, hr, hplaced⟩ := (h₀.after hpre).toNumbered.placed hrun hfiles
    exact ⟨r, hr, hplaced.files, hheld⟩
  · intro id r path content todo place hr htodo
    exact ⟨fun htaken => turn_of_taken hr htodo htaken place,
      fun hfree => turn_of_free hr htodo hfree place⟩
  · intro id r es' c' hr hrun'
    obtain ⟨r', hr', hkept⟩ := h.errors_after hr hrun'
    exact ⟨r', hr', hkept, fun outcome ho => (spec_of_outcome ho).1⟩
  · refine List.eq_nil_iff_forall_not_mem.2 fun path hp => ?_
    obtain ⟨id, r, hr, hp⟩ := h.mem_leases.1 hp
    rw [hheld (hdone id r hr)] at hp
    cases hp

/-- A batch with the path `a` twice has its lease and waits for the pool, and the pool has
    one submission for it; a request for `a` is turned away then, as was the second `a`
    of the batch. -/
theorem leases_exclusive_sample :
    let turns := List.replicate 6 (Event.act (.turn ⟨1, 0⟩))
    let es : List (Event FaultyStore) :=
      .act (.batch [("a", "fn f"), ("a", "fn g")]) :: .act (.index "a" "fn h") :: turns
    ∃ c r r', Chronicle.sample.coordinator.after es = some c ∧ c.leases = ["a"] ∧
      c.requests.get? 1 = some r ∧ r.held = ["a"] ∧ r.errors = [.pathBusy "a"] ∧
      c.requests.get? 2 = some r' ∧ r'.todo = [("a", "fn h")] ∧ ¬ c.Holds 2 "a" ∧
      c.act (.turn ⟨2, 0⟩) = some { c with requests := c.requests.put 2 r'.turnedAway } ∧
      r'.turnedAway.errors = r'.errors ++ [.pathBusy "a"] ∧
      c.pool.outstanding = [("a", 1)] ∧ c.pool.supervisor.stats.deduplicated = 0 := by
  intro turns es
  have hcheck : (Chronicle.sample.coordinator.after es).any (fun c =>
      (c.requests.get? 1).any fun r => (c.requests.get? 2).any fun r' =>
        decide (c.leases = ["a"] ∧ r.held = ["a"] ∧ r.errors = [.pathBusy "a"] ∧
          r'.todo = [("a", "fn h")] ∧ c.pool.outstanding = [("a", 1)])) = true := by
    decide +kernel
  obtain ⟨c, hc, hcheck⟩ := (Option.any_eq_true _ _).1 hcheck
  obtain ⟨r, hr, hcheck⟩ := (Option.any_eq_true _ _).1 hcheck
  obtain ⟨r', hr', hcheck⟩ := (Option.any_eq_true _ _).1 hcheck
  obtain ⟨hleases, hheld, herrors, htodo, hout⟩ := of_decide_eq_true hcheck
  obtain ⟨settings, starts, store, -, -, hstart, -⟩ := Chronicle.sample_started
  obtain ⟨-, honce, -, hturn, -, -, -, hdup⟩ := leases_exclusive hstart hc
  have hother : ¬ c.Holds 2 "a" := fun h =>
    absurd ((honce 1 r hr).2 "a" (hheld ▸ List.mem_cons_self) 2 h) (by decide)
  obtain ⟨hact, -, -, herrors', -⟩ :=
    (hturn 2 r' "a" "fn h" [] 0 hr' htodo).1 (hleases ▸ List.mem_cons_self)
  exact ⟨c, r, r', hc, hleases, hr, hheld, herrors, hr', htodo, hother, hact, herrors', hout, hdup⟩

end Coordinator

end SourceIndex
