/-
  Where the files that are written come from.

  * `Source`: revisions that callers may ask for, and what the parser may say about them;
  * `Coordinator.Traced`: all revisions and results that a coordinator holds stem from
    its callers and from the parser;
  * `Record.source`: the callers and the calls of the parser that a run has seen;
  * `Chronicle.Traced.run`: all files that a run writes stem from these.
-/
import SourceIndex.Proofs.Flow
import SourceIndex.Proofs.Parses

namespace SourceIndex

/-! ## Origins -/

/-- Where revisions and results come from: the revisions that callers ask for, and what
    the parser says about a revision with some key. -/
structure Source where
  Asked : String × String → Prop
  Found : TaskKey → Except ParserError ParseResult → Prop

/-- A caller asked for the file, and the parser found its symbols. -/
def Prepared.Traced (σ : Source) (f : Prepared) : Prop :=
  σ.Asked (f.path, f.content) ∧ σ.Found ⟨f.path, .ofText f.content⟩ (.ok f.parsed)

/-- What is at hand in the preparation of a revision belongs to it. -/
def Stage.Traced (σ : Source) (Job : Task → Prop) (path content : String) : Stage → Prop
  | .awaiting _ _ ticket => ∃ t, Job t ∧ t.id = ticket ∧ t.key = ⟨path, .ofText content⟩
  | .parsed _ _ result => σ.Found ⟨path, .ofText content⟩ (.ok result)
  | .settled (.ok (.ready f)) => f.Traced σ
  | .settled (.error (.parseFailure _ _ (.parse error))) =>
    σ.Found ⟨path, .ofText content⟩ (.error error)
  | _ => True

/-- Callers asked for all that a request has, and the parser found its symbols. -/
structure Request.Traced (σ : Source) (Job : Task → Prop) (q : Request Transaction) : Prop where
  todo : ∀ e ∈ q.todo, σ.Asked e
  slots : ∀ s ∈ q.slots, σ.Asked (s.path, s.content) ∧ s.stage.Traced σ Job s.path s.content
  ready : ∀ f ∈ q.ready, f.Traced σ

/-- The second source has all that the first has. -/
structure Source.IncludedIn (σ σ' : Source) : Prop where
  asked : ∀ {e}, σ.Asked e → σ'.Asked e
  found : ∀ {key said}, σ.Found key said → σ'.Found key said

theorem Source.IncludedIn.refl (σ : Source) : σ.IncludedIn σ := ⟨id, id⟩

section
variable {σ σ' : Source} {Job Job' : Task → Prop} (hσ : σ.IncludedIn σ')
include hσ

theorem Prepared.Traced.mono {f : Prepared} (h : f.Traced σ) : f.Traced σ' :=
  ⟨hσ.asked h.1, hσ.found h.2⟩

variable (hj : ∀ {t}, Job t → Job' t)
include hj

theorem Stage.Traced.mono {path content : String} {stage : Stage}
    (h : stage.Traced σ Job path content) : stage.Traced σ' Job' path content := by
  unfold Stage.Traced at h ⊢
  split
  · exact h.imp fun _ ht => ⟨hj ht.1, ht.2⟩
  · exact hσ.found h
  · exact Prepared.Traced.mono hσ h
  · exact hσ.found h
  · trivial

theorem Request.Traced.mono {q : Request Transaction} (h : q.Traced σ Job) : q.Traced σ' Job' where
  todo e he := hσ.asked (h.todo e he)
  slots s hs := ⟨hσ.asked (h.slots s hs).1, (h.slots s hs).2.mono hσ hj⟩
  ready f hf := (h.ready f hf).mono hσ

end

namespace Coordinator

/-- Callers asked for what the pool and the cache hold. -/
structure Sourced (σ : Source) (Job : Task → Prop) (c : MemoryCoordinator) : Prop where
  job : ∀ {t}, Job t → σ.Asked (t.path, t.content) ∧ t.hash = .ofText t.content
  pool : c.pool.Traced Job σ.Found
  cache : ∀ e ∈ c.cache.entries, σ.Found ⟨e.key.path, e.key.hash⟩ (.ok e.value)

/-- Besides, callers asked for what the requests have. -/
structure Traced (σ : Source) (Job : Task → Prop) (c : MemoryCoordinator) : Prop
    extends Sourced σ Job c where
  request : ∀ {id q}, c.requests.get? id = some q → q.Traced σ Job

variable {c c' : MemoryCoordinator} {σ : Source} {Job : Task → Prop} {path content : String}

theorem Sourced.congr (h : Sourced σ Job c) (hpool : c'.pool = c.pool)
    (hcache : ∀ e ∈ c'.cache.entries, e ∈ c.cache.entries) : Sourced σ Job c' where
  job := h.job
  pool := hpool ▸ h.pool
  cache e he := h.cache e (hcache e he)

/-- A step in preparing a revision gets symbols that were found for it. -/
theorem Sourced.prepare (h : Sourced σ Job c) (hasked : σ.Asked (path, content))
    {stage stage' : Stage} (hs : stage.Traced σ Job path content)
    (hp : StageStep c path content stage stage' c') :
    ∃ Job' : Task → Prop, (∀ {t}, Job t → Job' t) ∧ Sourced σ Job' c' ∧
      stage'.Traced σ Job' path content := by
  -- whatever the parser said to this revision, it said it about it
  have hfound : ∀ {prior attempt ticket outcome said},
      Stage.Traced σ Job path content (.awaiting prior attempt ticket) →
      c.pool.outcome? ticket = some outcome → outcome.said? = some said →
      σ.Found ⟨path, .ofText content⟩ said := by
    intro prior attempt ticket outcome said hs ho hsaid
    obtain ⟨task, hjob, hid, hkey⟩ := hs
    obtain ⟨task', hjob', hid', hfound⟩ := h.pool.found_of_outcome ho hsaid
    rwa [h.pool.inj hjob' hjob (hid'.trans hid.symm), hkey] at hfound
  cases hp with
  | unreadFile | absent | located | unreadSymbols | loaded | unchanged | retried =>
    exact ⟨Job, id, h.congr rfl fun e he => he, trivial⟩
  | cached _ hget =>
    obtain ⟨hsub, hentry⟩ := Cache.get_spec hget
    obtain ⟨e, he, hkey, hvalue⟩ := hentry _ rfl
    have hentry := h.cache e he
    rw [hkey, hvalue] at hentry
    exact ⟨Job, id, h.congr rfl hsub, hasked, hentry⟩
  | uncached _ hget => exact ⟨Job, id, h.congr rfl (Cache.get_spec hget).1, trivial⟩
  | refused hsubmit =>
    obtain ⟨rfl, -⟩ := Pool.submit_eq_error hsubmit
    exact ⟨Job, id, h, trivial⟩
  | submitted hsubmit =>
    obtain ⟨task, hid, hpath, hcontent, hhash, hpool⟩ := h.pool.submit hsubmit
    refine ⟨_, Or.inl, ⟨fun ht => ?_, hpool, h.cache⟩, task, Or.inr rfl, hid, ?_⟩
    · rcases ht with ht | rfl
      · exact h.job ht
      · exact ⟨by rw [hpath, hcontent]; exact hasked, by rw [hhash, hcontent]⟩
    · rw [Task.key, hpath, hhash]
  | parsed ho => exact ⟨Job, id, h, hfound hs ho rfl⟩
  | @gaveUp _ _ _ outcome error ho he =>
    refine ⟨Job, id, h, ?_⟩
    cases outcome with
    | rejected error' =>
      cases he
      exact hfound hs ho rfl
    | ok => cases he
    | _ => cases he; trivial
  | stored =>
    refine ⟨Job, id, ⟨h.job, h.pool, fun e he => ?_⟩, hasked, hs⟩
    rcases Cache.mem_set he with rfl | he
    · exact hs
    · exact h.cache e he

namespace Traced

variable {q : Request Transaction} {x : Happening}

theorem mono (h : Traced σ Job c) {σ' : Source} (hσ : σ.IncludedIn σ') : Traced σ' Job c where
  job ht := ⟨hσ.asked (h.job ht).1, (h.job ht).2⟩
  pool := h.pool.mono hσ.found
  cache e he := hσ.found (h.cache e he)
  request hq := (h.request hq).mono hσ id

theorem turn (h : Traced σ Job c) {id : RequestId} {q' : Request Transaction}
    (hq : c.requests.get? id = some q) (hf : Flow c q c' q') :
    ∃ Job', Traced σ Job' { c' with requests := c.requests.put id q' } := by
  have htraced := h.request hq
  have hput : ∀ {Job' : Task → Prop}, (∀ {t}, Job t → Job' t) → q'.Traced σ Job' → ∀ {id' q''},
      (c.requests.put id q').get? id' = some q'' → q''.Traced σ Job' := by
    intro Job' hj hq' id' q'' hget
    rcases Table.get?_of_put hget with ⟨-, rfl⟩ | ⟨-, hget⟩
    · exact hq'
    · exact (h.request hget).mono (.refl σ) hj
  cases hf with
  | prepare slot stage hslot hp htodo hslots hready =>
    obtain ⟨hasked, hstage⟩ := htraced.slots slot hslot
    obtain ⟨Job', hj, hsourced, hstage'⟩ := h.toSourced.prepare hasked hstage hp
    refine ⟨Job', ⟨hsourced.job, hsourced.pool, hsourced.cache⟩, hput hj ⟨?_, ?_, ?_⟩⟩
    · exact fun e he => htraced.todo e (htodo e he)
    · intro s hs
      rcases hslots s hs with hs | rfl
      · have hold := htraced.slots s hs
        exact ⟨hold.1, hold.2.mono (.refl σ) hj⟩
      · exact ⟨hasked, hstage'⟩
    · exact fun f hf => htraced.ready f (hready f hf)
  | move hpool hcache htodo hslots hready =>
    have hsourced := h.toSourced.congr hpool hcache
    refine ⟨Job, ⟨hsourced.job, hsourced.pool, hsourced.cache⟩, hput (fun ht => ht) ⟨?_, ?_, ?_⟩⟩
    · exact fun e he => htraced.todo e (htodo e he)
    · intro s hs
      rcases hslots s hs with hs | ⟨hfresh, hs⟩
      · exact htraced.slots s hs
      · refine ⟨htraced.todo _ hs, ?_⟩
        rw [hfresh]
        trivial
    · intro f hf
      rcases hready f hf with hf | ⟨s, hs, hsettled⟩
      · exact htraced.ready f hf
      · have hstage := (htraced.slots s hs).2
        rw [hsettled] at hstage
        exact hstage

theorem receive (h : Traced σ Job c) (hq : q.Traced σ Job) : Traced σ Job (c.receive q).2 where
  job := h.job
  pool := h.pool
  cache := h.cache
  request hget := by
    rcases Table.get?_of_put hget with ⟨-, rfl⟩ | ⟨-, hget⟩
    · exact hq
    · exact h.request hget

/-- All that a happening brings has to come from the source. -/
theorem undergo (h : Traced σ Job c) (hasks : ∀ e ∈ x.asks, σ.Asked e)
    (hsaid : ∀ {w t job said}, x = .act (.pool (.finish w (.returned said))) →
      c.pool.threads.get? w = some t → t.state = .parsing job →
      σ.Asked (job.path, job.content) → job.hash = .ofText job.content → σ.Found job.key said)
    (hx : c.undergo x = some c') : ∃ Job', Traced σ Job' c' := by
  cases x with
  | disturb rejected faults =>
    cases hx
    exact ⟨Job, ⟨h.job, h.pool, h.cache⟩, h.request⟩
  | act action =>
    cases change_of_act hx with
    | asked | askedMany =>
      exact ⟨Job, h.receive ⟨hasks, List.forall_mem_nil _, List.forall_mem_nil _⟩⟩
    | moved hq hs => exact h.turn hq hs.flow
    | pooled hp hsubmit =>
      refine ⟨Job, ⟨h.job, h.pool.act hsubmit (fun w t job said ha ht hjob => ?_) hp, h.cache⟩,
        h.request⟩
      obtain ⟨hasked, hhash⟩ := h.job ((h.pool.thread ht).2 job hjob)
      exact hsaid (ha ▸ rfl) ht hjob hasked hhash
    | invalidated =>
      exact ⟨Job, ⟨h.job, h.pool, fun e he => h.cache e (Cache.mem_of_mem_invalidate he)⟩,
        h.request⟩
    | cleared => exact ⟨Job, ⟨h.job, h.pool, List.forall_mem_nil _⟩, h.request⟩

theorem commits (h : Traced σ Job c) {f : Prepared} (hf : f ∈ c.commits x) : f.Traced σ := by
  unfold Coordinator.commits at hf
  split at hf
  · split at hf
    · rename_i q hq
      refine (h.request hq).ready f ?_
      unfold commitsOf at hf
      split at hf
      · split at hf
        · exact hf
        · cases hf
      · split at hf
        · exact hf
        · cases hf
      · cases hf
    · cases hf
  · cases hf

end Traced

end Coordinator

/-! ## Runs -/

/-- A call of the parser for a revision with the key found the result. -/
def Record.Found (r : Record) (key : TaskKey) (result : ParseResult) : Prop :=
  ∃ call ∈ r.parses, (call.path, call.content) ∈ r.asked ∧ call.path = key.path ∧
    ContentHash.ofText call.content = key.hash ∧ call.result = result

/-- The callers, and the calls of the parser that found symbols. -/
def Record.source (r : Record) : Source where
  Asked e := e ∈ r.asked
  Found key said := ∀ result, said = .ok result → r.Found key result

theorem Record.within_note (r : Record) (c : MemoryCoordinator) (x : Happening) :
    r.source.IncludedIn (r.note c x).source where
  asked he := List.mem_append_left _ he
  found hf result hs := by
    obtain ⟨call, hcall, hasked, hfound⟩ := hf result hs
    exact ⟨call, List.mem_append_left _ hcall, List.mem_append_left _ hasked, hfound⟩

namespace Chronicle

variable {s s' : Chronicle}

/-- Everything that a run holds and has written stems from its callers and from calls
    of the parser. -/
structure Traced (s : Chronicle) : Prop where
  orderly : Coordinator.Orderly s.coordinator
  holds : ∃ Job, Coordinator.Traced s.record.source Job s.coordinator
  writes : ∀ f ∈ s.record.writes, (f.path, f.content) ∈ s.record.asked ∧
    s.record.Found ⟨f.path, .ofText f.content⟩ f.parsed

theorem Opened.traced (h : s.Opened) : s.Traced := by
  obtain ⟨settings, chunker, starts, store, -, -, hstart, hrecord⟩ := id h
  obtain ⟨settings', pool, -, hpool, hc⟩ := Coordinator.start_eq_ok hstart
  refine ⟨h.orderly, ⟨fun _ => False, ⟨False.elim, ?_, ?_⟩, ?_⟩, ?_⟩
  · rw [hc]
    exact Pool.Traced.start hpool
  · rw [hc]
    exact fun e he => absurd he List.not_mem_nil
  · rw [hc]
    intro id q hq
    cases hq
  · rw [hrecord]
    exact fun f hf => absurd hf List.not_mem_nil

theorem Started.traced {chunker : Option Chunker} (h : s.Started chunker) : s.Traced :=
  h.opened.traced

theorem Traced.step (h : s.Traced) {x : Happening} (hx : s.step x = some s') : s'.Traced := by
  obtain ⟨c', hc, rfl⟩ := Option.map_eq_some_iff.1 hx
  obtain ⟨Job, hholds⟩ := h.holds
  have hwithin := s.record.within_note s.coordinator x
  have hholds' := hholds.mono hwithin
  refine ⟨h.orderly.undergo hc, ?_, fun f hf => ?_⟩
  · refine hholds'.undergo (fun e he => List.mem_append_right _ he) ?_ hc
    -- a call of the parser that ends now is in the record
    rintro w ⟨state, inbox⟩ job said rfl ht hjob hasked hhash result rfl
    refine ⟨⟨job.path, job.content, result⟩, List.mem_append_right _ ?_, hasked, rfl, hhash.symm,
      rfl⟩
    cases hjob
    rw [Coordinator.parses, ht]
    exact List.mem_cons_self
  · rcases List.mem_append.1 hf with hf | hf
    · obtain ⟨hasked, hfound⟩ := h.writes f hf
      exact ⟨hwithin.asked hasked, hwithin.found (fun _ he => Except.ok.inj he ▸ hfound) _ rfl⟩
    · exact ⟨(hholds'.commits hf).1, (hholds'.commits hf).2 _ rfl⟩

theorem Traced.run (h : s.Traced) {xs : List Happening} (hx : s.run xs = some s') : s'.Traced :=
  run_induction (fun hs hx => hs.step hx) hx h

end Chronicle

end SourceIndex
