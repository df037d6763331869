/-
  How often a file is submitted to be parsed.

  * `Reply`: what comes of a submission, `attemptsDue`: how many submissions some replies
    lead to;
  * `Attempted`, `Concluded`: what was done for a file that all attempts so far came to
    nothing for, and for one that was parsed or given up;
  * `Stage.Tried`, `Prepared.Tried`, `FileReport.Tried`, `IndexError.Tried`: how a file that is
    this far was tried to be parsed, `StageStep.tried`: every step keeps to it;
  * `Request.Tried`, `Deals.tried`: so does every step of a request;
  * `Diligent`, `Diligent.after`: so does a run of a coordinator with any store;
  * `retries_exact`: a file is submitted until a reply is neither a timeout nor a crash, or
    until no attempt is left, and the last reply is what is entered and reported.
-/
import SourceIndex.Proofs.Deeds
import SourceIndex.Proofs.Fulfilment

namespace SourceIndex

variable {limit : Nat} {log : List Deed} {f : Prepared}

/-! ## Replies -/

/-- What comes of a submission. -/
inductive Reply where
  /-- the pool does not take it -/
  | refused (error : PoolError)
  | ended (outcome : TaskResult)

namespace Reply

/-- A timeout or a crash, which another attempt may avoid. -/
def isTransient : Reply → Bool
  | .ended .timedOut | .ended (.crashed _) => true
  | _ => false

/-- The parse result, or why there is none. -/
def result : Reply → Except PoolError ParseResult
  | .refused error => .error error
  | .ended outcome => outcome.toExcept

theorem isTransient_eq {outcome : TaskResult} {error : PoolError}
    (h : outcome.toExcept = .error error) : (ended outcome).isTransient = error.isTransient := by
  cases outcome <;> cases h <;> rfl

end Reply

/-- The number of attempts that are made, `limit` at most, where submissions get these
    replies: up to the first that is not transient. -/
def attemptsDue (limit : Nat) (replies : List Reply) : Nat :=
  min limit (replies.findIdx (!·.isTransient) + 1)

namespace Deed

/-- What the pool has said to a submission. -/
def reply? : Deed → Option Reply
  | .submitted (.error error) => some (.refused error)
  | .answered outcome => some (.ended outcome)
  | _ => none

def isSubmission : Deed → Bool
  | .submitted _ => true
  | _ => false

/-- The parse result that is entered into the cache. -/
def entry? : Deed → Option ParseResult
  | .entered result => some result
  | _ => none

end Deed

/-- The number of submissions. -/
def submissions (log : List Deed) : Nat := log.countP Deed.isSubmission

/-- The replies to submissions, in order. -/
def replies (log : List Deed) : List Reply := log.filterMap Deed.reply?

/-- The parse results that were entered into the cache. -/
def entries (log : List Deed) : List ParseResult := log.filterMap Deed.entry?

section
variable {limit n : Nat} {log new : List Deed} {result : Except PoolError ParseResult}

theorem submissions_append (log new : List Deed) :
    submissions (log ++ new) = submissions log + submissions new :=
  List.countP_append

theorem replies_append (log new : List Deed) : replies (log ++ new) = replies log ++ replies new :=
  List.filterMap_append

theorem entries_append (log new : List Deed) : entries (log ++ new) = entries log ++ entries new :=
  List.filterMap_append

/-- There were `n` attempts, and all came to nothing, but another may be made. -/
structure Attempted (n : Nat) (log : List Deed) : Prop where
  submissions_eq : submissions log = n
  replies_length : (replies log).length = n
  transient : ∀ reply ∈ replies log, reply.isTransient = true
  entries_eq : entries log = []

/-- There were `n` attempts, as many as the replies lead to whatever might have followed
    them, and the last one has come to this result. -/
structure Concluded (limit n : Nat) (result : Except PoolError ParseResult) (log : List Deed) :
    Prop where
  submissions_eq : submissions log = n
  replies_length : (replies log).length = n
  due : ∀ more, attemptsDue limit (replies log ++ more) = n
  last : (replies log).getLast?.map Reply.result = some result

theorem attempted_nil : Attempted 0 [] :=
  ⟨rfl, rfl, List.forall_mem_nil _, rfl⟩

theorem Attempted.again (h : Attempted n log) (reply : Reply) (hs : submissions new = 1)
    (hr : replies new = [reply]) (ht : reply.isTransient = true) (he : entries new = []) :
    Attempted (n + 1) (log ++ new) where
  submissions_eq := by rw [submissions_append, h.submissions_eq, hs]
  replies_length := by rw [replies_append, List.length_append, h.replies_length, hr]; rfl
  transient := by
    rw [replies_append, hr]
    exact List.forall_mem_append.2 ⟨h.transient, List.forall_mem_singleton.2 ht⟩
  entries_eq := by rw [entries_append, h.entries_eq, he]; rfl

theorem Attempted.conclude (h : Attempted n log) (reply : Reply) (hn : n < limit)
    (hs : submissions new = 1) (hr : replies new = [reply])
    (hlast : reply.isTransient = true → limit ≤ n + 1) :
    Concluded limit (n + 1) reply.result (log ++ new) where
  submissions_eq := by rw [submissions_append, h.submissions_eq, hs]
  replies_length := by rw [replies_append, List.length_append, h.replies_length, hr]; rfl
  due more := by
    -- no reply before the last one ends the attempts
    have hidx : (replies log).findIdx (!·.isTransient) = n := by
      rw [← h.replies_length, List.findIdx_eq_length]
      intro reply hm
      rw [h.transient reply hm]
      rfl
    rw [attemptsDue, replies_append, hr, List.append_assoc, List.findIdx_append, hidx,
      if_neg (by rw [h.replies_length]; exact Nat.lt_irrefl n), List.singleton_append,
      List.findIdx_cons, h.replies_length]
    cases ht : reply.isTransient with
    | false => simp only [Bool.not_false, cond_true]; omega
    | true =>
      have := hlast ht
      simp only [Bool.not_true, cond_false]
      omega
  last := by rw [replies_append, hr, List.getLast?_concat]; rfl

theorem Concluded.submissions_le (h : Concluded limit n result log) : submissions log ≤ limit := by
  rw [h.submissions_eq, ← h.due [], attemptsDue]
  exact Nat.min_le_left _ _

theorem Concluded.enter (h : Concluded limit n result log) (parsed : ParseResult) :
    Concluded limit n result (log ++ [.entered parsed]) := by
  have hr : replies (log ++ [.entered parsed]) = replies log := by
    rw [replies_append]
    exact List.append_nil _
  refine ⟨?_, ?_, ?_, ?_⟩
  · rw [submissions_append, h.submissions_eq]
    rfl
  · rw [hr, h.replies_length]
  · rw [hr]
    exact h.due
  · rw [hr, h.last]

end

/-! ## How files were tried -/

/-- The file was found in the cache, or it was parsed and its result entered. -/
def Prepared.Tried (limit : Nat) (log : List Deed) (f : Prepared) : Prop :=
  f.cacheHit = true ∧ f.attempts = 0 ∧ log = [] ∨
    f.cacheHit = false ∧ Concluded limit f.attempts (.ok f.parsed) log ∧ entries log = [f.parsed]

/-- The file did not have to be parsed, or it was parsed with as many attempts as the report
    says and its result entered. -/
def FileReport.Tried (limit : Nat) (log : List Deed) (report : FileReport) : Prop :=
  (report.mode = .skipped ∨ report.cacheHit = true) ∧ report.parseAttempts = 0 ∧ log = [] ∨
    report.mode ≠ .skipped ∧ report.cacheHit = false ∧ ∃ parsed,
      Concluded limit report.parseAttempts (.ok parsed) log ∧ entries log = [parsed]

/-- The file was given up after as many attempts as the error says and nothing was entered,
    or what failed is something else. -/
def IndexError.Tried (limit : Nat) (log : List Deed) : IndexError → Prop
  | .parseFailure _ attempts error => Concluded limit attempts (.error error) log ∧ entries log = []
  | .storageRead _ _ => log = []
  | .storageWriteFailure _ _ _ => log = [] ∨ ∃ attempts parsed,
    Concluded limit attempts (.ok parsed) log ∧ entries log = [parsed]
  | .pathBusy _ => True

/-- What was done for a file that is prepared this far. -/
def Stage.Tried (limit : Nat) (log : List Deed) : Stage → Prop
  | .fresh | .located _ | .loaded _ => log = []
  | .submitting _ attempt => ∃ n, attempt = n + 1 ∧ n < limit ∧ Attempted n log
  | .awaiting _ attempt ticket => ∃ n earlier, attempt = n + 1 ∧ n < limit ∧ Attempted n earlier ∧
    log = earlier ++ [.submitted (.ok ticket)]
  | .parsed _ attempt result => Concluded limit attempt (.ok result) log ∧ entries log = []
  | .settled (.error error) => error.Tried limit log
  | .settled (.ok (.skipped report)) => report.Tried limit log
  | .settled (.ok (.ready file)) => file.Tried limit log

theorem Prepared.Tried.report (h : f.Tried limit log) (chunks : Nat) :
    (f.report chunks).Tried limit log := by
  rcases h with ⟨hhit, hattempts, hlog⟩ | ⟨hhit, hdone, hentries⟩
  · exact Or.inl ⟨Or.inr hhit, hattempts, hlog⟩
  · exact Or.inr ⟨f.mode_ne_skipped, hhit, f.parsed, hdone, hentries⟩

theorem Prepared.Tried.writeFailure (h : f.Tried limit log) (fault : Fault) :
    (f.writeFailure fault).Tried limit log := by
  rcases h with ⟨-, -, hlog⟩ | ⟨-, hdone, hentries⟩
  · exact Or.inl hlog
  · exact Or.inr ⟨f.attempts, f.parsed, hdone, hentries⟩

/-! ## No endless attempts -/

/-- There are no more attempts than the limit allows, and each leads to a few steps. -/
def Bounded (limit : Nat) (log : List Deed) : Prop :=
  submissions log ≤ limit ∧ log.length ≤ 2 * limit + 1

theorem length_le_submissions (log : List Deed) :
    log.length ≤ submissions log + (replies log).length + (entries log).length := by
  induction log with
  | nil => exact Nat.zero_le _
  | cons deed log ih =>
    have hone : 1 ≤ submissions [deed] + (replies [deed]).length + (entries [deed]).length := by
      cases deed with
      | submitted taken => exact Nat.le_add_right_of_le (Nat.le_add_right 1 _)
      | answered outcome => exact Nat.le_refl 1
      | entered result => exact Nat.le_refl 1
    rw [← List.singleton_append, submissions_append, replies_append, entries_append]
    simp only [List.length_append, List.length_singleton]
    omega

section
variable {limit n : Nat} {log : List Deed}

theorem bounded_nil (limit : Nat) : Bounded limit [] :=
  ⟨Nat.zero_le _, Nat.zero_le _⟩

theorem Attempted.bounded (h : Attempted n log) (hn : n < limit) : Bounded limit log := by
  have hlength := length_le_submissions log
  rw [h.submissions_eq, h.replies_length, h.entries_eq, List.length_nil] at hlength
  refine ⟨?_, by omega⟩
  rw [h.submissions_eq]
  exact Nat.le_of_lt hn

theorem Concluded.bounded {result : Except PoolError ParseResult}
    (h : Concluded limit n result log) (he : (entries log).length ≤ 1) : Bounded limit log := by
  have hle := h.submissions_le
  have hlength := length_le_submissions log
  rw [h.replies_length] at hlength
  rw [h.submissions_eq] at hle hlength
  refine ⟨?_, by omega⟩
  rw [h.submissions_eq]
  exact hle

theorem Prepared.Tried.bounded (h : f.Tried limit log) : Bounded limit log := by
  rcases h with ⟨-, -, rfl⟩ | ⟨-, hdone, hentries⟩
  · exact bounded_nil limit
  · exact hdone.bounded (by rw [hentries]; exact Nat.le_refl 1)

theorem FileReport.Tried.bounded {report : FileReport} (h : report.Tried limit log) :
    Bounded limit log := by
  rcases h with ⟨-, -, rfl⟩ | ⟨-, -, parsed, hdone, hentries⟩
  · exact bounded_nil limit
  · exact hdone.bounded (by rw [hentries]; exact Nat.le_refl 1)

theorem IndexError.Tried.bounded {error : IndexError} (h : error.Tried limit log)
    (hk : error.kind ≠ .pathBusy) : Bounded limit log := by
  cases error with
  | parseFailure path attempts source =>
    exact h.1.bounded (by rw [h.2]; exact Nat.zero_le 1)
  | storageRead path source =>
    obtain rfl : log = [] := h
    exact bounded_nil limit
  | storageWriteFailure path mode source =>
    rcases h with rfl | ⟨attempts, parsed, hdone, hentries⟩
    · exact bounded_nil limit
    · exact hdone.bounded (by rw [hentries]; exact Nat.le_refl 1)
  | pathBusy path => exact (hk rfl).elim

theorem Stage.Tried.bounded {stage : Stage} {path content : String} (h : stage.Tried limit log)
    (hp : stage.Proper path content) : Bounded limit log := by
  cases stage with
  | fresh | located | loaded =>
    obtain rfl : log = [] := h
    exact bounded_nil limit
  | submitting prior attempt =>
    obtain ⟨n, -, hn, hlog⟩ := h
    exact hlog.bounded hn
  | awaiting prior attempt ticket =>
    obtain ⟨n, earlier, -, hn, hlog, rfl⟩ := h
    have hlength := length_le_submissions earlier
    rw [hlog.submissions_eq, hlog.replies_length, hlog.entries_eq, List.length_nil] at hlength
    refine ⟨?_, ?_⟩
    · rw [submissions_append, hlog.submissions_eq]
      exact hn
    · rw [List.length_append, List.length_singleton]
      omega
  | parsed prior attempt result => exact h.1.bounded (by rw [h.2]; exact Nat.zero_le 1)
  | settled outcome =>
    rcases outcome with error | report | file
    · exact IndexError.Tried.bounded h hp.2.1
    · exact FileReport.Tried.bounded h
    · exact Prepared.Tried.bounded h

end

namespace Coordinator

variable {σ τ : Type} {c c' : Coordinator σ τ}

/-- **Every step in preparing a file** keeps to the attempts that are due. -/
theorem StageStep.tried {slot : Slot} {stage : Stage}
    (h : StageStep c slot.path slot.content slot.stage stage c')
    (ht : slot.stage.Tried (c.settings.pool.maxRetries + 1) log) :
    stage.Tried (c.settings.pool.maxRetries + 1) (log ++ (c.deedOf slot).toList) := by
  obtain ⟨path, content, stage₀⟩ := slot
  dsimp only at h ht
  have hnone : ∀ {log : List Deed}, log = [] → log ++ (none : Option Deed).toList = [] :=
    fun hlog => (List.append_nil _).trans hlog
  cases h with
  | unreadFile | absent | located | unreadSymbols | loaded => exact hnone ht
  | unchanged => exact Or.inl ⟨Or.inl rfl, rfl, hnone ht⟩
  | cached => exact Or.inl ⟨rfl, rfl, hnone ht⟩
  | uncached => exact ⟨0, rfl, Nat.succ_pos _, hnone ht ▸ attempted_nil⟩
  | @refused prior _ error h =>
    obtain ⟨n, rfl, hn, hlog⟩ := ht
    have hdeed : c.deedOf ⟨path, content, .submitting prior (n + 1)⟩ =
        some (.submitted (.error error)) := by
      simp [deedOf, h, Except.map]
    rw [hdeed]
    refine ⟨hlog.conclude (.refused error) hn rfl rfl ?_, ?_⟩
    · intro htransient
      cases htransient
    · rw [entries_append, hlog.entries_eq]
      rfl
  | @submitted prior _ ticket pool h =>
    obtain ⟨n, rfl, hn, hlog⟩ := ht
    have hdeed : c.deedOf ⟨path, content, .submitting prior (n + 1)⟩ =
        some (.submitted (.ok ticket)) := by
      simp [deedOf, h, Except.map]
    rw [hdeed]
    exact ⟨n, log, rfl, hn, hlog, rfl⟩
  | @parsed prior _ ticket result h =>
    obtain ⟨n, earlier, rfl, hn, hlog, rfl⟩ := ht
    have hdeed : c.deedOf ⟨path, content, .awaiting prior (n + 1) ticket⟩ =
        some (.answered (.ok result)) := by
      simp [deedOf, h]
    rw [hdeed, List.append_assoc]
    refine ⟨hlog.conclude (.ended (.ok result)) hn rfl rfl ?_, ?_⟩
    · intro htransient
      cases htransient
    · rw [entries_append, hlog.entries_eq]
      rfl
  | @retried prior _ ticket outcome error h he htransient hlt =>
    obtain ⟨n, earlier, rfl, hn, hlog, rfl⟩ := ht
    have hdeed : c.deedOf ⟨path, content, .awaiting prior (n + 1) ticket⟩ =
        some (.answered outcome) := by
      simp [deedOf, h]
    rw [hdeed, List.append_assoc]
    refine ⟨n + 1, rfl, hlt, hlog.again (.ended outcome) rfl rfl ?_ rfl⟩
    rw [Reply.isTransient_eq he, htransient]
  | @gaveUp prior _ ticket outcome error h he hlast =>
    obtain ⟨n, earlier, rfl, hn, hlog, rfl⟩ := ht
    have hdeed : c.deedOf ⟨path, content, .awaiting prior (n + 1) ticket⟩ =
        some (.answered outcome) := by
      simp [deedOf, h]
    rw [hdeed, List.append_assoc]
    have hdone : Concluded _ (n + 1) (Reply.ended outcome).result
        (earlier ++ [.submitted (.ok ticket), .answered outcome]) :=
      hlog.conclude (.ended outcome) hn rfl rfl fun htransient =>
        hlast (Reply.isTransient_eq he ▸ htransient)
    rw [Reply.result, he] at hdone
    refine ⟨hdone, ?_⟩
    rw [entries_append, hlog.entries_eq]
    rfl
  | @stored prior attempt result =>
    refine Or.inr ⟨rfl, ht.1.enter result, ?_⟩
    change entries (log ++ [.entered result]) = [result]
    rw [entries_append, ht.2]
    rfl

end Coordinator

/-! ## Requests -/

/-- What was done for each path of a request, where `log` says it, is what it takes to have
    come this far. -/
structure Request.Tried {τ : Type} (limit : Nat) (log : String → List Deed) (r : Request τ) :
    Prop where
  idle : ∀ path, path ∉ r.concerns → log path = []
  todo : ∀ e ∈ r.todo, log e.1 = []
  slots : ∀ slot ∈ r.slots, slot.stage.Tried limit (log slot.path)
  finished : ∀ f ∈ r.finished, f.Tried limit (log f.path)
  told : ∀ report ∈ r.told, report.Tried limit (log report.path)
  errors : ∀ e ∈ r.errors, e.Tried limit (log e.path)

namespace Coordinator

variable {σ τ : Type} {c c' : Coordinator σ τ} {r r' : Request τ} {slot : Slot}

theorem mem_concerns_of_slots {before after : List Slot}
    (hslots : r.slots = before ++ slot :: after) : slot.path ∈ r.concerns := by
  simp [Request.concerns, hslots]

/-- A path that a request prepares is not among the others that it deals with. -/
theorem ne_of_concerns_nodup {before after : List Slot} (hslots : r.slots = before ++ slot :: after)
    (h : r.concerns.Nodup) :
    (∀ s ∈ before ++ after, s.path ≠ slot.path) ∧ (∀ f ∈ r.finished, f.path ≠ slot.path) ∧
      (∀ report ∈ r.told, report.path ≠ slot.path) ∧
      ∀ e ∈ r.errors, e.kind ≠ .pathBusy → e.path ≠ slot.path := by
  have hperm : r.concerns.Perm (slot.path :: ((before ++ after).map (·.path) ++
      r.finished.map (·.path) ++ r.told.map (·.path) ++
        (r.errors.filter (·.kind ≠ .pathBusy)).map (·.path))) := by
    rw [Request.concerns, hslots]
    exact (((List.perm_middle.map Slot.path).append_right _).append_right _).append_right _
  have hnot := (List.nodup_cons.1 (hperm.nodup_iff.1 h)).1
  simp only [List.mem_append, not_or] at hnot
  obtain ⟨⟨⟨hslot, hfinished⟩, htold⟩, herrors⟩ := hnot
  refine ⟨?_, ?_, ?_, ?_⟩
  · exact fun s hs he => hslot (he ▸ List.mem_map_of_mem hs)
  · exact fun f hf he => hfinished (he ▸ List.mem_map_of_mem hf)
  · exact fun x hx he => htold (he ▸ List.mem_map_of_mem hx)
  · exact fun e hm hk he =>
      herrors (he ▸ List.mem_map_of_mem (List.mem_filter.2 ⟨hm, decide_eq_true hk⟩))

theorem eq_pathBusy_of_kind {e : IndexError} (h : e.kind = .pathBusy) :
    ∃ path, e = .pathBusy path := by
  cases e with
  | pathBusy path => exact ⟨path, rfl⟩
  | parseFailure path attempts source => cases source <;> cases h
  | _ => cases h

/-- **Every step of a request** keeps to the attempts that are due, where `log'` adds what
    the step does to `log`. -/
theorem Deals.tried {place : Nat} {log log' : String → List Deed} (h : Deals c place r r' c')
    (hr : r.Tried (c.settings.pool.maxRetries + 1) log) (hhand : r.InHand)
    (hnodup : r.concerns.Nodup) (hconcerns : ∀ path ∈ r.concerns, path ∈ r'.concerns)
    (hmoved : ∀ slot, r.moving? place = some slot →
      log' slot.path = log slot.path ++ (c.deedOf slot).toList)
    (hsame : ∀ path, (∀ slot, r.moving? place = some slot → slot.path = path →
      c.deedOf slot = none) → log' path = log path) :
    r'.Tried (c.settings.pool.maxRetries + 1) log' := by
  cases h with
  | @prepared before after slot stage moving step todo slots slots' finished told errors =>
    obtain ⟨hslots, hfinished, htold, herrors⟩ := ne_of_concerns_nodup slots hnodup
    have hother : ∀ path, path ≠ slot.path → log' path = log path := by
      intro path hne
      refine hsame path fun s hs he => ?_
      obtain rfl : slot = s := Option.some.inj (moving.symm.trans hs)
      exact (hne he.symm).elim
    have hslot := hr.slots slot (slots ▸ List.mem_append_right _ List.mem_cons_self)
    refine ⟨?_, ?_, ?_, ?_, ?_, ?_⟩
    · intro path hp
      have hold : path ∉ r.concerns := fun hm => hp (hconcerns path hm)
      rw [hother path fun he => hold (he ▸ mem_concerns_of_slots slots)]
      exact hr.idle path hold
    · rw [todo]
      exact List.forall_mem_nil _
    · intro s hs
      rw [slots'] at hs
      have hrest : ∀ s ∈ before ++ after,
          s.stage.Tried (c.settings.pool.maxRetries + 1) (log' s.path) := by
        intro s hs
        rw [hother s.path (hslots s hs)]
        refine hr.slots s (slots ▸ ?_)
        exact (List.mem_append.1 hs).elim (List.mem_append_left _)
          fun hs => List.mem_append_right _ (List.mem_cons_of_mem _ hs)
      rcases List.mem_append.1 hs with hs | hs
      · exact hrest s (List.mem_append_left _ hs)
      rcases List.mem_cons.1 hs with rfl | hs
      · dsimp only
        rw [hmoved slot moving]
        exact step.tried hslot
      · exact hrest s (List.mem_append_right _ hs)
    · intro f hf
      rw [finished] at hf
      rw [hother _ (hfinished f hf)]
      exact hr.finished f hf
    · intro x hx
      rw [told] at hx
      rw [hother _ (htold x hx)]
      exact hr.told x hx
    · intro e he
      rw [errors] at he
      by_cases hk : e.kind = .pathBusy
      · obtain ⟨path, rfl⟩ := eq_pathBusy_of_kind hk
        trivial
      · rw [hother _ (herrors e he hk)]
        exact hr.errors e he
  | passed idle nothing todo slots finished told errors =>
    have hlog : log' = log := funext fun path => hsame path fun slot hs _ => idle slot hs
    rw [hlog]
    -- a preparation that is over has come to something about its own file
    have hsettled : ∀ {s outcome}, s ∈ r.slots → s.stage = .settled outcome →
        (Stage.settled outcome).Tried (c.settings.pool.maxRetries + 1) (log s.path) ∧
          (Stage.settled outcome).Proper s.path s.content := by
      intro s outcome hs hstage
      rw [← hstage]
      exact ⟨hr.slots s hs, hhand.proper s hs⟩
    refine ⟨fun path hp => hr.idle path fun hm => hp (hconcerns path hm),
      fun e he => hr.todo e (todo e he), ?_, ?_, ?_, ?_⟩
    · intro s hs
      rcases slots s hs with hs | ⟨hfresh, htodo⟩
      · exact hr.slots s hs
      · rw [hfresh]
        exact hr.todo _ htodo
    · intro f hf
      rcases finished f hf with hf | ⟨s, hs, hstage⟩
      · exact hr.finished f hf
      · obtain ⟨ht, hproper⟩ := hsettled hs hstage
        rw [hproper.1]
        exact ht
    · intro x hx
      rcases told x hx with hx | ⟨s, hs, hstage⟩ | ⟨f, hf, n, rfl⟩
      · exact hr.told x hx
      · obtain ⟨ht, hproper⟩ := hsettled hs hstage
        rw [hproper.1]
        exact ht
      · exact (hr.finished f hf).report n
    · intro e he
      rcases errors e he with he | ⟨s, hs, hstage⟩ | ⟨path, rfl⟩ | ⟨f, hf, fault, rfl⟩
      · exact hr.errors e he
      · obtain ⟨ht, hproper⟩ := hsettled hs hstage
        rw [hproper.1]
        exact ht
      · trivial
      · exact (hr.finished f hf).writeFailure fault

/-! ## Runs -/

/-- After the events `es`, every request has tried the files it was asked for as it should. -/
structure Diligent (c₀ : Coordinator σ τ) (es : List (Event σ)) (c : Coordinator σ τ) : Prop where
  exclusive : c.Exclusive
  asked : ∀ d ∈ c₀.deeds es, d.1 ≤ c.lastRequest
  listed : ∀ {id r}, c.requests.get? id = some r → ∃ files, Listed files r
  tried : ∀ {id r}, c.requests.get? id = some r →
    r.Tried (c.settings.pool.maxRetries + 1) fun path => c₀.deedsFor id path es

namespace Diligent

variable {c₀ : Coordinator σ τ} {es : List (Event σ)} {e : Event σ}

theorem start {backend : Backend σ τ} {settings : Settings} {chunker : Option Chunker}
    {store : σ} {starts : StartPlan}
    (h : Coordinator.start backend settings chunker store starts = .ok c) : Diligent c [] c := by
  obtain ⟨-, -, hrequests, -, -⟩ := eq_of_start h
  refine ⟨Exclusive.start h, List.forall_mem_nil _, fun hr => ?_, fun hr => ?_⟩
  · rw [hrequests] at hr
    cases hr
  · rw [hrequests] at hr
    cases hr

theorem rest (h : Diligent c₀ es c) (hes : c₀.after es = some c) (he : c'.Exclusive)
    (hdeed : c.deed? e = none) (hrequests : c'.requests = c.requests)
    (hlast : c'.lastRequest = c.lastRequest) (hsettings : c'.settings = c.settings) :
    Diligent c₀ (es ++ [e]) c' := by
  have hlog : c₀.deeds (es ++ [e]) = c₀.deeds es := by
    rw [deeds_snoc hes, hdeed]
    exact List.append_nil _
  refine ⟨he, ?_, fun hr => ?_, fun hr => ?_⟩
  · rw [hlog, hlast]
    exact h.asked
  · rw [hrequests] at hr
    exact h.listed hr
  · rw [hrequests] at hr
    simp only [deedsFor, hlog, hsettings]
    exact h.tried hr

theorem receive (h : Diligent c₀ es c) (hes : c₀.after es = some c) (hdeed : c.deed? e = none)
    {files : List (String × String)} (hl : Listed files r) (hheld : r.held = [])
    (hslots : r.slots = []) (hfinished : r.finished = []) (htold : r.told = [])
    (herrors : r.errors = []) : Diligent c₀ (es ++ [e]) (c.receive r).2 := by
  have hlog : c₀.deeds (es ++ [e]) = c₀.deeds es := by
    rw [deeds_snoc hes, hdeed]
    exact List.append_nil _
  refine ⟨h.exclusive.receive hheld hslots, ?_, fun hr => ?_, fun {id r'} hr => ?_⟩
  · rw [hlog]
    exact fun d hd => Nat.le_succ_of_le (h.asked d hd)
  · rcases Table.get?_of_put hr with ⟨-, rfl⟩ | ⟨-, hr⟩
    · exact ⟨files, hl⟩
    · exact h.listed hr
  · simp only [deedsFor, hlog]
    rcases Table.get?_of_put hr with ⟨rfl, rfl⟩ | ⟨-, hr⟩
    · -- nothing was done for a number that was not given out yet
      have hnone : ∀ path, c₀.deedsFor (c.lastRequest + 1) path es = [] := by
        intro path
        rw [deedsFor, List.map_eq_nil_iff, List.filter_eq_nil_iff]
        intro d hd hfor
        have hle := h.asked d hd
        rw [(of_decide_eq_true hfor).1] at hle
        exact Nat.not_succ_le_self _ hle
      refine ⟨fun path _ => hnone path, fun entry _ => hnone entry.1, ?_, ?_, ?_, ?_⟩
      · rw [hslots]
        exact List.forall_mem_nil _
      · rw [hfinished]
        exact List.forall_mem_nil _
      · rw [htold]
        exact List.forall_mem_nil _
      · rw [herrors]
        exact List.forall_mem_nil _
    · exact h.tried hr

theorem move (h : Diligent c₀ es c) (hes : c₀.after es = some c) {t : Turn}
    (ht : c.turn t = some c') : Diligent c₀ (es ++ [.act (.turn t)]) c' := by
  obtain ⟨r, r', c₁, hr, hstep, hdeals, rfl⟩ := deals_of_turn ht
  obtain ⟨files, hlisted⟩ := h.listed hr
  have halike := hstep.alike
  have hdeed : ∀ d, c.deed? (.act (.turn t)) = some d →
      d.1 = t.request ∧ r.moving? t.place = some d.2.1 ∧ c.deedOf d.2.1 = some d.2.2 := by
    intro d hd
    obtain ⟨place, r₁, he, hr₁, hmoving, hdeed⟩ := deed?_eq_some.1 hd
    cases he
    obtain rfl : r₁ = r := Option.some.inj (hr₁.symm.trans hr)
    exact ⟨rfl, hmoving, hdeed⟩
  refine ⟨h.exclusive.move hr hstep, ?_, fun hr₂ => ?_, fun {id r₂} hr₂ => ?_⟩
  · intro d hd
    change d.1 ≤ c₁.lastRequest
    rw [halike.lastRequest]
    rw [deeds_snoc hes, List.mem_append] at hd
    rcases hd with hd | hd
    · exact h.asked d hd
    · rw [(hdeed d (Option.mem_toList.1 hd)).1]
      exact h.exclusive.le _ (Table.mem_keys_iff.2 ⟨r, hr⟩)
  · rcases Table.get?_of_put hr₂ with ⟨-, rfl⟩ | ⟨-, hr₂⟩
    · exact ⟨files, hstep.listed hlisted⟩
    · exact h.listed hr₂
  · change r₂.Tried (c₁.settings.pool.maxRetries + 1) _
    rw [halike.settings]
    rcases Table.get?_of_put hr₂ with ⟨rfl, rfl⟩ | ⟨hne, hr₂⟩
    · refine hdeals.tried (h.tried hr) hlisted.placed.inHand
        (h.exclusive.concerns_nodup hr hlisted hstep.outcome?_eq_none)
        (fun path hp => hstep.concerns hlisted.placed.inHand hp) (fun slot hslot => ?_)
        fun path hidle => ?_
      · cases hd : c.deedOf slot with
        | none =>
          refine (deedsFor_snoc_of_ne hes fun d hd' _ => ?_).trans (List.append_nil _).symm
          obtain ⟨-, hmoving, hdeed⟩ := hdeed d hd'
          obtain rfl : slot = d.2.1 := Option.some.inj (hslot.symm.trans hmoving)
          cases hd.symm.trans hdeed
        | some deed =>
          exact deedsFor_snoc_self hes (deed?_eq_some.2 ⟨t.place, r, rfl, hr, hslot, hd⟩)
      · refine deedsFor_snoc_of_ne hes fun d hd hfor => ?_
        obtain ⟨-, hmoving, hdeed⟩ := hdeed d hd
        cases (hidle d.2.1 hmoving hfor.2).symm.trans hdeed
    · have hlog : ∀ path, c₀.deedsFor id path (es ++ [.act (.turn t)]) =
          c₀.deedsFor id path es := fun path =>
        deedsFor_snoc_of_ne hes fun d hd hfor => hne (hfor.1.symm.trans (hdeed d hd).1)
      simp only [hlog]
      exact h.tried hr₂

theorem step (h : Diligent c₀ es c) (hes : c₀.after es = some c) (hm : c.meet e = some c') :
    Diligent c₀ (es ++ [e]) c' := by
  have hc := change_of_meet hm
  have he := h.exclusive.change hc
  cases hc with
  | asked path content => exact h.receive hes rfl (listed_ofFile path content) rfl rfl rfl rfl rfl
  | askedMany files => exact h.receive hes rfl (listed_ofFiles files) rfl rfl rfl rfl rfl
  | moved => exact h.move hes hm
  | _ => exact h.rest hes he rfl rfl rfl rfl

theorem after (h : Diligent c₀ [] c₀) (hrun : c₀.after es = some c) : Diligent c₀ es c := by
  induction es using List.reverseRecOn generalizing c with
  | nil => cases hrun; exact h
  | append_singleton es e ih =>
    rw [after_append] at hrun
    obtain ⟨c₁, h₁, hrun⟩ := Option.bind_eq_some_iff.1 hrun
    rw [after_singleton] at hrun
    exact (ih h₁).step h₁ hrun

end Diligent

theorem bounded_of_tried {log : String → List Deed} (h : r.Tried limit log) (hhand : r.InHand)
    (path : String) : Bounded limit (log path) := by
  by_cases hp : path ∈ r.concerns
  · simp only [Request.concerns, List.mem_append] at hp
    rcases hp with ((hp | hp) | hp) | hp
    · obtain ⟨slot, hslot, rfl⟩ := List.mem_map.1 hp
      exact (h.slots slot hslot).bounded (hhand.proper slot hslot)
    · obtain ⟨f, hf, rfl⟩ := List.mem_map.1 hp
      exact (h.finished f hf).bounded
    · obtain ⟨report, hreport, rfl⟩ := List.mem_map.1 hp
      exact (h.told report hreport).bounded
    · obtain ⟨e, he, rfl⟩ := List.mem_map.1 hp
      obtain ⟨he, hk⟩ := List.mem_filter.1 he
      exact (h.errors e he).bounded (of_decide_eq_true hk)
  · rw [h.idle path hp]
    exact bounded_nil limit

theorem told_of_outcome {outcome : RequestOutcome} (h : r.outcome? = some outcome) :
    r.told = outcome.reports := by
  cases r with
  | file path content phase =>
    cases phase with
    | done result => cases h; cases result <;> rfl
    | _ => cases h
  | batch phase =>
    cases phase with
    | done report => cases h; rfl
    | _ => cases h

theorem check_of_start {backend : Backend σ τ} {settings : Settings} {chunker : Option Chunker}
    {store : σ} {starts : StartPlan}
    (h : start backend settings chunker store starts = .ok c) :
    settings.check = .ok c.settings := by
  obtain ⟨settings', pool, hs, -, rfl⟩ := start_eq_ok h
  exact hs

end Coordinator

theorem Settings.maxRetries_le {s s' : Settings} (h : s.check = .ok s') :
    s'.pool.maxRetries ≤ maxRetriesLimit := by
  unfold check at h
  cases he : s.firstError with
  | some error => rw [he] at h; cases h
  | none =>
    rw [he] at h
    cases h
    by_contra hlt
    unfold firstError at he
    split at he
    · cases he
    split at he
    · cases he
    rw [if_pos (Nat.lt_of_not_le hlt)] at he
    cases he

namespace Coordinator

variable {σ τ : Type} {c₀ c : Coordinator σ τ} {es : List (Event σ)}

/-- **Attempts are bounded and exact.**  At any time of any run, with any store: a request
    submits a path at most `maxRetries + 1` times, which is at most 17, and its attempts end
    after so many steps: a file that is being prepared can move, unless the pool has still to
    answer its last submission, and as long as it has to be parsed each move is one of these
    steps.  A success that is reported was found without a submission, or
    there were as many submissions as the report says, which is up to the first reply that is
    neither a timeout nor a crash but no more than the limit, whatever further replies would
    have been; the last reply was the parse result, and it was entered into the cache once.
    For a failure to parse the same holds of the number that it tells, the last reply is the
    error that it tells, and nothing was entered.  What is counted here is what happens: each
    submission, answer and entry is that of the pool and the cache, and there are no others. -/
theorem retries_exact {backend : Backend σ τ} {settings : Settings} {chunker : Option Chunker}
    {store : σ} {starts : StartPlan}
    (hstart : start backend settings chunker store starts = .ok c₀)
    (hrun : c₀.after es = some c) :
    c.settings.pool.maxRetries + 1 ≤ 17 ∧
    (∀ id r, c.requests.get? id = some r →
      (∀ path, Bounded (c.settings.pool.maxRetries + 1) (c₀.deedsFor id path es)) ∧
      (∀ place slot, r.moving? place = some slot →
        slot.stage.Tried (c.settings.pool.maxRetries + 1) (c₀.deedsFor id slot.path es) ∧
        ((∃ ticket, slot.stage.ticket? = some ticket ∧ c.pool.outcome? ticket = none) ∨
          (c.act (.turn ⟨id, place⟩)).isSome ∧
            (slot.stage.isParsing = true → (c.deed? (.act (.turn ⟨id, place⟩))).isSome))) ∧
      ∀ outcome, r.outcome? = some outcome →
        (∀ report ∈ outcome.reports, report.Tried (c.settings.pool.maxRetries + 1)
          (c₀.deedsFor id report.path es)) ∧
        ∀ e ∈ outcome.errors, e.Tried (c.settings.pool.maxRetries + 1)
          (c₀.deedsFor id e.path es)) ∧
    ∀ pre e post c₁ c₂, es = pre ++ e :: post → c₀.after pre = some c₁ → c₁.meet e = some c₂ →
      (∀ d, c₁.deed? e = some d → Enacts c₁ d.2.1 c₂ d.2.2) ∧
      (c₁.deed? e = none → (∀ x ∈ c₂.cache.entries, x ∈ c₁.cache.entries) ∧
        ∀ t, e = .act (.turn t) → c₂.pool = c₁.pool) := by
  have h := (Diligent.start hstart).after hrun
  refine ⟨?_, fun id r hr => ⟨fun path => ?_, fun place slot hm => ⟨?_, ?_⟩, fun outcome ho => ?_⟩,
    fun pre e post c₁ c₂ _ _ hmeet => enacts_of_meet hmeet⟩
  · have hsettings := (setup_after hrun).2.1
    rw [hsettings]
    exact Nat.succ_le_succ (Settings.maxRetries_le (check_of_start hstart))
  · exact bounded_of_tried (h.tried hr) (h.exclusive.inHand r (Table.mem_values_of_get? hr)) path
  · exact (h.tried hr).slots slot (mem_slots_of_moving hm)
  · by_cases hwait : ∀ ticket, slot.stage.ticket? = some ticket → c.pool.outcome? ticket ≠ none
    · exact Or.inr ⟨turn_isSome_of_moving hr hm hwait, deed?_isSome_of_moving hr hm hwait⟩
    · push Not at hwait
      exact Or.inl hwait
  · have htried := h.tried hr
    rw [← told_of_outcome ho, ← (spec_of_outcome ho).1]
    exact ⟨htried.told, htried.errors⟩

/-- With one retry, the first parse of `a` crashes and the second succeeds, while both parses
    of `b` crash. -/
theorem retries_exact_sample :
    let turns : RequestId → Nat → List (Event FaultyStore) := fun id count =>
      List.replicate count (.act (.turn ⟨id, 0⟩))
    let job : WorkerId → ParseOutcome → List (Event FaultyStore) := fun worker outcome =>
      [.act (.pool .takeCommand), .act (.pool (.receive worker)),
        .act (.pool (.finish worker outcome)), .act (.pool .takeEvent)]
    let es : List (Event FaultyStore) :=
      [.act (.index "a" "fn f")] ++ turns 1 4 ++ job 0 (.crashed "x") ++ turns 1 2 ++
      job 1 (.returned (.ok ⟨[.ofLines "f" .function 1 1], 0⟩)) ++ turns 1 8 ++
      [.act (.index "b" "fn g")] ++ turns 2 4 ++ job 1 (.crashed "x") ++ turns 2 2 ++
      job 2 (.crashed "y") ++ turns 2 3
    let log : RequestId → String → List Deed := fun id path =>
      Chronicle.sample.coordinator.deedsFor id path es
    ∃ c r r' report parsed, Chronicle.sample.coordinator.after es = some c ∧
      c.requests.get? 1 = some r ∧ r.told = [report] ∧ report.parseAttempts = 2 ∧
      Concluded 2 2 (.ok parsed) (log 1 "a") ∧ entries (log 1 "a") = [parsed] ∧
      c.requests.get? 2 = some r' ∧
      r'.errors = [.parseFailure "b" 2 (.workerCrashed "y")] ∧
      Concluded 2 2 (.error (.workerCrashed "y")) (log 2 "b") ∧ entries (log 2 "b") = [] := by
  intro turns job es log
  have hcheck : (Chronicle.sample.coordinator.after es).any (fun c =>
      (c.requests.get? 1).any fun r => (c.requests.get? 2).any fun r' =>
        r.told.head?.any fun report => decide (r.outcome?.isSome ∧ r'.outcome?.isSome ∧
          r.told = [report] ∧ report.path = "a" ∧ report.mode = .full ∧ report.cacheHit = false ∧
          report.parseAttempts = 2 ∧ r'.errors = [.parseFailure "b" 2 (.workerCrashed "y")] ∧
          c.settings.pool.maxRetries = 1)) = true := by
    decide +kernel
  obtain ⟨c, hc, hcheck⟩ := (Option.any_eq_true _ _).1 hcheck
  obtain ⟨r, hr, hcheck⟩ := (Option.any_eq_true _ _).1 hcheck
  obtain ⟨r', hr', hcheck⟩ := (Option.any_eq_true _ _).1 hcheck
  obtain ⟨report, -, hcheck⟩ := (Option.any_eq_true _ _).1 hcheck
  obtain ⟨hdone, hdone', htold, hpath, hmode, hhit, hattempts, herrors, hretries⟩ :=
    of_decide_eq_true hcheck
  obtain ⟨outcome, ho⟩ := Option.isSome_iff_exists.1 hdone
  obtain ⟨outcome', ho'⟩ := Option.isSome_iff_exists.1 hdone'
  obtain ⟨settings, starts, store, -, -, hstart, -⟩ := Chronicle.sample_started
  obtain ⟨-, hrequests, -⟩ := retries_exact hstart hc
  rw [hretries] at hrequests
  have hreport := ((hrequests 1 r hr).2.2 outcome ho).1 report
    (by rw [← told_of_outcome ho, htold]; exact List.mem_cons_self)
  have herror := ((hrequests 2 r' hr').2.2 outcome' ho').2 _
    (by rw [← (spec_of_outcome ho').1, herrors]; exact List.mem_cons_self)
  rcases hreport with ⟨hskipped, -⟩ | ⟨-, -, parsed, hdone, hentries⟩
  · rw [hmode, hhit] at hskipped
    rcases hskipped with h | h <;> cases h
  · rw [hattempts, hpath] at hdone
    rw [hpath] at hentries
    exact ⟨c, r, r', report, parsed, hc, hr, htold, hattempts, hdone, hentries, hr', herrors,
      herror.1, herror.2⟩

end Coordinator

end SourceIndex
