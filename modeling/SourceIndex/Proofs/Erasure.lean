/-
  Transactions that are given up and operations that fail leave no trace.

  * `StoreSession.transcript`: the operations of a session with their replies;
  * `Standing`, `marked`: every entry of a transcript with what it belongs to: no
    transaction, one that ends in a commit, or one that does not;
  * `withoutAborted`, `withoutFailures`: a transcript without the entries of
    transactions that do not commit, or without the operations that failed;
  * `Shadows`: how a session goes on beside the same session without the transactions
    that do not commit.  One step keeps it (`Shadows.step`, `Shadows.skip`), and so does a
    run (`replay_erase`);
  * `erasure_unseen`: what is left of a transcript is the transcript of the operations
    that are left, and all reads and all numbers of committed transactions are in it.
-/
import SourceIndex.Proofs.Permanence

namespace SourceIndex

/-- Operations of a session with their replies. -/
abbrev Transcript := List (StoreOp × StoreReply)

/-- The operations with the replies that the session gives to them. -/
def StoreSession.transcript : StoreSession → List StoreOp → Transcript
  | _, [] => []
  | s, op :: ops => (op, (op.run s).1) :: transcript (op.run s).2 ops

/-- Does the operation only read what is committed? -/
def StoreOp.isRead : StoreOp → Bool
  | dump _ | counts | findFile _ | findSymbols _ | analyze .. => true
  | _ => false

/-- What an operation of a transaction has answered. -/
def StoreReply.granted? : StoreReply → Option TransactionReply
  | within reply => some reply
  | _ => none

namespace Transcript

/-! ## What the entries belong to -/

/-- What an entry of a transcript belongs to. -/
inductive Standing where
  /-- no transaction -/
  | apart
  /-- a transaction that ends in a commit -/
  | kept
  /-- a transaction that is given up, or still open at the end -/
  | lost
  deriving DecidableEq

/-- Does the transaction that is open before the entries end in a commit? -/
def commits : Transcript → Bool
  | [] => false
  | (.commit, _) :: _ => true
  | (.rollback, _) :: _ => false
  | (.drop, _) :: _ => false
  | _ :: t => commits t

namespace Standing

/-- The transaction that is open after an attempt to open one, which is refused if
    there is one; `t` is what follows. -/
def opened (t : Transcript) : Standing → Standing
  | apart => if commits t then kept else lost
  | held => held

/-- What an operation belongs to, if `held` stands for the open transaction. -/
def mark (held : Standing) (t : Transcript) : StoreOp → Standing
  | .openTransaction => held.opened t
  | .commit | .rollback | .drop | .within _ => held
  | _ => apart

/-- The open transaction after an operation. -/
def next (held : Standing) (t : Transcript) : StoreOp → Standing
  | .openTransaction => held.opened t
  | .commit | .rollback | .drop => apart
  | _ => held

end Standing

/-- The entries with what they belong to. -/
def marked : Standing → Transcript → List (Standing × StoreOp × StoreReply)
  | _, [] => []
  | held, e :: t => (held.mark t e.1, e) :: marked (held.next t e.1) t

/-- The entries that are left without the transactions that do not commit. -/
def erase (held : Standing) (t : Transcript) : Transcript :=
  ((marked held t).filter (·.1 ≠ .lost)).map (·.2)

/-- The transcript without the transactions that do not commit.  An attempt to open a
    transaction that was refused as long as one of these was open goes with it. -/
def withoutAborted (t : Transcript) : Transcript :=
  erase .apart t

/-- Is the entry an operation of a transaction that failed? -/
def isFailure : StoreOp × StoreReply → Bool
  | (.within _, .failed _) => true
  | _ => false

/-- The transcript without the operations that failed. -/
def withoutFailures (t : Transcript) : Transcript :=
  t.filter (!isFailure ·)

/-- What was read of the committed rows. -/
def reads (t : Transcript) : Transcript :=
  t.filter (·.1.isRead)

/-- What the transactions that commit were answered, among it the numbers of the rows
    they stored. -/
def granted (t : Transcript) : List TransactionReply :=
  (marked .apart t).filterMap fun m => if m.1 = .kept then m.2.2.granted? else none

variable {held : Standing} {op : StoreOp} {reply : StoreReply} {t : Transcript}
  {e : StoreOp × StoreReply}

@[simp] theorem marked_cons (e : StoreOp × StoreReply) :
    marked held (e :: t) = (held.mark t e.1, e) :: marked (held.next t e.1) t := rfl

theorem erase_cons_of_lost (h : held.mark t e.1 = .lost) :
    erase held (e :: t) = erase (held.next t e.1) t := by
  simp [erase, h]

theorem erase_cons (h : held.mark t e.1 ≠ .lost) :
    erase held (e :: t) = e :: erase (held.next t e.1) t := by
  simp [erase, h]

theorem commits_of_opened (h : Standing.apart.opened t ≠ .lost) : commits t = true := by
  by_contra hc
  exact h (by simp [Standing.opened, hc])

theorem commits_of_next_lost (hnext : held.next t op = .lost)
    (h : held = .lost → commits ((op, reply) :: t) = false) : commits t = false := by
  cases op with
  | openTransaction =>
    cases held with
    | apart =>
      cases hc : commits t with
      | false => rfl
      | true => simp [Standing.next, Standing.opened, hc] at hnext
    | kept => cases hnext
    | lost => exact h rfl
  | commit | rollback | drop => cases hnext
  | _ => exact h hnext

theorem commits_erase_kept (t : Transcript) : commits (erase .kept t) = commits t := by
  induction t with
  | nil => rfl
  | cons e t ih =>
    obtain ⟨op, reply⟩ := e
    rw [erase_cons (by cases op <;> simp [Standing.mark, Standing.opened])]
    cases op with
    | commit | rollback | drop => rfl
    | _ => exact ih

theorem commits_withoutFailures (t : Transcript) : commits (withoutFailures t) = commits t := by
  induction t with
  | nil => rfl
  | cons e t ih =>
    obtain ⟨op, reply⟩ := e
    cases op with
    | commit | rollback | drop => rfl
    | within op =>
      cases reply with
      | failed fault => exact ih
      | _ => exact ih
    | _ => exact ih

/-- The open transaction in what is left. -/
def Standing.shown : Standing → Standing
  | lost => apart
  | held => held

theorem marked_erase (held : Standing) (t : Transcript) :
    marked held.shown (erase held t) = (marked held t).filter (·.1 ≠ .lost) := by
  induction t generalizing held with
  | nil => rfl
  | cons e t ih =>
    obtain ⟨op, reply⟩ := e
    by_cases hmark : held.mark t op = .lost
    · have hshown : held.shown = (held.next t op).shown := by
        cases op with
        | openTransaction =>
          rw [Standing.next, show held.opened t = .lost from hmark]
          cases held with
          | kept => cases hmark
          | _ => rfl
        | commit | rollback | drop | within => rw [show held = .lost from hmark]; rfl
        | _ => cases hmark
      rw [erase_cons_of_lost hmark, hshown, ih]
      simp [hmark]
    · have hsame : held.shown.mark (erase (held.next t op) t) op = held.mark t op ∧
          held.shown.next (erase (held.next t op) t) op = (held.next t op).shown := by
        cases op with
        | openTransaction =>
          cases held with
          | apart =>
            -- the transaction that is opened here commits, also in what is left
            have hcommits := commits_of_opened hmark
            simp [Standing.mark, Standing.next, Standing.shown, Standing.opened, commits_erase_kept,
              hcommits]
          | kept => exact ⟨rfl, rfl⟩
          | lost => exact (hmark rfl).elim
        | commit | rollback | drop | within =>
          cases held with
          | lost => exact (hmark rfl).elim
          | _ => exact ⟨rfl, rfl⟩
        | _ => exact ⟨rfl, rfl⟩
      rw [erase_cons hmark, marked_cons, hsame.1, hsame.2, ih]
      simp [hmark]

theorem marked_withoutFailures (held : Standing) (t : Transcript) :
    marked held (withoutFailures t) = (marked held t).filter fun m => !isFailure m.2 := by
  induction t generalizing held with
  | nil => rfl
  | cons e t ih =>
    obtain ⟨op, reply⟩ := e
    by_cases hfail : isFailure (op, reply) = true
    · have hnext : held.next t op = held := by
        cases op with
        | within op => rfl
        | _ => cases hfail
      have herase : withoutFailures ((op, reply) :: t) = withoutFailures t := by
        simp [withoutFailures, hfail]
      rw [herase, ih, marked_cons, hnext]
      simp [hfail]
    · have herase : withoutFailures ((op, reply) :: t) = (op, reply) :: withoutFailures t := by
        simp [withoutFailures, hfail]
      have hopened : held.opened (withoutFailures t) = held.opened t := by
        cases held <;> simp [Standing.opened, commits_withoutFailures]
      have hsame : held.mark (withoutFailures t) op = held.mark t op ∧
          held.next (withoutFailures t) op = held.next t op := by
        cases op with
        | openTransaction => exact ⟨hopened, hopened⟩
        | _ => exact ⟨rfl, rfl⟩
      rw [herase, marked_cons, hsame.1, hsame.2, ih]
      simp [hfail]

theorem granted_withoutAborted (t : Transcript) : granted (withoutAborted t) = granted t := by
  have hmarked : marked .apart (withoutAborted t) = (marked .apart t).filter (·.1 ≠ .lost) :=
    marked_erase .apart t
  rw [granted, hmarked, List.filterMap_filter]
  refine List.filterMap_congr fun m _ => ?_
  cases m.1 <;> rfl

theorem granted_withoutFailures (t : Transcript) : granted (withoutFailures t) = granted t := by
  rw [granted, marked_withoutFailures, List.filterMap_filter]
  refine List.filterMap_congr fun m _ => ?_
  by_cases hfail : isFailure m.2 = true
  · obtain ⟨standing, op, reply⟩ := m
    cases reply with
    | failed fault => simp [StoreReply.granted?]
    | _ => cases op <;> cases hfail
  · simp [hfail]

theorem reads_erase (held : Standing) (t : Transcript) : reads (erase held t) = reads t := by
  induction t generalizing held with
  | nil => rfl
  | cons e t ih =>
    by_cases hmark : held.mark t e.1 = .lost
    · have hread : e.1.isRead = false := by
        cases h : e.1 with
        | openTransaction | commit | rollback | drop | within | failWrites | clearFailures => rfl
        | _ => rw [h] at hmark; cases hmark
      rw [erase_cons_of_lost hmark, ih]
      simp [reads, hread]
    · have ih := ih (held.next t e.1)
      unfold reads at ih ⊢
      rw [erase_cons hmark, List.filter_cons, List.filter_cons, ih]

theorem reads_withoutFailures (t : Transcript) : reads (withoutFailures t) = reads t := by
  rw [reads, withoutFailures, List.filter_filter, reads]
  refine List.filter_congr fun e _ => ?_
  obtain ⟨op, reply⟩ := e
  cases op with
  | within op => rfl
  | _ => exact Bool.and_true _

end Transcript

/-! ## Sessions side by side -/

/-- What two sessions have open, of which the second one goes without the transactions
    that do not commit. -/
def Transcript.Standing.Opens : Standing → Option Transaction → Option Transaction → Prop
  | apart, open?, open?' => open? = none ∧ open?' = none
  | kept, open?, open?' => ∃ tx, open? = some tx ∧ open?' = some tx
  | lost, open?, open?' => (∃ tx, open? = some tx) ∧ open?' = none

namespace StoreSession

open Transcript

variable {s s' : StoreSession} {held : Standing} {op : StoreOp} {t : Transcript}
  {act : Transaction → StoreReply × StoreSession}

/-- The second session goes on beside the first one, without the transactions that do
    not commit: `held` stands for the transaction that is open in the first one. -/
structure Shadows (held : Standing) (s s' : StoreSession) : Prop where
  committed : s'.store.committed = s.store.committed
  rules : s'.store.rules = s.store.rules
  commits : s'.store.commits = s.store.commits
  opens : held.Opens s.open? s'.open?

theorem onTransaction_of_none (h : s.open? = none) : s.onTransaction act = (.noTransaction, s) := by
  rw [onTransaction, h]

theorem onTransaction_of_some {tx : Transaction} (h : s.open? = some tx) :
    s.onTransaction act = act tx := by
  rw [onTransaction, h]

namespace Shadows

theorem read (h : Shadows held s s') (hop : op.isRead = true) : (op.run s').1 = (op.run s).1 := by
  cases op with
  | dump path => simp [StoreOp.run, Store.dump, h.committed]
  | counts => simp [StoreOp.run, h.committed, h.commits]
  | findFile path => simp [StoreOp.run, h.committed]
  | findSymbols file => simp [StoreOp.run, h.committed]
  | analyze policy path content symbols => simp [StoreOp.run, Store.analyze, h.committed]
  | _ => cases hop

/-- An operation that belongs to a transaction which does not commit is left out. -/
theorem skip (h : Shadows held s s') (hmark : held.mark t op = .lost)
    (hcommit : op = .commit → held ≠ .lost) : Shadows (held.next t op) (op.run s).2 s' := by
  cases op with
  | openTransaction =>
    rw [show held.next t .openTransaction = .lost from hmark, StoreOp.run]
    cases held with
    | apart =>
      obtain ⟨ho, ho'⟩ := h.opens
      rw [ho]
      exact ⟨h.committed, h.rules, h.commits, ⟨_, rfl⟩, ho'⟩
    | kept => cases hmark
    | lost =>
      obtain ⟨⟨tx, ho⟩, -⟩ := h.opens
      rw [ho]
      exact h
  | commit => exact (hcommit rfl hmark).elim
  | rollback | drop =>
    obtain rfl : held = .lost := hmark
    obtain ⟨⟨tx, ho⟩, ho'⟩ := h.opens
    rw [StoreOp.run, onTransaction_of_some ho]
    exact ⟨h.committed, h.rules, h.commits, rfl, ho'⟩
  | within op =>
    obtain rfl : held = .lost := hmark
    obtain ⟨⟨tx, ho⟩, ho'⟩ := h.opens
    rw [StoreOp.run, onTransaction_of_some ho]
    cases op.run s.store.rules tx with
    | error fault => exact h
    | ok result => exact ⟨h.committed, h.rules, h.commits, ⟨_, rfl⟩, ho'⟩
  | _ => cases hmark

theorem onTransaction (h : Shadows held s s') (hheld : held ≠ .lost)
    {act' : Transaction → StoreReply × StoreSession} {after : Standing}
    (hnone : held = .apart → after = .apart)
    (hact : ∀ tx, held = .kept → s.open? = some tx → s'.open? = some tx →
      (act' tx).1 = (act tx).1 ∧ Shadows after (act tx).2 (act' tx).2) :
    (s'.onTransaction act').1 = (s.onTransaction act).1 ∧
      Shadows after (s.onTransaction act).2 (s'.onTransaction act').2 := by
  cases held with
  | apart =>
    obtain ⟨ho, ho'⟩ := h.opens
    rw [onTransaction_of_none ho, onTransaction_of_none ho', hnone rfl]
    exact ⟨rfl, h⟩
  | kept =>
    obtain ⟨tx, ho, ho'⟩ := h.opens
    rw [onTransaction_of_some ho, onTransaction_of_some ho']
    exact hact tx rfl ho ho'
  | lost => exact (hheld rfl).elim

/-- Every other operation is answered the same in both sessions. -/
theorem step (h : Shadows held s s') (hmark : held.mark t op ≠ .lost) :
    (op.run s').1 = (op.run s).1 ∧ Shadows (held.next t op) (op.run s).2 (op.run s').2 := by
  cases op with
  | dump | counts | findFile | findSymbols | analyze => exact ⟨h.read rfl, h⟩
  | clearFailures =>
    refine ⟨rfl, h.committed, ?_, h.commits, h.opens⟩
    simp [StoreOp.run, Store.clearFailures, h.rules]
  | failWrites path =>
    rw [StoreOp.run, StoreOp.run, Store.failWrites_eq, Store.failWrites_eq, h.rules]
    exact ⟨rfl, h.committed, rfl, h.commits, h.opens⟩
  | openTransaction =>
    simp only [StoreOp.run]
    cases held with
    | apart =>
      obtain ⟨ho, ho'⟩ := h.opens
      rw [ho, ho', show Standing.apart.next t .openTransaction = .kept by
        simp [Standing.next, Standing.opened, commits_of_opened hmark]]
      refine ⟨rfl, h.committed, h.rules, h.commits, _, rfl, ?_⟩
      simp [Store.openTransaction, h.committed]
    | kept =>
      obtain ⟨tx, ho, ho'⟩ := h.opens
      rw [ho, ho']
      exact ⟨rfl, h⟩
    | lost => exact (hmark rfl).elim
  | commit =>
    refine h.onTransaction hmark (fun _ => rfl) fun tx _ _ _ => ⟨rfl, rfl, h.rules, ?_, rfl, rfl⟩
    simp [Store.commit, h.commits]
  | rollback | drop =>
    exact h.onTransaction hmark (fun _ => rfl) fun tx _ _ _ =>
      ⟨rfl, h.committed, h.rules, h.commits, rfl, rfl⟩
  | within op =>
    refine h.onTransaction hmark id fun tx hkept ho ho' => ?_
    rw [h.rules]
    cases op.run s.store.rules tx with
    | error fault => exact ⟨rfl, h⟩
    | ok result =>
      refine ⟨rfl, h.committed, h.rules, h.commits, ?_⟩
      rw [hkept]
      exact ⟨_, rfl, rfl⟩

/-- What is left of the transcript of the first session is the transcript that the second
    one gives to the operations that are left. -/
theorem replay_erase (h : Shadows held s s') (ops : List StoreOp)
    (hlost : held = .lost → Transcript.commits (s.transcript ops) = false) :
    s'.transcript ((erase held (s.transcript ops)).map (·.1)) = erase held (s.transcript ops) ∧
      ∃ held', Shadows held' (s.after ops)
        (s'.after ((erase held (s.transcript ops)).map (·.1))) := by
  induction ops generalizing held s s' with
  | nil => exact ⟨rfl, held, h⟩
  | cons op ops ih =>
    rw [transcript]
    have hrest : held.next (transcript (op.run s).2 ops) op = .lost →
        Transcript.commits (transcript (op.run s).2 ops) = false := fun hnext =>
      commits_of_next_lost hnext hlost
    by_cases hmark : held.mark (transcript (op.run s).2 ops) op = .lost
    · rw [erase_cons_of_lost hmark]
      refine ih (h.skip hmark ?_) hrest
      rintro rfl rfl
      cases hlost rfl
    · obtain ⟨hreply, hstep⟩ := h.step hmark
      obtain ⟨hreplay, hafter⟩ := ih hstep hrest
      rw [erase_cons hmark, List.map_cons, transcript, hreply, hreplay]
      exact ⟨rfl, hafter⟩

end Shadows

/-! ## Operations that fail -/

/-- An operation of a transaction that fails changes nothing. -/
theorem run_of_isFailure (h : isFailure (op, (op.run s).1) = true) : (op.run s).2 = s := by
  cases op with
  | within op =>
    rw [StoreOp.run] at h ⊢
    cases ho : s.open? with
    | none => rw [onTransaction_of_none ho]
    | some tx =>
      rw [onTransaction_of_some ho] at h ⊢
      cases hrun : op.run s.store.rules tx with
      | error fault => rfl
      | ok result =>
        rw [hrun] at h
        cases h
  | _ => cases h

theorem replay_withoutFailures (s : StoreSession) (ops : List StoreOp) :
    s.transcript ((withoutFailures (s.transcript ops)).map (·.1)) =
        withoutFailures (s.transcript ops) ∧
      s.after ((withoutFailures (s.transcript ops)).map (·.1)) = s.after ops := by
  induction ops generalizing s with
  | nil => exact ⟨rfl, rfl⟩
  | cons op ops ih =>
    by_cases hfail : isFailure (op, (op.run s).1) = true
    · have hsame := run_of_isFailure hfail
      have herase : withoutFailures (s.transcript (op :: ops)) =
          withoutFailures (s.transcript ops) := by
        rw [transcript, hsame]
        simp [withoutFailures, hfail]
      have hafter : s.after (op :: ops) = s.after ops :=
        congrArg (fun s => after s ops) hsame
      rw [herase, hafter]
      exact ih s
    · have herase : withoutFailures (s.transcript (op :: ops)) =
          (op, (op.run s).1) :: withoutFailures ((op.run s).2.transcript ops) := by
        simp [transcript, withoutFailures, hfail]
      obtain ⟨hreplay, hafter⟩ := ih (op.run s).2
      rw [herase, List.map_cons, transcript, hreplay]
      exact ⟨rfl, hafter⟩

end StoreSession

/-! ## Histories with entries left out -/

/-- What is left of the history of a store shows no difference: it is what a session gets
    with the operations that are left, it has all that was read of the committed rows and
    all that was answered to the transactions that commit, and after it everything
    reads as after the whole history. -/
structure Transcript.Unseen (store : Store) (ops : List StoreOp) (left : Transcript) : Prop where
  replay : StoreSession.transcript { store } (left.map (·.1)) = left
  reads : left.reads = (StoreSession.transcript { store } ops).reads
  granted : left.granted = (StoreSession.transcript { store } ops).granted
  read : ∀ op : StoreOp, op.isRead = true →
    (op.run (StoreSession.after { store } (left.map (·.1)))).1 =
      (op.run (StoreSession.after { store } ops)).1

/-- **Transactions that are given up and operations that fail leave no trace.**  In every
    history of a store the operations of the transactions that are rolled back, dropped or
    still open can be left out, and so can the operations of transactions that fail. -/
theorem Store.erasure_unseen (store : Store) (ops : List StoreOp) :
    let history := StoreSession.transcript { store } ops
    Transcript.Unseen store ops history.withoutAborted ∧
      Transcript.Unseen store ops history.withoutFailures := by
  intro history
  have hstart : StoreSession.Shadows .apart { store } { store } := ⟨rfl, rfl, rfl, rfl, rfl⟩
  obtain ⟨hreplay, held, hafter⟩ := hstart.replay_erase ops (by simp)
  obtain ⟨hreplay', hafter'⟩ := StoreSession.replay_withoutFailures { store } ops
  refine ⟨⟨hreplay, history.reads_erase _, history.granted_withoutAborted, ?_⟩,
    ⟨hreplay', history.reads_withoutFailures, history.granted_withoutFailures, ?_⟩⟩
  · intro op hop
    exact hafter.read hop
  · intro op _
    rw [hafter']

end SourceIndex
