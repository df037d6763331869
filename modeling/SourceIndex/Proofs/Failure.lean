/-
  A request that fails leaves no trace.

  * `FilePhase.Unwritten`: a request for one file that has failed, or has not committed
    yet, has made no commit;
  * `FilePhase.Leased`: once a request has the lease of its path, it does not fail for
    want of it;
  * `Opened.failure_without_trace`: none of the steps of a failed request has changed
    what is committed, and it holds neither a lease nor the right to write.
-/
import SourceIndex.Proofs.Commits

namespace SourceIndex

/-- Before its commit and after a failure a request has made no commit. -/
def FilePhase.Unwritten (done : List (List Prepared)) : FilePhase Transaction → Prop
  | .trimming _ _ | .closing (.ok _) | .done (.ok _) => True
  | _ => done = []

/-- The request has the lease of its path, or has had it. -/
def FilePhase.Leased (path content : String) : FilePhase Transaction → Prop
  | .arriving => False
  | .preparing stage => stage.Proper path content
  | .closing (.error error) | .done (.error error) => error.kind ≠ .pathBusy
  | _ => True

/-- The request waits for the lease of its path, or has failed for want of it. -/
def FilePhase.Unleased (path : String) (phase : FilePhase Transaction) : Prop :=
  phase = .arriving ∨ phase = .done (.error (.pathBusy path))

/-- The file, its content and the error of a request that has failed. -/
def Request.failure? {τ : Type} : Request τ → Option (String × String × IndexError)
  | .file path content (.done (.error error)) => some (path, content, error)
  | _ => none

theorem Request.eq_of_failure? {τ : Type} {r : Request τ} {path content : String}
    {error : IndexError} (h : r.failure? = some (path, content, error)) :
    r = .file path content (.done (.error error)) := by
  cases r with
  | batch phase => cases h
  | file path' content' phase =>
    cases phase with
    | done outcome =>
      cases outcome with
      | ok report => cases h
      | error error' => cases h; rfl
    | _ => cases h

namespace Coordinator

variable {c c' : MemoryCoordinator} {path content : String} {phase phase' : FilePhase Transaction}

theorem FileStep.keeps_unwritten {done : List (List Prepared)}
    (h : FileStep c path content phase phase' c') (hp : phase.Unwritten done) :
    phase'.Unwritten (done ++ (c.commitOf? (.file path content phase)).toList) := by
  have hnone : ∀ {r : Request Transaction}, done = [] → c.commitOf? r = none →
      done ++ (c.commitOf? r).toList = [] := by
    rintro r rfl hr
    rw [hr]
    rfl
  cases h with
  | skipped | committed | trimmed => trivial
  | uncommitted hc =>
    refine hnone hp ?_
    rw [commitOf?, hc]
    rfl
  | @closed outcome =>
    cases outcome with
    | error => exact hnone hp rfl
    | ok => trivial
  | _ => exact hnone hp rfl

theorem FileStep.keeps_leased (h : FileStep c path content phase phase' c')
    (hp : phase.Leased path content) : phase'.Leased path content := by
  cases h with
  | refused | leased => cases hp
  | prepared hs => exact hs.proper
  | failed => exact hp.2.1
  | unopened | uncommitted | undone => exact nofun
  | @closed outcome =>
    cases outcome with
    | error => exact hp
    | ok => trivial
  | _ => trivial

/-- Until a request for one file has its lease it waits for it, unless it has failed. -/
theorem FileStep.keeps_unleased (h : FileStep c path content phase phase' c')
    (hp : phase.Leased path content ∨ phase.Unleased path) :
    phase'.Leased path content ∨ phase'.Unleased path := by
  rcases hp with hp | rfl | rfl
  · exact Or.inl (h.keeps_leased hp)
  · cases h with
    | refused => exact Or.inr (Or.inr rfl)
    | leased => exact Or.inl trivial
  · cases h

/-- A step of a request that commits nothing changes neither what is committed nor
    another request, and takes no lease of another request. -/
theorem Orderly.turn_without_commit (h : Orderly c) {id : RequestId} {place : Nat}
    (hx : c.undergo (.act (.turn ⟨id, place⟩)) = some c') {r : Request Transaction}
    (hr : c.requests.get? id = some r) (hnone : c.commitOf? r = none) :
    c'.rows = c.rows ∧ c'.store.store.commits = c.store.store.commits ∧
      ∀ {other r'}, other ≠ id → c.requests.get? other = some r' →
        c'.requests.get? other = some r' ∧ ∀ p ∈ r'.held, p ∈ c'.leases := by
  have h' := h.undergo hx
  obtain ⟨-, -, -, -, hrows⟩ := h.undergo_rows hx
  have hcommits := (h.undergo_store hx).1
  rw [commits_eq, commit?_turn hr, hnone] at hrows
  rw [commit?_turn hr, hnone] at hcommits
  refine ⟨hrows, hcommits, fun {other r'} hne hr' => ?_⟩
  rcases h.undergo_of_request hx hr' with ⟨place', _, _, he, -, -⟩ | ⟨-, hget⟩
  · cases he
    exact (hne rfl).elim
  · exact ⟨hget, fun p hp => h'.mem_leases.2 ⟨other, r', hget, hp⟩⟩

end Coordinator

namespace Chronicle

open Coordinator

variable {s s' : Chronicle} {xs : List Happening} {id : RequestId} {path content : String}
  {error : IndexError}

theorem commitsBy_of_failed (h : Orderly s.coordinator)
    (hr : s.coordinator.requests.get? id = some (.file path content .arriving))
    (hx : s.run xs = some s')
    (hdone : s'.coordinator.requests.get? id = some (.file path content (.done (.error error)))) :
    s.commitsBy id xs = [] := by
  obtain ⟨phase, hr', hp⟩ := follow_file (P := fun done phase => phase.Unwritten done)
    FileStep.keeps_unwritten h hr [] rfl hx
  rw [hdone] at hr'
  cases hr'
  exact hp

theorem kind_ne_of_leased (h : Orderly s.coordinator) {phase : FilePhase Transaction}
    (hr : s.coordinator.requests.get? id = some (.file path content phase))
    (hp : phase.Leased path content) (hx : s.run xs = some s')
    (hdone : s'.coordinator.requests.get? id = some (.file path content (.done (.error error)))) :
    error.kind ≠ .pathBusy := by
  obtain ⟨phase, hr', hp⟩ := follow_file (P := fun _ phase => phase.Leased path content)
    FileStep.keeps_leased h hr [] hp hx
  rw [hdone] at hr'
  cases hr'
  exact hp

theorem leases_of_pathBusy (h : Orderly s.coordinator)
    (hr : s.coordinator.requests.get? id = some (.file path content .arriving))
    {before after : List Happening} {place : Nat} {a b : Chronicle}
    (ha : s.run before = some a) (hb : a.step (.act (.turn ⟨id, place⟩)) = some b)
    (hx : b.run after = some s')
    (hdone : s'.coordinator.requests.get? id = some (.file path content (.done (.error error))))
    (hkind : error.kind = .pathBusy) : b.coordinator.leases = a.coordinator.leases := by
  have ho := orderly_run h ha
  obtain ⟨phase, hphase, hp⟩ := follow_file
    (P := fun _ phase => phase.Leased path content ∨ phase.Unleased path)
    FileStep.keeps_unleased h hr [] (Or.inr (Or.inl rfl)) ha
  obtain ⟨c', hc, rfl⟩ := Option.map_eq_some_iff.1 hb
  have ho' := ho.undergo hc
  rcases ho.undergo_of_request hc hphase with ⟨place', r', c₁, he, ht, rfl⟩ | ⟨hother, -⟩
  · cases ht with
    | @file _ _ _ phase' _ hstep =>
      have hleased : ¬phase'.Leased path content := fun hl =>
        kind_ne_of_leased ho' (Table.get?_put_self _ _ _) hl hx hdone hkind
      rcases hp with hp | rfl | rfl
      · exact (hleased (hstep.keeps_leased hp)).elim
      · cases hstep with
        | refused => rfl
        | leased => exact (hleased trivial).elim
      · cases hstep
  · exact (hother place rfl).elim

/-- **A request that fails leaves no trace.**  None of its steps changes what is
    committed, the numbers that come next and the count of commits included, or another
    request and its leases.  When it is over, the right to write and every lease are
    those of other requests, and if it failed for want of the lease it has taken none. -/
theorem Opened.failure_without_trace {start s₀ s₁ s₂ : Chronicle} {xs ys : List Happening}
    (h : start.Opened) (hxs : start.run xs = some s₀)
    (hask : s₀.step (.act (.index path content)) = some s₁)
    (hid : id = s₁.coordinator.lastRequest) (hys : s₁.run ys = some s₂)
    (hdone : s₂.coordinator.requests.get? id = some (.file path content (.done (.error error)))) :
    (∀ {before after place a b}, ys = before ++ .act (.turn ⟨id, place⟩) :: after →
      s₁.run before = some a → a.step (.act (.turn ⟨id, place⟩)) = some b →
      b.coordinator.rows = a.coordinator.rows ∧
      b.coordinator.store.store.commits = a.coordinator.store.store.commits ∧
      (error.kind = .pathBusy → b.coordinator.leases = a.coordinator.leases) ∧
      ∀ {other r}, other ≠ id → a.coordinator.requests.get? other = some r →
        b.coordinator.requests.get? other = some r ∧ ∀ p ∈ r.held, p ∈ b.coordinator.leases) ∧
    (s₂.coordinator.store.store.busy = true → ∃ other r, other ≠ id ∧
      s₂.coordinator.requests.get? other = some r ∧ r.open?.isSome) ∧
    ∀ p ∈ s₂.coordinator.leases, ∃ other r, other ≠ id ∧
      s₂.coordinator.requests.get? other = some r ∧ p ∈ r.held := by
  have h₀ := orderly_run h.orderly hxs
  have h₁ := (continues_step h₀ hask).orderly
  have hr₁ := hid ▸ request_of_index hask
  have h₂ := orderly_run h₁ hys
  refine ⟨?_, fun hbusy => ?_, fun p hp => ?_⟩
  · rintro before after place a b rfl ha hb
    have hnone := commitsBy_of_failed h₁ hr₁ hys hdone
    have horderly := orderly_run h₁ ha
    have hrest := run_of_append hys ha
    obtain ⟨phase, hr, -⟩ := follow_file (P := fun _ _ => True) (fun _ _ => trivial) h₁ hr₁
      [] trivial ha
    rw [commitsBy_append ha, commitsBy_turn hr hb, List.append_eq_nil_iff,
      List.append_eq_nil_iff, Option.toList_eq_nil_iff] at hnone
    rw [run_cons hb] at hrest
    obtain ⟨c', hc, rfl⟩ := Option.map_eq_some_iff.1 hb
    obtain ⟨hrows, hcommits, hothers⟩ := horderly.turn_without_commit hc hr hnone.2.1
    exact ⟨hrows, hcommits, leases_of_pathBusy h₁ hr₁ ha hb hrest hdone, hothers⟩
  · obtain ⟨other, r, hr, hopen⟩ := h₂.exists_writer hbusy
    refine ⟨other, r, ?_, hr, hopen⟩
    rintro rfl
    rw [hdone] at hr
    cases hr
    cases hopen
  · obtain ⟨other, r, hr, hheld⟩ := h₂.mem_leases.1 hp
    refine ⟨other, r, ?_, hr, hheld⟩
    rintro rfl
    rw [hdone] at hr
    cases hr
    cases hheld

/-- The file `a`, two symbols of which are unchanged, is written symbol by symbol, which
    the store rejects, while another request has the lease of `b`. -/
theorem Opened.failure_without_trace_sample :
    let symbols : List Symbol :=
      [.ofLines "f" .function 1 1, .ofLines "g" .function 2 2, .ofLines "h" .function 3 3]
    let xs : List Happening := [.act (.index "a" "fn f\nfn g\nfn h")] ++ Happening.turns 1 4 ++
      Happening.parse 0 symbols ++ Happening.turns 1 8 ++
      [.disturb ["a"] [], .act (.index "b" "fn k")] ++ Happening.turns 2 1
    let before : List Happening :=
      Happening.turns 3 5 ++ Happening.parse 0 symbols ++ Happening.turns 3 4
    let ys : List Happening := before ++ .act (.turn ⟨3, 0⟩) :: Happening.turns 3 2
    ∃ s₀ s₁ s₂ a b fault, sample.Opened ∧ sample.run xs = some s₀ ∧
      s₀.step (.act (.index "a" "fn f\nfn g\nfn h'")) = some s₁ ∧ s₁.run ys = some s₂ ∧
      s₂.coordinator.requests.get? 3 = some (.file "a" "fn f\nfn g\nfn h'"
        (.done (.error (.storageWriteFailure "a" .incremental fault)))) ∧
      s₁.run before = some a ∧ a.step (.act (.turn ⟨3, 0⟩)) = some b ∧
      a.coordinator.leases = ["b", "a"] ∧ b.coordinator.rows = a.coordinator.rows ∧
      b.coordinator.store.store.commits = a.coordinator.store.store.commits ∧
      s₂.coordinator.leases = ["b"] ∧
      ∀ p ∈ s₂.coordinator.leases, ∃ other r, other ≠ 3 ∧
        s₂.coordinator.requests.get? other = some r ∧ p ∈ r.held := by
  intro symbols xs before ys
  have hcheck : (sample.run xs).any (fun s₀ =>
      (s₀.step (.act (.index "a" "fn f\nfn g\nfn h'"))).any fun s₁ =>
        (s₁.run ys).any fun s₂ => (s₁.run before).any fun a =>
          (a.step (.act (.turn ⟨3, 0⟩))).any fun _ =>
            (s₂.coordinator.requests.get? 3).any fun r =>
              decide (s₁.coordinator.lastRequest = 3 ∧ a.coordinator.leases = ["b", "a"] ∧
                s₂.coordinator.leases = ["b"] ∧
                r.failure? = some ("a", "fn f\nfn g\nfn h'",
                  .storageWriteFailure "a" .incremental (.storage "write rejected for a")))) =
      true := by
    decide +kernel
  obtain ⟨s₀, hs₀, hcheck⟩ := (Option.any_eq_true _ _).1 hcheck
  obtain ⟨s₁, hs₁, hcheck⟩ := (Option.any_eq_true _ _).1 hcheck
  obtain ⟨s₂, hs₂, hcheck⟩ := (Option.any_eq_true _ _).1 hcheck
  obtain ⟨a, ha, hcheck⟩ := (Option.any_eq_true _ _).1 hcheck
  obtain ⟨b, hb, hcheck⟩ := (Option.any_eq_true _ _).1 hcheck
  obtain ⟨r, hr, hcheck⟩ := (Option.any_eq_true _ _).1 hcheck
  obtain ⟨hid, hleases, hleases', hfailure⟩ := of_decide_eq_true hcheck
  rw [Request.eq_of_failure? hfailure] at hr
  obtain ⟨hsteps, -, hothers⟩ :=
    sample_started.opened.failure_without_trace hs₀ hs₁ hid.symm hs₂ hr
  obtain ⟨hrows, hcommits, -⟩ := hsteps rfl ha hb
  exact ⟨s₀, s₁, s₂, a, b, _, sample_started.opened, hs₀, hs₁, hs₂, hr, ha, hb, hleases, hrows,
    hcommits, hleases', hothers⟩

end Chronicle

end SourceIndex
