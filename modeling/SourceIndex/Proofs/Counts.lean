/-
  The counts of a coordinator match the outcomes of its requests.

  * `Chronicle.past`: the phases that a request has gone through in a run;
  * `RequestOutcome.failures`, `RequestOutcome.writes`: what an outcome adds to the counts,
    given the past of its request, `Coordinator.total`: the sum over all requests;
  * `Request.ComesAfter`: what the past of a request is like, as long as it is under way;
  * `Counter.Fair`: a step of a request changes a count as it changes the share of the
    request, `Fair.run`: so the count is the sum of all shares, in every run;
  * `fair_reports`, `fair_failures`, `fair_writes`: the counts of the coordinator and that of
    the commits are fair;
  * `Opened.counts_match`: the counts when no request is under way.
-/
import SourceIndex.Proofs.Faultless
import SourceIndex.Proofs.Remembering

namespace SourceIndex

/-! ## Outcomes and their past -/

/-- The phase that a happening brings a request to, if it is a step of it. -/
def Coordinator.passage? (c : MemoryCoordinator) (id : RequestId) (x : Happening) :
    Option (Request Transaction) :=
  if x.isTurnOf id then (c.undergo x).bind (·.requests.get? id) else none

/-- The phases that a request goes through in a run. -/
def Chronicle.past (s : Chronicle) (id : RequestId) :
    List Happening → List (Request Transaction) :=
  s.gather fun c x => (c.passage? id x).toList

namespace Request

variable {τ : Type}

/-- Is it a batch that is about to write the files it has ready? -/
def isOpening : Request τ → Bool
  | .batch (.opening _ _ _) => true
  | _ => false

/-- Is it a batch that is about to be rolled back as a whole? -/
def isUndoing : Request τ → Bool
  | .batch (.undoing _ _ _) => true
  | _ => false

/-- Does it hold a lease? -/
def isLeased (r : Request τ) : Bool :=
  !r.held.isEmpty

/-- What an outcome counts, if the request is done. -/
def count (f : RequestOutcome → Nat) (r : Request τ) : Nat :=
  (r.outcome?.map f).getD 0

end Request

namespace RequestOutcome

/-- The files that have failed.  A request for one file has to have had the lease. -/
def failures (past : List (Request Transaction)) : RequestOutcome → Nat
  | .file (.ok _) => 0
  | .file (.error _) => if past.any Request.isLeased then 1 else 0
  | .batch report => report.failed.length

/-- The commits: of a file that is written, or of a batch that has had files to write and was
    not rolled back as a whole. -/
def writes (past : List (Request Transaction)) : RequestOutcome → Nat
  | .file (.ok report) => if report.mode = .skipped then 0 else 1
  | .file (.error _) => 0
  | .batch _ => if past.any Request.isOpening && !past.any Request.isUndoing then 1 else 0

end RequestOutcome

/-- The files that were indexed in a mode. -/
def Tallies.written (t : Tallies) : WriteMode → Nat
  | .full => t.fullWrites
  | .incremental => t.incrementalWrites
  | .skipped => t.skipped

namespace Coordinator

/-- The sum of a number for each request. -/
def total (c : MemoryCoordinator) (share : RequestId → Request Transaction → Nat) : Nat :=
  (c.requests.pairs.map fun e => share e.1 e.2).sum

variable {c c' : MemoryCoordinator} {share share' : RequestId → Request Transaction → Nat}

/-- One share changes. -/
theorem total_put (hn : c.requests.keys.Nodup) {id : RequestId} {r r' : Request Transaction}
    (hr : c.requests.get? id = some r) (hc : c'.requests = c.requests.put id r')
    (hsame : ∀ other, other ≠ id → share' other = share other) :
    c'.total share' + share id r = c.total share + share' id r' := by
  obtain ⟨l₁, l₂, hpairs, -, hput⟩ := Table.exists_split hr
  rw [Table.keys, hpairs, List.map_append, List.map_cons, List.nodup_middle, List.nodup_cons,
    ← List.map_append] at hn
  have hothers : (l₁ ++ l₂).map (fun e => share' e.1 e.2) =
      (l₁ ++ l₂).map (fun e => share e.1 e.2) := by
    refine List.map_congr_left fun e he => ?_
    rw [hsame e.1 fun heq => hn.1 (List.mem_map.2 ⟨e, he, heq⟩)]
  have hsum := congrArg List.sum hothers
  rw [total, total, hc, hput r', hpairs]
  simp only [List.map_append, List.map_cons, List.sum_append, List.sum_cons] at hsum ⊢
  omega

theorem total_congr (hc : c'.requests = c.requests)
    (hsame : ∀ id, share' id = share id) : c'.total share' = c.total share := by
  rw [total, total, hc]
  exact congrArg List.sum (List.map_congr_left fun e _ => by rw [hsame])

end Coordinator

/-! ## What the past says -/

/-- The past of a request that is under way.  A request for one file with its lease has got
    it; a batch that has files to write has come by that, and has not been rolled back. -/
def Request.ComesAfter (past : List (Request Transaction)) : Request Transaction → Prop
  | .file _ _ .arriving => past = []
  | .file _ _ (.preparing stage) =>
    past.any isLeased = true ∧ ∀ report ∈ stage.skipped?, report.mode = .skipped
  | .file _ _ (.done _) | .batch (.closing _ _) | .batch (.done _) => True
  | .file _ _ _ => past.any isLeased = true
  | .batch (.arriving _ _ _) | .batch (.preparing _ _ _ _) =>
    past.any isOpening = false ∧ past.any isUndoing = false
  | .batch (.undoing _ _ _) => past.any isUndoing = true
  | .batch _ => past.any isOpening = true ∧ past.any isUndoing = false

namespace Coordinator

variable {c c' : MemoryCoordinator} {past : List (Request Transaction)}
  {r r' : Request Transaction}

theorem any_snoc (p : Request Transaction → Bool) :
    (past ++ [r]).any p = (past.any p || p r) := by
  rw [List.any_append, List.any_cons, List.any_nil, Bool.or_false]

theorem FileStep.comesAfter {path content : String} {phase phase' : FilePhase Transaction}
    (h : FileStep c path content phase phase' c')
    (hf : (Request.file path content phase).Faithful c.settings.incremental c.chunker c.rows)
    (ht : (Request.file path content phase).ComesAfter past) :
    (Request.file path content phase').ComesAfter (past ++ [.file path content phase']) := by
  have hleased : past.any Request.isLeased = true →
      (past ++ [Request.file path content phase']).any Request.isLeased = true := by
    intro hany
    rw [any_snoc, hany, Bool.true_or]
  cases h with
  | refused | closed => trivial
  | leased =>
    refine ⟨?_, fun report hreport => by cases hreport⟩
    rw [any_snoc]
    exact Bool.or_true _
  | prepared hs =>
    refine ⟨hleased ht.1, fun report hreport => ?_⟩
    obtain ⟨rfl, -⟩ := hs.eq_of_skipped? hf hreport
    rfl
  | failed | skipped | ready => exact hleased ht.1
  | _ => exact hleased ht

theorem BatchStep.comesAfter {phase phase' : BatchPhase Transaction}
    (h : BatchStep c phase phase' c') (ht : (Request.batch phase).ComesAfter past) :
    (Request.batch phase').ComesAfter (past ++ [.batch phase']) := by
  cases h with
  | nothing | unopened | undone | uncommitted | trimmed | closed => trivial
  | gaveUp =>
    refine (any_snoc _).trans ?_
    rw [ht.2]
    rfl
  | _ => exact ⟨by rw [any_snoc, ht.1]; rfl, by rw [any_snoc, ht.2]; rfl⟩

theorem RequestStep.comesAfter (h : RequestStep c r r' c')
    (hf : r.Faithful c.settings.incremental c.chunker c.rows) (ht : r.ComesAfter past) :
    r'.ComesAfter (past ++ [r']) := by
  cases h with
  | file h => exact h.comesAfter hf ht
  | batch h => exact h.comesAfter ht

end Coordinator

/-! ## Counts that are fair -/

/-- A count, and the share that each request has in it. -/
structure Counter where
  read : MemoryCoordinator → Nat
  share : List (Request Transaction) → Request Transaction → Nat

namespace Counter

open Coordinator

variable {k : Counter} {c c' : MemoryCoordinator} {past : RequestId → List (Request Transaction)}

/-- The shares of all requests. -/
def total (k : Counter) (past : RequestId → List (Request Transaction)) (c : MemoryCoordinator) :
    Nat :=
  c.total fun id => k.share (past id)

/-- A step of a request changes the count as it changes the share of the request, and a
    request that has just come has no share yet. -/
structure Fair (k : Counter) : Prop where
  rest : ∀ {c c' : MemoryCoordinator}, c'.tallies = c.tallies →
    c'.store.store.commits = c.store.store.commits → k.read c' = k.read c
  file : ∀ path content, k.share [] (.ofFile path content) = 0
  batch : ∀ files, k.share [] (.ofFiles files) = 0
  step : ∀ {c c' id r r' past}, Orderly c → c.store.faults = [] →
    c.requests.get? id = some r → RequestStep c r r' c' → r.ComesAfter past →
    k.read c' + k.share past r = k.read c + k.share (past ++ [r']) r'

/-- Every request has the past that it should. -/
structure Tracks (past : RequestId → List (Request Transaction)) (c : MemoryCoordinator) :
    Prop where
  orderly : Orderly c
  faults : c.store.faults = []
  comesAfter : ∀ {id r}, c.requests.get? id = some r → r.ComesAfter (past id)
  absent : ∀ {id}, c.requests.get? id = none → past id = []

/-- From `c` to `c'` the counts that are fair change as the shares do. -/
def Balances (past : RequestId → List (Request Transaction)) (c : MemoryCoordinator)
    (past' : RequestId → List (Request Transaction)) (c' : MemoryCoordinator) : Prop :=
  Tracks past' c' ∧
    ∀ k : Counter, k.Fair → k.read c' + k.total past c = k.read c + k.total past' c'

namespace Tracks

theorem receive (h : Tracks past c) {r : Request Transaction} (horderly : Orderly (c.receive r).2)
    (hr : r.ComesAfter []) (hshare : ∀ k : Counter, k.Fair → k.share [] r = 0) :
    Balances past c past (c.receive r).2 := by
  have hnone : c.requests.get? (c.lastRequest + 1) = none :=
    Table.get?_eq_none_iff.2 h.orderly.next_notMem
  refine ⟨⟨horderly, h.faults, fun {id r₁} hr₁ => ?_, fun {id} hid => ?_⟩, fun k hk => ?_⟩
  · rcases Table.get?_of_put hr₁ with ⟨rfl, rfl⟩ | ⟨-, hr₁⟩
    · rw [h.absent hnone]
      exact hr
    · exact h.comesAfter hr₁
  · exact h.absent (Table.get?_eq_none_of_put hid).2
  · have hpairs := Table.pairs_put_new r h.orderly.next_notMem
    have htotal : k.total past (c.receive r).2 = k.total past c := by
      rw [total, Coordinator.total]
      change ((c.requests.put (c.lastRequest + 1) r).pairs.map _).sum = _
      rw [hpairs, List.map_append, List.sum_append, List.map_singleton, List.sum_singleton,
        h.absent hnone, hshare k hk]
      rfl
    have hread : k.read (c.receive r).2 = k.read c := hk.rest rfl rfl
    rw [htotal, hread]

theorem turn (h : Tracks past c) {t : Turn} (hx : c.turn t = some c')
    (hfaults : c'.store.faults = []) :
    Balances past c (fun id => past id ++ (c.passage? id (.act (.turn t))).toList) c' := by
  have horderly : Orderly c' := h.orderly.undergo (x := .act (.turn t)) hx
  obtain ⟨r, r', c₁, hr, hs, he⟩ := requestStep_of_turn hx
  have hput : c'.requests = c.requests.put t.request r' := by rw [he]
  have hself : c.passage? t.request (.act (.turn t)) = some r' := by
    rw [passage?, if_pos (Happening.isTurnOf_iff.2 ⟨t.place, rfl⟩)]
    change (c.turn t).bind _ = _
    rw [hx, Option.bind_some, hput, Table.get?_put_self]
  have hother : ∀ id, id ≠ t.request → c.passage? id (.act (.turn t)) = none := fun id hne =>
    if_neg fun hturn => hne (of_decide_eq_true hturn).symm
  refine ⟨⟨horderly, hfaults, fun {id r₁} hr₁ => ?_, fun {id} hid => ?_⟩, fun k hk => ?_⟩
  · rcases Table.get?_of_put (hput ▸ hr₁) with ⟨rfl, rfl⟩ | ⟨hne, hr₁⟩
    · rw [hself]
      exact hs.comesAfter (h.orderly.faithful _ (Table.mem_values_of_get? hr)) (h.comesAfter hr)
    · rw [hother id hne, Option.toList_none, List.append_nil]
      exact h.comesAfter hr₁
  · obtain ⟨hne, hid⟩ := Table.get?_eq_none_of_put (hput ▸ hid)
    rw [hother id hne, h.absent hid]
    rfl
  · have hstep := hk.step h.orderly h.faults hr hs (h.comesAfter hr)
    have hread : k.read c' = k.read c₁ := hk.rest (by rw [he]) (by rw [he])
    have hsame : ∀ id, id ≠ t.request →
        k.share (past id ++ (c.passage? id (.act (.turn t))).toList) = k.share (past id) := by
      intro id hne
      rw [hother id hne, Option.toList_none, List.append_nil]
    have htotal := total_put h.orderly.nodup hr hput hsame
    rw [hself] at htotal
    rw [total, total, hread]
    change _ = _ + k.share (past t.request ++ [r']) r' at htotal
    omega

theorem undergo (h : Tracks past c) {x : Happening} (hcalm : x.faultless = true)
    (hx : c.undergo x = some c') :
    Balances past c (fun id => past id ++ (c.passage? id x).toList) c' := by
  have horderly := h.orderly.undergo hx
  have hfaults := h.orderly.undergo_faults h.faults hcalm hx
  have hstill : c'.requests = c.requests → c'.tallies = c.tallies →
      c'.store.store.commits = c.store.store.commits → Balances past c past c' := by
    intro hrequests htallies hcommits
    refine ⟨⟨horderly, hfaults, fun hr => h.comesAfter (hrequests ▸ hr),
      fun hid => h.absent (hrequests ▸ hid)⟩, fun k hk => ?_⟩
    rw [hk.rest htallies hcommits, total, total, total_congr hrequests fun id => rfl]
  by_cases hturn : ∃ t, x = .act (.turn t)
  · obtain ⟨t, rfl⟩ := hturn
    exact h.turn hx hfaults
  have hnone : (fun id => past id ++ (c.passage? id x).toList) = past :=
    Happening.append_of_quiet hturn
  rw [hnone]
  cases x with
  | disturb rejected faults => cases hx; exact hstill rfl rfl rfl
  | act action =>
    cases change_of_act hx with
    | moved => exact (hturn ⟨_, rfl⟩).elim
    | asked path content => exact h.receive horderly rfl fun k hk => hk.file path content
    | askedMany files => exact h.receive horderly ⟨rfl, rfl⟩ fun k hk => hk.batch files
    | _ => exact hstill rfl rfl rfl

/-- **In every run** the counts that are fair change as the shares do. -/
theorem run {s s' : Chronicle} {xs : List Happening} (h : Tracks past s.coordinator)
    (hcalm : ∀ x ∈ xs, x.faultless = true) (hx : s.run xs = some s') :
    Balances past s.coordinator (fun id => past id ++ s.past id xs) s'.coordinator := by
  induction xs generalizing s past with
  | nil =>
    cases hx
    have hnil : (fun id => past id ++ s'.past id []) = past := funext fun id => List.append_nil _
    rw [hnil]
    exact ⟨h, fun k _ => rfl⟩
  | cons x xs ih =>
    obtain ⟨s₁, hs, hx⟩ := Option.bind_eq_some_iff.1 hx
    obtain ⟨hfirst, hrest⟩ := List.forall_mem_cons.1 hcalm
    obtain ⟨c₁, hc, rfl⟩ := Option.map_eq_some_iff.1 hs
    obtain ⟨h₁, hcount₁⟩ := h.undergo hfirst hc
    obtain ⟨h₂, hcount₂⟩ := ih h₁ hrest hx
    have hcons : (fun id => past id ++ s.past id (x :: xs)) = fun id =>
        past id ++ (s.coordinator.passage? id x).toList ++
          Chronicle.past ⟨c₁, s.record.note s.coordinator x⟩ id xs := by
      funext id
      rw [Chronicle.past, Chronicle.gather_cons hs, List.append_assoc]
      rfl
    rw [hcons]
    refine ⟨h₂, fun k hk => ?_⟩
    have hfirst := hcount₁ k hk
    have hrest := hcount₂ k hk
    dsimp only at hrest
    omega

end Tracks

end Counter

/-! ## The counts of the coordinator -/

namespace Coordinator

variable {c c' : MemoryCoordinator} {r r' : Request Transaction}

/-- What a step of a request makes of the counts: a request that did not get its lease is not
    counted. -/
inductive Tallying (t : Tallies) : Request Transaction → Request Transaction → Tallies → Prop where
  | quiet {r r' : Request Transaction} {t' : Tallies} (ho : r'.outcome? = none) (ht : t' = t) :
      Tallying t r r' t'
  | refused {path content : String} {error : IndexError} :
      Tallying t (.file path content .arriving) (.file path content (.done (.error error))) t
  | succeeded {path content : String} {report : FileReport} :
      Tallying t (.file path content (.closing (.ok report)))
        (.file path content (.done (.ok report))) (t.succeed report)
  | failed {path content : String} {error : IndexError} :
      Tallying t (.file path content (.closing (.error error)))
        (.file path content (.done (.error error))) (t.fail 1)
  | batch {held : List String} {report : BatchReport} :
      Tallying t (.batch (.closing held report)) (.batch (.done report))
        ((report.succeeded.foldl Tallies.succeed t).fail report.failed.length)

theorem StageStep.tallies {path content : String} {stage stage' : Stage}
    (h : StageStep c path content stage stage' c') : c'.tallies = c.tallies := by
  cases h <;> rfl

theorem RequestStep.tallying (h : RequestStep c r r' c') : Tallying c.tallies r r' c'.tallies := by
  cases h with
  | file h =>
    cases h with
    | refused => exact .refused
    | prepared hs => exact .quiet rfl hs.tallies
    | @closed outcome tallies hok herror =>
      cases outcome with
      | error error => cases herror error rfl; exact .failed
      | ok report => cases hok report rfl; exact .succeeded
    | _ => exact .quiet rfl rfl
  | batch h =>
    cases h with
    | prepared hs => exact .quiet rfl hs.tallies
    | @trimmed _ written =>
      obtain ⟨cache, he⟩ := trims_eq written c
      exact .quiet rfl (congrArg (·.tallies) he)
    | closed => exact .batch
    | _ => exact .quiet rfl rfl

theorem count_of_none {f : RequestOutcome → Nat} (h : r.outcome? = none) : r.count f = 0 := by
  rw [Request.count, h]
  rfl

section
variable {f : Tallies → Nat} {p : FileReport → Bool}
  (hsucceed : ∀ t report, f (t.succeed report) = f t + if p report then 1 else 0)
include hsucceed

theorem foldl_succeed (reports : List FileReport) (t : Tallies) :
    f (reports.foldl Tallies.succeed t) = f t + reports.countP p := by
  induction reports generalizing t with
  | nil => rfl
  | cons report reports ih =>
    rw [List.foldl_cons, ih, hsucceed, List.countP_cons]
    omega

/-- A count of files that are indexed, which each of them changes on its own. -/
theorem fair_reports (hfail : ∀ t n, f (t.fail n) = f t) :
    Counter.Fair ⟨fun c => f c.tallies, fun _ r => r.count (·.reports.countP p)⟩ where
  rest ht _ := congrArg f ht
  file _ _ := rfl
  batch _ := rfl
  step {c c' id r r' past} h hf hr hs ht := by
    have htally := hs.tallying
    dsimp only
    rw [count_of_none hs.outcome?_eq_none]
    generalize c'.tallies = t' at htally ⊢
    cases htally with
    | quiet ho ht => rw [count_of_none ho, ht]
    | refused => rfl
    | succeeded =>
      rw [hsucceed]
      simp [Request.count, Request.outcome?, RequestOutcome.reports]
    | failed => rw [hfail]; rfl
    | batch =>
      rw [hfail, foldl_succeed hsucceed]
      rfl

end

theorem fair_failures :
    Counter.Fair ⟨fun c => c.tallies.filesFailed, fun past r => r.count (·.failures past)⟩ where
  rest ht _ := congrArg Tallies.filesFailed ht
  file _ _ := rfl
  batch _ := rfl
  step {c c' id r r' past} h hf hr hs ht := by
    have hsucceed : ∀ (t : Tallies) (report : FileReport),
        (t.succeed report).filesFailed = t.filesFailed := by
      intro t report
      rw [Tallies.succeed]
      cases report.mode <;> rfl
    have htally := hs.tallying
    dsimp only
    rw [count_of_none hs.outcome?_eq_none]
    generalize c'.tallies = t' at htally ⊢
    cases htally with
    | quiet ho ht => rw [count_of_none ho, ht]
    | refused =>
      obtain rfl : past = [] := ht
      rfl
    | succeeded => rw [hsucceed]; rfl
    | failed =>
      have hleased : past.any Request.isLeased = true := ht
      simp [Request.count, Request.outcome?, RequestOutcome.failures, hleased, Tallies.fail]
    | @batch held report =>
      have hnone := foldl_succeed (f := Tallies.filesFailed) (p := fun _ => false)
        (fun t report => hsucceed t report) report.succeeded c.tallies
      rw [List.countP_false] at hnone
      exact congrArg (· + report.failed.length) hnone

end Coordinator

/-! ## The count of commits -/

/-- The commits that a request has made. -/
def Request.writes (past : List (Request Transaction)) : Request Transaction → Nat
  | .file _ _ (.trimming _ _) => 1
  | .file _ _ (.closing outcome) => (RequestOutcome.file outcome).writes past
  | .batch (.trimming _ _ report) | .batch (.closing _ report) =>
    (RequestOutcome.batch report).writes past
  | r => r.count (·.writes past)

namespace Coordinator

variable {c c' : MemoryCoordinator} {past : List (Request Transaction)}

theorem FileStep.writes {path content : String} {phase phase' : FilePhase Transaction}
    (h : FileStep c path content phase phase' c')
    (ht : (Request.file path content phase).ComesAfter past) :
    (c.commitOf? (.file path content phase)).toList.length +
        (Request.file path content phase).writes past =
      (Request.file path content phase').writes (past ++ [.file path content phase']) := by
  cases h with
  | skipped => exact (if_pos (ht.2 _ rfl)).symm
  | committed hc => rw [commitOf?, hc]; rfl
  | uncommitted hc => rw [commitOf?, hc]; rfl
  | @trimmed file => exact (if_neg file.mode_ne_skipped).symm
  | @closed outcome => cases outcome <;> exact Nat.zero_add _
  | _ => rfl

theorem BatchStep.writes {phase phase' : BatchPhase Transaction} (h : BatchStep c phase phase' c')
    (hb : c.backend = FaultyStore.backend) (hf : c.store.faults = [])
    (ht : (Request.batch phase).ComesAfter past) :
    (c.commitOf? (.batch phase)).toList.length + (Request.batch phase).writes past =
      (Request.batch phase').writes (past ++ [.batch phase']) := by
  have hsame : ∀ {r : Request Transaction}, r.isOpening = false → r.isUndoing = false →
      (if (past ++ [r]).any Request.isOpening && !(past ++ [r]).any Request.isUndoing then 1
        else 0) = if past.any Request.isOpening && !past.any Request.isUndoing then 1 else 0 := by
    intro r ho hu
    rw [any_snoc, any_snoc, ho, hu, Bool.or_false, Bool.or_false]
  cases h with
  | nothing =>
    refine Eq.trans ?_ (hsame rfl rfl).symm
    rw [ht.1]
    rfl
  | unopened _ ho =>
    rw [hb, FaultyStore.openTransaction_faultless hf] at ho
    cases ho
  | uncommitted hc =>
    rw [hb, FaultyStore.commit_faultless hf] at hc
    cases hc
  | committed hc =>
    refine Eq.trans ?_ (hsame rfl rfl).symm
    rw [commitOf?, hc, ht.1, ht.2]
    rfl
  | undone =>
    have hundone : past.any Request.isUndoing = true := ht
    refine Eq.trans ?_ (hsame rfl rfl).symm
    rw [hundone, Bool.not_true, Bool.and_false]
    rfl
  | trimmed | closed => exact (Nat.zero_add _).trans (hsame rfl rfl).symm
  | _ => rfl

theorem fair_writes : Counter.Fair ⟨fun c => c.store.store.commits, Request.writes⟩ where
  rest _ hc := hc
  file _ _ := rfl
  batch _ := rfl
  step {c c' id r r' past} h hf hr hs ht := by
    have hwrites : (c.commitOf? r).toList.length + r.writes past = r'.writes (past ++ [r']) := by
      cases hs with
      | file hs => exact hs.writes ht
      | batch hs => exact hs.writes h.backend hf ht
    have hcommits := (h.move hr hs).commits
    dsimp only
    omega

end Coordinator

namespace Chronicle

open Coordinator

variable {start s : Chronicle} {xs : List Happening}

theorem Opened.tracks (h : start.Opened) (hfaults : start.coordinator.store.faults = []) :
    Counter.Tracks (fun _ => []) start.coordinator ∧ start.coordinator.tallies = {} ∧
      start.coordinator.requests = {} := by
  refine ⟨⟨h.orderly, hfaults, fun {id r} hr => ?_, fun _ => rfl⟩, ?_, ?_⟩
  all_goals
    obtain ⟨settings, chunker, starts, store, -, -, hstart, -⟩ := h
    obtain ⟨settings', pool, -, -, hc⟩ := start_eq_ok hstart
  · rw [hc] at hr
    cases hr
  · rw [hc]
  · rw [hc]

/-- **The counts of a coordinator match the outcomes of its requests.**  Over a store without
    faults, in whatever order requests for single files and for batches step and whatever of
    them fails, the following holds as soon as no request is under way.  As many files are
    counted as indexed as there are reports on single files that were indexed and in batches,
    and in each mode as many as the reports say.  As many are counted as failed as there are
    requests for one file that had the lease and failed, and failures in the reports of
    batches.  The store has counted one commit for each request for one file that reports a
    write, and for each batch that had files ready and was not rolled back as a whole. -/
theorem Opened.counts_match (h : start.Opened) (hfaults : start.coordinator.store.faults = [])
    (hcalm : ∀ x ∈ xs, x.faultless = true) (hx : start.run xs = some s)
    (hdone : ∀ r ∈ s.coordinator.requests.values, r.outcome?.isSome = true) :
    let c := s.coordinator
    let t := c.tallies
    t.filesIndexed = t.fullWrites + t.incrementalWrites + t.skipped ∧
    t.filesIndexed = c.total (fun _ r => r.count (·.reports.length)) ∧
    (∀ mode, t.written mode = c.total fun _ r => r.count (·.reports.countP (·.mode = mode))) ∧
    t.filesFailed = c.total (fun id r => r.count (·.failures (start.past id xs))) ∧
    c.store.store.commits = start.coordinator.store.store.commits +
      c.total fun id r => r.count (·.writes (start.past id xs)) := by
  obtain ⟨htracks, htallies, hrequests⟩ := h.tracks hfaults
  obtain ⟨-, hcount⟩ := htracks.run hcalm hx
  have hfair : ∀ {k : Counter}, k.Fair → k.read s.coordinator = k.read start.coordinator +
      s.coordinator.total fun id r => k.share (start.past id xs) r := by
    intro k hk
    have hnone : k.total (fun _ => []) start.coordinator = 0 := by
      rw [Counter.total, total, hrequests]
      rfl
    have hk := hcount k hk
    rw [hnone] at hk
    exact hk
  have hlength : ∀ {f : Tallies → Nat}, f {} = 0 →
      (∀ t report, f (t.succeed report) = f t + if true = true then 1 else 0) →
      (∀ t n, f (t.fail n) = f t) →
      f s.coordinator.tallies = s.coordinator.total fun _ r => r.count (·.reports.length) := by
    intro f hzero hsucceed hfail
    have hf := hfair (fair_reports (p := fun _ => true) hsucceed hfail)
    simp only [htallies, hzero, List.countP_true, Nat.zero_add] at hf
    exact hf
  have hsum : ∀ (t : Tallies) (report : FileReport), (t.succeed report).filesIndexed =
      t.filesIndexed + 1 ∧ (t.succeed report).fullWrites + (t.succeed report).incrementalWrites +
        (t.succeed report).skipped = t.fullWrites + t.incrementalWrites + t.skipped + 1 := by
    intro t report
    rw [Tallies.succeed]
    cases report.mode <;> dsimp only <;> omega
  have hindexed := hlength (f := Tallies.filesIndexed) rfl (fun t r => (hsum t r).1) fun _ _ => rfl
  refine ⟨?_, hindexed, fun mode => ?_, ?_, ?_⟩
  · exact hindexed.trans (hlength (f := fun t => t.fullWrites + t.incrementalWrites + t.skipped) rfl
      (fun t r => (hsum t r).2) fun _ _ => rfl).symm
  · have hmode : ∀ (t : Tallies) (report : FileReport), (t.succeed report).written mode =
        t.written mode + if report.mode = mode then 1 else 0 := by
      intro t report
      rw [Tallies.succeed]
      cases report.mode <;> cases mode <;> rfl
    have hf := hfair (fair_reports (f := fun t => t.written mode) (p := fun r => r.mode = mode)
      (fun t report => by simpa using hmode t report) fun t n => by cases mode <;> rfl)
    have hzero : Tallies.written {} mode = 0 := by cases mode <;> rfl
    simp only [htallies, hzero, Nat.zero_add] at hf
    exact hf
  · have hf := hfair fair_failures
    simp only [htallies, Nat.zero_add] at hf
    exact hf
  · have hf := hfair fair_writes
    have hcount : s.coordinator.total (fun id r => r.writes (start.past id xs)) =
        s.coordinator.total fun id r => r.count (·.writes (start.past id xs)) := by
      refine congrArg List.sum (List.map_congr_left fun e he => ?_)
      have ho := hdone e.2 (List.mem_map_of_mem he)
      generalize e.2 = r at ho
      cases r with
      | file path content phase =>
        cases phase with
        | done => rfl
        | _ => cases ho
      | batch phase =>
        cases phase with
        | done => rfl
        | _ => cases ho
    exact hcount ▸ hf

/-- A coordinator over a store without savepoints that has just been started. -/
def plain : Chronicle where
  coordinator := (Coordinator.start FaultyStore.backend
    { incremental := { changeRatioThreshold := 1 } } none
    { store := { rules := { savepoints := false } } } {}).toOption.get (by decide +kernel)

/-- A file is written.  The same content is skipped, while another request is turned away.  A
    file is rejected on its own, and takes a batch with it.  Then a batch, in which one of two
    paths is taken, writes the other, and the file with the taken path is written as well. -/
theorem Opened.counts_match_sample :
    let found : List Symbol := [.ofLines "a" .function 1 1]
    let xs : List Happening := [.act (.index "p" "a")] ++
      Happening.turns 1 4 ++ Happening.parse 0 found ++ Happening.turns 1 8 ++
      [.act (.index "p" "a"), .act (.index "p" "b")] ++
      Happening.turns 2 1 ++ Happening.turns 3 1 ++ Happening.turns 2 5 ++
      [.disturb ["q"] [], .act (.index "q" "k")] ++
      Happening.turns 4 4 ++ Happening.parse 0 found ++ Happening.turns 4 7 ++
      [.act (.batch [("p", "z"), ("q", "y")])] ++
      Happening.turns 5 7 ++ Happening.parse 0 found ++ Happening.turns 5 6 ++
      Happening.parse 0 [] ++ Happening.turns 5 9 ++
      [.act (.index "r" "x"), .act (.batch [("r", "x"), ("p", "z")])] ++
      Happening.turns 6 1 ++ Happening.turns 7 14 ++ Happening.turns 6 3 ++
      Happening.parse 0 [] ++ Happening.turns 6 8
    ∃ s : Chronicle, plain.Opened ∧ plain.run xs = some s ∧
      s.coordinator.total (fun _ r => r.count (·.reports.length)) = 4 ∧
      s.coordinator.total (fun _ r => r.count (·.reports.countP (·.mode = .incremental))) = 1 ∧
      s.coordinator.total (fun id r => r.count (·.failures (plain.past id xs))) = 4 ∧
      s.coordinator.total (fun id r => r.count (·.writes (plain.past id xs))) = 3 := by
  intro found xs
  have hopened : plain.Opened :=
    ⟨{ incremental := { changeRatioThreshold := 1 } }, none, {},
      { store := { rules := { savepoints := false } } }, .empty, rfl,
      start_eq_get (by decide +kernel), rfl⟩
  have hcheck : (plain.run xs).any (fun s =>
      decide (s.coordinator.tallies = ⟨4, 4, 2, 1, 1⟩ ∧ s.coordinator.store.store.commits = 3 ∧
        ∀ r ∈ s.coordinator.requests.values, r.outcome?.isSome = true)) = true := by
    decide +kernel
  obtain ⟨s, hs, hcheck⟩ := (Option.any_eq_true _ _).1 hcheck
  obtain ⟨htallies, hcommits, hdone⟩ := of_decide_eq_true hcheck
  obtain ⟨-, hindexed, hmodes, hfailed, hwrites⟩ := hopened.counts_match
    (by decide +kernel) (by decide) hs hdone
  have hstart : plain.coordinator.store.store.commits = 0 := by decide +kernel
  rw [hcommits, hstart, Nat.zero_add] at hwrites
  have hmode := hmodes .incremental
  rw [htallies] at hindexed hmode hfailed
  exact ⟨s, hopened, hs, hindexed.symm, hmode.symm, hfailed.symm, hwrites.symm⟩

end Chronicle

end SourceIndex
