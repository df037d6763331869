/-
  The store has for every path what was indexed last.

  * `Chronicle.taken`: the revisions that a request of a run takes the leases for;
  * `Chronicle.successes`: the paths that the requests of a run report as indexed, in the
    order in which the requests are completed, `lastIndexer`: the last one for a path;
  * `Request.Vouches`: for what a request under way has settled the store has the content
    that the lease was taken for;
  * `Coordinator.Remembers`, `Chronicle.remembers_run`: so it has for every path that no
    request holds the content of the last one that indexed it, whatever has failed since.
-/
import SourceIndex.Proofs.Freshness

namespace SourceIndex

variable {x : Happening} {r : Request Transaction}

/-! ## What is taken up, and what is indexed -/

namespace Happening

/-- Is it the turn of the request? -/
def isTurnOf (id : RequestId) : Happening → Bool
  | .act (.turn t) => t.request = id
  | _ => false

theorem isTurnOf_iff {id : RequestId} :
    x.isTurnOf id = true ↔ ∃ place, x = .act (.turn ⟨id, place⟩) := by
  constructor
  · intro h
    cases x with
    | disturb => cases h
    | act action =>
      cases action with
      | turn t =>
        obtain rfl : t.request = id := of_decide_eq_true h
        exact ⟨t.place, rfl⟩
      | _ => cases h
  · rintro ⟨place, rfl⟩
    exact decide_eq_true rfl

/-- What is noted on the turns of a request only stays as it is at any other time. -/
theorem append_of_quiet {α : Type} {log : RequestId → List α} {note : RequestId → Option α}
    (h : ¬∃ t, x = .act (.turn t)) :
    (fun id => log id ++ (if x.isTurnOf id then note id else none).toList) = log := by
  funext id
  have hid : ¬ x.isTurnOf id = true := fun hturn =>
    h ((isTurnOf_iff.1 hturn).imp' _ fun _ he => he)
  rw [if_neg hid]
  exact List.append_nil _

end Happening

namespace Coordinator

/-- The revision that the next step of a request takes the lease for, if it takes one. -/
def leaseOf? (c : MemoryCoordinator) (r : Request Transaction) : Option (String × String) :=
  r.todo.head?.filter fun e => !c.leases.contains e.1

/-- The revision that a happening lets the request take the lease for. -/
def takes? (c : MemoryCoordinator) (id : RequestId) (x : Happening) : Option (String × String) :=
  if x.isTurnOf id then (c.requests.get? id).bind c.leaseOf? else none

end Coordinator

namespace Chronicle

/-- The revisions that a request takes the leases for in a run, in order. -/
def taken (s : Chronicle) (id : RequestId) : List Happening → List (String × String) :=
  s.gather fun c x => (c.takes? id x).toList

end Chronicle

/-- The last request that has indexed a path. -/
def lastIndexer (path : String) (log : List (RequestId × String)) : Option RequestId :=
  (log.reverse.find? (·.2 = path)).map (·.1)

theorem lastIndexer_append (path : String) (log new : List (RequestId × String)) :
    lastIndexer path (log ++ new) = (lastIndexer path new).or (lastIndexer path log) := by
  rw [lastIndexer, List.reverse_append, List.find?_append, Option.map_or]
  rfl

theorem lastIndexer_reports (path : String) (id : RequestId) (reports : List FileReport) :
    lastIndexer path (reports.map fun report => (id, report.path)) =
      if ∃ report ∈ reports, report.path = path then some id else none := by
  rw [lastIndexer, ← List.map_reverse, List.find?_map, Option.map_map]
  cases hfind : reports.reverse.find? _ with
  | none =>
    refine (if_neg ?_).symm
    rintro ⟨report, hm, hp⟩
    exact List.find?_eq_none.1 hfind report (List.mem_reverse.2 hm) (decide_eq_true hp)
  | some report =>
    have hm := List.mem_reverse.1 (List.mem_of_find?_eq_some hfind)
    have hp : report.path = path := by simpa using List.find?_some hfind
    exact (if_pos ⟨report, hm, hp⟩).symm

namespace Coordinator

/-- The paths that a happening reports as indexed, with the request that it completes. -/
def successes (c : MemoryCoordinator) : Happening → List (RequestId × String)
  | .act (.turn t) =>
    ((((c.turn t).bind fun c => c.requests.get? t.request).bind Request.reports?).getD []).map
      fun report => (t.request, report.path)
  | _ => []

theorem successes_turn {c c₁ : MemoryCoordinator} {t : Turn}
    {requests : Table RequestId (Request Transaction)}
    (h : c.turn t = some { c₁ with requests := requests.put t.request r }) :
    c.successes (.act (.turn t)) =
      (r.reports?.getD []).map fun report => (t.request, report.path) := by
  rw [successes, h, Option.bind_some]
  change ((((requests.put t.request r).get? t.request).bind _).getD []).map _ = _
  rw [Table.get?_put_self, Option.bind_some]

end Coordinator

/-- The paths that a run reports as indexed, with the requests that it completes. -/
def Chronicle.successes (s : Chronicle) : List Happening → List (RequestId × String) :=
  s.gather Coordinator.successes

/-! ## Steps of requests -/

namespace Request

/-- Has the request nothing left to write, and only to say what it has indexed? -/
def isSealed : Request Transaction → Bool
  | .file _ _ (.trimming _ _) | .file _ _ (.closing _) => true
  | .batch (.trimming _ _ _) | .batch (.closing _ _) => true
  | _ => false

theorem outcome?_of_isSealed (h : r.isSealed = true) : r.outcome? = none := by
  cases r with
  | file path content phase =>
    cases phase with
    | done => cases h
    | _ => rfl
  | batch phase =>
    cases phase with
    | done => cases h
    | _ => rfl

end Request

namespace Coordinator

variable {c c' c₁ : MemoryCoordinator} {r r' : Request Transaction} {path content : String}
  {taken : List (String × String)} {report : FileReport}

theorem leaseOf?_of_mem {todo : List (String × String)} (htodo : r.todo = (path, content) :: todo)
    (hp : path ∈ c.leases) : c.leaseOf? r = none := by
  simp [leaseOf?, htodo, hp]

theorem leaseOf?_of_notMem {todo : List (String × String)}
    (htodo : r.todo = (path, content) :: todo) (hp : path ∉ c.leases) :
    c.leaseOf? r = some (path, content) := by
  simp [leaseOf?, htodo, hp]

/-- What a step of a request does, as it takes a lease or takes none. -/
inductive Taking (c : MemoryCoordinator) (r r' : Request Transaction) :
    Option (String × String) → Prop where
  | nothing (held : r'.outcome? = none → r'.held = r.held)
      (slots : ∀ s ∈ r'.slots, ∃ s₀ ∈ r.slots, s₀.path = s.path ∧ s₀.content = s.content) :
      Taking c r r' none
  | lease {path content : String} (free : path ∉ c.leases) (held : r'.held = r.held ++ [path])
      (slots : ∀ s ∈ r'.slots, s ∈ r.slots ∨ s = ⟨path, content, .fresh⟩) :
      Taking c r r' (some (path, content))

theorem RequestStep.taking (h : RequestStep c r r' c') : Taking c r r' (c.leaseOf? r) := by
  cases h with
  | file h =>
    cases h with
    | refused hp =>
      rw [leaseOf?_of_mem rfl hp]
      exact .nothing (fun _ => rfl) (List.forall_mem_nil _)
    | leased hp =>
      rw [leaseOf?_of_notMem rfl hp]
      exact .lease hp rfl fun s hs => Or.inr (List.mem_singleton.1 hs)
    | prepared =>
      refine .nothing (fun _ => rfl) fun s hs => ?_
      rw [List.mem_singleton.1 hs]
      exact ⟨_, List.mem_cons_self, rfl, rfl⟩
    | closed => exact .nothing (fun ho => by cases ho) (List.forall_mem_nil _)
    | _ => exact .nothing (fun _ => rfl) (List.forall_mem_nil _)
  | batch h =>
    cases h with
    | refused hp =>
      rw [leaseOf?_of_mem rfl hp]
      exact .nothing (fun _ => rfl) fun s hs => ⟨s, hs, rfl, rfl⟩
    | leased hp =>
      rw [leaseOf?_of_notMem rfl hp]
      exact .lease hp List.map_append fun s hs =>
        (List.mem_append.1 hs).imp_right List.mem_singleton.1
    | @prepared _ before after slot =>
      refine .nothing (fun _ => rfl) fun s hs => ?_
      simp only [Request.slots, List.mem_append, List.mem_cons] at hs
      rcases hs with hs | rfl | hs
      · exact ⟨s, List.mem_append_left _ hs, rfl, rfl⟩
      · exact ⟨slot, List.mem_append_right _ List.mem_cons_self, rfl, rfl⟩
      · exact ⟨s, List.mem_append_right _ (List.mem_cons_of_mem _ hs), rfl, rfl⟩
    | @failed _ before after slot | @skipped _ before after slot | @ready _ before after slot =>
      have hless : (before ++ after).Sublist (before ++ slot :: after) :=
        (List.sublist_cons_self slot after).append_left before
      exact .nothing (fun _ => rfl) fun s hs => ⟨s, hless.subset hs, rfl, rfl⟩
    | arrived => exact .nothing (fun _ => rfl) fun s hs => ⟨s, hs, rfl, rfl⟩
    | closed => exact .nothing (fun ho => by cases ho) (List.forall_mem_nil _)
    | _ => exact .nothing (fun _ => rfl) (List.forall_mem_nil _)

/-- What a request reports that has nothing left to write stays as it is. -/
theorem RequestStep.reports_of_isSealed (h : RequestStep c r r' c') (hr : r.isSealed = true) :
    r'.reports = r.reports ∧ (r'.isSealed = true ∨ r'.outcome?.isSome = true) := by
  cases h with
  | file h =>
    cases h with
    | trimmed => exact ⟨rfl, Or.inl rfl⟩
    | @closed outcome => cases outcome <;> exact ⟨rfl, Or.inr rfl⟩
    | _ => cases hr
  | batch h =>
    cases h with
    | trimmed => exact ⟨rfl, Or.inl rfl⟩
    | closed => exact ⟨rfl, Or.inr rfl⟩
    | _ => cases hr

/-- A request that commits a file has settled it. -/
theorem RequestStep.settled_of_commit (h : RequestStep c r r' c') {f : Prepared}
    (hf : f ∈ (c.commitOf? r).getD []) :
    f ∈ r.ready ∧ r'.isSealed = true ∧ ∃ report ∈ r'.reports, report.path = f.path := by
  cases h with
  | file h =>
    cases h with
    | committed hc =>
      rw [commitOf?, hc] at hf
      cases List.mem_singleton.1 hf
      exact ⟨List.mem_cons_self, rfl, _, List.mem_cons_self, rfl⟩
    | uncommitted hc =>
      rw [commitOf?, hc] at hf
      cases hf
    | _ => cases hf
  | batch h =>
    cases h with
    | committed hc =>
      rw [commitOf?, hc] at hf
      obtain ⟨w, hw, rfl⟩ := List.mem_map.1 hf
      exact ⟨hf, rfl, _, List.mem_append_right _ (List.mem_map_of_mem hw), rfl⟩
    | uncommitted hc =>
      rw [commitOf?, hc] at hf
      cases hf
    | _ => cases hf

end Coordinator

theorem Request.Faithful.reads_slot {policy : DiffPolicy} {chunker : Chunker} {rows : Rows}
    (h : r.Faithful policy chunker rows) {slot : Slot} (hs : slot ∈ r.slots) :
    slot.stage.Reads policy rows slot.path slot.content := by
  cases r with
  | file path content phase =>
    cases phase with
    | preparing stage =>
      rw [List.mem_singleton.1 hs]
      exact h
    | _ => cases hs
  | batch phase =>
    cases phase with
    | arriving =>
      rw [h slot hs]
      trivial
    | preparing => exact h.reads slot hs
    | _ => cases hs

/-! ## What the store has for requests -/

namespace Coordinator

variable {c c' c₁ : MemoryCoordinator} {r r' : Request Transaction} {path content : String}
  {taken : List (String × String)} {report : FileReport}

/-- The store has a content that the lease of the path was taken for. -/
def Backs (c : MemoryCoordinator) (taken : List (String × String)) (path : String) : Prop :=
  ∃ content, (path, content) ∈ taken ∧ c.HasContent path content

theorem Backs.congr (h : c.Backs taken path) (hfile : c'.rows.file? path = c.rows.file? path) :
    c'.Backs taken path := by
  obtain ⟨content, hm, hhas⟩ := h
  refine ⟨content, hm, ?_⟩
  rwa [HasContent, hfile]

theorem Backs.append (h : c.Backs taken path) (new : List (String × String)) :
    c.Backs (taken ++ new) path := by
  obtain ⟨content, hm, hhas⟩ := h
  exact ⟨content, List.mem_append_left _ hm, hhas⟩

end Coordinator

open Coordinator

/-- The request has taken each lease once, works on nothing else, and as long as it is under
    way it holds these leases and the store has the contents of those that it has settled. -/
structure Request.Vouches (c : MemoryCoordinator) (taken : List (String × String))
    (r : Request Transaction) : Prop where
  nodup : (taken.map (·.1)).Nodup
  held : r.outcome? = none → ∀ e ∈ taken, e.1 ∈ r.held
  slots : ∀ s ∈ r.slots, (s.path, s.content) ∈ taken
  ready : ∀ f ∈ r.ready, (f.path, f.content) ∈ taken
  reports : r.outcome? = none → ∀ report ∈ r.reports, c.Backs taken report.path

theorem Request.Vouches.congr {c c' : MemoryCoordinator} {taken : List (String × String)}
    (h : r.Vouches c taken) (hfile : ∀ p ∈ r.held, c'.rows.file? p = c.rows.file? p) :
    r.Vouches c' taken := by
  refine { h with reports := fun ho report hm => ?_ }
  have hbacks := h.reports ho report hm
  obtain ⟨content, htaken, -⟩ := id hbacks
  exact hbacks.congr (hfile _ (h.held ho _ htaken))

namespace Coordinator

variable {c c' c₁ : MemoryCoordinator} {r r' : Request Transaction} {path content : String}
  {taken : List (String × String)} {report : FileReport}

section
variable (h : Orderly c) {id : RequestId} (hr : c.requests.get? id = some r)
  (hs : RequestStep c r r' c') (hv : r.Vouches c taken)
include h hr hs

/-- A step of a request leaves what is stored for the paths that it does not commit. -/
theorem Orderly.file?_of_step (hp : ∀ f ∈ (c.commitOf? r).getD [], f.path ≠ path) :
    c'.rows.file? path = c.rows.file? path := by
  have hm := h.move hr hs
  have hcoherent := coherent_of_fits c.chunker h.sound hm.writable.fits hm.writable.nodup
  rw [hm.rows_eq]
  refine congrArg StoreDump.file (hcoherent.dump_replay h.sound fun hmem => ?_)
  obtain ⟨f, hf, hpath⟩ := List.mem_map.1 hmem
  exact hp f hf hpath

include hv

/-- A step of a request leaves stored what it has taken up, since it commits nothing else. -/
theorem Orderly.backs_of_step (hb : c.Backs taken path) : c'.Backs taken path := by
  by_cases hcommit : ∃ f ∈ (c.commitOf? r).getD [], f.path = path
  · obtain ⟨f, hf, rfl⟩ := hcommit
    have hm := h.move hr hs
    obtain ⟨n, hfile⟩ := file?_of_commit h.sound hm.writable hm.rows_eq hf
    refine ⟨f.content, hv.ready f ((hs.settled_of_commit hf).1), ?_⟩
    rw [HasContent, hfile]
    rfl
  · exact hb.congr (h.file?_of_step hr hs fun f hf hp => hcommit ⟨f, hf, hp⟩)

/-- What a request has settled after a step is stored as it was taken up. -/
theorem Orderly.backs_of_report (hreport : report ∈ r'.reports) : c'.Backs taken report.path := by
  have hf := h.faithful _ (Table.mem_values_of_get? hr)
  have hm := h.move hr hs
  rcases hs.arises hf hreport with hold | harises
  · exact h.backs_of_step hr hs hv (hv.reports hs.outcome?_eq_none report hold)
  · cases harises with
    | @skipped slot hnone hslot hheld hhas =>
      exact h.backs_of_step hr hs hv ⟨slot.content, hv.slots slot hslot, hhas⟩
    | @committed fs w hfs hmem hw =>
      replace hmem : w.1 ∈ (c.commitOf? r).getD [] := by rwa [hfs]
      obtain ⟨n, hfile⟩ := file?_of_commit h.sound hm.writable hm.rows_eq hmem
      refine ⟨w.1.content, hv.ready _ (hs.settled_of_commit hmem).1, ?_⟩
      rw [HasContent]
      exact congrArg _ hfile

theorem Orderly.vouches_of_step : r'.Vouches c' (taken ++ (c.leaseOf? r).toList) := by
  have hf := h.faithful _ (Table.mem_values_of_get? hr)
  have hopen := hs.outcome?_eq_none
  have hready : ∀ f ∈ r'.ready, (f.path, f.content) ∈ taken := by
    intro f hf'
    cases hs.flow with
    | prepare _ _ _ _ _ _ hready => exact hv.ready f (hready f hf')
    | move _ _ _ _ hready =>
      rcases hready f hf' with hf' | ⟨s, hs, hstage⟩
      · exact hv.ready f hf'
      · have hreads := hf.reads_slot hs
        rw [hstage] at hreads
        rw [hreads.1, hreads.2.1]
        exact hv.slots s hs
  have hreports : ∀ report ∈ r'.reports, c'.Backs taken report.path := fun _ hm =>
    h.backs_of_report hr hs hv hm
  have htaking := hs.taking
  generalize c.leaseOf? r = lease? at htaking ⊢
  cases htaking with
  | nothing hheld hslots =>
    rw [Option.toList_none, List.append_nil]
    refine ⟨hv.nodup, fun ho e he => ?_, fun s hs => ?_, hready, fun _ => hreports⟩
    · rw [hheld ho]
      exact hv.held hopen e he
    · obtain ⟨s₀, hs₀, hpath, hcontent⟩ := hslots s hs
      rw [← hpath, ← hcontent]
      exact hv.slots s₀ hs₀
  | @lease path content hfree hheld hslots =>
    -- the request holds the paths of the leases it has taken, so this one is new
    have hnew : path ∉ taken.map (·.1) := by
      intro hm
      obtain ⟨e, he, rfl⟩ := List.mem_map.1 hm
      exact hfree (h.mem_leases.2 ⟨id, r, hr, hv.held hopen e he⟩)
    refine ⟨?_, fun _ => ?_, fun s hs => ?_, fun f hf => List.mem_append_left _ (hready f hf),
      fun _ report hm => (hreports report hm).append _⟩
    · rw [List.map_append]
      exact hv.nodup.append (List.nodup_singleton _) (List.disjoint_singleton.2 hnew)
    · rw [hheld, Option.toList_some, List.forall_mem_append, List.forall_mem_singleton]
      exact ⟨fun e he => List.mem_append_left _ (hv.held hopen e he),
        List.mem_append_right _ List.mem_cons_self⟩
    · rcases hslots s hs with hs | rfl
      · exact List.mem_append_left _ (hv.slots s hs)
      · exact List.mem_append_right _ List.mem_cons_self

end

/-! ## What the store has for paths that are not held -/

/-- The store has what the last request that has indexed a path took it up with, unless a
    request that is about to say so has settled something newer.  Here `taken` are the
    revisions that each request has taken the leases for, and `log` the paths that were
    indexed. -/
structure Remembers (taken : RequestId → List (String × String)) (log : List (RequestId × String))
    (c : MemoryCoordinator) : Prop where
  orderly : Orderly c
  vouches : ∀ {id r}, c.requests.get? id = some r → r.Vouches c (taken id)
  absent : ∀ {id}, c.requests.get? id = none → taken id = []
  backs : ∀ {id path}, lastIndexer path log = some id → c.Backs (taken id) path ∨
    ∃ live r, c.requests.get? live = some r ∧ r.isSealed = true ∧
      ∃ report ∈ r.reports, report.path = path

namespace Remembers

variable {taken : RequestId → List (String × String)} {log : List (RequestId × String)}

theorem receive (h : Remembers taken log c) (horderly : Orderly (c.receive r).2)
    (hv : r.Vouches (c.receive r).2 []) : Remembers taken log (c.receive r).2 := by
  have hnew : taken (c.lastRequest + 1) = [] :=
    h.absent (Table.get?_eq_none_iff.2 h.orderly.next_notMem)
  refine ⟨horderly, fun {id r₁} hr => ?_, fun {id} hid => ?_, fun {id path} hlast => ?_⟩
  · rcases Table.get?_of_put hr with ⟨rfl, rfl⟩ | ⟨-, hr⟩
    · rw [hnew]
      exact hv
    · exact (h.vouches hr).congr fun p _ => rfl
  · exact h.absent (Table.get?_eq_none_of_put hid).2
  · rcases h.backs hlast with hbacks | ⟨live, r₁, hr₁, hlive⟩
    · exact Or.inl (hbacks.congr rfl)
    · refine Or.inr ⟨live, r₁, ?_, hlive⟩
      refine (Table.get?_put _ _ _ _).trans ((if_neg fun he => ?_).trans hr₁)
      exact h.orderly.next_notMem (he ▸ Table.mem_keys_iff.2 ⟨r₁, hr₁⟩)

theorem congr (h : Remembers taken log c) (horderly : Orderly c')
    (hrequests : c'.requests = c.requests) (hrows : c'.rows = c.rows) :
    Remembers taken log c' := by
  refine ⟨horderly, fun hr => ?_, fun hid => h.absent (hrequests ▸ hid), fun hlast => ?_⟩
  · exact (h.vouches (hrequests ▸ hr)).congr fun p _ => by rw [hrows]
  · rw [hrequests]
    exact (h.backs hlast).imp_left fun hbacks => hbacks.congr (by rw [hrows])

theorem turn (h : Remembers taken log c) {t : Turn} (hx : c.turn t = some c') :
    Remembers (fun id => taken id ++ (c.takes? id (.act (.turn t))).toList)
      (log ++ c.successes (.act (.turn t))) c' := by
  have horderly' : Orderly c' := h.orderly.undergo (x := .act (.turn t)) hx
  obtain ⟨r, r', c₁, hr, hs, rfl⟩ := requestStep_of_turn hx
  have hm := h.orderly.move hr hs
  have hv := h.vouches hr
  have hself : c.takes? t.request (.act (.turn t)) = c.leaseOf? r := by
    rw [takes?, if_pos (Happening.isTurnOf_iff.2 ⟨t.place, rfl⟩), hr]
    rfl
  have hother : ∀ {id}, id ≠ t.request → c.takes? id (.act (.turn t)) = none := fun hne =>
    if_neg fun hturn => hne (of_decide_eq_true hturn).symm
  have hput : (c.requests.put t.request r').get? t.request = some r' :=
    Table.get?_put_self _ _ _
  rw [successes_turn hx]
  refine ⟨horderly', fun {id r₁} hr₁ => ?_, fun {id} hid => ?_, fun {id path} hlast => ?_⟩
  · rcases Table.get?_of_put hr₁ with ⟨rfl, rfl⟩ | ⟨hne, hr₁⟩
    · rw [hself]
      exact (h.orderly.vouches_of_step hr hs hv).congr fun p _ => rfl
    · have hfile : ∀ p ∈ r₁.held, c₁.rows.file? p = c.rows.file? p := by
        refine fun p hp => h.orderly.file?_of_step hr hs ?_
        rintro f hf rfl
        exact h.orderly.disjoint hr hr₁ hne (hm.writable.mem_held f hf) hp
      rw [hother hne, Option.toList_none, List.append_nil]
      exact (h.vouches hr₁).congr hfile
  · obtain ⟨hne, hid⟩ := Table.get?_eq_none_of_put hid
    rw [hother hne, h.absent hid]
    rfl
  · rw [lastIndexer_append, lastIndexer_reports] at hlast
    by_cases hreported : ∃ report ∈ r'.reports?.getD [], report.path = path
    · -- the request is done and has indexed the path
      rw [if_pos hreported] at hlast
      cases hlast
      obtain ⟨report, hreport, rfl⟩ := hreported
      cases hreports : r'.reports? with
      | none => rw [hreports] at hreport; cases hreport
      | some reports =>
        rw [hreports, Option.getD_some, ← Request.reports_eq hreports] at hreport
        have hbacks := h.orderly.backs_of_report hr hs hv hreport
        exact Or.inl ((hbacks.congr rfl).append _)
    · rw [if_neg hreported] at hlast
      rcases h.backs hlast with hbacks | ⟨live, r₁, hr₁, hsealed, report, hreport, hp⟩
      · by_cases hcommit : ∃ f ∈ (c.commitOf? r).getD [], f.path = path
        · obtain ⟨f, hf, rfl⟩ := hcommit
          exact Or.inr ⟨t.request, r', hput, (hs.settled_of_commit hf).2⟩
        · have hfile : c₁.rows.file? path = c.rows.file? path :=
            h.orderly.file?_of_step hr hs fun f hf hp => hcommit ⟨f, hf, hp⟩
          exact Or.inl ((hbacks.congr hfile).append _)
      · by_cases he : t.request = live
        · subst he
          cases hr.symm.trans hr₁
          obtain ⟨hsame, hsealed | hdone⟩ := hs.reports_of_isSealed hsealed
          · exact Or.inr ⟨t.request, r', hput, hsealed, report, hsame ▸ hreport, hp⟩
          · obtain ⟨outcome, ho⟩ := Option.isSome_iff_exists.1 hdone
            have hreports : r'.reports? = some outcome.reports := by rw [Request.reports?, ho]; rfl
            rw [hreports, Option.getD_some, ← Request.reports_eq hreports, hsame] at hreported
            exact (hreported ⟨report, hreport, hp⟩).elim
        · refine Or.inr ⟨live, r₁, ?_, hsealed, report, hreport, hp⟩
          exact (Table.get?_put _ _ _ _).trans ((if_neg he).trans hr₁)

theorem undergo (h : Remembers taken log c) (hx : c.undergo x = some c') :
    Remembers (fun id => taken id ++ (c.takes? id x).toList) (log ++ c.successes x) c' := by
  have horderly := h.orderly.undergo hx
  by_cases hturn : ∃ t, x = .act (.turn t)
  · obtain ⟨t, rfl⟩ := hturn
    exact h.turn hx
  -- nothing is taken up or indexed
  have htaken : (fun id => taken id ++ (c.takes? id x).toList) = taken :=
    Happening.append_of_quiet hturn
  rw [htaken]
  cases x with
  | disturb rejected faults =>
    cases hx
    rw [show c.successes (.disturb rejected faults) = [] from rfl, List.append_nil]
    exact h.congr horderly rfl rfl
  | act action =>
    cases change_of_act hx with
    | moved => exact (hturn ⟨_, rfl⟩).elim
    | asked | askedMany =>
      rw [show c.successes _ = [] from rfl, List.append_nil]
      exact h.receive horderly ⟨List.nodup_nil, fun _ => List.forall_mem_nil _,
        List.forall_mem_nil _, List.forall_mem_nil _, fun _ => List.forall_mem_nil _⟩
    | _ =>
      rw [show c.successes _ = [] from rfl, List.append_nil]
      exact h.congr horderly rfl rfl

/-- **What no request holds is as it was indexed last.** -/
theorem hasContent_of_free (h : Remembers taken log c) {id : RequestId}
    (hlast : lastIndexer path log = some id) (hfree : path ∉ c.leases)
    (hcontent : (path, content) ∈ taken id) : c.HasContent path content := by
  have hv : ((taken id).map (·.1)).Nodup := by
    cases hr : c.requests.get? id with
    | none => rw [h.absent hr] at hcontent; cases hcontent
    | some r => exact (h.vouches hr).nodup
  rcases h.backs hlast with ⟨stored, hm, hhas⟩ | ⟨live, r, hr, hsealed, report, hreport, rfl⟩
  · cases List.inj_on_of_nodup_map hv hm hcontent rfl
    exact hhas
  · have ho := Request.outcome?_of_isSealed hsealed
    obtain ⟨stored, hm, -⟩ := (h.vouches hr).reports ho report hreport
    exact (hfree (h.orderly.mem_leases.2 ⟨live, r, hr, (h.vouches hr).held ho _ hm⟩)).elim

end Remembers

end Coordinator

namespace Chronicle

open Coordinator

variable {start s s' : Chronicle} {xs : List Happening}

/-- **In every run** the store has what was indexed last. -/
theorem remembers_run {taken : RequestId → List (String × String)}
    {log : List (RequestId × String)} (h : Remembers taken log s.coordinator)
    (hx : s.run xs = some s') :
    Remembers (fun id => taken id ++ s.taken id xs) (log ++ s.successes xs) s'.coordinator := by
  induction xs generalizing s taken log with
  | nil =>
    cases hx
    have hnil : (fun id => taken id ++ s'.taken id []) = taken :=
      funext fun id => List.append_nil _
    rw [hnil]
    exact (List.append_nil log).symm ▸ h
  | cons x xs ih =>
    obtain ⟨s₁, hs, hx⟩ := Option.bind_eq_some_iff.1 hx
    have hcons : (fun id => taken id ++ s.taken id (x :: xs)) = fun id =>
        taken id ++ (s.coordinator.takes? id x).toList ++ s₁.taken id xs := by
      funext id
      rw [Chronicle.taken, gather_cons hs, List.append_assoc]
      rfl
    rw [hcons, successes, gather_cons hs, ← List.append_assoc]
    obtain ⟨c₁, hc, rfl⟩ := Option.map_eq_some_iff.1 hs
    exact ih (h.undergo hc) hx

theorem Opened.remembers (h : start.Opened) : Remembers (fun _ => []) [] start.coordinator := by
  refine ⟨h.orderly, fun {id r} hr => ?_, fun _ => rfl, fun hlast => by cases hlast⟩
  obtain ⟨settings, chunker, starts, store, -, -, hstart, -⟩ := h
  obtain ⟨settings', pool, -, -, hc⟩ := start_eq_ok hstart
  rw [hc] at hr
  cases hr

end Chronicle

end SourceIndex
