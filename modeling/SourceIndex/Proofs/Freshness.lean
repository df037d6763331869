/-
  No parse result outlives the content that it was found in, once a newer one is committed.

  * `Request.paths`: the paths that a request was made for, `Chronicle.completions`: the
    requests that a run completes, in order, `Request.lastFor`: the last of them for a path;
  * `Coordinator.Fresh`: the cache holds nothing for a path but for the stored content;
  * `Coordinator.Leaves`: nothing is stored or entered for a path, `Orderly.leaves`: steps of
    a request leave the paths that it does not hold;
  * `Request.Prunes`, `RequestStep.prunes`: a request that has committed files trims the cache
    before it reports them;
  * `Coordinator.Pruned`, `Chronicle.pruned_run`: so the paths that are not leased and were
    written by the last request for them are fresh, in every run;
  * `Opened.no_stale_parse`: the same for the paths that no request is under way for.
-/
import SourceIndex.Proofs.Deeds
import SourceIndex.Proofs.Fulfilment

namespace SourceIndex

/-! ## Requests that are completed -/

namespace Request

variable {τ : Type}

/-- The paths that a request was made for. -/
def paths : Request τ → List String
  | .file path _ _ => [path]
  | .batch phase => phase.paths

/-- The last of some requests for a path. -/
def lastFor (path : String) (log : List (Request τ)) : Option (Request τ) :=
  (log.filter (path ∈ ·.paths)).getLast?

theorem lastFor_snoc (path : String) (log : List (Request τ)) (r : Request τ) :
    lastFor path (log ++ [r]) = if path ∈ r.paths then some r else lastFor path log := by
  unfold lastFor
  by_cases hp : path ∈ r.paths <;> simp [hp]

theorem outcome?_of_held {r : Request τ} {path : String} (h : path ∈ r.held) :
    r.outcome? = none := by
  cases r with
  | file own content phase =>
    cases phase with
    | done => cases h
    | _ => rfl
  | batch phase =>
    cases phase with
    | done => cases h
    | _ => rfl

end Request

namespace Coordinator

/-- The request that a happening completes, if it completes one. -/
def completion? (c : MemoryCoordinator) : Happening → Option (Request Transaction)
  | .act (.turn t) =>
    ((c.turn t).bind fun c => c.requests.get? t.request).filter (·.outcome?.isSome)
  | _ => none

theorem completion?_turn {c c₁ : MemoryCoordinator} {t : Turn}
    {requests : Table RequestId (Request Transaction)} {r : Request Transaction}
    (h : c.turn t = some { c₁ with requests := requests.put t.request r }) :
    c.completion? (.act (.turn t)) = if r.outcome?.isSome then some r else none := by
  rw [completion?, h, Option.bind_some]
  change ((requests.put t.request r).get? t.request).filter _ = _
  rw [Table.get?_put_self, Option.filter_some]

end Coordinator

/-- The requests that a run completes, in order. -/
def Chronicle.completions (s : Chronicle) : List Happening → List (Request Transaction) :=
  s.gather fun c x => (c.completion? x).toList

/-! ## Paths that are left alone -/

namespace Coordinator

variable {c c' c₁ : MemoryCoordinator} {r r' : Request Transaction} {path content : String}
  {f : Prepared} {stage stage' : Stage} {e : CacheEntry ParseResult} {files : List Prepared}

/-- The path has a stored file, and parse results are in the cache for its content only. -/
def Fresh (c : MemoryCoordinator) (path : String) : Prop :=
  ∃ file, c.rows.file? path = some file ∧
    ∀ e ∈ c.cache.entries, e.key.path = path → e.key.hash = .ofText file.content

/-- Nothing is stored for the path or entered into the cache for it. -/
structure Leaves (c c' : MemoryCoordinator) (path : String) : Prop where
  file : c'.rows.file? path = c.rows.file? path
  entries : ∀ e ∈ c'.cache.entries, e.key.path = path → e ∈ c.cache.entries

theorem Leaves.of_eq (hrows : c'.rows = c.rows) (hcache : c'.cache = c.cache) : Leaves c c' path :=
  ⟨by rw [hrows], fun e he _ => hcache ▸ he⟩

theorem Fresh.congr (h : c.Fresh path) (hl : Leaves c c' path) : c'.Fresh path := by
  obtain ⟨file, hfile, hentries⟩ := h
  exact ⟨file, hl.file.trans hfile, fun e he hp => hentries e (hl.entries e he hp) hp⟩

theorem StageStep.mem_entries (h : StageStep c path content stage stage' c')
    (he : e ∈ c'.cache.entries) : e ∈ c.cache.entries ∨ e.key.path = path := by
  cases h with
  | cached _ hget | uncached _ hget => exact Or.inl ((Cache.get_spec hget).1 e he)
  | stored =>
    rcases Cache.mem_set he with rfl | he
    · exact Or.inr rfl
    · exact Or.inl he
  | _ => exact Or.inl he

theorem StageStep.indexed (h : StageStep c path content stage stage' c') (hi : c.cache.Indexed) :
    c'.cache.Indexed := by
  cases h with
  | cached _ hget | uncached _ hget =>
    have hi' := hi.get c.now (.ofContent path content)
    rwa [hget] at hi'
  | stored => exact hi.set _ _ _
  | _ => exact hi

theorem RequestStep.mem_entries (h : RequestStep c r r' c') (hr : r.InHand)
    (he : e ∈ c'.cache.entries) : e ∈ c.cache.entries ∨ e.key.path ∈ r.held := by
  cases h.flow with
  | prepare slot stage hslot hs =>
    refine (hs.mem_entries he).imp_right fun hp => ?_
    rw [hp]
    exact hr.held.subset (List.mem_map_of_mem hslot)
  | move pool cache => exact Or.inl (cache e he)

/-- **Steps of a request** leave the paths that it does not hold. -/
theorem Orderly.leaves (h : Orderly c) {id : RequestId} (hr : c.requests.get? id = some r)
    (hs : RequestStep c r r' c') (hi : r.InHand) (hp : path ∉ r.held) : Leaves c c' path := by
  have hm := h.move hr hs
  refine ⟨?_, fun e he hpath => (hs.mem_entries hi he).resolve_right (hpath ▸ hp)⟩
  have hcoherent := coherent_of_fits c.chunker h.sound hm.writable.fits hm.writable.nodup
  rw [hm.rows_eq]
  refine congrArg StoreDump.file (hcoherent.dump_replay h.sound fun hmem => ?_)
  obtain ⟨f, hf, rfl⟩ := List.mem_map.1 hmem
  exact hp (hm.writable.mem_held f hf)

/-! ## Trimming -/

/-- The content of the file is stored for its path. -/
def UpToDate (c : MemoryCoordinator) (f : Prepared) : Prop :=
  ∃ file, c.rows.file? f.path = some file ∧ f.hash = .ofText file.content

theorem UpToDate.congr (h : c.UpToDate f) (hl : Leaves c c' f.path) : c'.UpToDate f := by
  obtain ⟨file, hfile, hhash⟩ := h
  exact ⟨file, hl.file.trans hfile, hhash⟩

theorem file?_of_commit (hs : c.rows.Sound)
    (hw : Writable c.settings.incremental c.rows r.held files)
    (hrows : c'.rows = replay c.chunker c.rows files) (hf : f ∈ files) :
    ∃ id, c'.rows.file? f.path = some ⟨id, f.path, f.content, .ofText f.content⟩ := by
  have hcoherent := coherent_of_fits c.chunker hs hw.fits hw.nodup
  obtain ⟨rows, hsound, -, hfits, hdump⟩ := hcoherent.dump_of_once hs (filter_path_eq hw.nodup hf)
  obtain ⟨kept, htakes⟩ := hfits.takes c.chunker hsound
  obtain ⟨id, hfile⟩ := htakes.file
  refine ⟨id, ?_⟩
  rw [hrows]
  exact (congrArg StoreDump.file hdump).trans hfile

theorem stores_of_commit (hs : c.rows.Sound)
    (hw : Writable c.settings.incremental c.rows r.held files)
    (hrows : c'.rows = replay c.chunker c.rows files) (hf : f ∈ files) : c'.UpToDate f := by
  obtain ⟨id, hfile⟩ := file?_of_commit hs hw hrows hf
  exact ⟨_, hfile, (hw.fits f hf).hash_eq⟩

theorem fresh_trim (hi : c.cache.Indexed) (h : c.UpToDate f) : (c.trim f).Fresh f.path := by
  obtain ⟨file, hfile, hhash⟩ := h
  refine ⟨file, hfile, fun e he hp => ?_⟩
  have he : e ∈ (c.cache.invalidateStale f.path f.hash).2.entries := he
  rw [(hi.invalidateStale_spec f.path f.hash).2, List.mem_filter, decide_eq_true_eq] at he
  rw [← hhash]
  by_contra hne
  exact he.2 ⟨hp, hne⟩

theorem leaves_trims (written : List (Prepared × Nat)) (c : MemoryCoordinator) (path : String) :
    Leaves c (written.foldl (fun c w => c.trim w.1) c) path := by
  refine ⟨?_, fun e he _ => mem_entries_trims he⟩
  obtain ⟨cache, he⟩ := trims_eq written c
  rw [he]

theorem indexed_trims (hi : c.cache.Indexed) (written : List (Prepared × Nat)) :
    (written.foldl (fun c w => c.trim w.1) c).cache.Indexed := by
  induction written generalizing c with
  | nil => exact hi
  | cons w written ih =>
    have hi' : (c.trim w.1).cache.Indexed := hi.invalidateStale _ _
    exact ih hi'

/-- **Trimming** makes the paths of files that are stored fresh, whatever else is trimmed
    before and after. -/
theorem fresh_trims {written : List (Prepared × Nat)} (hi : c.cache.Indexed)
    (h : ∀ w ∈ written, c.UpToDate w.1) :
    ∀ w ∈ written, (written.foldl (fun c w => c.trim w.1) c).Fresh w.1.path := by
  induction written generalizing c with
  | nil => exact List.forall_mem_nil _
  | cons w written ih =>
    obtain ⟨hw, hrest⟩ := List.forall_mem_cons.1 h
    have hi' : (c.trim w.1).cache.Indexed := hi.invalidateStale _ _
    refine List.forall_mem_cons.2 ⟨?_, ih hi' hrest⟩
    exact (fresh_trim hi hw).congr (leaves_trims written _ _)

theorem RequestStep.indexed (h : RequestStep c r r' c') (hi : c.cache.Indexed) :
    c'.cache.Indexed := by
  cases h with
  | file h =>
    cases h with
    | prepared hs => exact hs.indexed hi
    | trimmed => exact hi.invalidateStale _ _
    | _ => exact hi
  | batch h =>
    cases h with
    | prepared hs => exact hs.indexed hi
    | trimmed => exact indexed_trims hi _
    | _ => exact hi

end Coordinator

/-! ## What requests have committed -/

open Coordinator

/-- The files that a request has committed are stored, and their paths are fresh once it has
    trimmed the cache.  It holds them, and reports no file as written before. -/
def Request.Prunes (c : MemoryCoordinator) : Request Transaction → Prop
  | .file path _ (.trimming f _) => f.path = path ∧ c.UpToDate f
  | .file path _ (.closing (.ok report)) =>
    report.mode ≠ .skipped → report.path = path ∧ c.Fresh path
  | .batch (.arriving _ _ report) | .batch (.preparing _ _ _ report)
  | .batch (.opening _ _ report) | .batch (.writing _ _ _ _ _ _ report)
  | .batch (.undoing _ _ report) | .batch (.committing _ _ _ report) => report.OnlySkips
  | .batch (.trimming held written report) =>
    report.OnlySkips ∧ ∀ w ∈ written, w.1.path ∈ held ∧ c.UpToDate w.1
  | .batch (.closing held report) =>
    ∀ r ∈ report.succeeded, r.mode ≠ .skipped → r.path ∈ held ∧ c.Fresh r.path
  | _ => True

theorem Request.Prunes.congr {c c' : MemoryCoordinator} {r : Request Transaction} (h : r.Prunes c)
    (hl : ∀ p ∈ r.held, Leaves c c' p) : r.Prunes c' := by
  cases r with
  | file own content phase =>
    cases phase with
    | trimming f chunks =>
      obtain ⟨rfl, hs⟩ := h
      exact ⟨rfl, hs.congr (hl _ List.mem_cons_self)⟩
    | closing outcome =>
      cases outcome with
      | error error => trivial
      | ok report => exact fun hmode => (h hmode).imp_right (·.congr (hl _ List.mem_cons_self))
    | _ => trivial
  | batch phase =>
    cases phase with
    | trimming held written report =>
      exact ⟨h.1, fun w hw => ⟨(h.2 w hw).1, (h.2 w hw).2.congr (hl _ (h.2 w hw).1)⟩⟩
    | closing held report =>
      intro report hreport hmode
      obtain ⟨hheld, hfresh⟩ := h report hreport hmode
      exact ⟨hheld, hfresh.congr (hl _ hheld)⟩
    | done => trivial
    | _ => exact h

namespace Coordinator

variable {c c' c₁ : MemoryCoordinator} {r r' : Request Transaction} {path : String}
  {files : List (String × String)}

theorem FileStep.prunes {content : String} {phase phase' : FilePhase Transaction}
    (h : FileStep c path content phase phase' c') (hs : c.rows.Sound)
    (hm : Move c (.file path content phase) (c.commitOf? (.file path content phase)) c'
      (.file path content phase'))
    (hr : (Request.file path content phase).InHand) (hi : c.cache.Indexed)
    (hp : (Request.file path content phase).Prunes c) :
    (Request.file path content phase').Prunes c' := by
  cases h with
  | skipped => exact fun hmode => (hmode (hr.proper _ List.mem_cons_self).2).elim
  | @committed f tx chunks store hc =>
    have hcommit : c.commitOf? (.file path content (.committing f tx chunks)) = some [f] := by
      rw [commitOf?, hc]
      rfl
    rw [hcommit] at hm
    have hmem : f ∈ [f] := List.mem_cons_self
    exact ⟨List.mem_singleton.1 (hm.writable.mem_held f hmem),
      stores_of_commit hs hm.writable hm.rows_eq hmem⟩
  | trimmed =>
    obtain ⟨rfl, hstored⟩ := hp
    exact fun _ => ⟨rfl, fresh_trim hi hstored⟩
  | _ => trivial

theorem BatchStep.prunes {phase phase' : BatchPhase Transaction} (h : BatchStep c phase phase' c')
    (hs : c.rows.Sound)
    (hm : Move c (.batch phase) (c.commitOf? (.batch phase)) c' (.batch phase'))
    (hr : (Request.batch phase).InHand) (hi : c.cache.Indexed)
    (hp : (Request.batch phase).Prunes c) : (Request.batch phase').Prunes c' := by
  cases h with
  | @skipped _ before after slot _ report file hskipped =>
    have hproper := hr.proper slot (List.mem_append_right before List.mem_cons_self)
    rw [hskipped] at hproper
    exact List.forall_mem_append.2 ⟨hp, List.forall_mem_singleton.2 hproper.2⟩
  | nothing | unopened | undone | uncommitted =>
    exact fun report hreport hmode => (hmode (hp report hreport)).elim
  | @committed held tx written report store hc =>
    have hcommit : c.commitOf? (.batch (.committing held tx written report)) =
        some (written.map (·.1)) := by
      rw [commitOf?, hc]
      rfl
    rw [hcommit] at hm
    refine ⟨hp, fun w hw => ?_⟩
    have hmem : w.1 ∈ written.map (·.1) := List.mem_map_of_mem hw
    exact ⟨hm.writable.mem_held _ hmem, stores_of_commit hs hm.writable hm.rows_eq hmem⟩
  | @trimmed held written report =>
    obtain ⟨hskipped, hwritten⟩ := hp
    intro report hreport hmode
    rcases List.mem_append.1 hreport with hreport | hreport
    · exact (hmode (hskipped report hreport)).elim
    · obtain ⟨w, hw, rfl⟩ := List.mem_map.1 hreport
      exact ⟨(hwritten w hw).1, fresh_trims hi (fun w hw => (hwritten w hw).2) w hw⟩
  | closed => trivial
  | _ => exact hp

theorem RequestStep.prunes (h : RequestStep c r r' c') (hs : c.rows.Sound)
    (hm : Move c r (c.commitOf? r) c' r') (hr : r.InHand) (hi : c.cache.Indexed)
    (hp : r.Prunes c) : r'.Prunes c' := by
  cases h with
  | file h => exact h.prunes hs hm hr hi hp
  | batch h => exact h.prunes hs hm hr hi hp

theorem RequestStep.fresh_of_outcome (h : RequestStep c r r' c') (hp : r.Prunes c)
    {outcome : RequestOutcome} (ho : r'.outcome? = some outcome) {report : FileReport}
    (hreport : report ∈ outcome.reports) (hmode : report.mode ≠ .skipped) :
    c'.Fresh report.path := by
  cases h with
  | @file own content phase phase' c' h =>
    cases h with
    | refused => cases ho; cases hreport
    | @closed outcome tallies =>
      cases ho
      cases outcome with
      | error error => cases hreport
      | ok report' =>
        obtain rfl : report = report' := List.mem_singleton.1 hreport
        obtain ⟨hpath, hfresh⟩ := hp hmode
        rw [hpath]
        exact hfresh.congr (.of_eq rfl rfl)
    | _ => cases ho
  | batch h =>
    cases h with
    | closed =>
      cases ho
      exact (hp report hreport hmode).2.congr (.of_eq rfl rfl)
    | _ => cases ho

/-! ## Paths that are not held -/

theorem RequestStep.mem_paths (h : RequestStep c r r' c') (hr : r.InHand) :
    path ∈ r'.paths ↔ path ∈ r.paths := by
  cases h with
  | file h => exact Iff.rfl
  | batch h => exact (h.paths_perm hr).mem_iff

theorem Listed.mem_paths (h : Listed files r) (hp : path ∈ r.held) : path ∈ r.paths := by
  have hopen := Request.outcome?_of_held hp
  cases r with
  | file own content phase =>
    cases phase with
    | arriving | done => cases hp
    | _ => exact hp
  | batch phase =>
    refine ((h.paths phase rfl).mem_iff).2 (((h.placed.files hopen).mem_iff).1 ?_)
    exact List.mem_append_left _ (List.mem_append_right _ hp)

/-- A path that is not leased after a step was not leased before it either, unless the step
    completes a request for it. -/
theorem RequestStep.notMem_leases (h : RequestStep c r r' c') (hl : Listed files r)
    (hopen : path ∈ r'.paths → r'.outcome? = none) (hp : path ∉ c'.leases) : path ∉ c.leases := by
  have hr := hl.placed.inHand
  cases h.leaseMove hr with
  | kept new leases => rwa [leases] at hp
  | leased taken content free leases =>
    rw [leases] at hp
    exact fun hm => hp (List.mem_append_left _ hm)
  | refused taken content busy same => rwa [same] at hp
  | closed finished leases =>
    intro hm
    rw [leases] at hp
    have hheld : path ∈ r.held := by
      by_contra hnot
      exact hp (List.mem_filter.2 ⟨hm, by simpa using hnot⟩)
    rw [hopen ((h.mem_paths hr).2 (hl.mem_paths hheld))] at finished
    cases finished

/-- Where requests were completed in the order `log`: requests trim the cache, and a path that
    is not leased is fresh if the last request for it has written it. -/
structure Pruned (c : MemoryCoordinator) (log : List (Request Transaction)) : Prop where
  orderly : Orderly c
  indexed : c.cache.Indexed
  listed : ∀ {id r}, c.requests.get? id = some r → ∃ files, Listed files r
  prunes : ∀ {id r}, c.requests.get? id = some r → r.Prunes c
  fresh : ∀ {path r outcome report}, path ∉ c.leases → Request.lastFor path log = some r →
    r.outcome? = some outcome → report ∈ outcome.reports → report.path = path →
    report.mode ≠ .skipped → c.Fresh path

namespace Pruned

variable {log : List (Request Transaction)} {x : Happening}

theorem congr (h : Pruned c log) (ho : Orderly c') (hi : c'.cache.Indexed)
    (hrequests : c'.requests = c.requests) (hleases : c'.leases = c.leases)
    (hl : ∀ p, Leaves c c' p) : Pruned c' log where
  orderly := ho
  indexed := hi
  listed hr := h.listed (hrequests ▸ hr)
  prunes hr := (h.prunes (hrequests ▸ hr)).congr fun p _ => hl p
  fresh hp hlast houtcome hreport hpath hmode :=
    (h.fresh (hleases ▸ hp) hlast houtcome hreport hpath hmode).congr (hl _)

theorem receive (h : Pruned c log) (hlisted : Listed files r)
    (hprunes : ∀ c : MemoryCoordinator, r.Prunes c) (ho : Orderly (c.receive r).2) :
    Pruned (c.receive r).2 log := by
  refine ⟨ho, h.indexed, fun hq => ?_, fun hq => ?_,
    fun hp hlast houtcome hreport hpath hmode => ?_⟩
  · rcases Table.get?_of_put hq with ⟨-, rfl⟩ | ⟨-, hq⟩
    · exact ⟨files, hlisted⟩
    · exact h.listed hq
  · rcases Table.get?_of_put hq with ⟨-, rfl⟩ | ⟨-, hq⟩
    · exact hprunes _
    · exact (h.prunes hq).congr fun p _ => .of_eq rfl rfl
  · exact (h.fresh hp hlast houtcome hreport hpath hmode).congr (.of_eq rfl rfl)

/-- **A step of a request** keeps it: the paths that it changes are its own, and when it is
    done, it is the last request for them. -/
theorem turn (h : Pruned c log) {t : Turn} (ht : c.turn t = some c') :
    Pruned c' (log ++ (c.completion? (.act (.turn t))).toList) := by
  obtain ⟨r, r', c₁, hr, hs, rfl⟩ := requestStep_of_turn ht
  obtain ⟨files, hlisted⟩ := h.listed hr
  have hm := h.orderly.move hr hs
  have hleaves : ∀ {p}, p ∉ r.held → Leaves c c₁ p :=
    h.orderly.leaves hr hs hlisted.placed.inHand
  refine ⟨h.orderly.undergo (x := .act (.turn t)) ht, hs.indexed h.indexed, fun hq => ?_,
    fun {id q} hq => ?_, fun {path q outcome report} hp hlast houtcome hreport hpath hmode => ?_⟩
  · rcases Table.get?_of_put hq with ⟨-, rfl⟩ | ⟨-, hq⟩
    · exact ⟨files, hs.listed hlisted⟩
    · exact h.listed hq
  · rcases Table.get?_of_put hq with ⟨-, rfl⟩ | ⟨hne, hq⟩
    · have hprunes := hs.prunes h.orderly.sound hm hlisted.placed.inHand h.indexed (h.prunes hr)
      exact hprunes.congr fun p _ => .of_eq rfl rfl
    · refine (h.prunes hq).congr fun p hp => ?_
      have hl := hleaves (h.orderly.disjoint hq hr hne.symm hp)
      exact ⟨hl.file, hl.entries⟩
  · rw [completion?_turn ht] at hlast
    by_cases hdone : path ∈ r'.paths ∧ r'.outcome?.isSome
    · rw [if_pos hdone.2, Option.toList_some, Request.lastFor_snoc, if_pos hdone.1] at hlast
      cases hlast
      have hfresh := hs.fresh_of_outcome (h.prunes hr) houtcome hreport hmode
      exact hpath ▸ hfresh.congr (.of_eq rfl rfl)
    · -- the request that was the last one for the path still is
      have hlast : Request.lastFor path log = some q := by
        by_cases ho : r'.outcome?.isSome
        · rwa [if_pos ho, Option.toList_some, Request.lastFor_snoc,
            if_neg fun hm => hdone ⟨hm, ho⟩] at hlast
        · rwa [if_neg ho, Option.toList_none, List.append_nil] at hlast
      have hopen : path ∈ r'.paths → r'.outcome? = none := fun hm =>
        Option.not_isSome_iff_eq_none.1 fun ho => hdone ⟨hm, ho⟩
      have hfree := hs.notMem_leases hlisted hopen hp
      have hl := hleaves fun hheld => hfree (h.orderly.mem_leases.2 ⟨_, r, hr, hheld⟩)
      exact (h.fresh hfree hlast houtcome hreport hpath hmode).congr ⟨hl.file, hl.entries⟩

theorem rest (h : Pruned c log) (hx : c.undergo x = some c') (hturn : ∀ t, x ≠ .act (.turn t)) :
    Pruned c' log := by
  have ho := h.orderly.undergo hx
  cases x with
  | disturb rejected faults =>
    cases hx
    exact h.congr ho h.indexed rfl rfl fun p => .of_eq rfl rfl
  | act action =>
    cases change_of_act hx with
    | moved => exact (hturn _ rfl).elim
    | asked path content => exact h.receive (listed_ofFile path content) (fun _ => trivial) ho
    | askedMany files => exact h.receive (listed_ofFiles files) (fun _ => List.forall_mem_nil _) ho
    | pooled => exact h.congr ho h.indexed rfl rfl fun p => .of_eq rfl rfl
    | invalidated path =>
      exact h.congr ho (h.indexed.invalidate path) rfl rfl fun p =>
        ⟨rfl, fun e he _ => Cache.mem_of_mem_invalidate he⟩
    | cleared =>
      exact h.congr ho h.indexed.clear rfl rfl fun p => ⟨rfl, fun e he _ => by cases he⟩

theorem undergo (h : Pruned c log) (hx : c.undergo x = some c') :
    Pruned c' (log ++ (c.completion? x).toList) := by
  by_cases hturn : ∃ t, x = .act (.turn t)
  · obtain ⟨t, rfl⟩ := hturn
    exact h.turn hx
  · have hnone : c.completion? x = none := by
      unfold completion?
      split
      · exact (hturn ⟨_, rfl⟩).elim
      · rfl
    rw [hnone, Option.toList_none, List.append_nil]
    exact h.rest hx fun t ht => hturn ⟨t, ht⟩

end Pruned

end Coordinator

namespace Chronicle

open Coordinator

variable {s s' : Chronicle} {xs : List Happening}

theorem Opened.pruned (h : s.Opened) : Pruned s.coordinator [] := by
  have ho := h.orderly
  obtain ⟨settings, chunker, starts, store, hsound, hbusy, hstart, -⟩ := h
  obtain ⟨settings', pool, -, -, hc⟩ := start_eq_ok hstart
  rw [hc] at ho ⊢
  refine ⟨ho, .ofSettings _, fun hr => ?_, fun hr => ?_, fun _ hlast => ?_⟩
  · cases hr
  · cases hr
  · cases hlast

theorem pruned_run {log : List (Request Transaction)} (h : Pruned s.coordinator log)
    (hx : s.run xs = some s') : Pruned s'.coordinator (log ++ s.completions xs) := by
  induction xs generalizing s log with
  | nil =>
    cases hx
    exact (List.append_nil log).symm ▸ h
  | cons x xs ih =>
    obtain ⟨s₁, hs, hx⟩ := Option.bind_eq_some_iff.1 hx
    rw [completions, gather_cons hs, ← List.append_assoc]
    obtain ⟨c₁, hc, rfl⟩ := Option.map_eq_some_iff.1 hs
    exact ih (h.undergo hc) hx

/-- **Commits leave no stale parse result in the cache.**  Whatever requests, invalidations,
    failures of the store and advances of the clock a run of a coordinator is made of, and
    however they interleave: where no request for a path is under way and the last one that
    was completed, for one file or for many, has written the file in full or symbol by symbol,
    the cache has at most one entry under the path, and this is the one for the fingerprint of
    the content that is stored for it. -/
theorem Opened.no_stale_parse (h : s.Opened) (hx : s.run xs = some s') {path : String}
    (hidle : ∀ id r, s'.coordinator.requests.get? id = some r → path ∈ r.paths →
      r.outcome?.isSome)
    {r : Request Transaction} {outcome : RequestOutcome} {report : FileReport}
    (hlast : Request.lastFor path (s.completions xs) = some r) (ho : r.outcome? = some outcome)
    (hreport : report ∈ outcome.reports) (hpath : report.path = path)
    (hmode : report.mode = .full ∨ report.mode = .incremental) :
    ∃ file, s'.coordinator.rows.file? path = some file ∧
      (s'.coordinator.cache.keys.filter (·.path = path)).Sublist
        [.ofContent path file.content] := by
  have hp := pruned_run h.pruned hx
  have hfree : path ∉ s'.coordinator.leases := by
    intro hm
    obtain ⟨id, q, hq, hheld⟩ := hp.orderly.mem_leases.1 hm
    obtain ⟨files, hlisted⟩ := hp.listed hq
    have hdone := hidle id q hq (hlisted.mem_paths hheld)
    rw [Request.outcome?_of_held hheld] at hdone
    cases hdone
  have hwritten : report.mode ≠ .skipped := by
    rcases hmode with hm | hm <;> rw [hm] <;> decide
  obtain ⟨file, hfile, hentries⟩ := hp.fresh hfree hlast ho hreport hpath hwritten
  refine ⟨file, hfile, ?_⟩
  have hnodup := hp.indexed.nodup.filter (·.path = path)
  generalize hkeys : s'.coordinator.cache.keys.filter (·.path = path) = keys at hnodup ⊢
  have hall : keys = .replicate keys.length (.ofContent path file.content) := by
    refine List.eq_replicate_iff.2 ⟨rfl, fun key hkey => ?_⟩
    rw [← hkeys, List.mem_filter, decide_eq_true_eq] at hkey
    obtain ⟨e, he, rfl⟩ := List.mem_map.1 hkey.1
    exact congrArg₂ CacheKey.mk hkey.2 (hentries e he hkey.2)
  rw [hall] at hnodup ⊢
  exact (List.replicate_sublist_replicate _).2 (List.nodup_replicate.1 hnodup)

/-- A file is indexed, and then, with another content, in a batch.  Before the batch trims the
    cache there is a parse result for either content. -/
theorem Opened.no_stale_parse_sample :
    let turns : Nat → Nat → List Happening := fun place count =>
      List.replicate count (.act (.turn ⟨2, place⟩))
    let parse := Happening.parse 0 [.ofLines "f" .function 1 1]
    let xs : List Happening := .act (.index "a" "fn f") :: Happening.turns 1 4 ++ parse ++
      Happening.turns 1 8 ++ .act (.batch [("a", "fn g"), ("b", "fn f")]) :: turns 0 7 ++
      [.act (.pool (.advance 5)), .act (.invalidate "b")] ++ turns 1 3 ++ parse ++ parse ++
      turns 0 12
    ∃ s₁ s₂ file, sample.run xs = some s₁ ∧ s₁.run (turns 0 2) = some s₂ ∧
      s₁.coordinator.cache.keys.filter (·.path = "a") =
        [.ofContent "a" "fn g", .ofContent "a" "fn f"] ∧
      s₂.coordinator.rows.file? "a" = some file ∧ file.content = "fn g" ∧
      (s₂.coordinator.cache.keys.filter (·.path = "a")).Sublist [.ofContent "a" "fn g"] := by
  intro turns parse xs
  have hcheck : (sample.run xs).any (fun s₁ => (s₁.run (turns 0 2)).any fun s₂ =>
      (Request.lastFor "a" (sample.completions (xs ++ turns 0 2))).any fun r =>
        r.outcome?.any fun outcome => outcome.reports.any fun report =>
          decide (s₁.coordinator.cache.keys.filter (·.path = "a") =
              [.ofContent "a" "fn g", .ofContent "a" "fn f"] ∧
            (∀ r ∈ s₂.coordinator.requests.values, r.outcome?.isSome) ∧
            (s₂.coordinator.rows.file? "a").map (·.content) = some "fn g" ∧
            report.path = "a" ∧ report.mode = .full)) = true := by
    decide +kernel
  obtain ⟨s₁, h₁, hcheck⟩ := (Option.any_eq_true _ _).1 hcheck
  obtain ⟨s₂, h₂, hcheck⟩ := (Option.any_eq_true _ _).1 hcheck
  obtain ⟨r, hlast, hcheck⟩ := (Option.any_eq_true _ _).1 hcheck
  obtain ⟨outcome, ho, hcheck⟩ := (Option.any_eq_true _ _).1 hcheck
  obtain ⟨report, hreport, hcheck⟩ := List.any_eq_true.1 hcheck
  obtain ⟨hboth, hdone, hcontent, hpath, hmode⟩ := of_decide_eq_true hcheck
  obtain ⟨file, hfile, hsublist⟩ := sample_started.opened.no_stale_parse (run_append h₁ h₂)
    (fun id r hr _ => hdone r (Table.mem_values_of_get? hr)) hlast ho hreport hpath (Or.inl hmode)
  rw [hfile, Option.map_some, Option.some.injEq] at hcontent
  exact ⟨s₁, s₂, file, h₁, h₂, hboth, hfile, hcontent, hcontent ▸ hsublist⟩

end Chronicle

end SourceIndex
