/-
  The course of requests on a store without faults, with a parser that is a function.

  * `Coordinator.recent`: the requests since some state;
  * `Coordinator.Course`: the paths asked for since then are those that the recent
    requests are about, what is stored for a path stays as it is until its file is
    committed, and all goes as the fates of the revisions say;
  * `Course.undergo`, `course_run`: whatever happens keeps this, where no path is asked
    for twice;
  * `Course.outcomes_of_idle`, `Course.filter_writes`: the outcomes and the files that are
    written in the end.
-/
import SourceIndex.Proofs.Advance

namespace SourceIndex

namespace Request

variable {q : Request Transaction}

theorem idle_of_outcome? (h : q.outcome?.isSome) : q.held = [] ∧ q.pending = [] := by
  cases q with
  | file path content phase =>
    cases phase with
    | done => exact ⟨rfl, rfl⟩
    | _ => cases h
  | batch phase =>
    cases phase with
    | done => exact ⟨rfl, rfl⟩
    | _ => cases h

end Request

theorem FileOutcome.filterMap_wrote?_sublist (os : List FileOutcome) :
    (os.filterMap wrote?).Sublist (os.map path) := by
  induction os with
  | nil => exact .slnil
  | cons o os ih =>
    rw [List.filterMap_cons, List.map_cons]
    cases ho : o.wrote? with
    | none => exact ih.cons _
    | some p =>
      cases o with
      | error error => cases ho
      | ok report =>
        obtain ⟨-, he⟩ := Option.ite_none_left_eq_some.1 ho
        cases he
        exact ih.cons_cons _

/-- Two lists with the same keys, each once, agree in what is determined by the keys. -/
theorem perm_map_of_keys {α β κ γ : Type} {k : α → κ} {l : β → κ} {f : α → γ} {g : β → γ}
    {as : List α} {bs : List β} (hp : (as.map k).Perm (bs.map l)) (hn : (bs.map l).Nodup)
    (h : ∀ a ∈ as, ∃ b ∈ bs, l b = k a ∧ f a = g b) : (as.map f).Perm (bs.map g) := by
  induction as generalizing bs with
  | nil =>
    rw [List.map_nil, List.nil_perm, List.map_eq_nil_iff] at hp
    rw [hp]
    exact .refl _
  | cons a as ih =>
    obtain ⟨b, hb, hkey, hvalue⟩ := h a List.mem_cons_self
    obtain ⟨before, after, rfl⟩ := List.append_of_mem hb
    have hmiddle : ((before ++ b :: after).map l).Perm (l b :: (before ++ after).map l) :=
      List.perm_middle.map l
    have hrest : (as.map k).Perm ((before ++ after).map l) := by
      have hcons := hp.trans hmiddle
      rw [List.map_cons, hkey] at hcons
      exact (List.perm_cons _).1 hcons
    obtain ⟨hnew, hn'⟩ := List.nodup_cons.1 (hmiddle.nodup_iff.1 hn)
    have hvalues : ((before ++ b :: after).map g).Perm (g b :: (before ++ after).map g) :=
      List.perm_middle.map g
    rw [List.map_cons, hvalue]
    refine List.Perm.trans ((ih hrest hn' ?_).cons _) hvalues.symm
    intro a' ha'
    obtain ⟨b', hb', hkey', hvalue'⟩ := h a' (List.mem_cons_of_mem _ ha')
    refine ⟨b', ?_, hkey', hvalue'⟩
    rcases List.mem_cons.1 (List.perm_middle.mem_iff.1 hb') with rfl | hb'
    · exact (hnew (hkey' ▸ hrest.mem_iff.1 (List.mem_map_of_mem ha'))).elim
    · exact hb'

namespace Coordinator

variable {start c c' : MemoryCoordinator} {parser : Parser}
  {asked files files' : List (String × String)} {writes : List Prepared}

theorem Foretold.mono {o : FileOutcome} (h : start.Foretold parser files o)
    (hf : ∀ e ∈ files, e ∈ files') : start.Foretold parser files' o := by
  obtain ⟨content, hm, ho⟩ := h
  exact ⟨content, hf _ hm, ho⟩

theorem Sure.mono {q : Request Transaction} (h : start.Sure parser files q)
    (hf : ∀ e ∈ files, e ∈ files') : start.Sure parser files' q where
  todo e he := hf e (h.todo e he)
  slots s hs := ⟨hf _ (h.slots s hs).1, (h.slots s hs).2⟩
  ready f hm := ⟨hf _ (h.ready f hm).mem, (h.ready f hm).drafts⟩
  pens := h.pens

theorem Move.prior_eq {r r' : Request Transaction} {commit : Option (List Prepared)}
    (h : Move c r commit c' r') (hs : c.rows.Sound) {p : String}
    (hp : p ∉ (commit.getD []).map (·.path)) : c'.rows.prior p = c.rows.prior p := by
  have hcoherent := coherent_of_fits c.chunker hs h.writable.fits h.writable.nodup
  rw [h.rows_eq]
  exact hs.prior_congr (hcoherent.sound hs).toWellFormed (hcoherent.dump_replay hs hp)

/-- The requests that came after a state. -/
def recent (start c : MemoryCoordinator) : List (Request Transaction) :=
  c.requests.valuesAbove start.lastRequest

/-- The outcomes of the requests that came after a state. -/
def outcomesSince (start c : MemoryCoordinator) : List FileOutcome :=
  (start.recent c).flatMap Request.outcomes

/-- The requests since `start` are about the paths of `files`, each about its own, and all
    goes as the fates say.  Since then `writes` are committed. -/
structure Course (start : MemoryCoordinator) (parser : Parser)
    (asked files : List (String × String)) (writes : List Prepared) (c : MemoryCoordinator) : Prop
    extends Unhindered start parser asked c where
  last : start.lastRequest ≤ c.lastRequest
  old : ∀ {id q}, id ≤ start.lastRequest → c.requests.get? id = some q → q.outcome?.isSome
  aims : ((start.recent c).flatMap Request.aims).Perm (files.map (·.1))
  prior : ∀ q ∈ start.recent c, ∀ p ∈ q.pending, c.rows.prior p = start.rows.prior p
  outside : ∀ p ∉ files.map (·.1), c.rows.prior p = start.rows.prior p
  sure : ∀ q ∈ start.recent c, start.Sure parser files q
  held : ∀ q ∈ start.recent c, ∀ p ∈ q.held, p ∈ q.aims
  foretold : ∀ q ∈ start.recent c, ∀ o ∈ q.outcomes, start.Foretold parser files o
  wrote : (writes.map (·.path)).Perm ((start.outcomesSince c).filterMap FileOutcome.wrote?)
  written : ∀ f ∈ writes, (f.path, f.content) ∈ files ∧
    start.fate parser f.path f.content = .written f.core

namespace Course

theorem refl (ho : Orderly start) (hfaults : start.store.faults = [])
    (hr : start.Regular parser asked)
    (hidle : ∀ {id q}, start.requests.get? id = some q → q.outcome?.isSome) :
    Course start parser asked [] [] start := by
  have hnil : start.recent start = [] := Table.valuesAbove_eq_nil ho.le
  constructor
  case toUnhindered => exact ⟨.refl _, ⟨rfl, hfaults⟩, ho, hr⟩
  case last => exact Nat.le_refl _
  case old => exact fun _ hq => hidle hq
  case aims => rw [hnil]; exact .refl _
  case wrote => rw [outcomesSince, hnil]; exact .refl _
  case outside => exact fun _ _ => rfl
  case written => exact List.forall_mem_nil _
  all_goals
    rw [hnil]
    exact List.forall_mem_nil _

theorem congr (h : Course start parser asked files writes c)
    (hu : Unhindered start parser asked c') (hrequests : c'.requests = c.requests)
    (hlast : c'.lastRequest = c.lastRequest) (hrows : c'.rows = c.rows) :
    Course start parser asked files writes c' := by
  have hrecent : start.recent c' = start.recent c := by rw [recent, hrequests]; rfl
  constructor
  case toUnhindered => exact hu
  case last => exact hlast ▸ h.last
  case old =>
    intro id q hid hq
    exact h.old hid (hrequests ▸ hq)
  case aims => rw [hrecent]; exact h.aims
  case prior => rw [hrecent, hrows]; exact h.prior
  case outside => rw [hrows]; exact h.outside
  case sure => rw [hrecent]; exact h.sure
  case held => rw [hrecent]; exact h.held
  case foretold => rw [hrecent]; exact h.foretold
  case wrote => rw [outcomesSince, hrecent]; exact h.wrote
  case written => exact h.written

theorem receive (h : Course start parser asked files writes c) {q : Request Transaction}
    {asks : List (String × String)} (hu : Unhindered start parser asked (c.receive q).2)
    (htodo : q.todo = asks) (hslots : q.slots = []) (hready : q.ready = [])
    (houtcomes : q.outcomes = []) (hheld : q.held = []) (hpens : start.Pens q)
    (hn : ((files ++ asks).map (·.1)).Nodup) :
    Course start parser asked (files ++ asks) writes (c.receive q).2 := by
  have hold : ∀ e ∈ files, e ∈ files ++ asks := fun e he => List.mem_append_left _ he
  have hrecent : start.recent (c.receive q).2 = start.recent c ++ [q] :=
    Table.valuesAbove_put_new q h.orderly.next_notMem (Nat.lt_succ_of_le h.last)
  have hpending : q.pending = asks.map (·.1) := by
    simp [Request.pending, htodo, hslots, hready]
  constructor
  case toUnhindered => exact hu
  case last => exact Nat.le_succ_of_le h.last
  case old =>
    intro id q' hid hq'
    rw [Coordinator.receive, Table.get?_put, if_neg] at hq'
    · exact h.old hid hq'
    · exact fun he => Nat.not_succ_le_self _ (he ▸ Nat.le_trans hid h.last)
  case aims =>
    rw [hrecent, List.flatMap_append, List.flatMap_singleton, List.map_append]
    refine h.aims.append (.of_eq ?_)
    rw [Request.aims, hpending, houtcomes, List.map_nil, List.append_nil]
  case prior =>
    rw [hrecent]
    refine List.forall_mem_append.2 ⟨h.prior, List.forall_mem_singleton.2 ?_⟩
    rw [List.map_append] at hn
    intro p hp
    exact h.outside p fun hfile => List.disjoint_of_nodup_append hn hfile (hpending ▸ hp)
  case outside =>
    intro p hp
    rw [List.map_append, List.mem_append, not_or] at hp
    exact h.outside p hp.1
  case sure =>
    rw [hrecent]
    refine List.forall_mem_append.2
      ⟨fun q' hq' => (h.sure q' hq').mono hold, List.forall_mem_singleton.2 ⟨?_, ?_, ?_, hpens⟩⟩
    · rw [htodo]
      exact fun e he => List.mem_append_right _ he
    · rw [hslots]
      exact List.forall_mem_nil _
    · rw [hready]
      exact List.forall_mem_nil _
  case held =>
    rw [hrecent]
    refine List.forall_mem_append.2 ⟨h.held, List.forall_mem_singleton.2 ?_⟩
    rw [hheld]
    exact List.forall_mem_nil _
  case foretold =>
    rw [hrecent]
    refine List.forall_mem_append.2
      ⟨fun q' hq' o ho => (h.foretold q' hq' o ho).mono hold, List.forall_mem_singleton.2 ?_⟩
    rw [houtcomes]
    exact List.forall_mem_nil _
  case wrote =>
    rw [outcomesSince, hrecent, List.flatMap_append, List.flatMap_singleton, houtcomes,
      List.append_nil]
    exact h.wrote
  case written => exact fun f hf => ⟨hold _ (h.written f hf).1, (h.written f hf).2⟩

section
variable {id : RequestId} {r : Request Transaction}
  (h : Course start parser asked files writes c) (hn : (files.map (·.1)).Nodup)
  (hr : c.requests.get? id = some r)
include h hn hr

theorem others (hid : start.lastRequest < id) :
    ∃ others, (start.recent c).Perm (r :: others) ∧
      (∀ r', ((c.requests.put id r').valuesAbove start.lastRequest).Perm (r' :: others)) ∧
      r.aims.Nodup ∧ (∀ q ∈ others, ∀ p ∈ q.aims, p ∉ r.aims) ∧
      ∀ {id' q}, id' ≠ id → start.lastRequest < id' → c.requests.get? id' = some q →
        q ∈ others := by
  obtain ⟨others, hrecent, hput, hothers⟩ := Table.exists_valuesAbove_split hr hid
  have haims := ((hrecent.flatMap_right Request.aims).symm.trans h.aims).nodup_iff.2 hn
  rw [List.flatMap_cons, List.nodup_append] at haims
  refine ⟨others, hrecent, hput, haims.1, ?_, hothers⟩
  intro q hq p hp hpr
  exact haims.2.2 p hpr p (List.mem_flatMap.2 ⟨q, hq, hp⟩) rfl

/-- Nobody has the lease of a path that a request has still to take up. -/
theorem free (hid : start.lastRequest < id) : ∀ e ∈ r.todo, e.1 ∉ c.leases := by
  obtain ⟨others, hrecent, -, hnodup, hdisjoint, hothers⟩ := h.others hn hr hid
  intro e he hlease
  have htodo : e.1 ∈ r.todo.map (·.1) := List.mem_map_of_mem he
  obtain ⟨id', q, hq, hheld⟩ := h.orderly.mem_leases.1 hlease
  by_cases hne : id' = id
  · subst hne
    obtain rfl : q = r := Option.some.inj (hq.symm.trans hr)
    rw [Request.held_of_mem_todo he] at hheld
    rw [Request.aims, Request.pending, List.append_assoc, List.append_assoc] at hnodup
    exact List.disjoint_of_nodup_append hnodup htodo (List.mem_append_left _ hheld)
  · have hlt : start.lastRequest < id' := by
      by_contra hle
      rw [(Request.idle_of_outcome? (h.old (Nat.le_of_not_lt hle) hq)).1] at hheld
      cases hheld
    have hmem := hothers hne hlt hq
    refine hdisjoint q hmem e.1 ?_ ?_
    · exact h.held q (hrecent.mem_iff.2 (List.mem_cons_of_mem _ hmem)) e.1 hheld
    · exact List.mem_append_left _ (List.mem_append_left _ (List.mem_append_left _ htodo))

end

/-- **A step of a request** keeps the course of all. -/
theorem turn (h : Course start parser asked files writes c) (hn : (files.map (·.1)).Nodup)
    (hsavepoints : start.store.store.rules.savepoints = true) (hd : Distinguished asked)
    (hasked : ∀ e ∈ files, e ∈ asked) {id : RequestId} {r r' : Request Transaction}
    {c₁ : MemoryCoordinator} (hr : c.requests.get? id = some r) (hs : RequestStep c r r' c₁)
    (hu : Unhindered start parser asked { c₁ with requests := c.requests.put id r' }) :
    Course start parser asked files (writes ++ (c.commitOf? r).getD [])
      { c₁ with requests := c.requests.put id r' } := by
  have hid : start.lastRequest < id := by
    by_contra hle
    have hold := h.old (Nat.le_of_not_lt hle) hr
    rw [hs.outcome?_eq_none] at hold
    cases hold
  obtain ⟨others, hrecent, hput, -, hdisjoint, -⟩ := h.others hn hr hid
  have hmem : r ∈ start.recent c := hrecent.mem_iff.2 List.mem_cons_self
  have hothers : ∀ q ∈ others, q ∈ start.recent c := fun q hq =>
    hrecent.mem_iff.2 (List.mem_cons_of_mem _ hq)
  have hm := h.orderly.move hr hs
  obtain ⟨settled, ha⟩ := hs.advance h.toUnhindered hd hasked hsavepoints hr (h.free hn hr hid)
    (h.prior r hmem) (h.sure r hmem)
  -- the requests after the step
  have hrecent' : (start.recent { c₁ with requests := c.requests.put id r' }).Perm
      (r' :: others) :=
    hput r'
  have hall : ∀ {P : Request Transaction → Prop}, P r' → (∀ q ∈ others, P q) →
      ∀ q ∈ start.recent { c₁ with requests := c.requests.put id r' }, P q := by
    intro P hP hrest q hq
    rcases List.mem_cons.1 (hrecent'.mem_iff.1 hq) with rfl | hq
    · exact hP
    · exact hrest q hq
  -- what it commits are paths of its own
  have hown : ∀ p ∈ ((c.commitOf? r).getD []).map (·.path), p ∈ r.aims := by
    intro p hp
    obtain ⟨f, hf, rfl⟩ := List.mem_map.1 hp
    exact h.held r hmem _ (hm.writable.mem_held f hf)
  have hprior : ∀ {p}, p ∉ r.aims → c₁.rows.prior p = c.rows.prior p := fun hp =>
    hm.prior_eq h.orderly.sound fun hc => hp (hown _ hc)
  constructor
  case toUnhindered => exact hu
  case last => exact hm.lastRequest.symm ▸ h.last
  case old =>
    intro id' q hid' hq
    have hne : id ≠ id' := Nat.ne_of_gt (Nat.lt_of_le_of_lt hid' hid)
    change (c.requests.put id r').get? id' = some q at hq
    rw [Table.get?_put, if_neg hne] at hq
    exact h.old hid' hq
  case aims =>
    refine (hrecent'.flatMap_right _).trans (List.Perm.trans ?_ h.aims)
    refine List.Perm.trans ?_ (hrecent.flatMap_right _).symm
    exact ha.aims.append_right _
  case prior =>
    refine hall ?_ fun q hq p hp => ?_
    · intro p hp
      cases hcommit : c.commitOf? r with
      | some commit =>
        -- a request that has committed has nothing before it
        rw [Request.pending_of_over (hm.progress (hcommit ▸ rfl)).2] at hp
        cases hp
      | none =>
        have hrows : c₁.rows.prior p = c.rows.prior p :=
          hm.prior_eq h.orderly.sound (by rw [hcommit]; exact List.not_mem_nil)
        exact hrows.trans (h.prior r hmem p (ha.pending.mem_iff.2 (List.mem_append_left _ hp)))
    · have haim : p ∈ q.aims := List.mem_append_left _ hp
      exact (hprior (hdisjoint q hq p haim)).trans (h.prior q (hothers q hq) p hp)
  case outside =>
    intro p hp
    refine (hprior fun haim => hp ?_).trans (h.outside p hp)
    exact h.aims.mem_iff.1 (List.mem_flatMap.2 ⟨r, hmem, haim⟩)
  case sure => exact hall ha.sure fun q hq => h.sure q (hothers q hq)
  case held =>
    refine hall ?_ fun q hq => h.held q (hothers q hq)
    intro p hp
    refine ha.aims.mem_iff.2 ?_
    rcases ha.held p hp with hp | hp
    · exact h.held r hmem p hp
    · exact List.mem_append_left _ hp
  case foretold =>
    refine hall ?_ fun q hq => h.foretold q (hothers q hq)
    intro o ho
    rcases List.mem_append.1 (ha.outcomes.mem_iff.1 ho) with ho | ho
    · exact h.foretold r hmem o ho
    · exact ha.foretold o ho
  case wrote =>
    have houtcomes : ((start.recent { c₁ with requests := c.requests.put id r' }).flatMap
        Request.outcomes).Perm ((start.recent c).flatMap Request.outcomes ++ settled) := by
      refine (hrecent'.flatMap_right _).trans ?_
      refine List.Perm.trans ?_ ((hrecent.flatMap_right _).symm.append_right _)
      rw [List.flatMap_cons, List.flatMap_cons, List.append_assoc]
      refine (ha.outcomes.append_right _).trans ?_
      rw [List.append_assoc]
      exact List.perm_append_comm.append_left _
    refine List.Perm.trans ?_ (houtcomes.filterMap _).symm
    rw [List.map_append, List.filterMap_append, ha.wrote]
    exact h.wrote.append_right _
  case written =>
    refine List.forall_mem_append.2 ⟨h.written, ?_⟩
    intro f hf
    obtain ⟨hdrafted, hpath⟩ := ha.committed f hf
    have hfate := hdrafted.drafts
    rw [Drafts, if_neg hpath] at hfate
    exact ⟨hdrafted.mem, hfate⟩

theorem undergo (h : Course start parser asked files writes c)
    (hsavepoints : start.store.store.rules.savepoints = true) (hd : Distinguished asked)
    {x : Happening} (hx : c.undergo x = some c') (hquiet : x.disturbs = false) (hcalm : x.Calm)
    (hreply : ∀ reply ∈ c.reply? x, reply.Of parser)
    (hasked : ∀ e ∈ files ++ x.asks, e ∈ asked) (hn : ((files ++ x.asks).map (·.1)).Nodup) :
    Course start parser asked (files ++ x.asks) (writes ++ c.commits x) c' := by
  obtain ⟨hfiles, hasks⟩ := List.forall_mem_append.1 hasked
  have hu : Unhindered start parser asked c' :=
    ⟨h.toSameRules.trans (h.orderly.undergo_rules hx),
      h.orderly.undergo_faultless h.toFaultless hquiet hx, h.orderly.undergo hx,
      h.regular.undergo hcalm hreply hasks hx⟩
  cases x with
  | disturb rejected faults => cases hquiet
  | act action =>
    cases change_of_act hx with
    | asked | askedMany =>
      rw [show c.commits _ = [] from rfl, List.append_nil]
      exact h.receive hu rfl rfl rfl rfl rfl trivial hn
    | @moved t r r' c₁ hr hs =>
      rw [commits_turn hr, show (Happening.act (.turn t)).asks = [] from rfl, List.append_nil]
      rw [show (Happening.act (.turn t)).asks = [] from rfl, List.append_nil] at hn
      exact h.turn hn hsavepoints hd hfiles hr hs hu
    | _ => simpa [Happening.asks, commits] using h.congr hu rfl rfl rfl

/-! ## In the end -/

theorem paths_of_idle (h : Course start parser asked files writes c)
    (hidle : ∀ q ∈ start.recent c, q.outcome?.isSome) :
    ((start.outcomesSince c).map FileOutcome.path).Perm (files.map (·.1)) := by
  refine List.Perm.trans (.of_eq ?_) h.aims
  rw [outcomesSince, List.map_flatMap]
  refine List.flatMap_congr fun q hq => ?_
  rw [Request.aims, (Request.idle_of_outcome? (hidle q hq)).2, List.nil_append]

/-- **The outcomes** are what the fates say. -/
theorem outcomes_of_idle (h : Course start parser asked files writes c)
    (hn : (files.map (·.1)).Nodup) (hidle : ∀ q ∈ start.recent c, q.outcome?.isSome) :
    ((start.outcomesSince c).map FileOutcome.essence).Perm
      (files.map fun e => (start.fate parser e.1 e.2).outcome start.chunker e.1) := by
  refine perm_map_of_keys (h.paths_of_idle hidle) hn ?_
  intro o ho
  obtain ⟨q, hq, ho⟩ := List.mem_flatMap.1 ho
  obtain ⟨content, hm, hforetells⟩ := h.foretold q hq o ho
  exact ⟨(o.path, content), hm, rfl, hforetells⟩

theorem nodup_writes (h : Course start parser asked files writes c)
    (hn : (files.map (·.1)).Nodup) (hidle : ∀ q ∈ start.recent c, q.outcome?.isSome) :
    (writes.map (·.path)).Nodup := by
  have hpaths := (h.paths_of_idle hidle).nodup_iff.2 hn
  refine h.wrote.nodup_iff.2 (List.Sublist.nodup ?_ hpaths)
  exact FileOutcome.filterMap_wrote?_sublist _

/-- A file whose fate is to be written is written, and only once. -/
theorem filter_writes (h : Course start parser asked files writes c)
    (hn : (files.map (·.1)).Nodup) (hidle : ∀ q ∈ start.recent c, q.outcome?.isSome)
    {path content : String} (hm : (path, content) ∈ files) {g : Prepared}
    (hg : start.fate parser path content = .written g) :
    ∃ f, writes.filter (·.path = path) = [f] ∧ f.core = g := by
  have hcontent : ∀ {content'}, (path, content') ∈ files → content' = content := by
    intro content' hm'
    exact congrArg Prod.snd (List.inj_on_of_nodup_map hn hm' hm rfl)
  -- the outcome for the path says that it was written
  have hmem : path ∈ writes.map (·.path) := by
    have hpath : path ∈ (start.outcomesSince c).map FileOutcome.path :=
      (h.paths_of_idle hidle).mem_iff.2 (List.mem_map_of_mem (f := Prod.fst) hm)
    obtain ⟨o, ho, rfl⟩ := List.mem_map.1 hpath
    refine h.wrote.mem_iff.2 (List.mem_filterMap.2 ⟨o, ho, ?_⟩)
    obtain ⟨q, hq, ho⟩ := List.mem_flatMap.1 ho
    obtain ⟨content', hm', hforetells⟩ := h.foretold q hq o ho
    rw [Foretells, hcontent hm', hg] at hforetells
    cases o with
    | error error => cases hforetells
    | ok report =>
      have hmode : report.mode = g.mode := congrArg FileReport.mode (Except.ok.inj hforetells)
      exact if_neg (hmode ▸ g.mode_ne_skipped)
  obtain ⟨f, hf, rfl⟩ := List.mem_map.1 hmem
  refine ⟨f, filter_path_eq (h.nodup_writes hn hidle) hf, ?_⟩
  obtain ⟨hfile, hfate⟩ := h.written f hf
  rw [hcontent hfile, hg] at hfate
  exact (Fate.written.inj hfate).symm

end Course

end Coordinator

namespace Chronicle

open Coordinator

variable {start : MemoryCoordinator} {s s' : Chronicle} {xs : List Happening} {parser : Parser}
  {asked files : List (String × String)} {writes : List Prepared}

/-- **An undisturbed run** keeps the course of all requests, where no path is asked for
    twice. -/
theorem course_run (h : Course start parser asked files writes s.coordinator)
    (hsavepoints : start.store.store.rules.savepoints = true) (hd : Distinguished asked)
    (hr : s.Regular parser xs) (hquiet : ∀ x ∈ xs, x.disturbs = false)
    (hasked : ∀ e ∈ files ++ xs.flatMap Happening.asks, e ∈ asked)
    (hn : ((files ++ xs.flatMap Happening.asks).map (·.1)).Nodup) (hx : s.run xs = some s') :
    Course start parser asked (files ++ xs.flatMap Happening.asks)
      (writes ++ (s.commitLog xs).flatMap Commit.files) s'.coordinator := by
  induction xs generalizing s files writes with
  | nil =>
    cases hx
    simpa [commitLog, gather] using h
  | cons x xs ih =>
    obtain ⟨s₁, hs, hx⟩ := Option.bind_eq_some_iff.1 hx
    obtain ⟨⟨hcalm, hreply⟩, hrest⟩ := hr.cons hs
    rw [List.forall_mem_cons] at hquiet
    rw [List.flatMap_cons, ← List.append_assoc] at hasked hn ⊢
    rw [commitLog, gather_cons hs, List.flatMap_append, ← List.append_assoc, ← commits_eq]
    obtain ⟨c₁, hc, rfl⟩ := Option.map_eq_some_iff.1 hs
    refine ih ?_ hrest hquiet.2 hasked hn hx
    rw [List.map_append] at hn
    exact h.undergo hsavepoints hd hc hquiet.1 hcalm hreply
      (fun e he => hasked e (List.mem_append_left _ he)) hn.of_append_left

end Chronicle

end SourceIndex
