/-
  Runs where the parser is a function of path and content.

  * `Coordinator.reply?`, `Chronicle.replyLog`: what the parser says in a run;
  * `Chronicle.Regular`: in a run nothing crashes or runs out of time, and the parser
    says what a function of path and content says;
  * `Coordinator.Regular`: the pool runs, and what the coordinator holds was said so;
  * `Regular.undergo`, `regular_run`: a regular run keeps this.
-/
import SourceIndex.Proofs.Calm
import SourceIndex.Proofs.Origin

namespace SourceIndex

variable {asked : List (String × String)}

/-- A parser as a function of path and content. -/
abbrev Parser := String → String → Except ParserError (List Symbol)

/-! ## What the parser says in a run -/

/-- What the parser said about a revision. -/
structure ParserReply where
  path : String
  content : String
  said : Except ParserError ParseResult

/-- The reply is what the parser, as a function, says. -/
def ParserReply.Of (parser : Parser) (r : ParserReply) : Prop :=
  r.said.map (·.symbols) = parser r.path r.content

/-- No shutdown, no timeout, no crash. -/
def Happening.Calm : Happening → Prop
  | .act (.pool action) => action.Calm
  | _ => True

instance (parser : Parser) (r : ParserReply) : Decidable (r.Of parser) :=
  inferInstanceAs (Decidable (_ = _))

instance (x : Happening) : Decidable x.Calm :=
  match x with
  | .act (.pool action) => inferInstanceAs (Decidable action.Calm)
  | .act (.index _ _) | .act (.batch _) | .act (.turn _) | .act (.invalidate _)
  | .act .clearCache | .disturb _ _ => .isTrue trivial

/-- What the parser says when a happening ends a parse. -/
def Coordinator.reply? (c : MemoryCoordinator) : Happening → Option ParserReply
  | .act (.pool (.finish worker (.returned said))) =>
    match c.pool.threads.get? worker with
    | some ⟨.parsing job, _⟩ => some ⟨job.path, job.content, said⟩
    | _ => none
  | _ => none

namespace Chronicle

variable {s s₁ s' : Chronicle} {x : Happening} {xs ys : List Happening} {parser : Parser}

/-- What the parser says in a run, in order. -/
def replyLog (s : Chronicle) : List Happening → List ParserReply :=
  s.gather fun c x => (c.reply? x).toList

/-- In the run nothing crashes or runs out of time, and the parser says what the function
    says. -/
structure Regular (parser : Parser) (s : Chronicle) (xs : List Happening) : Prop where
  calm : ∀ x ∈ xs, x.Calm
  replies : ∀ reply ∈ s.replyLog xs, reply.Of parser

theorem Regular.cons (h : s.Regular parser (x :: xs)) (hx : s.step x = some s₁) :
    (x.Calm ∧ ∀ reply ∈ s.coordinator.reply? x, reply.Of parser) ∧ s₁.Regular parser xs := by
  obtain ⟨hcalm, hreplies⟩ := h
  rw [replyLog, gather_cons hx, List.forall_mem_append] at hreplies
  rw [List.forall_mem_cons] at hcalm
  refine ⟨⟨hcalm.1, ?_⟩, hcalm.2, hreplies.2⟩
  intro reply hreply
  exact hreplies.1 reply (Option.mem_toList.2 hreply)

end Chronicle

/-! ## What a coordinator holds -/

/-- Callers ask for the revisions `asked`, and the parser says what the function says. -/
def Parser.source (parser : Parser) (asked : List (String × String)) : Source where
  Asked e := e ∈ asked
  Found key said := ∃ content, (key.path, content) ∈ asked ∧
    ContentHash.ofText content = key.hash ∧ said.map (·.symbols) = parser key.path content

/-- No two revisions of a path have the same fingerprint. -/
def Distinguished (asked : List (String × String)) : Prop :=
  ∀ {path a b}, (path, a) ∈ asked → (path, b) ∈ asked →
    ContentHash.ofText a = ContentHash.ofText b → a = b

theorem distinguished_iff :
    Distinguished asked ↔ ∀ e ∈ asked, ∀ e' ∈ asked, e.1 = e'.1 →
      ContentHash.ofText e.2 = ContentHash.ofText e'.2 → e.2 = e'.2 := by
  constructor
  · rintro h ⟨path, a⟩ ha ⟨-, b⟩ hb rfl
    exact h ha hb
  · intro h path a b ha hb
    exact h (path, a) ha (path, b) hb rfl

instance (asked : List (String × String)) : Decidable (Distinguished asked) :=
  decidable_of_iff _ distinguished_iff.symm

/-- Where fingerprints tell the revisions apart, what was found for a revision is what the
    parser says about it. -/
theorem Parser.said_of_found {parser : Parser} (hd : Distinguished asked) {path content : String}
    (ha : (path, content) ∈ asked) {said : Except ParserError ParseResult}
    (h : (parser.source asked).Found ⟨path, .ofText content⟩ said) :
    said.map (·.symbols) = parser path content := by
  obtain ⟨content', ha', hhash, hsaid⟩ := h
  obtain rfl := hd ha' ha hhash
  exact hsaid

namespace Coordinator

variable {c c' : MemoryCoordinator} {parser : Parser} {asked : List (String × String)}
  {path content : String}

/-- The pool runs, and all that the coordinator holds was asked for and said by the
    parser. -/
structure Regular (parser : Parser) (asked : List (String × String)) (c : MemoryCoordinator) :
    Prop where
  wired : c.pool.Wired
  traced : ∃ Job, Traced (parser.source asked) Job c

theorem StageStep.pool_cases {stage stage' : Stage} (h : StageStep c path content stage stage' c') :
    c'.pool = c.pool ∨ ∃ ticket, c.pool.submit path content = .ok (ticket, c'.pool) := by
  cases h with
  | submitted h => exact Or.inr ⟨_, h⟩
  | _ => exact Or.inl rfl

theorem Flow.wired {r r' : Request Transaction} (h : Flow c r c' r') (hw : c.pool.Wired) :
    c'.pool.Wired := by
  cases h with
  | prepare slot stage hslot hstep =>
    rcases hstep.pool_cases with hpool | ⟨ticket, hsubmit⟩
    · exact hpool ▸ hw
    · exact hw.submit hsubmit
  | move hpool => exact hpool ▸ hw

/-- A happening of a regular run keeps the coordinator regular. -/
theorem Regular.undergo (h : Regular parser asked c) {x : Happening}
    (hcalm : x.Calm) (hreply : ∀ reply ∈ c.reply? x, reply.Of parser)
    (hasks : ∀ e ∈ x.asks, e ∈ asked) (hx : c.undergo x = some c') : Regular parser asked c' := by
  constructor
  case wired =>
    cases x with
    | disturb rejected faults => cases hx; exact h.wired
    | act action =>
      cases change_of_act hx with
      | moved _ hs => exact hs.flow.wired h.wired
      | pooled hp => exact h.wired.act hcalm hp
      | _ => exact h.wired
  case traced =>
    obtain ⟨Job, ht⟩ := h.traced
    refine ht.undergo hasks ?_ hx
    rintro w ⟨state, inbox⟩ job said rfl ht hjob hasked hhash
    cases hjob
    refine ⟨job.content, hasked, hhash.symm, hreply ⟨job.path, job.content, said⟩ ?_⟩
    rw [reply?, ht]
    rfl

end Coordinator

namespace Chronicle

variable {s s' : Chronicle} {xs : List Happening} {parser : Parser}
  {asked : List (String × String)}

theorem Opened.regular (h : s.Opened) : s.coordinator.Regular parser asked := by
  obtain ⟨settings, chunker, starts, store, -, -, hstart, -⟩ := h
  obtain ⟨settings', pool, -, hpool, hc⟩ := Coordinator.start_eq_ok hstart
  rw [hc]
  refine ⟨Pool.Wired.start hpool, fun _ => False, ⟨False.elim, Pool.Traced.start hpool, ?_⟩, ?_⟩
  · exact fun e he => absurd he List.not_mem_nil
  · intro id q hq
    cases hq

/-- **A regular run**: the pool goes on, and all that is held was said by the parser. -/
theorem regular_run (h : s.coordinator.Regular parser asked) (hr : s.Regular parser xs)
    (hasks : ∀ x ∈ xs, ∀ e ∈ x.asks, e ∈ asked) (hx : s.run xs = some s') :
    s'.coordinator.Regular parser asked := by
  induction xs generalizing s with
  | nil =>
    cases hx
    exact h
  | cons x xs ih =>
    obtain ⟨s₁, hs, hx⟩ := Option.bind_eq_some_iff.1 hx
    obtain ⟨⟨hcalm, hreply⟩, hrest⟩ := hr.cons hs
    rw [List.forall_mem_cons] at hasks
    obtain ⟨c₁, hc, rfl⟩ := Option.map_eq_some_iff.1 hs
    exact ih (h.undergo hcalm hreply hasks.1 hc) hrest hasks.2 hx

end Chronicle

end SourceIndex
