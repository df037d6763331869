/-
  Runs of a coordinator over the store in memory.

  A run is a list of happenings: actions of callers, requests and the pool in any
  order, and changes of what the store rejects.  Nothing else writes to the store.

  * `Happening`: what can happen;
  * `Record`: what a run has seen so far: the revisions asked for, the calls of the
    parser that found symbols, and the files written, in the order of their commits;
  * `Chronicle`: a coordinator with the record of its run, `Chronicle.step` for one
    happening and `Chronicle.run` for many, `Chronicle.gather` for logs of a run;
  * `Record.texts`: the texts whose fingerprints a run compares.
-/
import Mathlib.Data.List.Nodup
import Mathlib.Data.Set.Function
import SourceIndex.Coordinator.Basic

namespace SourceIndex

/-- A coordinator over the store in memory. -/
abbrev MemoryCoordinator := Coordinator FaultyStore Transaction

/-- What can happen to a coordinator. -/
inductive Happening where
  | act (action : Coordinator.Action)
  /-- from now on writes to the paths `rejected` fail, and `faults` let calls of the
      store fail -/
  | disturb (rejected : List String) (faults : List StoreFault)

/-- A call of the parser that found symbols. -/
structure ParserCall where
  path : String
  content : String
  result : ParseResult
  deriving DecidableEq

/-- What a run has seen. -/
structure Record where
  /-- every revision that callers asked for -/
  asked : List (String × String) := []
  /-- every call of the parser that found symbols -/
  parses : List ParserCall := []
  /-- every file that was written and committed, in order -/
  writes : List Prepared := []

/-- The texts whose fingerprints are compared: the revisions asked for, and the
    texts that the symbols found for a path cover in the revisions of that path. -/
def Record.texts (r : Record) : Set String :=
  {text | ∃ path content, (path, content) ∈ r.asked ∧
    (text = content ∨ ∃ call ∈ r.parses, call.path = path ∧
      ∃ s ∈ call.result.symbols, spanText (Text.lines content) s = some text)}

/-- The same texts, one by one. -/
def Record.textList (r : Record) : List String :=
  r.asked.flatMap fun e =>
    e.2 :: (r.parses.filter (·.path = e.1)).flatMap fun call =>
      call.result.symbols.filterMap (spanText (Text.lines e.2))

variable {r : Record}

theorem Record.mem_textList {text : String} : text ∈ r.textList ↔ text ∈ r.texts := by
  simp only [textList, texts, List.mem_flatMap, List.mem_cons, List.mem_filter, List.mem_filterMap,
    Prod.exists, Set.mem_ofPred_eq, decide_eq_true_eq, and_assoc]

/-- No two texts of a record have the same fingerprint if they are among texts that are
    told apart by theirs. -/
theorem Record.injOn_texts {texts : List String} (hn : (texts.map ContentHash.ofText).Nodup)
    (h : ∀ a ∈ r.textList, a ∈ texts) : Set.InjOn ContentHash.ofText r.texts := fun a ha b hb he =>
  List.inj_on_of_nodup_map hn (h a (mem_textList.2 ha)) (h b (mem_textList.2 hb)) he

namespace Coordinator

/-- The committed rows. -/
abbrev rows (c : MemoryCoordinator) : Rows := c.store.store.committed

/-- The files that the next step of a request commits. -/
def commitsOf (c : MemoryCoordinator) : Request Transaction → List Prepared
  | .file _ _ (.committing file tx _) =>
    if (c.backend.commit tx c.store).1.isOk then [file] else []
  | .batch (.committing _ tx written _) =>
    if (c.backend.commit tx c.store).1.isOk then written.map (·.1) else []
  | _ => []

/-- The files of the commit that the next step of a request makes, if it makes one. -/
def commitOf? (c : MemoryCoordinator) : Request Transaction → Option (List Prepared)
  | .file _ _ (.committing file tx _) =>
    if (c.backend.commit tx c.store).1.isOk then some [file] else none
  | .batch (.committing _ tx written _) =>
    if (c.backend.commit tx c.store).1.isOk then some (written.map (·.1)) else none
  | _ => none

theorem commitsOf_eq (c : MemoryCoordinator) (r : Request Transaction) :
    c.commitsOf r = (c.commitOf? r).getD [] := by
  cases r with
  | file path content phase =>
    cases phase with
    | committing => rw [commitsOf, commitOf?]; split <;> rfl
    | _ => rfl
  | batch phase =>
    cases phase with
    | committing => rw [commitsOf, commitOf?]; split <;> rfl
    | _ => rfl

/-- The files that a happening commits. -/
def commits (c : MemoryCoordinator) : Happening → List Prepared
  | .act (.turn t) =>
    match c.requests.get? t.request with
    | some request => c.commitsOf request
    | none => []
  | _ => []

/-- The calls of the parser that a happening ends, where they found symbols. -/
def parses (c : MemoryCoordinator) : Happening → List ParserCall
  | .act (.pool (.finish worker (.returned (.ok result)))) =>
    match c.pool.threads.get? worker with
    | some ⟨.parsing job, _⟩ => [⟨job.path, job.content, result⟩]
    | _ => []
  | _ => []

/-- The coordinator after a happening, if it is possible now. -/
def undergo (c : MemoryCoordinator) : Happening → Option MemoryCoordinator
  | .act action => c.act action
  | .disturb rejected faults =>
    let store := c.store.store
    some { c with store := ⟨{ store with rules := { store.rules with rejected } }, faults⟩ }

end Coordinator

/-- The revisions that a happening asks for. -/
def Happening.asks : Happening → List (String × String)
  | .act (.index path content) => [(path, content)]
  | .act (.batch files) => files
  | _ => []

/-- The record after a happening. -/
def Record.note (r : Record) (c : MemoryCoordinator) (x : Happening) : Record where
  asked := r.asked ++ x.asks
  parses := r.parses ++ c.parses x
  writes := r.writes ++ c.commits x

/-- A coordinator and what its run has seen so far. -/
structure Chronicle where
  coordinator : MemoryCoordinator
  record : Record := {}

namespace Chronicle

variable {s s₁ s₂ : Chronicle} {xs ys : List Happening}

/-- One happening, if it is possible now. -/
def step (s : Chronicle) (h : Happening) : Option Chronicle :=
  (s.coordinator.undergo h).map fun c => ⟨c, s.record.note s.coordinator h⟩

/-- Happenings one after another, if each is possible in its turn. -/
def run (s : Chronicle) : List Happening → Option Chronicle
  | [] => some s
  | h :: hs => (s.step h).bind fun s => s.run hs

theorem run_append_eq (s : Chronicle) (xs ys : List Happening) :
    s.run (xs ++ ys) = (s.run xs).bind fun s => s.run ys := by
  induction xs generalizing s with
  | nil => rfl
  | cons x xs ih =>
    rw [List.cons_append, run, run, Option.bind_assoc]
    exact Option.bind_congr fun s₁ _ => ih s₁

theorem run_append (h₁ : s.run xs = some s₁) (h₂ : s₁.run ys = some s₂) :
    s.run (xs ++ ys) = some s₂ := by
  rw [run_append_eq, h₁]
  exact h₂

theorem run_of_append (h : s.run (xs ++ ys) = some s₂) (h₁ : s.run xs = some s₁) :
    s₁.run ys = some s₂ := by
  rwa [run_append_eq, h₁] at h

theorem run_cons {x : Happening} (h : s.step x = some s₁) : s.run (x :: xs) = s₁.run xs := by
  rw [run, h]
  rfl

/-- What every happening keeps holds after a run. -/
theorem run_induction {P : Chronicle → Prop} (hstep : ∀ {s h s'}, P s → step s h = some s' → P s')
    {hs : List Happening} {s' : Chronicle} (h : s.run hs = some s') (hp : P s) : P s' := by
  induction hs generalizing s with
  | nil => cases h; exact hp
  | cons x hs ih =>
    obtain ⟨s₁, h₁, h⟩ := Option.bind_eq_some_iff.1 h
    exact ih h (hstep hp h₁)

/-- What the happenings of a run add to a log, one after the other. -/
def gather {α : Type} (note : MemoryCoordinator → Happening → List α) (s : Chronicle) :
    List Happening → List α
  | [] => []
  | x :: xs => note s.coordinator x ++ ((s.step x).map fun s => s.gather note xs).getD []

section
variable {α : Type} {note : MemoryCoordinator → Happening → List α}

theorem gather_cons {x : Happening} (hx : s.step x = some s₁) (xs : List Happening) :
    s.gather note (x :: xs) = note s.coordinator x ++ s₁.gather note xs := by
  rw [gather, hx]
  rfl

theorem gather_append (hx : s.run xs = some s₁) (ys : List Happening) :
    s.gather note (xs ++ ys) = s.gather note xs ++ s₁.gather note ys := by
  induction xs generalizing s with
  | nil => cases hx; rfl
  | cons x xs ih =>
    obtain ⟨s₂, hs, hx⟩ := Option.bind_eq_some_iff.1 hx
    rw [List.cons_append, gather_cons hs, gather_cons hs, ih hx, List.append_assoc]

end

/-- A coordinator that has just been started, over an empty store.  Without a
    chunker of its own it cuts files as the settings say. -/
def Started (s : Chronicle) (chunker : Option Chunker) : Prop :=
  ∃ settings starts store, store.store.committed = {} ∧ store.store.busy = false ∧
    Coordinator.start FaultyStore.backend settings chunker store starts = .ok s.coordinator ∧
    s.record = {}

end Chronicle

/-! ## A sample to run -/

/-- Some steps of a request for one file. -/
def Happening.turns (id : RequestId) (count : Nat) : List Happening :=
  List.replicate count (.act (.turn { request := id }))

/-- A worker that is idle parses the next submission and finds some symbols. -/
def Happening.parse (worker : WorkerId) (symbols : List Symbol) : List Happening :=
  [.act (.pool .takeCommand), .act (.pool (.receive worker)),
    .act (.pool (.finish worker (.returned (.ok { symbols, parseTimeMs := 0 })))),
    .act (.pool .takeEvent)]

theorem start_eq_get {e : Except Fault MemoryCoordinator} (h : e.toOption.isSome) :
    e = .ok (e.toOption.get h) := by
  cases e with
  | error fault => cases h
  | ok c => rfl

/-- A coordinator with the usual settings that has just been started. -/
def Chronicle.sample : Chronicle where
  coordinator :=
    (Coordinator.start FaultyStore.backend {} none {} {}).toOption.get (by decide +kernel)

theorem Chronicle.sample_started : sample.Started none :=
  ⟨{}, {}, {}, rfl, rfl, start_eq_get (by decide +kernel), rfl⟩

end SourceIndex
