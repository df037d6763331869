/-
  Returns to a savepoint.

  * `TransactionOp.staysAbove`, `StoreSession.stayAbove`: operations that keep to the
    savepoints made after a given one;
  * `Transaction.BuildsOn`: the given savepoints come first, and no later one has the name.
    Operations that stay above them keep this (`BuildsOn.run`, `BuildsOn.after`);
  * `Transaction.BuildsOn.rollbackTo`: then a return to the name takes back all of what came
    after it;
  * `StoreSession.rollback_exact`: a return to a savepoint restores the transaction as it was
    right after the savepoint was made, as often as one likes.
-/
import SourceIndex.Proofs.Rejection

namespace SourceIndex

/-! ## The latest savepoint with a name -/

namespace Transaction

variable {tx : Transaction} {name : String} {savepoints above : List (String × Rows)}

theorem upTo?_append (rows : Rows) (h : ∀ p ∈ above, p.1 ≠ name) :
    upTo? name (savepoints ++ [(name, rows)] ++ above) = some (savepoints ++ [(name, rows)]) := by
  have hdrop : (savepoints ++ [(name, rows)] ++ above).reverse.dropWhile (·.1 ≠ name) =
      (name, rows) :: savepoints.reverse := by
    rw [List.reverse_append, List.dropWhile_append_of_pos (by simpa using h), List.reverse_append]
    simp
  rw [upTo?, hdrop]
  simp

theorem upTo?_eq_none (h : name ∉ savepoints.map (·.1)) : upTo? name savepoints = none := by
  cases hu : upTo? name savepoints with
  | none => rfl
  | some found =>
    obtain ⟨hearlier, rows, hlast⟩ := upTo?_eq_some hu
    exact (h (List.mem_map_of_mem (hearlier.subset (List.mem_of_getLast? hlast)))).elim

theorem rollbackTo_eq_error (h : name ∉ tx.savepoints.map (·.1)) :
    tx.rollbackTo name = .error (.invalidOperation s!"No savepoint named {name}") := by
  rw [rollbackTo, upTo?_eq_none h]

/-- The transaction with one more savepoint, for the rows as they are. -/
def marked (tx : Transaction) (name : String) : Transaction :=
  { tx with savepoints := tx.savepoints ++ [(name, tx.working)] }

/-- The transaction has the given savepoints, and those above them have other names. -/
def BuildsOn (tx : Transaction) (base : List (String × Rows)) (name : String) : Prop :=
  ∃ above, tx.savepoints = base ++ above ∧ ∀ p ∈ above, p.1 ≠ name

theorem BuildsOn.rollbackTo {rows : Rows} (h : tx.BuildsOn (savepoints ++ [(name, rows)]) name) :
    tx.rollbackTo name = .ok { working := rows, savepoints := savepoints ++ [(name, rows)] } := by
  obtain ⟨above, heq, hother⟩ := h
  rw [Transaction.rollbackTo, heq, upTo?_append rows hother]
  simp only [List.getLast?_concat]

end Transaction

/-! ## Operations that stay above a savepoint -/

/-- The operation makes no savepoint with the name, and if it returns to one then to one
    above the first `depth`. -/
def TransactionOp.staysAbove (name : String) (depth : Nat) (tx : Transaction) :
    TransactionOp → Bool
  | savepoint other => other ≠ name
  | rollbackTo other => (Transaction.upTo? other tx.savepoints).all (depth < ·.length)
  | upsertFile _ _ | insertSymbols _ _ | deleteSymbol _ | deleteChunks _ | deleteContents _
  | deleteFileLevel _ | insertChunks _ _ _ => true

/-- The operation stays above the first `depth` savepoints of the transaction, and does not
    end it. -/
def StoreOp.staysAbove (name : String) (depth : Nat) (s : StoreSession) : StoreOp → Bool
  | commit | rollback | drop => false
  | within op => s.open?.all (op.staysAbove name depth)
  | openTransaction | failWrites _ | clearFailures | dump _ | counts | findFile _
  | findSymbols _ | analyze _ _ _ _ => true

/-- One after another the operations stay above the first `depth` savepoints. -/
def StoreSession.stayAbove (name : String) (depth : Nat) (s : StoreSession) :
    List StoreOp → Bool
  | [] => true
  | op :: ops => op.staysAbove name depth s && stayAbove name depth (op.run s).2 ops

/-- What is done in some rounds, each of which ends with a return to the name. -/
def StoreOp.rounds (name : String) (rounds : List (List StoreOp)) : List StoreOp :=
  rounds.flatMap (· ++ [.within (.rollbackTo name)])

/-- In each round the operations before the return stay above the first `depth` savepoints. -/
def StoreSession.roundsStayAbove (name : String) (depth : Nat) (s : StoreSession) :
    List (List StoreOp) → Bool
  | [] => true
  | ops :: rounds => s.stayAbove name depth ops &&
      roundsStayAbove name depth (s.after (ops ++ [.within (.rollbackTo name)])) rounds

namespace Transaction.BuildsOn

variable {tx tx' : Transaction} {base : List (String × Rows)} {name : String}
  {op : TransactionOp} {rules : WriteRules} {reply : TransactionReply}

theorem savepoint {other : String} (h : tx.BuildsOn base name) (hne : other ≠ name) :
    (tx.savepoint rules other).2.BuildsOn base name := by
  obtain ⟨above, heq, hother⟩ := h
  unfold Transaction.savepoint
  by_cases hs : rules.savepoints = true
  · rw [if_pos hs]
    refine ⟨above ++ [(other, tx.working)], by rw [heq, List.append_assoc], fun p hp => ?_⟩
    rcases List.mem_append.1 hp with hp | hp
    · exact hother p hp
    · cases List.mem_singleton.1 hp
      exact hne
  · rw [if_neg hs]
    exact ⟨above, heq, hother⟩

/-- What is left after a return to a savepoint above the given ones. -/
theorem of_earlier {found : List (String × Rows)} (h : tx.BuildsOn base name)
    (hfound : found <+: tx.savepoints) (hdepth : base.length < found.length) (rows : Rows) :
    BuildsOn { working := rows, savepoints := found } base name := by
  obtain ⟨above, heq, hother⟩ := h
  rw [heq] at hfound
  obtain ⟨rest, hrest⟩ :=
    List.prefix_of_prefix_length_le (List.prefix_append base above) hfound (Nat.le_of_lt hdepth)
  refine ⟨rest, hrest.symm, fun p hp => hother p ?_⟩
  rw [← hrest, List.prefix_append_right_inj] at hfound
  exact hfound.subset hp

/-- One operation: a write leaves the savepoints alone, a savepoint is put on top, and a
    return takes savepoints off the top. -/
theorem run (h : tx.BuildsOn base name) (hop : op.staysAbove name base.length tx = true)
    (hrun : op.run rules tx = .ok (reply, tx')) : tx'.BuildsOn base name := by
  cases hw : op.written? tx.working with
  | some result =>
    cases TransactionOp.eq_of_written hw hrun
    exact h
  | none =>
    cases op with
    | savepoint other =>
      rw [TransactionOp.eq_of_savepoint hrun]
      exact h.savepoint (of_decide_eq_true hop)
    | rollbackTo other =>
      obtain ⟨_, hback, hrun⟩ := exists_of_bind_eq_ok hrun
      cases hrun
      rw [Transaction.rollbackTo] at hback
      cases hu : upTo? other tx.savepoints with
      | none =>
        rw [hu] at hback
        cases hback
      | some found =>
        obtain ⟨hearlier, rows, hlast⟩ := upTo?_eq_some hu
        rw [hu] at hback
        simp only [hlast] at hback
        cases hback
        rw [TransactionOp.staysAbove, hu] at hop
        exact h.of_earlier hearlier (of_decide_eq_true hop) rows
    | upsertFile | insertSymbols | deleteSymbol | deleteChunks | deleteContents
    | deleteFileLevel | insertChunks => cases hw

end Transaction.BuildsOn

/-! ## Sessions -/

namespace StoreSession

variable {s : StoreSession} {tx : Transaction} {base : List (String × Rows)} {name : String}
  {ops : List StoreOp}

/-- The session has a transaction with the given savepoints. -/
def BuildsOn (s : StoreSession) (base : List (String × Rows)) (name : String) : Prop :=
  ∃ tx, s.open? = some tx ∧ tx.BuildsOn base name

theorem BuildsOn.run {op : StoreOp} (h : s.BuildsOn base name)
    (hop : op.staysAbove name base.length s = true) : (op.run s).2.BuildsOn base name := by
  obtain ⟨tx, ho, hheld⟩ := h
  cases op with
  | dump | counts | findFile | findSymbols | analyze | clearFailures => exact ⟨tx, ho, hheld⟩
  | failWrites => exact ⟨tx, ho, hheld⟩
  | openTransaction =>
    rw [StoreOp.run, ho]
    exact ⟨tx, ho, hheld⟩
  | commit | rollback | drop => cases hop
  | within op =>
    rw [StoreOp.staysAbove, ho] at hop
    cases hrun : op.run s.store.rules tx with
    | error fault =>
      rw [run_within_of_error ho hrun]
      exact ⟨tx, ho, hheld⟩
    | ok result =>
      rw [run_within_of_ok ho hrun]
      exact ⟨_, rfl, hheld.run hop hrun⟩

theorem BuildsOn.after (h : s.BuildsOn base name) (hops : s.stayAbove name base.length ops = true) :
    (s.after ops).BuildsOn base name := by
  induction ops generalizing s with
  | nil => exact h
  | cons op ops ih =>
    obtain ⟨hop, hops⟩ := Bool.and_eq_true_iff.1 hops
    exact ih (h.run hop) hops

theorem rollbackTo_after (ho : s.open? = some (tx.marked name))
    (hops : s.stayAbove name (tx.marked name).savepoints.length ops = true) :
    (StoreOp.within (.rollbackTo name)).run (s.after ops) =
      (.within .done, { s.after ops with open? := some (tx.marked name) }) := by
  have hheld : s.BuildsOn (tx.marked name).savepoints name :=
    ⟨_, ho, [], (List.append_nil _).symm, by simp⟩
  obtain ⟨tx', ho', hheld'⟩ := hheld.after hops
  refine run_within_of_ok ho' ?_
  rw [TransactionOp.run, hheld'.rollbackTo]
  rfl

theorem open?_after_rounds {rounds : List (List StoreOp)} (ho : s.open? = some (tx.marked name))
    (hrounds : s.roundsStayAbove name (tx.marked name).savepoints.length rounds = true) :
    (s.after (StoreOp.rounds name rounds)).open? = some (tx.marked name) := by
  induction rounds generalizing s with
  | nil => exact ho
  | cons ops rounds ih =>
    obtain ⟨hops, hrounds⟩ := Bool.and_eq_true_iff.1 hrounds
    have hround : (s.after (ops ++ [.within (.rollbackTo name)])).open? =
        some (tx.marked name) := by
      rw [after_append]
      exact congrArg (·.2.open?) (rollbackTo_after ho hops)
    rw [StoreOp.rounds, List.flatMap_cons, after_append]
    exact ih hround hrounds

/-- **A return to a savepoint is exact.**  Make a savepoint in a transaction of a store that
    has them.  After it let there be any number of rounds of operations, which may fail and
    may change what is rejected, make no savepoint with its name, return to none but those
    they made, and do not end the transaction.  A return to the savepoint succeeds, and the
    rows, the last numbers and the savepoints are those right after it was made.  A return to
    a name that no savepoint has fails and changes nothing. -/
theorem rollback_exact (ho : s.open? = some tx) (hs : s.store.rules.savepoints = true)
    (name : String) :
    let start : StoreSession := { s with open? := some (tx.marked name) }
    let depth := (tx.marked name).savepoints.length
    (StoreOp.within (.savepoint name)).run s = (.within (.supported true), start) ∧
    (∀ rounds, start.roundsStayAbove name depth rounds = true →
      (start.after (StoreOp.rounds name rounds)).open? = some (tx.marked name) ∧
      ∀ ops, (start.after (StoreOp.rounds name rounds)).stayAbove name depth ops = true →
        let final := (start.after (StoreOp.rounds name rounds)).after ops
        (StoreOp.within (.rollbackTo name)).run final =
          (.within .done, { final with open? := some (tx.marked name) })) ∧
    ∀ other ∉ tx.savepoints.map (·.1),
      (StoreOp.within (.rollbackTo other)).run s =
        (.failed (.invalidOperation s!"No savepoint named {other}"), s) := by
  intro start depth
  refine ⟨run_within_of_ok ho ?_, fun rounds hrounds => ?_, fun other hother => ?_⟩
  · simp only [TransactionOp.run, Transaction.savepoint, hs, if_true]
    rfl
  · have hopen := open?_after_rounds (s := start) rfl hrounds
    exact ⟨hopen, fun ops hops => rollbackTo_after hopen hops⟩
  · refine run_within_of_error ho ?_
    rw [TransactionOp.run, Transaction.rollbackTo_eq_error hother]
    rfl

/-- A session with a file and a savepoint that has the name of the next one. -/
def nested : StoreSession :=
  (fresh true).after
    [.openTransaction, .within (.upsertFile "p" "1"), .within (.savepoint "n"),
      .within (.upsertFile "p" "2")]

/-- The transaction of that session. -/
def nestedTransaction : Transaction :=
  { working := ((({} : Rows).upsertFile "p" "1").2.upsertFile "p" "2").2
    savepoints := [("n", (({} : Rows).upsertFile "p" "1").2)] }

/-- Two rounds with savepoints of their own, of which two share a name, a return to one of
    them, a return and a write that fail. -/
def detours : List (List StoreOp) :=
  [[.within (.savepoint "m"), .within (.upsertFile "q" "3"), .within (.savepoint "m"),
      .within (.insertSymbols 2 [⟨"a", .function, 1, 0, 1, 4⟩]), .within (.rollbackTo "m"),
      .within (.rollbackTo "z")],
    [.failWrites "p", .within (.upsertFile "p" "4"), .within (.deleteContents 1)]]

/-- After the rounds and further writes, the session is back where it was. -/
theorem rollback_exact_nested :
    (nested.open? = some nestedTransaction ∧ nested.store.rules.savepoints = true) ∧
      ∃ start : StoreSession,
        (StoreOp.within (.savepoint "n")).run nested = (.within (.supported true), start) ∧
        (let later := (start.after (StoreOp.rounds "n" detours)).after
            [.within (.upsertFile "r" "5"), .within (.savepoint "k")]
        (StoreOp.within (.rollbackTo "n")).run later =
          (.within .done, { later with open? := some (nestedTransaction.marked "n") })) ∧
        (StoreOp.within (.rollbackTo "z")).run nested =
          (.failed (.invalidOperation "No savepoint named z"), nested) := by
  have ho : nested.open? = some nestedTransaction := rfl
  have hs : nested.store.rules.savepoints = true := rfl
  obtain ⟨hsave, hback, hnone⟩ := rollback_exact ho hs "n"
  exact ⟨⟨ho, hs⟩, _, hsave, (hback detours (by decide +kernel)).2 _ (by decide +kernel),
    hnone "z" (by decide)⟩

end StoreSession

end SourceIndex
