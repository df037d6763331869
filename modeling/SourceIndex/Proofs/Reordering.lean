/-
  A difference does not depend on the order of symbols.

  Stored symbols are listed by position, while a parser may list what it finds in any
  order.

  * `Diff.Reorders`: two differences with the same reason that sort the same symbols, with
    the same numbers, in whatever order;
  * `verdict_perm`: the verdict on a symbol does not depend on the order of the stored ones;
  * `mapM_perm`, `sorted_reorders`, `Reorders.weighed`: nor does anything that is made of the
    verdicts;
  * `between_reorders`: so the order of neither list matters.
-/
import Mathlib.Data.Option.Basic
import SourceIndex.Proofs.Classification

namespace SourceIndex.Diff

/-- Two differences that say the same, up to the order of their lists. -/
structure Reorders (d d' : Diff) : Prop where
  needsFull : d'.needsFull = d.needsFull
  reason : d'.reason = d.reason
  added : d'.added.Perm d.added
  removed : d'.removed.Perm d.removed
  modified : d'.modified.Perm d.modified
  unchanged : d'.unchanged.Perm d.unchanged
  /-- every symbol that is gone comes with a number of its own -/
  affected_aligned : d.affectedIds.length = d.removed.length ∧
    d'.affectedIds.length = d'.removed.length
  affected : (d'.removed.zip d'.affectedIds).Perm (d.removed.zip d.affectedIds)
  /-- and so does every modified symbol -/
  replaced_aligned : d.replacedIds.length = d.modified.length ∧
    d'.replacedIds.length = d'.modified.length
  replaced : (d'.modified.zip d'.replacedIds).Perm (d.modified.zip d.replacedIds)

theorem Reorders.full (reason : Reason) : Reorders (full reason) (full reason) where
  needsFull := rfl
  reason := rfl
  added := .nil
  removed := .nil
  modified := .nil
  unchanged := .nil
  affected_aligned := ⟨rfl, rfl⟩
  affected := .nil
  replaced_aligned := ⟨rfl, rfl⟩
  replaced := .nil

/-! ## Keys and verdicts -/

theorem distinct_perm {keys keys' : List Key} (h : keys.Perm keys') :
    distinct keys' = distinct keys := by
  rw [Bool.eq_iff_iff, distinct_iff, distinct_iff, h.nodup_iff]

section
variable {records records' : List SymbolRecord} {oldLines newLines : List String}
  (hn : (records.map (·.symbol.key)).Nodup)
include hn

/-- Where keys tell stored symbols apart, the one that is found under a key is the one that
    has it. -/
theorem find?_key_iff {key : Key} {r : SymbolRecord} :
    records.find? (·.symbol.key = key) = some r ↔ r ∈ records ∧ r.symbol.key = key := by
  constructor
  · intro hf
    exact ⟨List.mem_of_find?_eq_some hf, by simpa using List.find?_some hf⟩
  · rintro ⟨hr, rfl⟩
    cases hf : records.find? (·.symbol.key = r.symbol.key) with
    | none => simpa using List.find?_eq_none.1 hf r hr
    | some found =>
      have hkey : found.symbol.key = r.symbol.key := by simpa using List.find?_some hf
      rw [List.inj_on_of_nodup_map hn (List.mem_of_find?_eq_some hf) hr hkey]

theorem verdict_perm (h : records.Perm records') (s : Symbol) :
    verdict oldLines newLines records' s = verdict oldLines newLines records s := by
  have hn' := (h.map (·.symbol.key)).nodup_iff.1 hn
  have hfind : records'.find? (·.symbol.key = s.key) = records.find? (·.symbol.key = s.key) := by
    ext r
    rw [find?_key_iff hn, find?_key_iff hn', h.mem_iff]
  unfold verdict judge
  rw [hfind]

end

/-- Verdicts on symbols in another order are the same verdicts in that order, and there are
    none in one order if there are none in the other. -/
theorem mapM_perm {α β : Type} (f : α → Option β) {l l' : List α} (h : l.Perm l') :
    Option.Rel List.Perm (l.mapM f) (l'.mapM f) := by
  induction h with
  | nil => exact .some .nil
  | @cons a l l' _ ih =>
    rw [List.mapM_cons, List.mapM_cons]
    cases f a with
    | none => exact .none
    | some b =>
      generalize l.mapM f = o, l'.mapM f = o' at ih
      cases ih with
      | none => exact .none
      | some hp => exact .some (hp.cons b)
  | swap a b l =>
    simp only [List.mapM_cons]
    cases f a with
    | none => cases f b <;> exact .none
    | some x =>
      cases f b with
      | none => exact .none
      | some y =>
        cases l.mapM f with
        | none => exact .none
        | some zs => exact .some (.swap x y zs)
  | @trans l₁ l₂ l₃ _ _ ih ih' =>
    generalize l₁.mapM f = o₁, l₂.mapM f = o₂, l₃.mapM f = o₃ at ih ih'
    cases ih with
    | none => exact ih'
    | some hp =>
      cases ih' with
      | some hp' => exact .some (hp.trans hp')

/-! ## Symbols sorted -/

section
variable {records records' : List SymbolRecord} {judged judged' : List (Symbol × Verdict)}

/-- Stored symbols in another order, with verdicts in another order, are gone alike. -/
theorem gone_perm (hr : records.Perm records') (hj : judged.Perm judged') :
    (records'.filter fun r => !(judged'.map (·.1.key)).contains r.symbol.key).Perm
      (records.filter fun r => !(judged.map (·.1.key)).contains r.symbol.key) := by
  have hkeys : ∀ r : SymbolRecord, (judged'.map (·.1.key)).contains r.symbol.key =
      (judged.map (·.1.key)).contains r.symbol.key := by
    intro r
    rw [List.contains_eq_mem, List.contains_eq_mem, decide_eq_decide]
    exact (hj.map _).mem_iff.symm
  simp only [hkeys]
  exact hr.symm.filter _

theorem sorted_reorders (hr : records.Perm records') (hj : judged.Perm judged') :
    Reorders (sorted records judged) (sorted records' judged') := by
  have hgone := gone_perm hr hj
  have hreplaced : (replaced judged').Perm (replaced judged) := hj.symm.filterMap _
  refine ⟨rfl, rfl, hj.symm.filterMap _, hgone.map _, hj.symm.filterMap _, hj.symm.filterMap _,
    ?_, ?_, ?_, ?_⟩
  · simp [sorted]
  · simp only [sorted, List.zip_map']
    exact hgone.map _
  · simp [modified_eq, replacedIds_eq]
  · simp only [modified_eq, replacedIds_eq, List.zip_map']
    exact hreplaced.map _

/-- Too much has changed in one order if and only if it has in the other. -/
theorem Reorders.weighed {d d' : Diff} (h : Reorders d d') (policy : DiffPolicy) (new : Nat) :
    Reorders (weighed policy new d) (weighed policy new d') := by
  have hcount : d'.changeCount = d.changeCount := by
    rw [changeCount, changeCount, h.added.length_eq, h.removed.length_eq, h.modified.length_eq]
  unfold Diff.weighed
  rw [hcount]
  split
  · exact { h with needsFull := rfl, reason := rfl }
  · exact h

end

/-- **The order of symbols does not matter.**  Let the stored symbols and those of the new
    revision be listed in any other order.  A difference has the same reason, if it has
    one, and the same symbols are added, gone, modified and unchanged; those that are gone
    and those that are modified come with the same numbers. -/
theorem between_reorders (policy : DiffPolicy)
    {previous previous' : Option (String × List SymbolRecord)}
    (hprevious : Option.Rel (fun p p' => p.1 = p'.1 ∧ p.2.Perm p'.2) previous previous')
    (content : String) {symbols symbols' : List Symbol} (hsymbols : symbols.Perm symbols') :
    Reorders (between policy previous content symbols)
      (between policy previous' content symbols') := by
  cases hprevious with
  | none => exact .full .noPreviousVersion
  | @some p p' hp =>
    obtain ⟨old, records⟩ := p
    obtain ⟨_, records'⟩ := p'
    obtain ⟨rfl, hrecords⟩ := hp
    -- the questions that come before the verdicts have the same answers
    have hempty : symbols'.isEmpty = symbols.isEmpty := hsymbols.isEmpty_eq.symm
    have hdistinct := distinct_perm (hrecords.map (·.symbol.key))
    have hdistinct' := distinct_perm (hsymbols.map (·.key))
    simp only [between, hempty, hdistinct, hdistinct', ← hrecords.length_eq,
      ← hsymbols.length_eq]
    split_ifs with h₁ h₂ h₃
    · exact .full .noSymbols
    · exact .full .symbolCountShift
    · exact .full .ambiguousKeys
    simp only [Bool.or_eq_true, Bool.not_eq_true', not_or, Bool.not_eq_false] at h₃
    simp only [verdict_perm (distinct_iff.1 h₃.1) hrecords]
    have hjudged := mapM_perm (fun s =>
      (verdict (Text.lines old) (Text.lines content) records s).map fun v => (s, v)) hsymbols
    generalize List.mapM (m := Option) _ symbols = o, List.mapM (m := Option) _ symbols' = o'
      at hjudged ⊢
    cases hjudged with
    | none => exact .full .spanOutOfRange
    | some hp => exact (sorted_reorders hrecords hp).weighed policy _

/-- The stored symbols and the new ones are listed the other way round.  The symbol `a` is as
    it was, the texts of `b` and `e` change, and `d` stands where `c` was. -/
theorem between_reorders_sample :
    let policy : DiffPolicy := { changeRatioThreshold := 1 }
    let records : List SymbolRecord := [⟨1, 1, .ofLines "a" .function 1 1⟩,
      ⟨2, 1, .ofLines "b" .function 2 2⟩, ⟨3, 1, .ofLines "c" .function 3 3⟩,
      ⟨4, 1, .ofLines "e" .function 4 4⟩]
    let symbols : List Symbol := [.ofLines "a" .function 1 1, .ofLines "b" .function 2 2,
      .ofLines "d" .function 3 3, .ofLines "e" .function 4 4]
    let d := between policy (some ("a\nb\nc\ne", records)) "a\nx\nd\ny" symbols
    let d' := between policy (some ("a\nb\nc\ne", records.reverse)) "a\nx\nd\ny"
      symbols.reverse
    records.Perm records.reverse ∧ symbols.Perm symbols.reverse ∧ Reorders d d' ∧
      d.reason = none ∧ d'.reason = none ∧ d.replacedIds = [2, 4] ∧ d'.replacedIds = [4, 2] := by
  intro policy records symbols d d'
  have hr : records.Perm records.reverse := records.reverse_perm.symm
  have hs : symbols.Perm symbols.reverse := symbols.reverse_perm.symm
  have hrel : Option.Rel (fun p p' : String × List SymbolRecord => p.1 = p'.1 ∧ p.2.Perm p'.2)
      (some ("a\nb\nc\ne", records)) (some ("a\nb\nc\ne", records.reverse)) := .some ⟨rfl, hr⟩
  have hd : Reorders d d' := between_reorders policy hrel "a\nx\nd\ny" hs
  have hcheck : d.reason = none ∧ d.replacedIds = [2, 4] ∧ d'.replacedIds = [4, 2] := by
    decide +kernel
  exact ⟨hr, hs, hd, hcheck.1, hd.reason.trans hcheck.1, hcheck.2⟩

end SourceIndex.Diff
