/-
  A difference sorts every symbol of two revisions, and each of them once.

  * `Diff.Comparable`: revisions that can be compared symbol by symbol: the number of
    symbols has not moved too far, keys tell the symbols of each revision apart, and the
    symbols that are compared lie in their texts;
  * `between_eq_of_comparable`, `between_eq_full`: a difference sorts the symbols if the
    revisions can be compared, and says nothing but a reason if they cannot;
  * `Diff.Sorts`: what a difference that sorts the symbols says about each of them;
  * `Judged.sorts`: verdicts on all symbols sort them so.
-/
import SourceIndex.Proofs.Diff
import SourceIndex.Proofs.Spans

namespace SourceIndex.Diff

variable {policy : DiffPolicy} {old content : String} {records : List SymbolRecord}
  {symbols : List Symbol} {oldLines newLines : List String} {s : Symbol} {d : Diff}

/-! ## Revisions that can be compared -/

/-- The stored revision and the new one can be compared symbol by symbol. -/
structure Comparable (policy : DiffPolicy) (old : String) (records : List SymbolRecord)
    (content : String) (symbols : List Symbol) : Prop where
  nonempty : symbols ≠ []
  count : countShifted policy records.length symbols.length = false
  records_distinct : (records.map (·.symbol.key)).Nodup
  symbols_distinct : (symbols.map (·.key)).Nodup
  new_inLines : ∀ s ∈ symbols, s.InLines (Text.lines content)
  old_inLines : ∀ r ∈ records, r.symbol.key ∈ symbols.map (·.key) →
    r.symbol.InLines (Text.lines old)

/-- There is a verdict on a symbol if and only if it lies in its text, and so does the
    stored symbol with its key. -/
theorem exists_verdict_iff (hrecords : (records.map (·.symbol.key)).Nodup) :
    (∃ v, verdict oldLines newLines records s = some v) ↔
      s.InLines newLines ∧ ∀ r ∈ records, r.symbol.key = s.key → r.symbol.InLines oldLines := by
  unfold verdict judge
  rw [← exists_spanText_iff]
  cases hs : spanText newLines s with
  | none => simp
  | some span =>
    cases hf : records.find? (·.symbol.key = s.key) with
    | none =>
      have hnone : ∀ r ∈ records, r.symbol.key ≠ s.key := by
        simpa using List.find?_eq_none.1 hf
      refine iff_of_true ⟨_, rfl⟩ ⟨⟨span, rfl⟩, fun r hr hk => (hnone r hr hk).elim⟩
    | some found =>
      have hfound : found ∈ records := List.mem_of_find?_eq_some hf
      have hkey : found.symbol.key = s.key := by simpa using List.find?_some hf
      have honly : ∀ r ∈ records, r.symbol.key = s.key → r = found := fun r hr hk =>
        List.inj_on_of_nodup_map hrecords hr hfound (hk.trans hkey.symm)
      cases ho : spanText oldLines found.symbol with
      | none =>
        refine iff_of_false (by simp [ho]) fun hlines => ?_
        obtain ⟨text, ht⟩ := exists_spanText_iff.2 (hlines.2 found hfound hkey)
        rw [ho] at ht
        cases ht
      | some text =>
        refine iff_of_true ?_ ⟨⟨span, rfl⟩, fun r hr hk => ?_⟩
        · simp only [ho]
          by_cases he : ContentHash.ofText text = ContentHash.ofText span <;> simp [he]
        · rw [honly r hr hk]
          exact exists_spanText_iff.1 ⟨text, ho⟩

/-- All symbols are judged if and only if there is a verdict on each of them. -/
theorem exists_judged_iff :
    (∃ judged, (symbols.mapM fun s =>
        (verdict oldLines newLines records s).map fun v => (s, v)) = some judged) ↔
      ∀ s ∈ symbols, ∃ v, verdict oldLines newLines records s = some v := by
  induction symbols with
  | nil => simp
  | cons s symbols ih =>
    rw [List.forall_mem_cons, ← ih, List.mapM_cons]
    cases verdict oldLines newLines records s with
    | none => simp
    | some v =>
      cases symbols.mapM fun s => (verdict oldLines newLines records s).map fun v => (s, v) with
      | none => simp
      | some judged => simp

theorem inLines_iff (hrecords : (records.map (·.symbol.key)).Nodup) :
    (∀ s ∈ symbols, ∃ v, verdict oldLines newLines records s = some v) ↔
      (∀ s ∈ symbols, s.InLines newLines) ∧
        ∀ r ∈ records, r.symbol.key ∈ symbols.map (·.key) → r.symbol.InLines oldLines := by
  constructor
  · intro h
    refine ⟨fun s hs => ((exists_verdict_iff hrecords).1 (h s hs)).1, fun r hr hmem => ?_⟩
    obtain ⟨s, hs, hkey⟩ := List.mem_map.1 hmem
    exact ((exists_verdict_iff hrecords).1 (h s hs)).2 r hr hkey.symm
  · rintro ⟨hnew, hold⟩ s hs
    refine (exists_verdict_iff hrecords).2 ⟨hnew s hs, fun r hr hkey => hold r hr ?_⟩
    exact List.mem_map.2 ⟨s, hs, hkey.symm⟩

/-- Revisions that can be compared are: every symbol is judged, and sorted by that. -/
theorem between_eq_of_comparable (h : Comparable policy old records content symbols) :
    ∃ judged, Judged (Text.lines old) (Text.lines content) records symbols judged ∧
      between policy (some (old, records)) content symbols =
        weighed policy symbols.length (sorted records judged) := by
  obtain ⟨judged, hj⟩ := exists_judged_iff.2
    ((inLines_iff h.records_distinct).2 ⟨h.new_inLines, h.old_inLines⟩)
  obtain ⟨hsymbols, hverdict⟩ := judged_of_mapM hj
  refine ⟨judged, ⟨hsymbols, hverdict, h.records_distinct, h.symbols_distinct⟩, ?_⟩
  have hne : symbols.isEmpty = false := by simpa using h.nonempty
  simp only [between, hne, h.count, distinct_iff.2 h.records_distinct,
    distinct_iff.2 h.symbols_distinct, hj]
  simp

/-- Revisions that cannot be compared are not: there is nothing but a reason. -/
theorem between_eq_full (h : ¬ Comparable policy old records content symbols) :
    ∃ reason, reason ≠ .changeRatio ∧
      between policy (some (old, records)) content symbols = full reason := by
  unfold between
  by_cases hempty : symbols.isEmpty = true
  · exact ⟨.noSymbols, by decide, by simp [hempty]⟩
  by_cases hcount : countShifted policy records.length symbols.length = true
  · exact ⟨.symbolCountShift, by decide, by simp [hempty, hcount]⟩
  by_cases hkeys : (!distinct (records.map (·.symbol.key)) ||
      !distinct (symbols.map (·.key))) = true
  · exact ⟨.ambiguousKeys, by decide, by simp only [hempty, hcount, hkeys]; rfl⟩
  refine ⟨.spanOutOfRange, by decide, ?_⟩
  have hdistinct : (records.map (·.symbol.key)).Nodup ∧ (symbols.map (·.key)).Nodup := by
    simpa [distinct_iff] using hkeys
  -- otherwise all symbols would lie in their texts
  have hjudged : (symbols.mapM fun s =>
      (verdict (Text.lines old) (Text.lines content) records s).map fun v => (s, v)) = none := by
    by_contra hsome
    obtain ⟨judged, hj⟩ := Option.ne_none_iff_exists.1 hsome
    obtain ⟨hnew, hold⟩ :=
      (inLines_iff hdistinct.1).1 (exists_judged_iff.1 ⟨judged, hj.symm⟩)
    exact h ⟨by simpa using hempty, by simpa using hcount, hdistinct.1, hdistinct.2, hnew, hold⟩
  simp only [hempty, hcount, hkeys, hjudged]
  rfl

/-! ## Symbols sorted -/

/-- The stored symbols that are gone. -/
def gone (records : List SymbolRecord) (symbols : List Symbol) : List SymbolRecord :=
  records.filter fun r => r.symbol.key ∉ symbols.map (·.key)

/-- The modified symbols with the stored symbols they were matched with. -/
def replaced (judged : List (Symbol × Verdict)) : List (Symbol × SymbolRecord) :=
  judged.filterMap fun j => match j.2 with
    | .modified old => some (j.1, old)
    | _ => none

/-- The difference sorts the symbols of the two revisions. -/
structure Sorts (old : String) (records : List SymbolRecord) (content : String)
    (symbols : List Symbol) (d : Diff) : Prop where
  /-- every new symbol is added, modified or unchanged -/
  perm_symbols : (d.added ++ d.modified ++ d.unchanged).Perm symbols
  /-- every stored symbol is gone, or a modified or unchanged symbol has its key -/
  perm_keys : ((d.removed ++ d.modified ++ d.unchanged).map (·.key)).Perm
    (records.map (·.symbol.key))
  /-- nothing is sorted twice -/
  nodup : ((d.added ++ d.removed ++ d.modified ++ d.unchanged).map (·.key)).Nodup
  removed : d.removed = (gone records symbols).map (·.symbol)
  affected : d.affectedIds = (gone records symbols).map (·.id)
  /-- the numbers that are replaced belong to the modified symbols, one to each -/
  replaced : List.Forall₂ (fun s id => ∃ r ∈ records, r.symbol.key = s.key ∧ r.id = id)
    d.modified d.replacedIds
  /-- a symbol with the key of a stored one is modified or unchanged, as the fingerprints
      of the two texts say -/
  matched : ∀ s ∈ symbols, ∀ r ∈ records, r.symbol.key = s.key →
    ∃ before after, spanText (Text.lines old) r.symbol = some before ∧
      spanText (Text.lines content) s = some after ∧
      (s ∈ d.modified ↔ ContentHash.ofText before ≠ ContentHash.ofText after) ∧
      (s ∈ d.unchanged ↔ ContentHash.ofText before = ContentHash.ofText after)

variable {judged : List (Symbol × Verdict)}

theorem modified_eq (records : List SymbolRecord) (judged : List (Symbol × Verdict)) :
    (sorted records judged).modified = (replaced judged).map (·.1) := by
  rw [sorted, replaced, List.map_filterMap]
  exact List.filterMap_congr fun j _ => by cases j.2 <;> rfl

theorem replacedIds_eq (records : List SymbolRecord) (judged : List (Symbol × Verdict)) :
    (sorted records judged).replacedIds = (replaced judged).map (·.2.id) := by
  rw [sorted, replaced, List.map_filterMap]
  exact List.filterMap_congr fun j _ => by cases j.2 <;> rfl

theorem mem_replaced {r : SymbolRecord} :
    (s, r) ∈ replaced judged ↔ (s, Verdict.modified r) ∈ judged := by
  simp only [replaced, List.mem_filterMap, Prod.exists]
  constructor
  · rintro ⟨s', v, hj, he⟩
    cases v with
    | modified old =>
      cases he
      exact hj
    | _ => cases he
  · exact fun hj => ⟨s, _, hj, rfl⟩

theorem mem_modified :
    s ∈ (sorted records judged).modified ↔ ∃ r, (s, Verdict.modified r) ∈ judged := by
  simp [modified_eq, mem_replaced]

theorem mem_unchanged :
    s ∈ (sorted records judged).unchanged ↔ ∃ r, (s, Verdict.unchanged r) ∈ judged := by
  simp [unchanged_eq, mem_kept]

namespace Judged

variable {v : Verdict}

theorem exists_verdict (h : Judged oldLines newLines records symbols judged) (hs : s ∈ symbols) :
    ∃ v, (s, v) ∈ judged := by
  rw [← h.symbols_eq, List.mem_map] at hs
  obtain ⟨⟨s, v⟩, hj, rfl⟩ := hs
  exact ⟨v, hj⟩

theorem matched_with (h : Judged oldLines newLines records symbols judged) (hj : (s, v) ∈ judged)
    {r : SymbolRecord} (hr : r ∈ records) (hkey : r.symbol.key = s.key) :
    ∃ before after, spanText oldLines r.symbol = some before ∧ spanText newLines s = some after ∧
      v = if ContentHash.ofText before = ContentHash.ofText after then .unchanged r
        else .modified r := by
  rcases h.matched hj with ⟨-, hnone⟩ | ⟨found, hf, hkey', before, after, hb, ha, hv⟩
  · exact (hnone r hr hkey).elim
  · obtain rfl := h.eq_of_record_key hf hr (hkey'.trans hkey.symm)
    exact ⟨before, after, hb, ha, hv⟩

theorem verdict_unique (h : Judged oldLines newLines records symbols judged) {v' : Verdict}
    (hj : (s, v) ∈ judged) (hj' : (s, v') ∈ judged) : v' = v :=
  congrArg Prod.snd (h.eq_of_key hj' hj rfl)

theorem keys_eq (h : Judged oldLines newLines records symbols judged) :
    judged.map (·.1.key) = symbols.map (·.key) := by
  rw [← h.symbols_eq, List.map_map]
  rfl

theorem gone_eq (h : Judged oldLines newLines records symbols judged) :
    (records.filter fun r => !(judged.map (·.1.key)).contains r.symbol.key) =
      gone records symbols := by
  rw [h.keys_eq, gone]
  exact List.filter_congr fun r _ => by rw [List.contains_eq_mem, decide_not]

theorem removed_eq (h : Judged oldLines newLines records symbols judged) :
    (sorted records judged).removed = (gone records symbols).map (·.symbol) ∧
      (sorted records judged).affectedIds = (gone records symbols).map (·.id) := by
  rw [← h.gone_eq]
  exact ⟨rfl, rfl⟩

theorem perm_symbols (h : Judged oldLines newLines records symbols judged) :
    ((sorted records judged).added ++ (sorted records judged).modified ++
      (sorted records judged).unchanged).Perm symbols := by
  have hperm := perm_sorted records judged
  rwa [h.symbols_eq] at hperm

theorem nodup_keys (h : Judged oldLines newLines records symbols judged) :
    (((sorted records judged).added ++ (sorted records judged).removed ++
      (sorted records judged).modified ++ (sorted records judged).unchanged).map
        (·.key)).Nodup := by
  have hgone : (gone records symbols).map (·.symbol.key) =
      (sorted records judged).removed.map (·.key) := by
    rw [h.removed_eq.1, List.map_map]
    rfl
  have hnew := (h.perm_symbols.map (·.key)).nodup_iff.2 h.symbols_distinct
  have hold : ((sorted records judged).removed.map (·.key)).Nodup :=
    hgone ▸ (List.filter_sublist.map _).nodup h.records_distinct
  have happart : ∀ k ∈ (sorted records judged).removed.map (·.key), k ∉ symbols.map (·.key) := by
    rw [← hgone]
    intro k hk
    obtain ⟨r, hr, rfl⟩ := List.mem_map.1 hk
    simpa using (List.mem_filter.1 hr).2
  have hperm : ((sorted records judged).added ++ (sorted records judged).removed ++
      (sorted records judged).modified ++ (sorted records judged).unchanged).Perm
      ((sorted records judged).removed ++ ((sorted records judged).added ++
        (sorted records judged).modified ++ (sorted records judged).unchanged)) := by
    simp only [List.append_assoc]
    rw [← List.append_assoc, ← List.append_assoc (sorted records judged).removed]
    exact List.perm_append_comm.append_right _
  rw [(hperm.map _).nodup_iff, List.map_append]
  refine hold.append hnew fun k hk hk' => happart k hk ?_
  exact ((h.perm_symbols.map (·.key)).mem_iff).1 hk'

/-- The stored keys are those of the symbols that are gone, modified or unchanged. -/
theorem perm_keys (h : Judged oldLines newLines records symbols judged) :
    (((sorted records judged).removed ++ (sorted records judged).modified ++
      (sorted records judged).unchanged).map (·.key)).Perm (records.map (·.symbol.key)) := by
  have hnodup := h.nodup_keys
  rw [List.append_assoc, List.append_assoc, List.map_append] at hnodup
  refine (List.perm_ext_iff_of_nodup ?_ h.records_distinct).2 fun k => ?_
  · rw [List.append_assoc]
    exact hnodup.of_append_right
  simp only [List.map_append, List.mem_append, List.mem_map, mem_modified, mem_unchanged,
    h.removed_eq.1]
  constructor
  · rintro ((⟨s, ⟨r, hr, rfl⟩, rfl⟩ | ⟨s, ⟨r, hj⟩, rfl⟩) | ⟨s, ⟨r, hj⟩, rfl⟩)
    · exact ⟨r, (List.mem_filter.1 hr).1, rfl⟩
    · obtain ⟨hr, hkey⟩ := h.mem_of_modified hj
      exact ⟨r, hr, hkey⟩
    · obtain ⟨hr, hkey, -⟩ := h.of_mem_kept (mem_kept.2 hj)
      exact ⟨r, hr, hkey⟩
  · rintro ⟨r, hr, rfl⟩
    by_cases hmem : r.symbol.key ∈ symbols.map (·.key)
    · obtain ⟨s, hs, hkey⟩ := List.mem_map.1 hmem
      obtain ⟨v, hj⟩ := h.exists_verdict hs
      obtain ⟨before, after, -, -, hv⟩ := h.matched_with hj hr hkey.symm
      split at hv
      · exact Or.inr ⟨s, ⟨r, hv ▸ hj⟩, hkey⟩
      · exact Or.inl (Or.inr ⟨s, ⟨r, hv ▸ hj⟩, hkey⟩)
    · exact Or.inl (Or.inl ⟨r.symbol, ⟨r, List.mem_filter.2 ⟨hr, decide_eq_true hmem⟩, rfl⟩, rfl⟩)

/-- Verdicts on all symbols sort them. -/
theorem sorts (h : Judged (Text.lines old) (Text.lines content) records symbols judged) :
    Sorts old records content symbols (sorted records judged) where
  perm_symbols := h.perm_symbols
  perm_keys := h.perm_keys
  nodup := h.nodup_keys
  removed := h.removed_eq.1
  affected := h.removed_eq.2
  replaced := by
    rw [modified_eq, replacedIds_eq, List.forall₂_map_left_iff, List.forall₂_map_right_iff,
      List.forall₂_same]
    rintro ⟨s, r⟩ hm
    obtain ⟨hr, hkey⟩ := h.mem_of_modified (mem_replaced.1 hm)
    exact ⟨r, hr, hkey, rfl⟩
  matched s hs r hr hkey := by
    obtain ⟨v, hj⟩ := h.exists_verdict hs
    obtain ⟨before, after, hb, ha, hv⟩ := h.matched_with hj hr hkey
    refine ⟨before, after, hb, ha, ?_, ?_⟩
    · rw [mem_modified]
      constructor
      · rintro ⟨r', hj'⟩ he
        rw [if_pos he] at hv
        cases (h.verdict_unique hj hj').trans hv
      · intro hne
        rw [if_neg hne] at hv
        exact ⟨r, hv ▸ hj⟩
    · rw [mem_unchanged]
      constructor
      · rintro ⟨r', hj'⟩
        by_contra hne
        rw [if_neg hne] at hv
        cases (h.verdict_unique hj hj').trans hv
      · intro he
        rw [if_pos he] at hv
        exact ⟨r, hv ▸ hj⟩

end Judged

theorem Sorts.weighed (h : Sorts old records content symbols d) (new : Nat) :
    Sorts old records content symbols (weighed policy new d) := by
  unfold Diff.weighed
  split
  · exact { h with }
  · exact h

theorem weighed_reason (h : d.reason = none) (new : Nat) :
    (weighed policy new d).reason = none ∨ (weighed policy new d).reason = some .changeRatio := by
  unfold weighed
  split
  · exact Or.inr rfl
  · exact Or.inl h

/-- **A difference sorts every symbol once, or says nothing but a reason.**  If it has a
    reason other than that too much has changed, there is nothing else in it.  Otherwise
    the revisions can be compared, and it sorts their symbols; and it does so whenever they
    can be compared. -/
theorem between_sorts (policy : DiffPolicy) (previous : Option (String × List SymbolRecord))
    (content : String) (symbols : List Symbol) :
    let d := between policy previous content symbols
    (∀ reason, d.reason = some reason → reason ≠ .changeRatio → d = full reason) ∧
    (d.reason = none ∨ d.reason = some .changeRatio → ∃ old records,
      previous = some (old, records) ∧ Comparable policy old records content symbols ∧
        Sorts old records content symbols d) ∧
    ∀ old records, previous = some (old, records) →
      Comparable policy old records content symbols →
        d.reason = none ∨ d.reason = some .changeRatio := by
  intro d
  have hfull : ∀ reason, reason ≠ .changeRatio → d = full reason →
      (∀ reason', d.reason = some reason' → d = full reason') ∧
        ¬ (d.reason = none ∨ d.reason = some .changeRatio) := by
    intro reason hne hd
    rw [hd]
    refine ⟨fun reason' hr => ?_, ?_⟩
    · cases hr
      rfl
    · rintro (hr | hr)
      · cases hr
      · exact hne (Option.some.inj hr)
  cases previous with
  | none =>
    obtain ⟨honly, hnot⟩ := hfull .noPreviousVersion (by decide) rfl
    exact ⟨fun reason hr _ => honly reason hr, fun hr => (hnot hr).elim, fun _ _ hp => by cases hp⟩
  | some previous =>
    obtain ⟨old, records⟩ := previous
    by_cases h : Comparable policy old records content symbols
    · obtain ⟨judged, hjudged, hd⟩ := between_eq_of_comparable h
      have hreason : d.reason = none ∨ d.reason = some .changeRatio := by
        rw [show d = _ from hd]
        exact weighed_reason rfl _
      have hsorts : Sorts old records content symbols d := by
        rw [show d = _ from hd]
        exact hjudged.sorts.weighed _
      refine ⟨fun reason hr hne => ?_, fun _ => ⟨old, records, rfl, h, hsorts⟩,
        fun _ _ _ _ => hreason⟩
      rcases hreason with hr' | hr' <;> rw [hr'] at hr <;> cases hr
      exact (hne rfl).elim
    · obtain ⟨reason, hne, hd⟩ := between_eq_full h
      obtain ⟨honly, hnot⟩ := hfull reason hne hd
      refine ⟨fun reason hr _ => honly reason hr, fun hr => (hnot hr).elim,
        fun old' records' hp hc => ?_⟩
      cases hp
      exact (h hc).elim

/-- The symbol `a` is as it was, the text of `b` changes, and `d` stands where `c` was; a
    file that is new is not sorted. -/
theorem between_sorts_sample :
    let records : List SymbolRecord := [⟨1, 1, .ofLines "a" .function 1 1⟩,
      ⟨2, 1, .ofLines "b" .function 2 2⟩, ⟨3, 1, .ofLines "c" .function 3 3⟩]
    let symbols : List Symbol := [.ofLines "a" .function 1 1, .ofLines "b" .function 2 2,
      .ofLines "d" .function 3 3]
    let d := between {} (some ("fn a\nfn b\nfn c", records)) "fn a\nfn b'\nfn d" symbols
    Comparable {} "fn a\nfn b\nfn c" records "fn a\nfn b'\nfn d" symbols ∧
      Sorts "fn a\nfn b\nfn c" records "fn a\nfn b'\nfn d" symbols d ∧
      .ofLines "a" .function 1 1 ∈ d.unchanged ∧ .ofLines "b" .function 2 2 ∈ d.modified ∧
      d.affectedIds = [3] ∧
      between {} none "fn a\nfn b'\nfn d" symbols = full .noPreviousVersion := by
  intro records symbols d
  have hc : Comparable {} "fn a\nfn b\nfn c" records "fn a\nfn b'\nfn d" symbols := {
    nonempty := List.cons_ne_nil _ _
    count := rfl
    records_distinct := by decide +kernel
    symbols_distinct := by decide +kernel
    new_inLines := by unfold Symbol.InLines; decide +kernel
    old_inLines := by unfold Symbol.InLines; decide +kernel }
  obtain ⟨-, hsorts, hreason⟩ :=
    between_sorts {} (some ("fn a\nfn b\nfn c", records)) "fn a\nfn b'\nfn d" symbols
  obtain ⟨_, _, hp, -, hd⟩ := hsorts (hreason _ _ rfl hc)
  cases hp
  refine ⟨hc, hd, ?_, ?_, ?_, ?_⟩
  · obtain ⟨before, after, hbefore, hafter, -, hunchanged⟩ :=
      hd.matched (.ofLines "a" .function 1 1) (by simp [symbols])
        ⟨1, 1, .ofLines "a" .function 1 1⟩ (by simp [records]) rfl
    have htext : before = after := Option.some.inj <|
      hbefore.symm.trans <| Eq.trans (by decide +kernel) hafter
    exact hunchanged.2 (congrArg _ htext)
  · obtain ⟨before, after, hbefore, hafter, hmodified, -⟩ :=
      hd.matched (.ofLines "b" .function 2 2) (by simp [symbols])
        ⟨2, 1, .ofLines "b" .function 2 2⟩ (by simp [records]) rfl
    have hold : before = "fn b" := Option.some.inj <|
      hbefore.symm.trans (by decide +kernel)
    have hnew : after = "fn b'" := Option.some.inj <|
      hafter.symm.trans (by decide +kernel)
    rw [hmodified, hold, hnew]
    decide +kernel
  · rw [hd.affected]
    decide +kernel
  · exact (between_sorts {} none "fn a\nfn b'\nfn d" symbols).1 _ rfl (by decide)

end SourceIndex.Diff
