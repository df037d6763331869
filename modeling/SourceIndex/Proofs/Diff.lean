/-
  What a difference says about the two revisions.

  * `Diff.Judged`: every new symbol with the verdict on it, where the keys of both
    revisions are pairwise different;
  * `between_cases`: a difference asks for everything to be written anew, or it
    sorts the symbols by such verdicts;
  * `perm_sorted`: every new symbol is added, modified or unchanged, and only one
    of these;
  * `Judged.perm_kept`: the stored symbols that are neither removed nor replaced are
    those that the unchanged symbols were matched with.
-/
import Mathlib.Data.List.Nodup
import SourceIndex.Diff

namespace SourceIndex.Diff

theorem distinct_iff {keys : List Key} : distinct keys = true ↔ keys.Nodup := by
  induction keys with
  | nil => simp [distinct]
  | cons key keys ih => simp [distinct, ih]

/-- Every new symbol and the verdict on it, where keys tell the symbols of each
    revision apart. -/
structure Judged (oldLines newLines : List String) (records : List SymbolRecord)
    (symbols : List Symbol) (judged : List (Symbol × Verdict)) : Prop where
  symbols_eq : judged.map (·.1) = symbols
  verdict_eq : ∀ j ∈ judged, verdict oldLines newLines records j.1 = some j.2
  records_distinct : (records.map (·.symbol.key)).Nodup
  symbols_distinct : (symbols.map (·.key)).Nodup

/-- The unchanged symbols with the stored symbols they were matched with. -/
def kept (judged : List (Symbol × Verdict)) : List (Symbol × SymbolRecord) :=
  judged.filterMap fun j => match j.2 with
    | .unchanged old => some (j.1, old)
    | _ => none

section
variable {oldLines newLines : List String} {records : List SymbolRecord} {symbols : List Symbol}
  {judged : List (Symbol × Verdict)} {id : SymbolId}

theorem judged_of_mapM : ∀ {symbols : List Symbol} {judged : List (Symbol × Verdict)},
    (symbols.mapM fun s => (verdict oldLines newLines records s).map fun v => (s, v)) =
      some judged →
    judged.map (·.1) = symbols ∧
      ∀ j ∈ judged, verdict oldLines newLines records j.1 = some j.2
  | [], judged, h => by
    cases h
    exact ⟨rfl, fun _ hj => by cases hj⟩
  | s :: symbols, judged, h => by
    rw [List.mapM_cons] at h
    obtain ⟨j, hj, h⟩ := Option.bind_eq_some_iff.1 h
    obtain ⟨rest, hrest, h⟩ := Option.bind_eq_some_iff.1 h
    obtain ⟨v, hv, rfl⟩ := Option.map_eq_some_iff.1 hj
    obtain ⟨ih₁, ih₂⟩ := judged_of_mapM hrest
    cases h
    refine ⟨congrArg (s :: ·) ih₁, fun j hj => ?_⟩
    rcases List.mem_cons.1 hj with rfl | hj
    · exact hv
    · exact ih₂ j hj

variable {policy : DiffPolicy} {previous : Option (String × List SymbolRecord)} {content : String}

/-- A difference asks for everything to be written anew and says nothing else, or
    it sorts the symbols by their verdicts. -/
theorem between_cases (policy : DiffPolicy) (previous : Option (String × List SymbolRecord))
    (content : String) (symbols : List Symbol) :
    (∃ reason, between policy previous content symbols = full reason) ∨
      ∃ old records judged, previous = some (old, records) ∧
        Judged (Text.lines old) (Text.lines content) records symbols judged ∧
        between policy previous content symbols =
          weighed policy symbols.length (sorted records judged) := by
  unfold between
  split
  · exact Or.inl ⟨_, rfl⟩
  · rename_i old records
    split
    · exact Or.inl ⟨_, rfl⟩
    split
    · exact Or.inl ⟨_, rfl⟩
    split
    · exact Or.inl ⟨_, rfl⟩
    rename_i hkeys
    simp only [Bool.or_eq_true, Bool.not_eq_true', not_or, Bool.not_eq_false] at hkeys
    dsimp only
    split
    · exact Or.inl ⟨_, rfl⟩
    · rename_i judged hj
      obtain ⟨h₁, h₂⟩ := judged_of_mapM hj
      exact Or.inr ⟨old, records, judged, rfl,
        ⟨h₁, h₂, distinct_iff.1 hkeys.1, distinct_iff.1 hkeys.2⟩, rfl⟩

theorem between_of_needsFull_eq_false
    (h : (between policy previous content symbols).needsFull = false) :
    ∃ old records judged, previous = some (old, records) ∧
      Judged (Text.lines old) (Text.lines content) records symbols judged ∧
      between policy previous content symbols = sorted records judged := by
  rcases between_cases policy previous content symbols with ⟨reason, he⟩ | ⟨old, records, judged,
    hp, hj, he⟩
  · rw [he] at h
    cases h
  · refine ⟨old, records, judged, hp, hj, ?_⟩
    rw [he, weighed] at h ⊢
    split at h
    · cases h
    · rename_i hr
      rw [if_neg hr]

theorem perm_sorted (records : List SymbolRecord) (judged : List (Symbol × Verdict)) :
    ((sorted records judged).added ++ (sorted records judged).modified ++
      (sorted records judged).unchanged).Perm (judged.map (·.1)) := by
  unfold sorted
  induction judged with
  | nil => exact .refl _
  | cons j judged ih =>
    obtain ⟨s, v⟩ := j
    cases v with
    | added => exact ih.cons s
    | modified old =>
      refine List.Perm.trans ?_ (ih.cons s)
      simp only [List.filterMap_cons, reduceCtorEq, if_false, List.append_assoc, List.cons_append]
      exact List.perm_middle
    | unchanged old =>
      refine List.Perm.trans ?_ (ih.cons s)
      simp only [List.filterMap_cons, reduceCtorEq, if_false]
      exact List.perm_middle

theorem unchanged_eq (records : List SymbolRecord) (judged : List (Symbol × Verdict)) :
    (sorted records judged).unchanged = (kept judged).map (·.1) := by
  rw [sorted, kept, List.map_filterMap]
  exact List.filterMap_congr fun j _ => by cases j.2 <;> rfl

theorem mem_kept {s : Symbol} {old : SymbolRecord} :
    (s, old) ∈ kept judged ↔ (s, Verdict.unchanged old) ∈ judged := by
  simp only [kept, List.mem_filterMap, Prod.exists]
  constructor
  · rintro ⟨s', v, hj, he⟩
    cases v with
    | unchanged old' =>
      cases he
      exact hj
    | _ => cases he
  · exact fun hj => ⟨s, _, hj, rfl⟩

theorem mem_replacedIds :
    id ∈ (sorted records judged).replacedIds ↔
      ∃ s old, (s, Verdict.modified old) ∈ judged ∧ old.id = id := by
  simp only [sorted, List.mem_filterMap, Prod.exists]
  constructor
  · rintro ⟨s, v, hj, he⟩
    cases v with
    | modified old =>
      cases he
      exact ⟨s, old, hj, rfl⟩
    | _ => cases he
  · rintro ⟨s, old, hj, rfl⟩
    exact ⟨s, _, hj, rfl⟩

theorem mem_affectedIds :
    id ∈ (sorted records judged).affectedIds ↔
      ∃ r ∈ records, (∀ j ∈ judged, j.1.key ≠ r.symbol.key) ∧ r.id = id := by
  simp only [sorted, List.mem_map, List.mem_filter, Bool.not_eq_true', List.contains_eq_mem,
    decide_eq_false_iff_not, not_exists, not_and, and_assoc]

end

/-! ## Matched symbols -/

namespace Judged

variable {oldLines newLines : List String} {records : List SymbolRecord} {symbols : List Symbol}
  {judged : List (Symbol × Verdict)} {s : Symbol} {old r : SymbolRecord}

/-- A symbol that is not added was matched with the stored symbol with its key, and
    both lie in their lines. -/
theorem matched (h : Judged oldLines newLines records symbols judged) {v : Verdict}
    (hj : (s, v) ∈ judged) :
    (v = .added ∧ ∀ r ∈ records, r.symbol.key ≠ s.key) ∨
      ∃ old ∈ records, old.symbol.key = s.key ∧
        ∃ oldSpan span, spanText oldLines old.symbol = some oldSpan ∧
          spanText newLines s = some span ∧
          v = if ContentHash.ofText oldSpan = ContentHash.ofText span then .unchanged old
            else .modified old := by
  have hv := h.verdict_eq _ hj
  unfold verdict at hv
  split at hv
  · cases hv
  rename_i span hs
  unfold judge at hv
  split at hv
  · rename_i hf
    refine Or.inl ⟨(Option.some.inj hv).symm, fun r hr => ?_⟩
    simpa using List.find?_eq_none.1 hf r hr
  · rename_i old hf
    split at hv
    · cases hv
    rename_i oldSpan ho
    refine Or.inr ⟨old, List.mem_of_find?_eq_some hf, by simpa using List.find?_some hf, oldSpan,
      span, ho, hs, ?_⟩
    split at hv
    · rename_i he
      rw [if_pos he, Option.some.inj hv]
    · rename_i he
      rw [if_neg he, Option.some.inj hv]

/-- An unchanged symbol has the key of the stored symbol it was matched with, and
    the texts of both have the same fingerprint. -/
theorem of_mem_kept (h : Judged oldLines newLines records symbols judged)
    (hk : (s, old) ∈ kept judged) :
    old ∈ records ∧ old.symbol.key = s.key ∧
      ∃ oldSpan span, spanText oldLines old.symbol = some oldSpan ∧
        spanText newLines s = some span ∧ ContentHash.ofText oldSpan = ContentHash.ofText span := by
  rcases h.matched (mem_kept.1 hk) with ⟨hv, -⟩ | ⟨old', ho, hkey, oldSpan, span, hs, hs', hv⟩
  · cases hv
  · split at hv
    · rename_i he
      cases hv
      exact ⟨ho, hkey, oldSpan, span, hs, hs', he⟩
    · cases hv

theorem mem_of_modified (h : Judged oldLines newLines records symbols judged)
    (hj : (s, Verdict.modified old) ∈ judged) : old ∈ records ∧ old.symbol.key = s.key := by
  rcases h.matched hj with ⟨hv, -⟩ | ⟨old', ho, hkey, oldSpan, span, -, -, hv⟩
  · cases hv
  · split at hv <;> cases hv
    exact ⟨ho, hkey⟩

theorem eq_of_key (h : Judged oldLines newLines records symbols judged) {j j' : Symbol × Verdict}
    (hj : j ∈ judged) (hj' : j' ∈ judged) (he : j.1.key = j'.1.key) : j = j' := by
  have hn : (judged.map fun j => j.1.key).Nodup := by
    have := h.symbols_distinct
    rwa [← h.symbols_eq, List.map_map] at this
  exact List.inj_on_of_nodup_map hn hj hj' he

theorem eq_of_record_key (h : Judged oldLines newLines records symbols judged) {r' : SymbolRecord}
    (hr : r ∈ records) (hr' : r' ∈ records) (he : r.symbol.key = r'.symbol.key) : r = r' :=
  List.inj_on_of_nodup_map h.records_distinct hr hr' he

theorem mem_dropped (h : Judged oldLines newLines records symbols judged) {id : SymbolId}
    (hid : id ∈ (sorted records judged).affectedIds ++ (sorted records judged).replacedIds) :
    ∃ r ∈ records, r.id = id := by
  rcases List.mem_append.1 hid with hid | hid
  · obtain ⟨r, hr, -, he⟩ := mem_affectedIds.1 hid
    exact ⟨r, hr, he⟩
  · obtain ⟨s, old, hj, he⟩ := mem_replacedIds.1 hid
    exact ⟨old, (h.mem_of_modified hj).1, he⟩

/-- A stored symbol stays if and only if an unchanged symbol was matched with it. -/
theorem stays_iff (h : Judged oldLines newLines records symbols judged)
    (hid : (records.map (·.id)).Nodup) (hr : r ∈ records) :
    r.id ∉ (sorted records judged).affectedIds ++ (sorted records judged).replacedIds ↔
      ∃ s, (s, r) ∈ kept judged := by
  have hinj : ∀ {r'}, r' ∈ records → r'.id = r.id → r' = r := fun hr' he =>
    List.inj_on_of_nodup_map hid hr' hr he
  rw [List.mem_append, not_or]
  constructor
  · rintro ⟨haffected, hreplaced⟩
    obtain ⟨⟨s, v⟩, hj, hkey⟩ : ∃ j ∈ judged, j.1.key = r.symbol.key := by
      by_contra hno
      exact haffected (mem_affectedIds.2 ⟨r, hr, fun j hj he => hno ⟨j, hj, he⟩, rfl⟩)
    rcases h.matched hj with ⟨-, hnone⟩ | ⟨old, ho, hkey', oldSpan, span, -, -, hv⟩
    · exact (hnone r hr hkey.symm).elim
    · obtain rfl := h.eq_of_record_key ho hr (hkey'.trans hkey)
      split at hv
      · exact ⟨s, mem_kept.2 (hv ▸ hj)⟩
      · exact (hreplaced (mem_replacedIds.2 ⟨s, old, hv ▸ hj, rfl⟩)).elim
  · rintro ⟨s, hk⟩
    have hkey := (h.of_mem_kept hk).2.1
    refine ⟨fun ha => ?_, fun hm => ?_⟩
    · obtain ⟨r', hr', hnone, he⟩ := mem_affectedIds.1 ha
      obtain rfl := hinj hr' he
      exact hnone _ (mem_kept.1 hk) hkey.symm
    · obtain ⟨s', old, hj, he⟩ := mem_replacedIds.1 hm
      obtain ⟨ho, hkey'⟩ := h.mem_of_modified hj
      obtain rfl := hinj ho he
      cases h.eq_of_key hj (mem_kept.1 hk) (hkey'.symm.trans hkey)

theorem perm_kept (h : Judged oldLines newLines records symbols judged)
    (hid : (records.map (·.id)).Nodup) :
    (records.filter fun r => r.id ∉
        (sorted records judged).affectedIds ++ (sorted records judged).replacedIds).Perm
      ((kept judged).map (·.2)) := by
  have hkeys : ((kept judged).map (·.2)).map (·.symbol.key) =
      ((kept judged).map (·.1)).map (·.key) := by
    rw [List.map_map, List.map_map]
    exact List.map_congr_left fun k hk => (h.of_mem_kept hk).2.1
  have hdistinct : (((kept judged).map (·.1)).map (·.key)).Nodup := by
    have hp := perm_sorted records judged
    rw [h.symbols_eq, unchanged_eq] at hp
    have hn := (hp.map (·.key)).nodup_iff.2 h.symbols_distinct
    rw [List.map_append] at hn
    exact (List.nodup_append.1 hn).2.1
  have hnodup : ((kept judged).map (·.2)).Nodup :=
    List.Nodup.of_map (·.symbol.key) (hkeys ▸ hdistinct)
  refine (List.perm_ext_iff_of_nodup ((List.Nodup.of_map _ hid).filter _) hnodup).2 fun r => ?_
  rw [List.mem_filter, decide_eq_true_eq, List.mem_map]
  constructor
  · rintro ⟨hr, hstay⟩
    obtain ⟨s, hk⟩ := (h.stays_iff hid hr).1 hstay
    exact ⟨(s, r), hk, rfl⟩
  · rintro ⟨⟨s, r⟩, hk, rfl⟩
    have hr := (h.of_mem_kept hk).1
    exact ⟨hr, (h.stays_iff hid hr).2 ⟨s, hk⟩⟩

end Judged

end SourceIndex.Diff
