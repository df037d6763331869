/-
  Lines and the texts that symbols cover.

  * `joinLines_injective`: lines can be read off their joined text, as no line has a
    line feed in it;
  * `slice_congr`, `slice_append`: slices of slices, and slices side by side;
  * `endLine_eq_of_spanText`: two symbols that start on the same line and cover the
    same text end on the same line;
  * `slice_eq_of_spanText`: if they cover whole lines, these lines are the same.
-/
import SourceIndex.Span

namespace SourceIndex

variable {ls : List String} {stop : Nat} {l : String} {s : Symbol}

namespace Text

/-! ## Lines -/

theorem newline_notMem_linesFrom : ∀ (cs held : List Char), '\n' ∉ held →
    ∀ l ∈ linesFrom held cs, '\n' ∉ l.toList
  | [], held, hheld, l, hl => by
    unfold linesFrom at hl
    split at hl
    · cases hl
    · rw [List.mem_singleton.1 hl, String.toList_ofList, List.mem_reverse]
      exact hheld
  | c :: cs, held, hheld, l, hl => by
    unfold linesFrom at hl
    split at hl
    · rcases List.mem_cons.1 hl with rfl | hl
      · unfold closeLine
        split
        · rw [String.toList_ofList, List.mem_reverse]
          exact fun hm => hheld (List.mem_cons_of_mem _ hm)
        · rw [String.toList_ofList, List.mem_reverse]
          exact hheld
      · exact newline_notMem_linesFrom cs [] List.not_mem_nil l hl
    · rename_i hc
      refine newline_notMem_linesFrom cs (c :: held) (fun hm => ?_) l hl
      rcases List.mem_cons.1 hm with he | hm
      · exact hc he.symm
      · exact hheld hm

theorem newline_notMem_lines {text : String} (h : l ∈ lines text) : '\n' ∉ l.toList :=
  newline_notMem_linesFrom _ [] List.not_mem_nil l h

/-- Lines can be read off their joined text. -/
theorem joinLines_injective {ls' : List String} (h : ∀ l ∈ ls, '\n' ∉ l.toList)
    (h' : ∀ l ∈ ls', '\n' ∉ l.toList) (hne : ls ≠ []) (hne' : ls' ≠ [])
    (he : joinLines ls = joinLines ls') : ls = ls' := by
  have hsplit : ∀ {ls : List String}, (∀ l ∈ ls, '\n' ∉ l.toList) → ls ≠ [] →
      (joinLines ls).toList.splitOn '\n' = ls.map String.toList := by
    intro ls h hne
    rw [joinLines, String.toList_intercalate]
    refine List.splitOn_intercalate '\n' (fun l hl => ?_) (by simpa using hne)
    obtain ⟨s, hs, rfl⟩ := List.mem_map.1 hl
    exact h s hs
  have hmap : ls.map String.toList = ls'.map String.toList := by
    rw [← hsplit h hne, ← hsplit h' hne', he]
  exact List.map_inj_right (fun _ _ => String.toList_inj.1) |>.1 hmap

/-! ## Slices -/

variable {ls ls' : List String} {start stop a b c : Nat}

theorem mem_of_mem_slice (h : l ∈ slice ls a b) : l ∈ ls :=
  List.mem_of_mem_take (List.mem_of_mem_drop h)

theorem length_slice (h₁ : 1 ≤ start) (h₂ : start ≤ stop) (h₃ : stop ≤ ls.length) :
    (slice ls start stop).length = stop + 1 - start := by
  rw [slice, List.length_drop, List.length_take]
  omega

theorem slice_ne_nil (h₁ : 1 ≤ start) (h₂ : start ≤ stop) (h₃ : stop ≤ ls.length) :
    slice ls start stop ≠ [] := by
  rw [← List.length_pos_iff, length_slice h₁ h₂ h₃]
  omega

theorem slice_slice (h₁ : 1 ≤ start) (h₂ : start ≤ a) (h₃ : a ≤ b) (h₄ : b ≤ stop) :
    slice ls a b = ((slice ls start stop).take (b + 1 - start)).drop (a - start) := by
  unfold slice
  rw [List.take_drop, List.take_take, List.drop_drop]
  congr 1
  · omega
  · congr 1
    omega

theorem slice_congr (h₁ : 1 ≤ start) (h₂ : start ≤ a) (h₃ : a ≤ b) (h₄ : b ≤ stop)
    (he : slice ls start stop = slice ls' start stop) : slice ls a b = slice ls' a b := by
  rw [slice_slice h₁ h₂ h₃ h₄, he, ← slice_slice h₁ h₂ h₃ h₄]

theorem slice_append (h₁ : 1 ≤ a) (h₂ : a ≤ b + 1) (h₃ : b ≤ c) :
    slice ls a b ++ slice ls (b + 1) c = slice ls a c := by
  unfold slice
  have hb : ls.take b = (ls.take c).take b := by rw [List.take_take, Nat.min_eq_left h₃]
  have hd : (ls.take c).drop (b + 1 - 1) = ((ls.take c).drop (a - 1)).drop (b + 1 - a) := by
    rw [List.drop_drop]
    congr 1
    omega
  have ht : ((ls.take c).take b).drop (a - 1) = ((ls.take c).drop (a - 1)).take (b + 1 - a) := by
    rw [List.take_drop]
    congr 2
    omega
  rw [hb, hd, ht, List.take_append_drop]

end Text

/-! ## Spans -/

open Text

theorem length_cutTail (stop : Nat) : ∀ ls : List String, (cutTail stop ls).length = ls.length
  | [] => rfl
  | [_] => rfl
  | _ :: l :: ls => congrArg (· + 1) (length_cutTail stop (l :: ls))

theorem length_cutSpan (start stop : Nat) (ls : List String) :
    (cutSpan start stop ls).length = ls.length := by
  match ls with
  | [] | [_] => rfl
  | _ :: l :: ls => exact congrArg (· + 1) (length_cutTail stop (l :: ls))

theorem newline_notMem_columns (h : '\n' ∉ l.toList) (start stop : Nat) :
    '\n' ∉ (columns l start stop).toList := fun hm => by
  rw [columns, String.toList_ofList] at hm
  exact h (List.mem_of_mem_drop (List.mem_of_mem_take hm))

theorem newline_notMem_cutTail (stop : Nat) : ∀ {ls : List String}, (∀ l ∈ ls, '\n' ∉ l.toList) →
    ∀ l ∈ cutTail stop ls, '\n' ∉ l.toList
  | [], _, _, hl => by cases hl
  | [line], h, l, hl => by
    rw [List.mem_singleton.1 hl]
    exact newline_notMem_columns (h line List.mem_cons_self) _ _
  | line :: next :: ls, h, l, hl => by
    rcases List.mem_cons.1 hl with rfl | hl
    · exact h _ List.mem_cons_self
    · exact newline_notMem_cutTail stop (fun l hl => h l (List.mem_cons_of_mem _ hl)) l hl

theorem newline_notMem_cutSpan (start stop : Nat) (h : ∀ l ∈ ls, '\n' ∉ l.toList) :
    ∀ l ∈ cutSpan start stop ls, '\n' ∉ l.toList := by
  intro l hl
  match ls, h, hl with
  | [line], h, hl =>
    rw [List.mem_singleton.1 hl]
    exact newline_notMem_columns (h line List.mem_cons_self) _ _
  | line :: next :: ls, h, hl =>
    rcases List.mem_cons.1 hl with rfl | hl
    · rw [String.toList_ofList]
      exact fun hm => h _ List.mem_cons_self (List.mem_of_mem_drop hm)
    · exact newline_notMem_cutTail stop (fun l hl => h l (List.mem_cons_of_mem _ hl)) l hl

theorem spanText_eq_some {text : String} (h : spanText ls s = some text) :
    1 ≤ s.startLine ∧ s.startLine ≤ s.endLine ∧ s.endLine ≤ ls.length ∧
      text = joinLines
        (cutSpan s.startColumn s.endColumn (slice ls s.startLine s.endLine)) := by
  unfold spanText at h
  split at h
  · cases h
  · rename_i hr
    cases h
    exact ⟨by omega, by omega, by omega, rfl⟩

/-- The symbol has a first and a last line, and both are lines of the file. -/
def Symbol.InLines (ls : List String) (s : Symbol) : Prop :=
  1 ≤ s.startLine ∧ s.startLine ≤ s.endLine ∧ s.endLine ≤ ls.length

/-- A symbol covers a text if and only if its lines are there. -/
theorem exists_spanText_iff : (∃ text, spanText ls s = some text) ↔ s.InLines ls := by
  constructor
  · rintro ⟨text, h⟩
    obtain ⟨h₁, h₂, h₃, -⟩ := spanText_eq_some h
    exact ⟨h₁, h₂, h₃⟩
  · rintro ⟨h₁, h₂, h₃⟩
    exact ⟨_, if_neg (by omega)⟩

/-- The symbol covers whole lines. -/
def Symbol.Whole (s : Symbol) : Prop :=
  s.startColumn = 0 ∧ s.endColumn = lastColumn

instance (s : Symbol) : Decidable s.Whole :=
  inferInstanceAs (Decidable (_ ∧ _))

theorem columns_zero (h : l.length ≤ stop) : columns l 0 stop = l := by
  rw [columns, List.drop_zero, List.take_of_length_le, String.ofList_toList]
  exact h

theorem cutTail_of_length_le : ∀ {ls : List String}, (∀ l ∈ ls, l.length ≤ stop) →
    cutTail stop ls = ls
  | [], _ => rfl
  | [line], h => congrArg (fun l => [l]) (columns_zero (h line List.mem_cons_self))
  | line :: _ :: _, h =>
    congrArg (line :: ·) (cutTail_of_length_le fun l hl => h l (List.mem_cons_of_mem _ hl))

theorem cutSpan_of_length_le (h : ∀ l ∈ ls, l.length ≤ stop) : cutSpan 0 stop ls = ls := by
  match ls, h with
  | [], _ => rfl
  | [line], h => exact congrArg (fun l => [l]) (columns_zero (h line List.mem_cons_self))
  | line :: next :: ls, h =>
    rw [cutSpan, List.drop_zero, String.ofList_toList,
      cutTail_of_length_le fun l hl => h l (List.mem_cons_of_mem _ hl)]
    intro he
    cases he

section
variable {content content' text : String} {s s' : Symbol}
  (h : spanText (lines content) s = some text) (h' : spanText (lines content') s' = some text)
include h h'

/-- Two symbols with the same text have the same lines after the cut. -/
theorem cutSpan_eq_of_spanText :
    cutSpan s.startColumn s.endColumn (slice (lines content) s.startLine s.endLine) =
      cutSpan s'.startColumn s'.endColumn (slice (lines content') s'.startLine s'.endLine) := by
  obtain ⟨h₁, h₂, h₃, rfl⟩ := spanText_eq_some h
  obtain ⟨h₁', h₂', h₃', he⟩ := spanText_eq_some h'
  have hfree : ∀ {text a b}, ∀ l ∈ slice (lines text) a b, '\n' ∉ l.toList :=
    fun l hl => newline_notMem_lines (mem_of_mem_slice hl)
  refine joinLines_injective (newline_notMem_cutSpan _ _ hfree) (newline_notMem_cutSpan _ _ hfree)
    ?_ ?_ he
  · rw [← List.length_pos_iff, length_cutSpan, length_slice h₁ h₂ h₃]
    omega
  · rw [← List.length_pos_iff, length_cutSpan, length_slice h₁' h₂' h₃']
    omega

/-- Two symbols that start on the same line and cover the same text end on the same
    line. -/
theorem endLine_eq_of_spanText (hstart : s.startLine = s'.startLine) :
    s.endLine = s'.endLine := by
  obtain ⟨h₁, h₂, h₃, -⟩ := spanText_eq_some h
  obtain ⟨h₁', h₂', h₃', -⟩ := spanText_eq_some h'
  have hl := congrArg List.length (cutSpan_eq_of_spanText h h')
  rw [length_cutSpan, length_cutSpan, length_slice h₁ h₂ h₃, length_slice h₁' h₂' h₃'] at hl
  omega

/-- If two symbols cover whole lines and the same text, these lines are the same. -/
theorem slice_eq_of_spanText (hw : s.Whole) (hw' : s'.Whole)
    (hl : ∀ l ∈ lines content, l.length < Symbol.lastColumn)
    (hl' : ∀ l ∈ lines content', l.length < Symbol.lastColumn) :
    slice (lines content) s.startLine s.endLine =
      slice (lines content') s'.startLine s'.endLine := by
  have hcut := cutSpan_eq_of_spanText h h'
  rw [hw.1, hw.2, hw'.1, hw'.2, cutSpan_of_length_le, cutSpan_of_length_le] at hcut
  · exact hcut
  · exact fun l hm => Nat.le_of_lt (hl' l (mem_of_mem_slice hm))
  · exact fun l hm => Nat.le_of_lt (hl l (mem_of_mem_slice hm))

end

end SourceIndex
