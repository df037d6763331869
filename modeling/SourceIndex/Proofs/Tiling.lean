/-
  The chunks of a file cover just the lines that they should.

  * `Tiles`: ranges that follow each other and make up a range of lines, all of the same
    size but the last one;
  * `MaximalRun`: a run of numbers with a property that cannot be made longer;
  * `Symbol.StartsIn`, `Symbol.lastLine`, `Loose`: the lines of a symbol in a file, and the
    lines that are not blank and belong to no symbol;
  * `Parted`: chunks that tile the lines of each symbol in turn and then the maximal runs
    of loose lines;
  * `tiles_pieces`, `Scans.mem_runsFrom`, `Scans.flatMap_runsFrom`: what pieces and runs are;
  * `exists_parted`: the chunks of a file are such chunks.
-/
import Mathlib.Data.List.Forall2
import SourceIndex.Proofs.Chunks

namespace SourceIndex

variable {line : Nat}

open Text

/-! ## Ranges -/

/-- The numbers of the lines of a range. -/
def lineNumbers (range : Nat × Nat) : List Nat :=
  List.range' range.1 (range.2 + 1 - range.1)

theorem mem_lineNumbers {range : Nat × Nat} :
    line ∈ lineNumbers range ↔ range.1 ≤ line ∧ line ≤ range.2 := by
  rw [lineNumbers, List.mem_range'_1]
  omega

/-- The ranges follow each other and make up the lines from `first` to `last`.  They have
    `size` lines each, only the last one may have fewer. -/
structure Tiles (size first last : Nat) (ranges : List (Nat × Nat)) : Prop where
  lines : ranges.flatMap lineNumbers = lineNumbers (first, last)
  nonempty : ∀ r ∈ ranges, r.1 ≤ r.2
  bounded : ∀ r ∈ ranges, r.2 < r.1 + size
  full : ∀ r ∈ ranges.dropLast, r.2 + 1 = r.1 + size

theorem tiles_pieces (extra first last : Nat) :
    Tiles (extra + 1) first last (pieces extra first last) := by
  induction first using pieces.induct extra last with
  | case1 first hle ih =>
    rw [pieces, if_pos hle]
    generalize hstop : min (first + extra) last = stop at ih ⊢
    refine ⟨?_, ?_, ?_, ?_⟩
    · rw [List.flatMap_cons, ih.lines]
      unfold lineNumbers
      have hnext : stop + 1 = first + (stop + 1 - first) := by omega
      have hcount : last + 1 - first = (stop + 1 - first) + (last + 1 - (stop + 1)) := by omega
      dsimp only
      rw [hcount, ← List.range'_append_1, ← hnext]
    · exact List.forall_mem_cons.2 ⟨by dsimp only; omega, ih.nonempty⟩
    · exact List.forall_mem_cons.2 ⟨by dsimp only; omega, ih.bounded⟩
    · -- a piece that is not the last one ends before the last line
      by_cases hrest : stop + 1 ≤ last
      · have hne : pieces extra (stop + 1) last ≠ [] := by
          rw [pieces, if_pos hrest]
          exact List.cons_ne_nil _ _
        rw [List.dropLast_cons_of_ne_nil hne]
        exact List.forall_mem_cons.2 ⟨by dsimp only; omega, ih.full⟩
      · rw [pieces, if_neg hrest]
        exact List.forall_mem_nil _
  | case2 first hle =>
    rw [pieces, if_neg hle]
    refine ⟨?_, List.forall_mem_nil _, List.forall_mem_nil _, List.forall_mem_nil _⟩
    have hcount : last + 1 - first = 0 := by omega
    simp only [lineNumbers, hcount, List.range'_zero, List.flatMap_nil]

/-! ## Runs -/

/-- A run of numbers with a property, which neither the number before it nor the one after
    it has. -/
structure MaximalRun (P : Nat → Prop) (run : Nat × Nat) : Prop where
  le : run.1 ≤ run.2
  holds : ∀ l, run.1 ≤ l → l ≤ run.2 → P l
  before : ∀ l, l + 1 = run.1 → ¬P l
  after : ¬P (run.2 + 1)

/-- The marks say which lines from `line` on have the property, and the run that is open,
    if there is one, reaches up to the line and cannot be made longer at its start. -/
structure Scans (P : Nat → Prop) (line : Nat) (start : Option Nat) (marks : List Bool) : Prop where
  marks : ∀ i, marks[i]? = some true ↔ P (line + i)
  closed : start = none → ∀ l, l + 1 = line → ¬P l
  opened : ∀ first, start = some first →
    first < line ∧ (∀ l, first ≤ l → l < line → P l) ∧ ∀ l, l + 1 = first → ¬P l

namespace Scans

variable {P : Nat → Prop} {line first : Nat} {start : Option Nat} {marks : List Bool}
  {run : Nat × Nat}

theorem next {mark : Bool} (h : Scans P line start (mark :: marks)) :
    (mark = true ↔ P line) ∧ ∀ i, marks[i]? = some true ↔ P (line + 1 + i) := by
  constructor
  · have hmark := h.marks 0
    rwa [List.getElem?_cons_zero, Option.some.injEq] at hmark
  · intro i
    rw [Nat.add_right_comm]
    exact h.marks (i + 1)

theorem marked (h : Scans P line start (true :: marks)) :
    P line ∧ Scans P (line + 1) (some (start.getD line)) marks := by
  have hp := h.next.1.1 rfl
  refine ⟨hp, h.next.2, nofun, fun first he => ?_⟩
  cases he
  cases start with
  | none =>
    refine ⟨Nat.lt_succ_self _, fun l h₁ h₂ => ?_, h.closed rfl⟩
    obtain rfl : l = line := by rw [Option.getD_none] at h₁; omega
    exact hp
  | some first =>
    obtain ⟨hlt, hall, hbefore⟩ := h.opened first rfl
    refine ⟨Nat.lt_succ_of_lt hlt, fun l h₁ h₂ => ?_, hbefore⟩
    rcases Nat.lt_succ_iff_lt_or_eq.1 h₂ with hl | rfl
    · exact hall l h₁ hl
    · exact hp

theorem unmarked (h : Scans P line start (false :: marks)) :
    ¬P line ∧ Scans P (line + 1) none marks := by
  have hp : ¬P line := fun hp => Bool.false_ne_true (h.next.1.2 hp)
  refine ⟨hp, h.next.2, fun _ l hl => ?_, nofun⟩
  obtain rfl : l = line := by omega
  exact hp

theorem not_of_nil (h : Scans P line start []) {l : Nat} (hl : line ≤ l) : ¬P l := fun hp => by
  have hmark := (h.marks (l - line)).2 (by rwa [Nat.add_sub_cancel' hl])
  cases hmark

/-- The run that is open before a line without the property ends there. -/
theorem maximalRun_iff (h : Scans P line (some first) marks) (hline : ¬P line) :
    MaximalRun P run ∧ first ≤ run.1 ↔
      run = (first, line - 1) ∨ MaximalRun P run ∧ line + 1 ≤ run.1 := by
  obtain ⟨hlt, hall, hbefore⟩ := h.opened first rfl
  constructor
  · rintro ⟨hrun, hle⟩
    have hne : run.1 ≠ line := fun he => hline (he ▸ hrun.holds _ (Nat.le_refl _) hrun.le)
    by_cases hlate : line + 1 ≤ run.1
    · exact Or.inr ⟨hrun, hlate⟩
    left
    have hfirst : run.1 = first := by
      by_contra hne'
      exact hrun.before (run.1 - 1) (by omega) (hall _ (by omega) (by omega))
    have hlast : run.2 < line := by
      by_contra hge
      exact hline (hrun.holds line (by omega) (by omega))
    have hlast' : run.2 = line - 1 := by
      by_contra hne'
      exact hrun.after (hall _ (by have := hrun.le; omega) (by omega))
    rw [← hfirst, ← hlast']
  · rintro (rfl | ⟨hrun, hle⟩)
    · refine ⟨⟨by dsimp only; omega, fun l h₁ h₂ => hall l h₁ (by dsimp only at h₂; omega),
        hbefore, ?_⟩, Nat.le_refl _⟩
      rwa [Nat.sub_add_cancel (by omega)]
    · exact ⟨hrun, by omega⟩

/-- The runs found are the maximal ones, from the open one on. -/
theorem mem_runsFrom (h : Scans P line start marks) :
    run ∈ runsFrom line start marks ↔ MaximalRun P run ∧ start.getD line ≤ run.1 := by
  induction marks generalizing line start with
  | nil =>
    have hlate : ¬(MaximalRun P run ∧ line ≤ run.1) := fun hrun =>
      h.not_of_nil hrun.2 (hrun.1.holds _ (Nat.le_refl _) hrun.1.le)
    cases start with
    | none => simpa [runsFrom] using fun hrun => Nat.lt_of_not_le fun hle => hlate ⟨hrun, hle⟩
    | some first =>
      refine Iff.trans ?_ (h.maximalRun_iff (h.not_of_nil (Nat.le_refl _))).symm
      rw [runsFrom, List.mem_singleton, or_iff_left]
      exact fun hrun => hlate ⟨hrun.1, by omega⟩
  | cons mark marks ih =>
    cases mark with
    | true => exact ih h.marked.2
    | false =>
      obtain ⟨hline, hnext⟩ := h.unmarked
      cases start with
      | none =>
        refine (ih hnext).trans (and_congr_right fun hrun => ?_)
        have hne : run.1 ≠ line := fun he => hline (he ▸ hrun.holds _ (Nat.le_refl _) hrun.le)
        rw [Option.getD_none, Option.getD_none]
        omega
      | some first =>
        rw [runsFrom, List.mem_cons, ih hnext]
        exact (h.maximalRun_iff hline).symm

/-- The runs come in increasing order, with a gap between them. -/
theorem pairwise_runsFrom (h : Scans P line start marks) :
    (runsFrom line start marks).Pairwise fun a b => a.2 + 1 < b.1 := by
  induction marks generalizing line start with
  | nil =>
    cases start with
    | none => exact List.Pairwise.nil
    | some first => exact List.pairwise_singleton _ _
  | cons mark marks ih =>
    cases mark with
    | true => exact ih h.marked.2
    | false =>
      have hnext := h.unmarked.2
      cases start with
      | none => exact ih hnext
      | some first =>
        refine List.pairwise_cons.2 ⟨fun run hrun => ?_, ih hnext⟩
        have hlt := (h.opened first rfl).1
        have hle : line + 1 ≤ run.1 := (hnext.mem_runsFrom.1 hrun).2
        dsimp only
        omega

theorem lineNumbers_open (h : Scans P line (some first) marks) :
    lineNumbers (first, line - 1) = List.range' first (line - first) := by
  have hlt := (h.opened first rfl).1
  rw [lineNumbers, Nat.sub_add_cancel (by omega)]

/-- The lines of the runs are those of the open one and then the lines with the property,
    in order. -/
theorem flatMap_runsFrom [DecidablePred P] (h : Scans P line start marks) :
    (runsFrom line start marks).flatMap lineNumbers =
      List.range' (start.getD line) (line - start.getD line) ++
        (List.range' line marks.length).filter P := by
  induction marks generalizing line start with
  | nil =>
    cases start with
    | none => simp [runsFrom]
    | some first => simp [runsFrom, h.lineNumbers_open]
  | cons mark marks ih =>
    rw [List.length_cons, List.range'_succ]
    cases mark with
    | true =>
      obtain ⟨hline, hnext⟩ := h.marked
      have hle : start.getD line ≤ line := by
        cases start with
        | none => exact Nat.le_refl _
        | some first => exact Nat.le_of_lt (h.opened first rfl).1
      have hcount : line + 1 - start.getD line = line - start.getD line + 1 := by omega
      have hlast : start.getD line + (line - start.getD line) = line := by omega
      rw [List.filter_cons_of_pos (by simpa using hline), runsFrom, ih hnext, Option.getD_some,
        hcount, List.range'_1_concat, hlast, List.append_assoc]
      rfl
    | false =>
      obtain ⟨hline, hnext⟩ := h.unmarked
      have hrest := ih hnext
      rw [Option.getD_none, Nat.sub_self, List.range'_zero, List.nil_append] at hrest
      rw [List.filter_cons_of_neg (by simpa using hline)]
      cases start with
      | none => simpa [runsFrom] using hrest
      | some first => rw [runsFrom, List.flatMap_cons, hrest, h.lineNumbers_open, Option.getD_some]

end Scans

/-! ## Lines of symbols and loose lines -/

/-- The symbol starts in a file of `total` lines. -/
def Symbol.StartsIn (total : Nat) (s : Symbol) : Prop :=
  1 ≤ s.startLine ∧ s.startLine ≤ total

instance (total : Nat) (s : Symbol) : Decidable (s.StartsIn total) :=
  inferInstanceAs (Decidable (_ ∧ _))

/-- The last line of a symbol that starts in a file of `total` lines. -/
def Symbol.lastLine (total : Nat) (s : Symbol) : Nat :=
  min (max s.endLine s.startLine) total

theorem Symbol.tile?_eq_ite (total : Nat) (s : Symbol) :
    s.tile? total = if s.StartsIn total then some (s.startLine, s.lastLine total) else none := by
  by_cases h : s.StartsIn total
  · rw [if_pos h, tile?, if_neg (by have := h.1; have := h.2; omega)]
    rfl
  · rw [if_neg h, tile?, if_pos (by unfold StartsIn at h; omega)]

/-- The line is not blank and belongs to no symbol. -/
def Loose (ls : List String) (symbols : List Symbol) (line : Nat) : Prop :=
  (1 ≤ line ∧ (ls[line - 1]?).any (!isBlank ·) = true) ∧
    ∀ s ∈ symbols, s.StartsIn ls.length → ¬(s.startLine ≤ line ∧ line ≤ s.lastLine ls.length)

instance (ls : List String) (symbols : List Symbol) : DecidablePred (Loose ls symbols) := fun _ =>
  inferInstanceAs (Decidable (_ ∧ _))

theorem covered_eq_true_iff {symbols : List Symbol} {total : Nat} :
    covered (symbols.filterMap (·.tile? total)) line = true ↔
      ∃ s ∈ symbols, s.StartsIn total ∧ s.startLine ≤ line ∧ line ≤ s.lastLine total := by
  simp only [covered, List.any_eq_true, List.mem_filterMap, Bool.and_eq_true, decide_eq_true_eq]
  constructor
  · rintro ⟨range, ⟨s, hs, ht⟩, hle⟩
    rw [Symbol.tile?_eq_ite] at ht
    obtain ⟨hstarts, he⟩ := Option.ite_none_right_eq_some.1 ht
    cases he
    exact ⟨s, hs, hstarts, hle⟩
  · rintro ⟨s, hs, hstarts, hle⟩
    exact ⟨_, ⟨s, hs, by rw [Symbol.tile?_eq_ite, if_pos hstarts]⟩, hle⟩

theorem scans_topLevelMarks (ls : List String) (symbols : List Symbol) :
    Scans (Loose ls symbols) 1 none
      (topLevelMarks ls (symbols.filterMap (·.tile? ls.length))) where
  marks i := by
    have hcovered := @covered_eq_true_iff (1 + i) symbols ls.length
    rw [topLevelMarks, List.getElem?_map, List.getElem?_zipIdx, Option.map_map, Nat.zero_add,
      Option.map_eq_some_iff, Loose, Nat.add_sub_cancel_left, Option.any_eq_true]
    simp only [Function.comp_apply, Bool.and_eq_true, Bool.not_eq_true', Nat.add_comm i 1]
    rw [← Bool.not_eq_true, hcovered]
    constructor
    · rintro ⟨text, htext, hfree, hblank⟩
      refine ⟨⟨by omega, text, htext, hblank⟩, fun s hs hstarts hle => hfree ⟨s, hs, hstarts, hle⟩⟩
    · rintro ⟨⟨-, text, htext, hblank⟩, hfree⟩
      exact ⟨text, htext, fun ⟨s, hs, hstarts, hle⟩ => hfree s hs hstarts hle, hblank⟩
  closed _ l hl := by
    obtain rfl : l = 0 := by omega
    exact fun h => Nat.not_succ_le_zero 0 h.1.1
  opened := nofun

/-! ## The chunks of a file -/

/-- The first and the last line of a chunk. -/
def Chunk.range (c : Chunk) : Nat × Nat :=
  (c.startLine, c.endLine)

/-- The chunks belong to the symbol with a number, or to none, and tile a range of
    lines. -/
structure Chunk.Fill (size : Nat) (owner : Option Nat) (first last : Nat) (part : List Chunk) :
    Prop where
  owner : ∀ c ∈ part, c.symbolIndex = owner
  tiles : Tiles size first last (part.map Chunk.range)

/-- Chunks of at most `size` lines in two parts: `own` are those of each symbol in turn,
    which tile its lines, and `loose` are those of the maximal runs of loose lines, in
    increasing order, so that each such line is in just one of them.  Every chunk holds
    the lines that it names. -/
structure Parted (size : Nat) (ls : List String) (symbols : List Symbol)
    (own : List (List Chunk)) (runs : List (Nat × Nat)) (loose : List (List Chunk)) : Prop where
  filled : List.Forall₂ (fun entry part =>
    if entry.1.StartsIn ls.length then
      Chunk.Fill size (some entry.2) entry.1.startLine (entry.1.lastLine ls.length) part
    else part = []) symbols.zipIdx own
  mem_runs : ∀ run, run ∈ runs ↔ MaximalRun (Loose ls symbols) run
  increasing : runs.Pairwise fun a b => a.2 + 1 < b.1
  looseFilled : List.Forall₂ (fun run part => Chunk.Fill size none run.1 run.2 part) runs loose
  once : (loose.flatten.flatMap fun c => lineNumbers c.range) =
    (List.range' 1 ls.length).filter (Loose ls symbols)
  content : ∀ c ∈ own.flatten ++ loose.flatten, c.Matches ls

theorem map_range_cutChunk (ls : List String) (owner : Option Nat) (ranges : List (Nat × Nat)) :
    (ranges.map (cutChunk ls owner)).map Chunk.range = ranges := by
  rw [List.map_map]
  exact List.map_id ranges

theorem fill_pieces (ls : List String) (owner : Option Nat) (extra first last : Nat) :
    Chunk.Fill (extra + 1) owner first last
      ((pieces extra first last).map (cutChunk ls owner)) where
  owner c hc := by
    obtain ⟨range, -, rfl⟩ := List.mem_map.1 hc
    rfl
  tiles := by
    rw [map_range_cutChunk]
    exact tiles_pieces extra first last

/-- The chunks outside every symbol hold the loose lines, in order. -/
theorem flatMap_looseRanges (extra : Nat) (ls : List String) (symbols : List Symbol) :
    (looseRanges extra ls symbols).flatMap lineNumbers =
      (List.range' 1 ls.length).filter (Loose ls symbols) := by
  have hpieces : ∀ run : Nat × Nat, (pieces extra run.1 run.2).flatMap lineNumbers =
      lineNumbers run := fun run => (tiles_pieces extra run.1 run.2).lines
  rw [looseRanges, List.flatMap_assoc]
  simp only [hpieces]
  refine (scans_topLevelMarks ls symbols).flatMap_runsFrom.trans ?_
  rw [topLevelMarks, List.length_map, List.length_zipIdx]
  rfl

/-- **The chunks of a file** are those of each symbol and then those of the loose lines. -/
theorem exists_parted (maxLines : Nat) (content : String) (symbols : List Symbol) :
    ∃ (own : List (List Chunk)) (runs : List (Nat × Nat)) (loose : List (List Chunk)),
      chunkFile maxLines content symbols = own.flatten ++ loose.flatten ∧
      Parted (max 1 maxLines) (lines content) symbols own runs loose := by
  have hsize : max 1 maxLines = maxLines - 1 + 1 := by omega
  have hscan := scans_topLevelMarks (lines content) symbols
  let found := runs (topLevelMarks (lines content)
    (symbols.filterMap (·.tile? (lines content).length)))
  let own := symbols.zipIdx.map fun entry =>
    (ownRanges (maxLines - 1) (lines content).length entry.1).map
      (cutChunk (lines content) (some entry.2))
  let loose := found.map fun run =>
    (pieces (maxLines - 1) run.1 run.2).map (cutChunk (lines content) none)
  have hloose : (looseRanges (maxLines - 1) (lines content) symbols).map
      (cutChunk (lines content) none) = loose.flatten := by
    rw [looseRanges, List.map_flatMap, List.flatMap_def]
  have heq : chunkFile maxLines content symbols = own.flatten ++ loose.flatten := by
    rw [chunkFile_eq, hloose, List.flatMap_def]
  refine ⟨own, found, loose, heq, ?_, ?_, ?_, ?_, ?_, ?_⟩
  · refine List.forall₂_map_right_iff.2 (List.forall₂_same.2 fun entry _ => ?_)
    rw [ownRanges, Symbol.tile?_eq_ite, hsize]
    split
    · exact fill_pieces _ _ _ _ _
    · rfl
  · exact fun run => hscan.mem_runsFrom.trans (and_iff_left_of_imp fun hrun =>
      (hrun.holds _ (Nat.le_refl _) hrun.le).1.1)
  · exact hscan.pairwise_runsFrom
  · refine List.forall₂_map_right_iff.2 (List.forall₂_same.2 fun run _ => ?_)
    rw [hsize]
    exact fill_pieces _ _ _ _ _
  · rw [← hloose, List.flatMap_map]
    exact flatMap_looseRanges _ _ _
  · rw [← heq]
    exact fun c hc => matches_of_mem_chunkFile hc

end SourceIndex
