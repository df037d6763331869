/-
  The chunks of a file, cut with line numbers that are machine words.

  Here the file is cut by loops over words, and a step fails if its result is no word, if
  it asks for a line that the file does not have, or if the bounds of a range are the
  wrong way round.

  * `add?`, `sub?`, `clamp?`, `cut?`: the steps that may fail;
  * `split?`, `mark?`, `takeSymbol?`, `takeLine?`: the loops over the pieces of a range,
    over its lines, over the symbols and over the lines of the file;
  * `chunkFile?`: the chunks of a file;
  * `chunkFile?_eq`: no step fails, and the chunks are those of `chunkFile`;
  * `chunks_exact`: which lines they cover.
-/
import SourceIndex.Proofs.Tiling

namespace SourceIndex.Words

open Text

/-- A line number. -/
abbrev Word := UInt32

/-! ## Steps that may fail -/

/-- The sum, if it is a word. -/
def add? (a b : Word) : Option Word :=
  if a.toNat + b.toNat < UInt32.size then some (a + b) else none

/-- The difference, if it is a word. -/
def sub? (a b : Word) : Option Word :=
  if b ≤ a then some (a - b) else none

/-- The sum, or the greatest word if the sum is none. -/
def addUpTo (a b : Word) : Word :=
  (add? a b).getD (UInt32.ofNat (UInt32.size - 1))

/-- The word, or the bound that it lies beyond; the bounds have to be in order. -/
def clamp? (a low high : Word) : Option Word :=
  if low ≤ high then some (min (max a low) high) else none

/-- The lines from `first` to `last`, joined, if the file has them. -/
def cut? (ls : List String) (first last : Word) : Option String :=
  (sub? first 1).bind fun start =>
    if start ≤ last ∧ last.toNat ≤ ls.length then
      some (joinLines ((ls.take last.toNat).drop start.toNat))
    else none

section
variable {a b c : Word}

theorem toNat_of_add? (h : add? a b = some c) : c.toNat = a.toNat + b.toNat := by
  obtain ⟨hlt, he⟩ := Option.ite_none_right_eq_some.1 h
  rw [← Option.some.inj he, UInt32.toNat_add]
  exact Nat.mod_eq_of_lt hlt

theorem exists_add? (h : a.toNat + b.toNat < UInt32.size) :
    ∃ c, add? a b = some c ∧ c.toNat = a.toNat + b.toNat :=
  ⟨_, if_pos h, toNat_of_add? (if_pos h)⟩

theorem exists_sub? (h : b.toNat ≤ a.toNat) :
    ∃ c, sub? a b = some c ∧ c.toNat = a.toNat - b.toNat := by
  have hle := UInt32.le_iff_toNat_le.2 h
  exact ⟨_, if_pos hle, UInt32.toNat_sub_of_le _ _ hle⟩

theorem toNat_addUpTo (a b : Word) :
    (addUpTo a b).toNat = min (a.toNat + b.toNat) (UInt32.size - 1) := by
  by_cases h : a.toNat + b.toNat < UInt32.size
  · obtain ⟨c, hc, hn⟩ := exists_add? h
    rw [addUpTo, hc, Option.getD_some, hn]
    omega
  · rw [addUpTo, add?, if_neg h]
    have hlast : (UInt32.ofNat (UInt32.size - 1)).toNat = UInt32.size - 1 := rfl
    rw [Option.getD_none, hlast]
    omega

theorem toNat_ofNat {n : Nat} (h : n < UInt32.size) : (UInt32.ofNat n).toNat = n := by
  rw [UInt32.toNat_ofNat']
  exact Nat.mod_eq_of_lt h

theorem exists_clamp? {low high : Word} (h : low.toNat ≤ high.toNat) :
    ∃ c, clamp? a low high = some c ∧ c.toNat = min (max a.toNat low.toNat) high.toNat :=
  ⟨_, if_pos (UInt32.le_iff_toNat_le.2 h), by rw [UInt32.toNat_min, UInt32.toNat_max]⟩

theorem cut?_eq (ls : List String) {first : Word} (last : Word) (h₁ : 1 ≤ first.toNat)
    (h₂ : first.toNat ≤ last.toNat) (h₃ : last.toNat ≤ ls.length) :
    cut? ls first last = some (joinLines (slice ls first.toNat last.toNat)) := by
  obtain ⟨start, hs, hn⟩ := exists_sub? (a := first) (b := 1) h₁
  have hone : (1 : Word).toNat = 1 := rfl
  rw [hone] at hn
  rw [cut?, hs, Option.bind_some, if_pos ⟨UInt32.le_iff_toNat_le.2 (by omega), h₃⟩, hn]
  rfl

end

/-! ## Loops -/

/-- The chunks of the lines from `first` to `last`, of `size` lines each. -/
def split? (ls : List String) (size : Word) (owner : Option Nat) (first last : Word) :
    Option (List Chunk) :=
  if _ : first ≤ last then
    (sub? size 1).bind fun extra =>
      let stop := min (addUpTo first extra) last
      match _ : add? stop 1 with
      | none => none
      | some next =>
        (cut? ls first stop).bind fun content =>
          (split? ls size owner next last).map (⟨owner, first.toNat, stop.toNat, content⟩ :: ·)
  else some []
termination_by last.toNat + 1 - first.toNat
decreasing_by
  rename_i hle hnext
  have hnext := toNat_of_add? hnext
  rw [UInt32.toNat_min, toNat_addUpTo] at hnext
  have hle := UInt32.le_iff_toNat_le.1 hle
  have hlt := first.toNat_lt
  have hone : (1 : Word).toNat = 1 := rfl
  have hsize : UInt32.size = 2 ^ 32 := rfl
  omega

/-- Mark the lines, which are counted from 1. -/
def mark? : List Word → List Bool → Option (List Bool)
  | [], marks => some marks
  | line :: rest, marks =>
    (sub? line 1).bind fun place =>
      if place.toNat < marks.length then mark? rest (marks.set place.toNat true) else none

/-- Mark the lines of a symbol and add its chunks, if it starts in the file. -/
def takeSymbol? (ls : List String) (total size : Word) (state : List Bool × List Chunk)
    (entry : Symbol × Nat) : Option (List Bool × List Chunk) :=
  let first := UInt32.ofNat entry.1.startLine
  if first = 0 ∨ total < first then some state
  else do
    let last ← clamp? (UInt32.ofNat entry.1.endLine) first total
    let marks ← mark? ((lineNumbers (first.toNat, last.toNat)).map UInt32.ofNat) state.1
    let chunks ← split? ls size (some entry.2) first last
    return (marks, state.2 ++ chunks)

/-- Start a run of loose lines at a line, go on with it, or end it and add its chunks. -/
def takeLine? (ls : List String) (size : Word) (marks : List Bool)
    (state : Option Word × List Chunk) (entry : String × Nat) :
    Option (Option Word × List Chunk) := do
  let number ← add? (UInt32.ofNat entry.2) 1
  let marked ← marks[entry.2]?
  match !marked && !isBlank entry.1, state.1 with
  | true, none => return (some number, state.2)
  | false, some first => do
    let last ← sub? number 1
    let chunks ← split? ls size none first last
    return (none, state.2 ++ chunks)
  | _, _ => return state

/-- Add the chunks of the run that is open at the end of the file. -/
def takeRest? (ls : List String) (total size : Word) (state : Option Word × List Chunk) :
    Option (List Chunk) :=
  match state.1 with
  | none => some state.2
  | some first => (split? ls size none first total).map (state.2 ++ ·)

variable {ls : List String} {size : Word}

/-- The chunks of a file. -/
def chunkFile? (maxLines : Word) (content : String) (symbols : List Symbol) :
    Option (List Chunk) := do
  let ls := lines content
  let size := max maxLines 1
  let total := UInt32.ofNat ls.length
  let (marks, chunks) ← symbols.zipIdx.foldlM (takeSymbol? ls total size)
    (ls.map fun _ => false, [])
  let state ← ls.zipIdx.foldlM (takeLine? ls size marks) (none, chunks)
  takeRest? ls total size state

/-! ## No step fails -/

theorem split?_eq (owner : Option Nat) (first last : Word) (hsize : 1 ≤ size.toNat)
    (hfirst : 1 ≤ first.toNat) (hlast : last.toNat ≤ ls.length)
    (hlines : ls.length < UInt32.size - 1) :
    split? ls size owner first last =
      some (chunksOf ls (size.toNat - 1) owner (first.toNat, last.toNat)) := by
  induction hn : last.toNat + 1 - first.toNat using Nat.strongRecOn generalizing first with
  | ind n ih =>
    have hone : (1 : Word).toNat = 1 := rfl
    rw [split?, chunksOf, pieces]
    by_cases hle : first ≤ last
    · have hle' := UInt32.le_iff_toNat_le.1 hle
      obtain ⟨extra, hextra, hextra'⟩ := exists_sub? (a := size) (b := 1) hsize
      have hstop : (min (addUpTo first extra) last).toNat =
          min (first.toNat + (size.toNat - 1)) last.toNat := by
        rw [UInt32.toNat_min, toNat_addUpTo, hextra', hone]
        omega
      obtain ⟨next, hnext, hnext'⟩ := exists_add? (a := min (addUpTo first extra) last) (b := 1)
        (by rw [hstop, hone]; omega)
      rw [hone, hstop] at hnext'
      have hcut := cut?_eq ls (min (addUpTo first extra) last) hfirst
        (by rw [hstop]; omega) (by rw [hstop]; omega)
      have hrest := ih (last.toNat + 1 - next.toNat) (by omega) next (by omega) rfl
      rw [dif_pos hle, if_pos hle', hextra, Option.bind_some]
      dsimp only
      split
      · rename_i hnone
        cases hnone.symm.trans hnext
      · rename_i next' hsome
        obtain rfl : next' = next := Option.some.inj (hsome.symm.trans hnext)
        rw [hcut, Option.bind_some, hrest, hstop, hnext']
        rfl
    · have hle' : ¬first.toNat ≤ last.toNat := fun h => hle (UInt32.le_iff_toNat_le.2 h)
      rw [dif_neg hle, if_neg hle']
      rfl

theorem mark?_eq {ns : List Nat} {marks : List Bool} (hns : ∀ n ∈ ns, 1 ≤ n ∧ n ≤ marks.length)
    (hlines : marks.length < UInt32.size) :
    mark? (ns.map UInt32.ofNat) marks =
      some (marks.zipIdx.map fun e => e.1 || decide (e.2 + 1 ∈ ns)) := by
  induction ns generalizing marks with
  | nil => simp [mark?]
  | cons n ns ih =>
    obtain ⟨⟨h₁, h₂⟩, hns⟩ := List.forall_mem_cons.1 hns
    have hword : (UInt32.ofNat n).toNat = n := toNat_ofNat (by omega)
    have hone : (1 : Word).toNat = 1 := rfl
    obtain ⟨place, hplace, hplace'⟩ := exists_sub? (a := UInt32.ofNat n) (b := 1)
      (by rwa [hword, hone])
    rw [hword, hone] at hplace'
    rw [List.map_cons, mark?, hplace, Option.bind_some, if_pos (by omega),
      ih (by simpa using hns) (by simpa using hlines)]
    refine congrArg some (List.ext_getElem? fun i => ?_)
    simp only [List.getElem?_map, List.getElem?_zipIdx, List.getElem?_set, hplace']
    by_cases hi : n - 1 = i
    · have hi' : i + 1 = n := by omega
      rw [if_pos hi, if_pos (by omega), List.getElem?_eq_getElem (by omega)]
      simp [hi']
    · have hi' : i + 1 ≠ n := by omega
      rw [if_neg hi]
      simp [Function.comp_def, hi']

/-- For each line of a file of `total` lines, whether it is in one of the ranges. -/
def coverage (total : Nat) (ranges : List (Nat × Nat)) : List Bool :=
  (List.range total).map fun i => covered ranges (i + 1)

theorem mark?_coverage {total : Nat} (ranges : List (Nat × Nat)) (range : Nat × Nat)
    (h₁ : 1 ≤ range.1) (h₂ : range.2 ≤ total) (hlines : total < UInt32.size) :
    mark? ((lineNumbers range).map UInt32.ofNat) (coverage total ranges) =
      some (coverage total (ranges ++ [range])) := by
  have hlength : (coverage total ranges).length = total := by
    rw [coverage, List.length_map, List.length_range]
  rw [mark?_eq (fun n hn => ?_) (by rwa [hlength])]
  · refine congrArg some (List.ext_getElem? fun i => ?_)
    by_cases hi : i < total
    · simp [coverage, covered, hi, mem_lineNumbers]
    · simp [coverage, hi]
  · rw [hlength]
    have := mem_lineNumbers.1 hn
    omega

section
variable {ls : List String} {total size : Word} (hsize : 1 ≤ size.toNat)
  (htotal : total.toNat = ls.length) (hlines : ls.length < UInt32.size - 1)
include hsize htotal hlines

theorem takeSymbol?_eq (ranges : List (Nat × Nat)) (chunks : List Chunk) {entry : Symbol × Nat}
    (h₁ : entry.1.startLine < UInt32.size) (h₂ : entry.1.endLine < UInt32.size) :
    takeSymbol? ls total size (coverage ls.length ranges, chunks) entry =
      some (coverage ls.length (ranges ++ (entry.1.tile? ls.length).toList),
        chunks ++ (ownRanges (size.toNat - 1) ls.length entry.1).map
          (cutChunk ls (some entry.2))) := by
  have hfirst : (UInt32.ofNat entry.1.startLine).toNat = entry.1.startLine := toNat_ofNat h₁
  have hlast : (UInt32.ofNat entry.1.endLine).toNat = entry.1.endLine := toNat_ofNat h₂
  have hzero : (UInt32.ofNat entry.1.startLine = 0 ∨ total < UInt32.ofNat entry.1.startLine) ↔
      ¬entry.1.StartsIn ls.length := by
    rw [← UInt32.toNat_inj, UInt32.lt_iff_toNat_lt, hfirst, htotal, Symbol.StartsIn]
    change entry.1.startLine = 0 ∨ _ ↔ _
    omega
  rw [takeSymbol?, ownRanges, Symbol.tile?_eq_ite]
  by_cases hstarts : entry.1.StartsIn ls.length
  · have hle : (UInt32.ofNat entry.1.startLine).toNat ≤ total.toNat := by
      rw [hfirst, htotal]
      exact hstarts.2
    obtain ⟨last, hclamp, hclamp'⟩ := exists_clamp? (a := UInt32.ofNat entry.1.endLine) hle
    replace hclamp' : last.toNat = entry.1.lastLine ls.length := by
      rw [hclamp', hfirst, hlast, htotal, Symbol.lastLine]
    have hmarks := mark?_coverage ranges (entry.1.startLine, entry.1.lastLine ls.length) hstarts.1
      (Nat.min_le_right _ _) (Nat.lt_of_lt_of_le hlines (Nat.sub_le _ _))
    have hsplit := split?_eq (some entry.2) (UInt32.ofNat entry.1.startLine) last hsize
      (hfirst.symm ▸ hstarts.1) (hclamp'.symm ▸ Nat.min_le_right _ _) hlines
    rw [hfirst, hclamp'] at hsplit
    rw [if_neg (hzero.not.2 (not_not_intro hstarts)), if_pos hstarts]
    simp only [hclamp, hfirst, hclamp', hmarks, hsplit, bind, Option.bind_some]
    rfl
  · rw [if_pos (hzero.2 hstarts), if_neg hstarts]
    simp

/-- The loop over the symbols marks their lines and adds their chunks. -/
theorem foldlM_takeSymbol? (ranges : List (Nat × Nat)) (chunks : List Chunk)
    (entries : List (Symbol × Nat))
    (h : ∀ e ∈ entries, e.1.startLine < UInt32.size ∧ e.1.endLine < UInt32.size) :
    entries.foldlM (takeSymbol? ls total size) (coverage ls.length ranges, chunks) =
      some (coverage ls.length (ranges ++ entries.filterMap (·.1.tile? ls.length)),
        chunks ++ entries.flatMap fun entry =>
          (ownRanges (size.toNat - 1) ls.length entry.1).map (cutChunk ls (some entry.2))) := by
  induction entries generalizing ranges chunks with
  | nil => simp
  | cons entry entries ih =>
    obtain ⟨⟨h₁, h₂⟩, h⟩ := List.forall_mem_cons.1 h
    rw [List.foldlM_cons, takeSymbol?_eq hsize htotal hlines ranges chunks h₁ h₂]
    refine (ih _ _ h).trans ?_
    rw [List.flatMap_cons, List.append_assoc, List.append_assoc]
    cases ht : entry.1.tile? ls.length <;> simp [ht]

end

section
variable {ls : List String} {size : Word} {ranges : List (Nat × Nat)} {line : String} {before : Nat}
  (hbefore : before < ls.length) (hlines : ls.length < UInt32.size - 1)
include hbefore hlines

/-- The number of a line is a word, and the line has a mark. -/
theorem exists_number (ranges : List (Nat × Nat)) :
    ∃ number, add? (UInt32.ofNat before) 1 = some number ∧ number.toNat = before + 1 ∧
      (coverage ls.length ranges)[before]? = some (covered ranges (before + 1)) := by
  have hone : (1 : Word).toNat = 1 := rfl
  have hword : (UInt32.ofNat before).toNat = before := toNat_ofNat (by omega)
  obtain ⟨number, hnumber, hnumber'⟩ := exists_add? (a := UInt32.ofNat before) (b := 1)
    (by rw [hword, hone]; omega)
  rw [hword, hone] at hnumber'
  refine ⟨number, hnumber, hnumber', ?_⟩
  rw [coverage, List.getElem?_map, List.getElem?_range hbefore]
  rfl

theorem takeLine?_of_loose (size : Word) (start : Option Word) (chunks : List Chunk)
    (h : (!covered ranges (before + 1) && !isBlank line) = true) :
    ∃ first, takeLine? ls size (coverage ls.length ranges) (start, chunks) (line, before) =
        some (some first, chunks) ∧
      first.toNat = (start.map UInt32.toNat).getD (before + 1) := by
  obtain ⟨number, hnumber, hnumber', hmarked⟩ := exists_number hbefore hlines ranges
  cases start with
  | none => exact ⟨number, by simp [takeLine?, hnumber, hmarked, h], hnumber'⟩
  | some first => exact ⟨first, by simp [takeLine?, hnumber, hmarked, h], rfl⟩

theorem takeLine?_of_not_loose {start : Option Word} (chunks : List Chunk) (hsize : 1 ≤ size.toNat)
    (hstart : ∀ first, start = some first → 1 ≤ first.toNat)
    (h : (!covered ranges (before + 1) && !isBlank line) = false) :
    takeLine? ls size (coverage ls.length ranges) (start, chunks) (line, before) =
      some (none, chunks ++ start.toList.flatMap fun first =>
        chunksOf ls (size.toNat - 1) none (first.toNat, before)) := by
  obtain ⟨number, hnumber, hnumber', hmarked⟩ := exists_number hbefore hlines ranges
  cases start with
  | none => simp [takeLine?, hnumber, hmarked, h]
  | some first =>
    have hone : (1 : Word).toNat = 1 := rfl
    obtain ⟨last, hlast, hlast'⟩ := exists_sub? (a := number) (b := 1) (by rw [hone]; omega)
    rw [hnumber', hone, Nat.add_sub_cancel] at hlast'
    have hsplit := split?_eq none first last hsize (hstart first rfl)
      (by omega) hlines
    rw [hlast'] at hsplit
    simp [takeLine?, hnumber, hmarked, h, hlast, hsplit]

end

/-- The loop over the lines adds the chunks of the runs of loose lines. -/
theorem foldlM_takeLine? {total : Word} {ranges : List (Nat × Nat)} {start : Option Word}
    {chunks : List Chunk} {rest : List String} {before : Nat} (hsize : 1 ≤ size.toNat)
    (htotal : total.toNat = ls.length) (hlines : ls.length < UInt32.size - 1)
    (hbefore : before + rest.length = ls.length)
    (hstart : ∀ first, start = some first → 1 ≤ first.toNat) :
    ((rest.zipIdx before).foldlM (takeLine? ls size (coverage ls.length ranges))
        (start, chunks)).bind (takeRest? ls total size) =
      some (chunks ++ (runsFrom (before + 1) (start.map UInt32.toNat)
        ((rest.zipIdx before).map fun e => !covered ranges (e.2 + 1) && !isBlank e.1)).flatMap
          (chunksOf ls (size.toNat - 1) none)) := by
  induction rest generalizing before start chunks with
  | nil =>
    cases start with
    | none => simp [runsFrom, takeRest?]
    | some first =>
      have hsplit := split?_eq none first total hsize (hstart first rfl)
        (Nat.le_of_eq htotal) hlines
      rw [List.length_nil, Nat.add_zero] at hbefore
      simp [runsFrom, takeRest?, hsplit, htotal, hbefore]
  | cons line rest ih =>
    rw [List.length_cons] at hbefore
    rw [List.zipIdx_cons, List.foldlM_cons, List.map_cons]
    dsimp only
    cases hmark : !covered ranges (before + 1) && !isBlank line with
    | true =>
      obtain ⟨first, hline, hfirst⟩ := takeLine?_of_loose (by omega) hlines size start
        chunks hmark
      rw [hline, runsFrom, ← hfirst]
      refine ih (by omega) fun first' he => ?_
      cases he
      rw [hfirst]
      cases start with
      | none => exact Nat.succ_pos _
      | some first => exact hstart first rfl
    | false =>
      rw [takeLine?_of_not_loose (by omega) hlines chunks hsize hstart hmark]
      refine (ih (by omega) fun _ he => by cases he).trans ?_
      cases start with
      | none => simp [runsFrom]
      | some first => simp [runsFrom]

/-- **No step fails** in cutting a file of words into chunks. -/
theorem chunkFile?_eq {maxLines : Word} {content : String} {symbols : List Symbol}
    (hlines : (lines content).length < UInt32.size - 1)
    (hsymbols : ∀ s ∈ symbols, s.startLine < UInt32.size ∧ s.endLine < UInt32.size) :
    chunkFile? maxLines content symbols = some (chunkFile maxLines.toNat content symbols) := by
  have hone : (1 : Word).toNat = 1 := rfl
  have hmax : (max maxLines 1).toNat = max maxLines.toNat 1 := UInt32.toNat_max _ _
  have hsize : 1 ≤ (max maxLines 1).toNat := by omega
  have hextra : (max maxLines 1).toNat - 1 = maxLines.toNat - 1 := by omega
  have htotal : (UInt32.ofNat (lines content).length).toNat = (lines content).length :=
    toNat_ofNat (by omega)
  have hfresh : (lines content).map (fun _ => false) = coverage (lines content).length [] := by
    simp [coverage, covered]
  have htook := foldlM_takeSymbol? hsize htotal hlines [] [] symbols.zipIdx
    fun e he => hsymbols e.1 (List.fst_mem_of_mem_zipIdx he)
  rw [← hfresh, List.nil_append, List.nil_append] at htook
  have htiles : symbols.zipIdx.filterMap (·.1.tile? (lines content).length) =
      symbols.filterMap (·.tile? (lines content).length) := by
    conv_rhs => rw [← List.zipIdx_map_fst 0 symbols, List.filterMap_map]
    rfl
  rw [chunkFile?, htook, htiles, chunkFile_eq, hextra]
  refine (foldlM_takeLine? hsize htotal hlines (Nat.zero_add _) fun _ he => by cases he).trans ?_
  rw [hextra, looseRanges, List.map_flatMap]
  rfl

/-- **The chunks of a file cover what they should.**  Whatever words the lines of the symbols
    are, cutting a file into chunks stays within words and lines.  The chunks of each
    symbol that starts in the file tile its lines, cut off at the end of the file; then the
    maximal runs of lines that are not blank and belong to no symbol are tiled, each such
    line once; and every chunk holds its lines. -/
theorem chunks_exact {maxLines : Word} {content : String} {symbols : List Symbol}
    (hlines : (lines content).length < UInt32.size - 1)
    (hsymbols : ∀ s ∈ symbols, s.startLine < UInt32.size ∧ s.endLine < UInt32.size) :
    chunkFile? maxLines content symbols = some (chunkFile maxLines.toNat content symbols) ∧
      ∃ (own : List (List Chunk)) (runs : List (Nat × Nat)) (loose : List (List Chunk)),
        chunkFile maxLines.toNat content symbols = own.flatten ++ loose.flatten ∧
        Parted (max 1 maxLines.toNat) (lines content) symbols own runs loose :=
  ⟨chunkFile?_eq hlines hsymbols, exists_parted maxLines.toNat content symbols⟩

/-- Symbols that start before the file and after it, that end before they start and after
    the file, that overlap and that come twice. -/
theorem chunks_exact_sample :
    let content := "use a\n\nfn f\n  x\nend\n \nlet y\nlet z\nfn b\nend"
    let symbols : List Symbol := [.ofLines "f" .function 3 5, .ofLines "x" .variable_ 4 4,
      .ofLines "f" .function 3 5, .ofLines "before" .module_ 0 4,
      .ofLines "after" .module_ 4294967295 4294967295, .ofLines "a" .module_ 1 0,
      .ofLines "b" .function 9 4294967295]
    ∃ (own : List (List Chunk)) (runs : List (Nat × Nat)) (loose : List (List Chunk)),
      chunkFile? 2 content symbols = some (own.flatten ++ loose.flatten) ∧
      Parted 2 (lines content) symbols own runs loose ∧
      (own.flatten ++ loose.flatten).map (fun c => (c.symbolIndex, c.range)) =
        [(some 0, 3, 4), (some 0, 5, 5), (some 1, 4, 4), (some 2, 3, 4), (some 2, 5, 5),
          (some 5, 1, 1), (some 6, 9, 10), (none, 7, 8)] := by
  intro content symbols
  obtain ⟨hwords, own, runs, loose, heq, hparted⟩ :=
    @chunks_exact 2 content symbols (by decide +kernel) (by decide +kernel)
  refine ⟨own, runs, loose, hwords.trans (congrArg some heq), hparted, ?_⟩
  rw [← heq]
  decide +kernel

end SourceIndex.Words
