/-
  The text that a symbol covers, and the text of its chunks.

  * `upToColumn`, `fromColumn`, `excerpt`: the lines of a range, the last one cut after a
    column and then the first one before a column;
  * `cutSpan_eq`: these are the lines that a span is made of;
  * `getElem?_columns`: the characters of a span that lies in one line;
  * `Words.spanText?`, `Words.spanText?_eq`: the text is gathered line by line, with machine
    words for lines and columns, and no step fails;
  * `joinLines_chunks`: the chunks of a symbol, joined, are its lines;
  * `Words.excerpt_exact`: what the text of a symbol is, and where the chunks hold it.
-/
import Mathlib.Data.List.ModifyLast
import SourceIndex.Proofs.Words

namespace SourceIndex

variable {s : Symbol} {ls : List String} {line content : String} {symbols : List Symbol} {i : Nat}

open Text

/-! ## Cutting lines -/

/-- The line up to a column. -/
def upToColumn (stop : Nat) (line : String) : String :=
  String.ofList (line.toList.take stop)

/-- The line from a column on. -/
def fromColumn (start : Nat) (line : String) : String :=
  String.ofList (line.toList.drop start)

/-- The lines from the first to the last one of a symbol, the last one up to the column
    where the symbol ends and then the first one from the column where it starts. -/
def excerpt (ls : List String) (s : Symbol) : List String :=
  ((slice ls s.startLine s.endLine).modifyLast (upToColumn s.endColumn)).modifyHead
    (fromColumn s.startColumn)

theorem columns_eq (line : String) (start stop : Nat) :
    columns line start stop = fromColumn start (upToColumn stop line) := by
  rw [columns, fromColumn, upToColumn, String.toList_ofList, List.drop_take]

/-- The characters in a line from one column up to another, counted from the first. -/
theorem getElem?_columns (line : String) (start stop i : Nat) :
    (columns line start stop).toList[i]? =
      if start + i < stop then line.toList[start + i]? else none := by
  rw [columns, String.toList_ofList, List.getElem?_take, List.getElem?_drop]
  by_cases h : start + i < stop
  · rw [if_pos h, if_pos (by omega)]
  · rw [if_neg h, if_neg (by omega)]

theorem columns_of_le (line : String) {start stop : Nat} (h : stop ≤ start) :
    columns line start stop = "" := by
  rw [columns, Nat.sub_eq_zero_of_le h, List.take_zero, String.ofList_nil]

theorem modifyLast_cons_cons (f : String → String) (line next : String) (ls : List String) :
    (line :: next :: ls).modifyLast f = line :: (next :: ls).modifyLast f :=
  List.modifyLast_append_of_right_ne_nil f [line] (next :: ls) (List.cons_ne_nil _ _)

theorem cutTail_eq (stop : Nat) : ∀ ls : List String,
    cutTail stop ls = ls.modifyLast (upToColumn stop)
  | [] => rfl
  | [_] => rfl
  | line :: next :: ls => by
    rw [modifyLast_cons_cons, ← cutTail_eq stop (next :: ls)]
    rfl

/-- A span is its lines, with the tail of the last one and then the head of the first one
    cut off. -/
theorem cutSpan_eq (start stop : Nat) (ls : List String) :
    cutSpan start stop ls = (ls.modifyLast (upToColumn stop)).modifyHead (fromColumn start) := by
  match ls with
  | [] => rfl
  | [line] => exact congrArg (fun l => [l]) (columns_eq line start stop)
  | line :: next :: ls =>
    rw [modifyLast_cons_cons, ← cutTail_eq]
    rfl

theorem joinLines_cons_cutTail (line next : String) (stop : Nat) (ls : List String) :
    joinLines (line :: cutTail stop (next :: ls)) =
      line ++ "\n" ++ joinLines (cutTail stop (next :: ls)) := by
  refine String.intercalate_cons_of_ne_nil ?_
  rw [← List.length_pos_iff, length_cutTail]
  exact Nat.succ_pos _

theorem spanText_eq_none_iff :
    spanText ls s = none ↔ s.startLine = 0 ∨ s.endLine < s.startLine ∨ ls.length < s.endLine := by
  rw [spanText]
  split
  · exact iff_of_true rfl ‹_›
  · exact iff_of_false (Option.some_ne_none _) ‹_›

theorem spanText_of_inLines (h : s.InLines ls) :
    spanText ls s = some (joinLines (excerpt ls s)) := by
  obtain ⟨h₁, h₂, h₃⟩ := h
  rw [spanText, if_neg (by omega), cutSpan_eq]
  rfl

theorem slice_singleton {number : Nat} (h₁ : 1 ≤ number) (h : ls[number - 1]? = some line) :
    slice ls number number = [line] := by
  refine List.ext_getElem? fun i => ?_
  rw [slice, List.getElem?_drop, List.getElem?_take]
  cases i with
  | zero =>
    rw [if_pos (by omega)]
    exact h
  | succ i =>
    rw [if_neg (by omega)]
    rfl

theorem spanText_of_line (h₁ : 1 ≤ s.startLine) (hone : s.endLine = s.startLine)
    (h : ls[s.startLine - 1]? = some line) :
    spanText ls s = some (columns line s.startColumn s.endColumn) := by
  obtain ⟨hlt, -⟩ := List.getElem?_eq_some_iff.1 h
  rw [spanText, if_neg (by omega), hone, slice_singleton h₁ h]
  exact congrArg some String.intercalate_singleton

/-! ## Chunks of a symbol -/

/-- Joined parts, joined once more, are the lines of all parts joined. -/
theorem joinLines_flatten (parts : List (List String)) (h : ∀ part ∈ parts, part ≠ []) :
    joinLines (parts.map joinLines) = joinLines parts.flatten := by
  induction parts with
  | nil => rfl
  | cons part parts ih =>
    obtain ⟨hpart, hparts⟩ := List.forall_mem_cons.1 h
    rw [List.map_cons, List.flatten_cons]
    cases parts with
    | nil =>
      rw [List.map_nil, List.flatten_nil, List.append_nil]
      exact String.intercalate_singleton
    | cons next parts =>
      have hnext : (next :: parts).flatten ≠ [] := fun he =>
        hparts next List.mem_cons_self (List.append_eq_nil_iff.1 he).1
      calc joinLines (joinLines part :: (next :: parts).map joinLines)
          = joinLines part ++ "\n" ++ joinLines ((next :: parts).map joinLines) :=
            String.intercalate_cons_of_ne_nil (List.cons_ne_nil _ _)
        _ = joinLines part ++ "\n" ++ joinLines (next :: parts).flatten := by rw [ih hparts]
        _ = joinLines (part ++ (next :: parts).flatten) :=
            (String.intercalate_append_of_ne_nil hpart hnext).symm

theorem flatMap_zipIdx_ite {α β : Type} (xs : List α) (place k : Nat) (f : α → List β) :
    ((xs.zipIdx k).flatMap fun entry => if entry.2 = place + k then f entry.1 else []) =
      (xs[place]?).toList.flatMap f := by
  induction xs generalizing place k with
  | nil => rfl
  | cons x xs ih =>
    rw [List.zipIdx_cons, List.flatMap_cons]
    cases place with
    | zero =>
      have hlater : ((xs.zipIdx (k + 1)).flatMap fun entry =>
          if entry.2 = 0 + k then f entry.1 else []) = [] := by
        refine List.flatMap_eq_nil_iff.2 fun entry he => if_neg ?_
        have := List.le_snd_of_mem_zipIdx he
        omega
      rw [hlater, if_pos (Nat.zero_add k).symm]
      simp
    | succ place =>
      have hplace : place + 1 + k = place + (k + 1) := by omega
      rw [if_neg (by dsimp only; omega), hplace, ih]
      rfl

/-- The chunks that carry the number of a symbol are those of its own lines, whatever the
    other symbols are. -/
theorem filter_symbolIndex_chunkFile (maxLines : Nat) (content : String)
    (h : symbols[i]? = some s) :
    (chunkFile maxLines content symbols).filter (·.symbolIndex = some i) =
      (ownRanges (maxLines - 1) (lines content).length s).map
        (cutChunk (lines content) (some i)) := by
  have hloose : ((looseRanges (maxLines - 1) (lines content) symbols).map
      (cutChunk (lines content) none)).filter (·.symbolIndex = some i) = [] := by
    refine List.filter_eq_nil_iff.2 fun c hc => ?_
    obtain ⟨range, -, rfl⟩ := List.mem_map.1 hc
    simp [cutChunk]
  -- the chunks of an entry all carry its place
  have hown : ∀ entry : Symbol × Nat, ((ownRanges (maxLines - 1) (lines content).length
      entry.1).map (cutChunk (lines content) (some entry.2))).filter (·.symbolIndex = some i) =
        if entry.2 = i + 0 then
          (ownRanges (maxLines - 1) (lines content).length entry.1).map
            (cutChunk (lines content) (some i))
        else [] := by
    intro entry
    by_cases he : entry.2 = i
    · simp [he, cutChunk, List.filter_map, Function.comp_def]
    · simp [he, cutChunk, List.filter_map, Function.comp_def]
  rw [chunkFile_eq, List.filter_append, hloose, List.append_nil, List.filter_flatMap]
  simp only [hown]
  rw [flatMap_zipIdx_ite symbols i 0 fun s =>
    (ownRanges (maxLines - 1) (lines content).length s).map (cutChunk (lines content) (some i)), h]
  simp

/-- **The chunks of a symbol** hold its lines, cut anywhere. -/
theorem joinLines_chunks (maxLines : Nat) (hi : symbols[i]? = some s)
    (h : s.InLines (lines content)) :
    joinLines (((chunkFile maxLines content symbols).filter (·.symbolIndex = some i)).map
        (·.content)) =
      joinLines (slice (lines content) s.startLine s.endLine) := by
  obtain ⟨h₁, h₂, h₃⟩ := h
  have hranges : ownRanges (maxLines - 1) (lines content).length s =
      pieces (maxLines - 1) s.startLine s.endLine := by
    have hlast : min (max s.endLine s.startLine) (lines content).length = s.endLine := by omega
    rw [ownRanges, Symbol.tile?, if_neg (by omega), hlast]
  rw [filter_symbolIndex_chunkFile maxLines content hi, hranges, List.map_map]
  have hparts := joinLines_flatten ((pieces (maxLines - 1) s.startLine s.endLine).map
    fun piece => slice (lines content) piece.1 piece.2) ?_
  · rw [List.map_map, ← List.flatMap_def,
      flatMap_slice_pieces (lines content) _ _ h₁ (by omega)] at hparts
    exact hparts
  · intro part hpart
    obtain ⟨piece, hpiece, rfl⟩ := List.mem_map.1 hpart
    have hin := mem_pieces hpiece
    exact slice_ne_nil (by omega) hin.2.1 (by omega)

theorem Symbol.Whole.spanText_eq (hw : s.Whole) (h : s.InLines (lines content))
    (hl : ∀ l ∈ lines content, l.length < lastColumn) :
    spanText (lines content) s =
      some (joinLines (slice (lines content) s.startLine s.endLine)) := by
  have hcut : cutSpan 0 s.endColumn (slice (lines content) s.startLine s.endLine) =
      slice (lines content) s.startLine s.endLine := by
    refine cutSpan_of_length_le fun l hm => ?_
    rw [hw.2]
    exact Nat.le_of_lt (hl l (mem_of_mem_slice hm))
  obtain ⟨h₁, h₂, h₃⟩ := h
  rw [spanText, if_neg (by omega), hw.1, hcut]

/-! ## Gathering the text with words -/

/-- The lines and columns of the symbol are words. -/
def Symbol.InWords (s : Symbol) : Prop :=
  (s.startLine < UInt32.size ∧ s.endLine < UInt32.size) ∧
    s.startColumn < UInt32.size ∧ s.endColumn < UInt32.size

instance (s : Symbol) : Decidable s.InWords :=
  inferInstanceAs (Decidable ((_ ∧ _) ∧ _ ∧ _))

namespace Words

/-- A column, or a number of characters. -/
abbrev Column := UInt64

/-- The difference, or zero if it is no word. -/
def subDownTo (a b : Column) : Column :=
  if b ≤ a then a - b else 0

/-- The column past every line. -/
def endless : Column :=
  UInt64.ofNat (UInt64.size - 1)

theorem toNat_subDownTo (a b : Column) : (subDownTo a b).toNat = a.toNat - b.toNat := by
  unfold subDownTo
  by_cases h : b ≤ a
  · rw [if_pos h, UInt64.toNat_sub_of_le _ _ h]
  · have hlt : a.toNat < b.toNat := Nat.lt_of_not_le fun hle => h (UInt64.le_iff_toNat_le.2 hle)
    have hzero : (0 : Column).toNat = 0 := rfl
    rw [if_neg h, hzero]
    omega

/-- Add the part of a line that a span covers, and a line feed unless the span ends there.
    Lines are counted from 0 here. -/
def takeText (first last : Nat) (start stop : Column) (text : String) (entry : String × Nat) :
    String :=
  let low := if entry.2 = first then start else 0
  let high := if entry.2 = last then stop else endless
  let part := (entry.1.toList.drop low.toNat).take (subDownTo high low).toNat
  if entry.2 = last then text ++ String.ofList part else text ++ String.ofList part ++ "\n"

/-- The text that a symbol covers; nothing if it does not lie in the lines. -/
def spanText? (ls : List String) (s : Symbol) : Option (Option String) :=
  let startLine := UInt32.ofNat s.startLine
  let endLine := UInt32.ofNat s.endLine
  if startLine = 0 ∨ endLine < startLine then some none
  else do
    let first ← sub? startLine 1
    let last ← sub? endLine 1
    if ls.length ≤ last.toNat then return none
    let count ← add? last 1
    let start := (UInt32.ofNat s.startColumn).toUInt64
    let stop := (UInt32.ofNat s.endColumn).toUInt64
    let covered := (ls.zipIdx.take count.toNat).drop first.toNat
    return some (covered.foldl (takeText first.toNat last.toNat start stop) "")

section
variable {first last n : Nat} {start stop : Column} {line : String}

/-- The part of a line is that between two columns, and a line that a span does not end
    with has no characters past the last column there is. -/
theorem takeText_eq (text : String) (hline : line.length < UInt64.size) :
    takeText first last start stop text (line, n) =
      text ++ (if n = last then columns line (if n = first then start.toNat else 0) stop.toNat
        else fromColumn (if n = first then start.toNat else 0) line ++ "\n") := by
  have hlow : (if n = first then start else 0 : Column).toNat =
      if n = first then start.toNat else 0 := by
    split <;> rfl
  unfold takeText
  dsimp only
  rw [toNat_subDownTo, hlow]
  generalize (if n = first then start.toNat else 0) = low
  by_cases hn : n = last
  · rw [if_pos hn, if_pos hn, if_pos hn]
    rfl
  · have hall : (line.toList.drop low).length ≤ endless.toNat - low := by
      have hend : endless.toNat = UInt64.size - 1 := rfl
      rw [List.length_drop, String.length_toList, hend]
      omega
    rw [if_neg hn, if_neg hn, if_neg hn, List.take_of_length_le hall, String.append_assoc]
    rfl

/-- After the first line of a span the loop adds the rest of it. -/
theorem foldl_takeText_tail {rest : List String} (text : String) (hfirst : first < n)
    (hne : rest ≠ []) (hlast : n + rest.length = last + 1)
    (hlines : ∀ l ∈ rest, l.length < UInt64.size) :
    (rest.zipIdx n).foldl (takeText first last start stop) text =
      text ++ joinLines (cutTail stop.toNat rest) := by
  induction rest generalizing n text with
  | nil => exact (hne rfl).elim
  | cons line rest ih =>
    obtain ⟨hline, hlines⟩ := List.forall_mem_cons.1 hlines
    rw [List.length_cons] at hlast
    rw [List.zipIdx_cons, List.foldl_cons, takeText_eq text hline,
      if_neg (Nat.ne_of_gt hfirst)]
    cases rest with
    | nil =>
      obtain rfl : n = last := by simpa using hlast
      rw [if_pos rfl]
      exact congrArg (text ++ ·) String.intercalate_singleton.symm
    | cons next rest =>
      rw [List.length_cons] at hlast
      have hwhole : fromColumn 0 line = line := String.ofList_toList
      rw [if_neg (by omega), hwhole, ih _ (by omega) (List.cons_ne_nil _ _)
        (by rw [List.length_cons]; omega) hlines, String.append_assoc, ← joinLines_cons_cutTail]
      rfl

/-- The loop over the lines of a span gathers its text. -/
theorem foldl_takeText (hne : ls ≠ []) (hlast : first + ls.length = last + 1)
    (hlines : ∀ l ∈ ls, l.length < UInt64.size) :
    (ls.zipIdx first).foldl (takeText first last start stop) "" =
      joinLines (cutSpan start.toNat stop.toNat ls) := by
  cases ls with
  | nil => exact (hne rfl).elim
  | cons line rest =>
    obtain ⟨hline, hlines⟩ := List.forall_mem_cons.1 hlines
    rw [List.length_cons] at hlast
    rw [List.zipIdx_cons, List.foldl_cons, takeText_eq "" hline, if_pos rfl, String.empty_append]
    cases rest with
    | nil =>
      obtain rfl : first = last := by simpa using hlast
      rw [if_pos rfl]
      exact String.intercalate_singleton.symm
    | cons next rest =>
      rw [List.length_cons] at hlast
      rw [if_neg (by omega), foldl_takeText_tail _ (Nat.lt_succ_self first) (List.cons_ne_nil _ _)
        (by rw [List.length_cons]; omega) hlines, ← joinLines_cons_cutTail]
      rfl

end

theorem zipIdx_slice (ls : List String) (a b : Nat) :
    (ls.zipIdx.take b).drop (a - 1) = (slice ls a b).zipIdx (a - 1) := by
  refine List.ext_getElem? fun i => ?_
  simp only [slice, List.getElem?_drop, List.getElem?_take, List.getElem?_zipIdx]
  split <;> simp

/-- **No step fails** in gathering the text of a symbol. -/
theorem spanText?_eq (hs : s.InWords) (hlines : ∀ l ∈ ls, l.length < UInt64.size) :
    spanText? ls s = some (spanText ls s) := by
  obtain ⟨⟨hstart, hend⟩, hfrom, hto⟩ := hs
  have hone : (1 : Word).toNat = 1 := rfl
  have hstart' : (UInt32.ofNat s.startLine).toNat = s.startLine := toNat_ofNat hstart
  have hend' : (UInt32.ofNat s.endLine).toNat = s.endLine := toNat_ofNat hend
  have hwrong : (UInt32.ofNat s.startLine = 0 ∨ UInt32.ofNat s.endLine < UInt32.ofNat s.startLine) ↔
      s.startLine = 0 ∨ s.endLine < s.startLine := by
    rw [← UInt32.toNat_inj, UInt32.lt_iff_toNat_lt, hstart', hend']
    rfl
  unfold spanText? spanText
  by_cases horder : s.startLine = 0 ∨ s.endLine < s.startLine
  · rw [if_pos (hwrong.2 horder), if_pos (by omega)]
  rw [if_neg (hwrong.not.2 horder)]
  obtain ⟨first, hfirst, hfirst'⟩ := exists_sub? (a := UInt32.ofNat s.startLine) (b := 1)
    (by rw [hone]; omega)
  obtain ⟨last, hlast, hlast'⟩ := exists_sub? (a := UInt32.ofNat s.endLine) (b := 1)
    (by rw [hone]; omega)
  rw [hstart', hone] at hfirst'
  rw [hend', hone] at hlast'
  simp only [hfirst, hlast, bind, Option.bind_some]
  by_cases hlate : ls.length < s.endLine
  · rw [if_pos (by omega), if_pos (by omega)]
    rfl
  · obtain ⟨count, hcount, hcount'⟩ := exists_add? (a := last) (b := 1) (by rw [hone]; omega)
    rw [hlast', hone, Nat.sub_add_cancel (by omega)] at hcount'
    have hcolumn : ∀ {n : Nat}, n < UInt32.size → (UInt32.ofNat n).toUInt64.toNat = n :=
      fun hn => (UInt32.toNat_toUInt64 _).trans (toNat_ofNat hn)
    have hne : slice ls s.startLine s.endLine ≠ [] :=
      slice_ne_nil (by omega) (by omega) (by omega)
    have hlength : (slice ls s.startLine s.endLine).length = s.endLine + 1 - s.startLine :=
      length_slice (by omega) (by omega) (by omega)
    have hloop : ((slice ls s.startLine s.endLine).zipIdx first.toNat).foldl
        (takeText first.toNat last.toNat (UInt32.ofNat s.startColumn).toUInt64
          (UInt32.ofNat s.endColumn).toUInt64) "" = _ :=
      foldl_takeText hne (by omega) fun l hl => hlines l (mem_of_mem_slice hl)
    rw [hcolumn hfrom, hcolumn hto] at hloop
    rw [if_neg (by omega), if_neg (by omega), hcount, Option.bind_some, hcount', ← hloop, hfirst',
      zipIdx_slice]
    rfl

/-- **The text of a symbol.**  Whatever the lines are and whatever words the symbol is made
    of, no step fails in gathering its text.  There is none just if the symbol starts before
    the first line, ends before it starts or ends past the last line.  Otherwise it is the
    lines from its first to its last one, joined, where the last line is cut to the
    characters before its end column and then the first one to those from its start column
    on; on one line these are the characters between the two columns, as far as the line has
    them.  A symbol that covers whole lines covers just what its chunks hold together, for
    chunks of any length and whatever the other symbols are, as long as it ends in the file
    and neither the lines nor the characters of a line are more than a word counts. -/
theorem excerpt_exact (ls : List String) (s : Symbol) :
    (s.InWords → (∀ l ∈ ls, l.length < UInt64.size) → spanText? ls s = some (spanText ls s)) ∧
    (spanText ls s = none ↔ s.startLine = 0 ∨ s.endLine < s.startLine ∨ ls.length < s.endLine) ∧
    (s.InLines ls → spanText ls s = some (joinLines (excerpt ls s))) ∧
    (∀ line, s.InLines ls → s.startLine = s.endLine → ls[s.startLine - 1]? = some line →
      ∃ text, spanText ls s = some text ∧ (s.endColumn ≤ s.startColumn → text = "") ∧
        ∀ i, text.toList[i]? = if s.startColumn + i < s.endColumn then
          line.toList[s.startColumn + i]? else none) ∧
    ∀ (content : String) (symbols : List Symbol) (i : Nat) (maxLines : Word),
      symbols[i]? = some s → (∀ t ∈ symbols, t.InWords) →
      s.startColumn = 0 → s.endColumn = UInt32.size - 1 →
      (lines content).length < UInt32.size - 1 →
      (∀ l ∈ lines content, l.length < UInt32.size - 1) →
      ∃ chunks, chunkFile? maxLines content symbols = some chunks ∧
        (spanText (lines content) s =
            some (joinLines ((chunks.filter (·.symbolIndex = some i)).map (·.content))) ↔
          s.InLines (lines content)) := by
  refine ⟨spanText?_eq, spanText_eq_none_iff, spanText_of_inLines, ?_, ?_⟩
  · rintro line ⟨h₁, -, -⟩ hone hline
    refine ⟨_, spanText_of_line h₁ hone.symm hline, columns_of_le line, ?_⟩
    exact getElem?_columns line s.startColumn s.endColumn
  · intro content symbols i maxLines hi hwords hstart hend hcount hlength
    refine ⟨_, chunkFile?_eq hcount fun t ht => (hwords t ht).1, ?_⟩
    constructor
    · exact fun htext => exists_spanText_iff.1 ⟨_, htext⟩
    · intro hin
      have hwhole : s.Whole := ⟨hstart, hend⟩
      rw [hwhole.spanText_eq hin hlength, joinLines_chunks _ hi hin]

/-- Symbols that cover whole lines, that start and end within lines, that lie in one line,
    with their columns in order or not, and that end past the file. -/
theorem excerpt_exact_sample :
    let content := "use a\nfn fö() do\n  bödy\nend"
    let whole : Symbol := .ofLines "f" .function 2 4
    let cut : Symbol := { whole with startColumn := 3, endColumn := 1 }
    let inner : Symbol := ⟨"b", .variable_, 3, 3, 3, 5⟩
    let crossed : Symbol := ⟨"c", .variable_, 3, 5, 3, 3⟩
    let late : Symbol := .ofLines "l" .module_ 4 4294967295
    let symbols := [late, whole, cut, inner, crossed, whole]
    (∃ chunks, chunkFile? 2 content symbols = some chunks ∧
      (chunks.filter (·.symbolIndex = some 1)).map (·.content) = ["fn fö() do\n  bödy", "end"] ∧
      spanText (lines content) whole =
        some (joinLines ((chunks.filter (·.symbolIndex = some 1)).map (·.content)))) ∧
    symbols.map (spanText? (lines content)) =
      [some none, some (some "fn fö() do\n  bödy\nend"), some (some "fö() do\n  bödy\ne"),
        some (some "öd"), some (some ""), some (some "fn fö() do\n  bödy\nend")] := by
  intro content whole cut inner crossed late symbols
  have hwords : ∀ t ∈ symbols, t.InWords := by decide +kernel
  have hlines : ∀ l ∈ lines content, l.length < UInt32.size - 1 := by decide +kernel
  constructor
  · obtain ⟨chunks, hchunks, hiff⟩ := (excerpt_exact (lines content) whole).2.2.2.2 content
      symbols 1 2 rfl hwords rfl rfl (by decide +kernel) hlines
    have hcontents : (chunkFile? 2 content symbols).map (fun chunks =>
        (chunks.filter (·.symbolIndex = some 1)).map (·.content)) =
          some ["fn fö() do\n  bödy", "end"] := by
      rw [chunkFile?_eq (by decide +kernel) fun t ht => (hwords t ht).1]
      decide +kernel
    rw [hchunks, Option.map_some, Option.some.injEq] at hcontents
    have hin : whole.InLines (lines content) := ⟨by decide, by decide, by decide +kernel⟩
    exact ⟨chunks, hchunks, hcontents, hiff.2 hin⟩
  · have hgather : symbols.map (spanText? (lines content)) =
        symbols.map fun s => some (spanText (lines content) s) := by
      refine List.map_congr_left fun s hs => (excerpt_exact (lines content) s).1 (hwords s hs) ?_
      intro l hl
      exact Nat.lt_of_lt_of_le (hlines l hl) (by decide)
    rw [hgather]
    decide +kernel

end Words

end SourceIndex
