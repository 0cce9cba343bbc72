import Mathlib.Order.Bounds.Basic
import ElmScope.Proofs.Text.Offset

/-! Places and byte offsets of one text. An offset between characters has a place, and the
place gives the offset back unless it stands among the characters that end its line, which
count as one place before them. A place gives an offset between characters in any case. -/
namespace ElmScope.Text

variable {text line a b : List Char} {k : Nat}

theorem byteLength_le_of_isPrefix (h : a <+: b) : byteLength a ≤ byteLength b := by
  obtain ⟨rest, rfl⟩ := h
  rw [byteLength_append]
  exact Nat.le_add_right _ _

theorem utf16Length_le_of_isPrefix (h : a <+: b) : utf16Length a ≤ utf16Length b := by
  obtain ⟨rest, rfl⟩ := h
  rw [utf16Length_append]
  exact Nat.le_add_right _ _

/-- Of two beginnings of a text one begins the other, and the bytes tell which. -/
theorem isPrefix_of_byteLength_lt (ha : a <+: text) (hb : b <+: text)
    (hLt : byteLength a < byteLength b) : a <+: b := by
  rcases List.prefix_or_prefix_of_prefix ha hb with h | h
  · exact h
  · exact absurd (byteLength_le_of_isPrefix h) (Nat.not_le.mpr hLt)

/-- The beginning of a text is known by its number of bytes. -/
theorem eq_of_byteLength_eq (ha : a <+: text) (hb : b <+: text)
    (h : byteLength a = byteLength b) : a = b := by
  obtain ⟨after, rfl⟩ := ha
  obtain ⟨rest, hRest⟩ := hb
  rw [← takeBytes_byteLength a after, ← hRest, h, takeBytes_byteLength]

/-- Of two beginnings of a text the shorter begins the longer. -/
theorem isPrefix_of_byteLength_le (ha : a <+: text) (hb : b <+: text)
    (hLe : byteLength a ≤ byteLength b) : a <+: b := by
  rcases Nat.lt_or_eq_of_le hLe with hLt | hEq
  · exact isPrefix_of_byteLength_lt ha hb hLt
  · exact (eq_of_byteLength_eq ha hb hEq).symm ▸ List.prefix_refl b

/-- Of two beginnings that end with different characters, the one that is no longer begins the
other without its last character. -/
theorem isPrefix_of_byteLength_le_concat {c x : Char} (ha : a ++ [c] <+: text)
    (hb : b ++ [x] <+: text) (hOther : c ≠ x)
    (hBytes : byteLength (a ++ [c]) ≤ byteLength (b ++ [x])) : a ++ [c] <+: b := by
  have hNe : a ++ [c] ≠ b ++ [x] := fun hSame =>
    hOther (by simpa using congrArg List.getLast? hSame)
  rcases List.prefix_or_prefix_of_prefix ha hb with hShort | hLong
  · exact (List.prefix_concat_iff.mp hShort).resolve_left hNe
  · have hShorter := (List.prefix_concat_iff.mp hLong).resolve_left hNe.symm
    have hInside := byteLength_le_of_isPrefix hShorter
    have hPos := c.utf8Size_pos
    rw [byteLength_append a] at hBytes
    simp only [byteLength] at hBytes
    omega

/-! Columns of a line. -/

theorem takeColumns_isPrefix (k : Nat) (line : List Char) : takeColumns k line <+: line := by
  induction line generalizing k with
  | nil => cases k <;> exact List.nil_prefix
  | cons c rest ih =>
      cases k with
      | zero => exact List.nil_prefix
      | succ k => exact List.cons_prefix_cons.mpr ⟨rfl, ih _⟩

/-- The columns before a place reach the place, or there are no more. -/
theorem le_utf16Length_takeColumns (k : Nat) (line : List Char) :
    k ≤ utf16Length (takeColumns k line) ∨ takeColumns k line = line := by
  induction line generalizing k with
  | nil => cases k <;> exact .inr rfl
  | cons c rest ih =>
      cases k with
      | zero => exact .inl (Nat.zero_le _)
      | succ k =>
          rw [takeColumns, utf16Length]
          rcases ih (k + 1 - utf16Width c) with h | h
          · exact .inl (by omega)
          · exact .inr (by rw [h])

/-- No other beginning of the line that reaches a column is shorter. -/
theorem takeColumns_isPrefix_of_le (h : a <+: line) (hReach : k ≤ utf16Length a) :
    takeColumns k line <+: a := by
  induction a generalizing k line with
  | nil =>
      obtain rfl : k = 0 := Nat.le_zero.mp hReach
      cases line <;> exact List.nil_prefix
  | cons c rest ih =>
      obtain ⟨after, rfl⟩ := h
      cases k with
      | zero => exact List.nil_prefix
      | succ k =>
          have hRest : k + 1 - utf16Width c ≤ utf16Length rest := by
            rw [utf16Length] at hReach
            omega
          exact List.cons_prefix_cons.mpr ⟨rfl, ih (List.prefix_append rest after) hRest⟩

theorem takeColumns_mono (line : List Char) {k l : Nat} (h : k ≤ l) :
    takeColumns k line <+: takeColumns l line := by
  rcases le_utf16Length_takeColumns l line with hReach | hAll
  · exact takeColumns_isPrefix_of_le (takeColumns_isPrefix l line) (Nat.le_trans h hReach)
  · rw [hAll]
    exact takeColumns_isPrefix k line

/-- Every character has a width, so a beginning as wide as the whole is the whole. -/
theorem eq_of_isPrefix_of_utf16Length_le (h : a <+: b) (hWide : utf16Length b ≤ utf16Length a) :
    a = b := by
  obtain ⟨rest, rfl⟩ := h
  cases rest with
  | nil => exact (List.append_nil a).symm
  | cons c rest =>
      have := utf16Width_pos c
      rw [utf16Length_append, utf16Length] at hWide
      omega

theorem takeColumns_eq_self (h : utf16Length line ≤ k) : takeColumns k line = line := by
  rcases le_utf16Length_takeColumns k line with hReach | hAll
  · exact eq_of_isPrefix_of_utf16Length_le (takeColumns_isPrefix k line) (Nat.le_trans h hReach)
  · exact hAll

/-- The columns of a beginning of a line take this beginning. -/
theorem takeColumns_utf16Length (a b : List Char) : takeColumns (utf16Length a) (a ++ b) = a := by
  apply eq_of_isPrefix_of_utf16Length_le
    (takeColumns_isPrefix_of_le (List.prefix_append a b) (Nat.le_refl _))
  rcases le_utf16Length_takeColumns (utf16Length a) (a ++ b) with hReach | hAll
  · exact hReach
  · rw [hAll]
    exact utf16Length_le_of_isPrefix (List.prefix_append a b)

/-- The columns of a line at which a character begins or the line ends. -/
def IsColumn (line : List Char) (k : Nat) : Prop := ∃ a, a <+: line ∧ utf16Length a = k

/-- A column is taken to the next one at which a character begins or the line ends. -/
theorem isLeast_takeColumns (h : k ≤ utf16Length line) :
    IsLeast {l | IsColumn line l ∧ k ≤ l} (utf16Length (takeColumns k line)) := by
  refine ⟨⟨⟨_, takeColumns_isPrefix k line, rfl⟩, ?_⟩, ?_⟩
  · rcases le_utf16Length_takeColumns k line with hReach | hAll
    · exact hReach
    · rw [hAll]
      exact h
  · rintro l ⟨⟨a, ha, rfl⟩, hReach⟩
    exact utf16Length_le_of_isPrefix (takeColumns_isPrefix_of_le ha hReach)

/-! Lines of a text. -/

/-- Lines that end with a line feed and have no other. -/
def IsEnded (line : List Char) : Prop := ∃ body, line = body ++ ['\n'] ∧ '\n' ∉ body

/-- All lines but the last are ended, and the last has no line feed. -/
theorem exists_lines (text : List Char) :
    ∃ init last, lines text = init ++ [last] ∧ (∀ line ∈ init, IsEnded line) ∧ '\n' ∉ last := by
  induction text with
  | nil => exact ⟨[], [], rfl, by simp, by simp⟩
  | cons c rest ih =>
      obtain ⟨init, last, hLines, hInit, hLast⟩ := ih
      rw [lines]
      by_cases hFeed : c = '\n'
      · subst hFeed
        rw [if_pos rfl, hLines]
        refine ⟨['\n'] :: init, last, rfl, fun line hLine => ?_, hLast⟩
        rcases List.mem_cons.mp hLine with rfl | hLine
        · exact ⟨[], rfl, by simp⟩
        · exact hInit line hLine
      · rw [if_neg hFeed, hLines]
        cases init with
        | nil => exact ⟨[], c :: last, rfl, by simp, by simp [hLast, Ne.symm hFeed]⟩
        | cons first init =>
            refine ⟨(c :: first) :: init, last, rfl, fun line hLine => ?_, hLast⟩
            rcases List.mem_cons.mp hLine with rfl | hLine
            · obtain ⟨body, rfl, hBody⟩ := hInit first List.mem_cons_self
              exact ⟨c :: body, rfl, by simp [hBody, Ne.symm hFeed]⟩
            · exact hInit line (List.mem_cons_of_mem _ hLine)

/-- Of two texts put together, the last line of one and the first of the other make a line. -/
theorem lines_append {init more : List (List Char)} {last first : List Char}
    (ha : lines a = init ++ [last]) (hb : lines b = first :: more) :
    lines (a ++ b) = init ++ (last ++ first) :: more := by
  induction a generalizing init last with
  | nil =>
      have hSplit : [] ++ [[]] = init ++ [last] := ha
      obtain ⟨rfl, hLast⟩ := List.append_inj' hSplit rfl
      obtain rfl := List.singleton_inj.mp hLast
      exact hb
  | cons c rest ih =>
      obtain ⟨init', last', hRest, -⟩ := exists_lines rest
      have hBoth := ih hRest
      rw [lines, hRest] at ha
      rw [List.cons_append, lines, hBoth]
      split at ha
      · next hFeed =>
        rw [if_pos hFeed]
        have hSplit : ([c] :: init') ++ [last'] = init ++ [last] := ha
        obtain ⟨rfl, hLast⟩ := List.append_inj' hSplit rfl
        obtain rfl := List.singleton_inj.mp hLast
        rfl
      · next hFeed =>
        rw [if_neg hFeed]
        cases init' with
        | nil =>
            have hSplit : [] ++ [c :: last'] = init ++ [last] := ha
            obtain ⟨rfl, hLast⟩ := List.append_inj' hSplit rfl
            obtain rfl := List.singleton_inj.mp hLast
            rfl
        | cons first' init' =>
            have hSplit : ((c :: first') :: init') ++ [last'] = init ++ [last] := ha
            obtain ⟨rfl, hLast⟩ := List.append_inj' hSplit rfl
            obtain rfl := List.singleton_inj.mp hLast
            rfl

theorem lineText_isPrefix (line : List Char) : lineText line <+: line :=
  ⟨_, dropTail_append_takeTail isLineEnd line⟩

/-- The text of a line has no line feed. -/
theorem feed_not_mem_lineText {n : Nat} (h : lineText? text n = some line) : '\n' ∉ line := by
  obtain ⟨init, last, hLines, hInit, hLast⟩ := exists_lines text
  obtain ⟨whole, hWhole, rfl⟩ := Option.map_eq_some_iff.mp h
  have hMem := hLines ▸ List.mem_of_getElem? hWhole
  rcases List.mem_append.mp hMem with hMem | hMem
  · obtain ⟨body, rfl, hBody⟩ := hInit whole hMem
    have hShort : lineText (body ++ ['\n']) = lineText body := by
      simp [lineText, dropTail, isLineEnd]
    exact fun hFeed => hBody ((lineText_isPrefix body).subset (hShort ▸ hFeed))
  · obtain rfl := List.mem_singleton.mp hMem
    exact fun hFeed => hLast ((lineText_isPrefix whole).subset hFeed)

/-- On one line only the column grows. -/
theorem foldl_advance_of_not_mem (h : '\n' ∉ a) (p : Position) :
    a.foldl advance p = ⟨p.line, p.character + utf16Length a⟩ := by
  induction a generalizing p with
  | nil => rfl
  | cons c rest ih =>
      rw [List.mem_cons, not_or] at h
      rw [List.foldl_cons, ih h.2, advance, if_neg (Ne.symm h.1), utf16Length, Nat.add_assoc]

/-- Ended lines lead to the beginning of a line. -/
theorem foldl_advance_flatten {init : List (List Char)} (h : ∀ line ∈ init, IsEnded line)
    (n : Nat) : init.flatten.foldl advance ⟨n, 0⟩ = ⟨n + init.length, 0⟩ := by
  induction init generalizing n with
  | nil => rfl
  | cons line rest ih =>
      obtain ⟨body, rfl, hBody⟩ := h line List.mem_cons_self
      rw [List.flatten_cons, List.foldl_append, List.foldl_append,
        foldl_advance_of_not_mem hBody, List.length_cons, Nat.add_comm rest.length, ← Nat.add_assoc]
      exact ih (fun other hOther => h other (List.mem_cons_of_mem _ hOther)) (n + 1)

/-- A character more is a later place. -/
theorem lt_foldl_advance (p : Position) (h : a ≠ []) : p < a.foldl advance p := by
  induction a generalizing p with
  | nil => exact absurd rfl h
  | cons c rest ih =>
      have hStep : p < advance p c := by
        have := utf16Width_pos c
        rw [advance]
        split
        · exact .inl (Nat.lt_succ_self _)
        · exact .inr ⟨rfl, Nat.lt_add_of_pos_right this⟩
      by_cases hRest : rest = []
      · exact hRest ▸ hStep
      · have hMore := ih (advance p c) hRest
        simp only [Position.lt_def] at hStep hMore ⊢
        rw [List.foldl_cons]
        omega

/-- No character leads back. -/
theorem le_foldl_advance (a : List Char) (p : Position) : p ≤ a.foldl advance p := by
  by_cases h : a = []
  · exact h ▸ Position.le_refl p
  · have hLt := lt_foldl_advance p h
    simp only [Position.lt_def, Position.le_def] at hLt ⊢
    omega

/-- The place behind one more character is a later one. -/
theorem endPlace_lt_append_singleton (a : List Char) (c : Char) :
    endPlace a < endPlace (a ++ [c]) := by
  rw [endPlace_append_singleton]
  exact lt_foldl_advance (endPlace a) (List.cons_ne_nil c [])

theorem takeBytes_isPrefix_of_le (text : List Char) {m n : Nat} (h : m ≤ n) :
    takeBytes m text <+: takeBytes n text := by
  induction text generalizing m n with
  | nil =>
      rw [takeBytes_nil]
      exact List.nil_prefix
  | cons c rest ih =>
      cases m with
      | zero => exact List.nil_prefix
      | succ m =>
          obtain ⟨n, rfl⟩ : ∃ k, n = k + 1 := ⟨n - 1, by omega⟩
          exact List.cons_prefix_cons.mpr ⟨rfl, ih (by omega)⟩

/-- A later offset has no earlier place, also inside a character. -/
theorem positionAt_mono (text : List Char) {m n : Nat} (h : m ≤ n) :
    positionAt text m ≤ positionAt text n := by
  obtain ⟨rest, hRest⟩ := takeBytes_isPrefix_of_le text h
  rw [positionAt, positionAt, ← hRest, List.foldl_append]
  exact le_foldl_advance rest _

/-! Offsets between characters. -/

/-- The offsets at which a character begins or the text ends. -/
def IsBoundary (text : List Char) (offset : Nat) : Prop :=
  ∃ before, before <+: text ∧ byteLength before = offset

/-- The place of an offset is where the characters before it lead. -/
theorem positionAt_of_isPrefix (h : a <+: text) :
    positionAt text (byteLength a) = a.foldl advance .origin := by
  obtain ⟨after, rfl⟩ := h
  rw [positionAt, takeBytes_byteLength]

theorem isBoundary_le (h : IsBoundary text k) : k ≤ byteLength text := by
  obtain ⟨before, hBefore, rfl⟩ := h
  exact byteLength_le_of_isPrefix hBefore

/-- What reaches beyond the beginning of a character reaches its end. -/
theorem byteLength_concat_le {c : Char} {n : Nat} (ha : a ++ [c] <+: text) (hn : IsBoundary text n)
    (hLt : byteLength a < n) : byteLength (a ++ [c]) ≤ n := by
  obtain ⟨b, hb, rfl⟩ := hn
  rcases List.prefix_or_prefix_of_prefix ha hb with hLong | hShort
  · exact byteLength_le_of_isPrefix hLong
  · rcases List.prefix_concat_iff.mp hShort with rfl | hShorter
    · exact Nat.le_refl _
    · exact absurd hLt (Nat.not_lt.mpr (byteLength_le_of_isPrefix hShorter))

/-- The text between two offsets goes on with the text between the later one and a third. -/
theorem slice_append_slice {i j : Nat} (hi : IsBoundary text i) (hj : IsBoundary text j)
    (hij : i ≤ j) (hjk : j ≤ k) : slice i j text ++ slice j k text = slice i k text := by
  rcases Nat.lt_or_eq_of_le hij with hLt | rfl
  · obtain ⟨before, hBefore, rfl⟩ := hi
    obtain ⟨upTo, hUpTo, rfl⟩ := hj
    obtain ⟨inside, rfl⟩ := isPrefix_of_byteLength_lt hBefore hUpTo hLt
    obtain ⟨after, rfl⟩ := hUpTo
    have hWhole : k - byteLength before =
        byteLength inside + (k - byteLength (before ++ inside)) := by
      rw [byteLength_append] at hjk ⊢
      omega
    rw [slice_byteLength, slice, dropBytes_byteLength, slice, List.append_assoc,
      dropBytes_byteLength, hWhole, takeBytes_append]
  · rw [slice, Nat.sub_self, takeBytes_zero, List.nil_append]

/-- The text between two offsets that are in order and between characters. -/
theorem exists_slice (hi : IsBoundary text i) (hj : IsBoundary text j) (hij : i ≤ j) :
    ∃ before after, text = before ++ slice i j text ++ after ∧ byteLength before = i ∧
      byteLength (before ++ slice i j text) = j := by
  obtain ⟨before, hBefore, rfl⟩ := hi
  obtain ⟨upTo, hUpTo, rfl⟩ := hj
  obtain ⟨inside, rfl⟩ := isPrefix_of_byteLength_le hBefore hUpTo hij
  obtain ⟨after, rfl⟩ := hUpTo
  rw [slice_byteLength]
  exact ⟨before, after, rfl, rfl, rfl⟩

def above (text : List Char) (n : Nat) : List Char := ((lines text).take n).flatten

theorem lineStart_eq (text : List Char) (n : Nat) : lineStart text n = byteLength (above text n) :=
  rfl

theorem above_isPrefix (text : List Char) {m n : Nat} (h : m ≤ n) :
    above text m <+: above text n := by
  obtain ⟨rest, hRest⟩ := List.take_prefix_take_left (l := lines text) h
  exact ⟨rest.flatten, by rw [above, above, ← List.flatten_append, hRest]⟩

/-- A line ends before any later line begins. -/
theorem above_append_isPrefix {n m : Nat} (h : lineText? text n = some line) (hLt : n < m) :
    above text n ++ line <+: above text m := by
  obtain ⟨whole, hWhole, rfl⟩ := Option.map_eq_some_iff.mp h
  have hNext : above text (n + 1) = above text n ++ whole := by
    rw [above, above, List.take_add_one, hWhole, List.flatten_append]
    simp
  refine List.IsPrefix.trans ?_ (above_isPrefix text hLt)
  rw [hNext]
  exact (List.prefix_append_right_inj _).mpr (lineText_isPrefix whole)

theorem above_append_isPrefix_text {n : Nat} (h : lineText? text n = some line) :
    above text n ++ line <+: text := by
  have hAll : above text (n + 1 + (lines text).length) = text := by
    rw [above, List.take_of_length_le (by omega), flatten_lines]
  have hPrefix := above_append_isPrefix h (m := n + 1 + (lines text).length) (by omega)
  rwa [hAll] at hPrefix

/-- The place at the end of all lines above a line is the beginning of that line. -/
theorem foldl_advance_above {n : Nat} (h : lineText? text n = some line) :
    (above text n).foldl advance .origin = ⟨n, 0⟩ := by
  obtain ⟨init, last, hLines, hInit, -⟩ := exists_lines text
  obtain ⟨whole, hWhole, -⟩ := Option.map_eq_some_iff.mp h
  obtain ⟨hLt, -⟩ := List.getElem?_eq_some_iff.mp hWhole
  have hLe : n ≤ init.length := by
    rw [hLines, List.length_append] at hLt
    exact Nat.lt_succ_iff.mp hLt
  rw [above, hLines, List.take_append_of_le_length hLe]
  have hPlace := foldl_advance_flatten (fun l hl => hInit l (List.mem_of_mem_take (i := n) hl)) 0
  rwa [List.length_take_of_le hLe, Nat.zero_add] at hPlace

/-- The offset of a place are the bytes of the lines above and of the columns before it. -/
theorem offsetAt_of_line {p : Position} (h : lineText? text p.line = some line) :
    offsetAt text p = byteLength (above text p.line ++ takeColumns p.character line) := by
  rw [offsetAt, h, byteLength_append]
  rfl

/-- A line that is not there is taken to the end of the text. -/
theorem offsetAt_of_no_line {p : Position} (h : lineText? text p.line = none) :
    offsetAt text p = byteLength text := by
  rw [offsetAt, h]

/-- Every place has an offset between characters. -/
theorem isBoundary_offsetAt (text : List Char) (p : Position) :
    IsBoundary text (offsetAt text p) := by
  cases h : lineText? text p.line with
  | none => exact ⟨text, List.prefix_refl text, (offsetAt_of_no_line h).symm⟩
  | some line =>
      refine ⟨_, ?_, (offsetAt_of_line h).symm⟩
      exact ((List.prefix_append_right_inj _).mpr (takeColumns_isPrefix _ _)).trans
        (above_append_isPrefix_text h)

/-- Above a line that is there every line is there. -/
theorem exists_lineText?_of_le {p q : Position} (h : p ≤ q)
    (hLine : lineText? text q.line = some line) : ∃ own, lineText? text p.line = some own := by
  obtain ⟨whole, hWhole, -⟩ := Option.map_eq_some_iff.mp hLine
  obtain ⟨hLt, -⟩ := List.getElem?_eq_some_iff.mp hWhole
  have hOwn : p.line < (lines text).length := by
    rw [Position.le_def] at h
    omega
  exact ⟨_, Option.map_eq_some_iff.mpr ⟨_, List.getElem?_eq_getElem hOwn, rfl⟩⟩

/-- A later place has no smaller offset. On a later line it is behind the whole of the first. -/
theorem offsetAt_mono {p q : Position} (h : p ≤ q) : offsetAt text p ≤ offsetAt text q := by
  cases hq : lineText? text q.line with
  | none =>
      rw [offsetAt_of_no_line hq]
      exact isBoundary_le (isBoundary_offsetAt text p)
  | some later =>
      rw [offsetAt_of_line hq]
      rcases h with hAbove | ⟨hLine, hColumn⟩
      · obtain ⟨line, hp⟩ := exists_lineText?_of_le (.inl hAbove) hq
        rw [offsetAt_of_line hp]
        have hColumns : above text p.line ++ takeColumns p.character line <+:
            above text p.line ++ line :=
          (List.prefix_append_right_inj _).mpr (takeColumns_isPrefix _ _)
        apply byteLength_le_of_isPrefix
        exact (hColumns.trans (above_append_isPrefix hp hAbove)).trans (List.prefix_append _ _)
      · rw [offsetAt_of_line (hLine ▸ hq), hLine]
        apply byteLength_le_of_isPrefix
        exact (List.prefix_append_right_inj _).mpr (takeColumns_mono later hColumn)

/-- The place behind a beginning of a line is on the line, behind the columns of the beginning. -/
theorem positionAt_above {n : Nat} (h : lineText? text n = some line) (ha : a <+: line) :
    positionAt text (byteLength (above text n ++ a)) = ⟨n, utf16Length a⟩ := by
  have hPrefix : above text n ++ a <+: text :=
    ((List.prefix_append_right_inj _).mpr ha).trans (above_append_isPrefix_text h)
  have hNoFeed : '\n' ∉ a := fun hFeed => feed_not_mem_lineText h (ha.subset hFeed)
  rw [positionAt_of_isPrefix hPrefix, List.foldl_append, foldl_advance_above h,
    foldl_advance_of_not_mem hNoFeed, Nat.zero_add]

/-- The place of a place's offset is on the same line, behind the columns taken. -/
theorem positionAt_offsetAt {p : Position} (h : lineText? text p.line = some line) :
    positionAt text (offsetAt text p) =
      ⟨p.line, utf16Length (takeColumns p.character line)⟩ := by
  rw [offsetAt_of_line h, positionAt_above h (takeColumns_isPrefix _ _)]

/-- A later offset has a later place. -/
theorem positionAt_lt (ha : a <+: text) (hb : b <+: text) (hLt : byteLength a < byteLength b) :
    positionAt text (byteLength a) < positionAt text (byteLength b) := by
  obtain ⟨rest, rfl⟩ := isPrefix_of_byteLength_lt ha hb hLt
  have hRest : rest ≠ [] := by
    rintro rfl
    simp at hLt
  rw [positionAt_of_isPrefix ha, positionAt_of_isPrefix hb, List.foldl_append]
  exact lt_foldl_advance _ hRest

/-- Offsets between characters are ordered as their places are. -/
theorem positionAt_lt_iff {m n : Nat} (hm : IsBoundary text m) (hn : IsBoundary text n) :
    positionAt text m < positionAt text n ↔ m < n := by
  constructor
  · intro h
    by_contra hLe
    have hOrder := positionAt_mono text (Nat.not_lt.mp hLe)
    exact Position.not_le.mpr h hOrder
  · obtain ⟨a, ha, rfl⟩ := hm
    obtain ⟨b, hb, rfl⟩ := hn
    exact positionAt_lt ha hb

/-- The place behind a beginning of a text is on the line that the end of the beginning
begins. -/
theorem exists_lastLine (a after : List Char) :
    ∃ n last rest, endPlace a = ⟨n, utf16Length last⟩ ∧ '\n' ∉ last ∧
      (lines (a ++ after))[n]? = some (last ++ rest) ∧ above (a ++ after) n ++ last = a := by
  obtain ⟨init, last, hLines, hInit, hLast⟩ := exists_lines a
  obtain ⟨first, more, hAfter⟩ := List.exists_cons_of_ne_nil (lines_ne_nil after)
  have hText := lines_append hLines hAfter
  have hBefore : a = init.flatten ++ last := by
    rw [← flatten_lines a, hLines, List.flatten_append, List.flatten_singleton]
  refine ⟨init.length, last, first, ?_, hLast, ?_, ?_⟩
  · have hAbove := foldl_advance_flatten hInit 0
    rw [← foldl_advance, hBefore, List.foldl_append, Position.origin, hAbove,
      foldl_advance_of_not_mem hLast, Nat.zero_add, Nat.zero_add]
  · rw [hText]
    simp
  · rw [above, hText]
    simp [hBefore]

/-- The line of an offset begins with what precedes the offset on it. -/
theorem exists_line_of_isPrefix (h : a <+: text) :
    ∃ n last line, positionAt text (byteLength a) = ⟨n, utf16Length last⟩ ∧
      lineText? text n = some (lineText line) ∧ last <+: line ∧
      byteLength a = lineStart text n + byteLength last := by
  obtain ⟨after, rfl⟩ := h
  obtain ⟨n, last, rest, hPlace, -, hLine, hBefore⟩ := exists_lastLine a after
  refine ⟨n, last, last ++ rest, ?_, ?_, List.prefix_append _ _, ?_⟩
  · rw [positionAt_byteLength, hPlace]
  · rw [lineText?, hLine]
    rfl
  · rw [lineStart_eq, ← byteLength_append, hBefore]

/-- The place of an offset is on a line of the text. -/
theorem exists_lineText?_positionAt (text : List Char) (offset : Nat) :
    ∃ line, lineText? text (positionAt text offset).line = some line := by
  have hTaken : takeBytes offset text <+: text := ⟨_, takeBytes_append_dropBytes offset text⟩
  obtain ⟨n, last, line, hPlace, hLine, -⟩ := exists_line_of_isPrefix hTaken
  rw [positionAt_of_isPrefix hTaken] at hPlace
  rw [positionAt, hPlace]
  exact ⟨_, hLine⟩

/-- An offset is given back by its place, up to the end of its line's text. -/
theorem offsetAt_positionAt (h : a <+: text) :
    ∃ line, lineText? text (positionAt text (byteLength a)).line = some line ∧
      offsetAt text (positionAt text (byteLength a)) =
        min (byteLength a)
          (lineStart text (positionAt text (byteLength a)).line + byteLength line) := by
  obtain ⟨n, last, line, hPlace, hLine, hLast, hBytes⟩ := exists_line_of_isPrefix h
  rw [hPlace]
  refine ⟨lineText line, hLine, ?_⟩
  rw [offsetAt_of_line hLine, byteLength_append, ← lineStart_eq, hBytes, Nat.add_min_add_left]
  congr 1
  rcases List.prefix_or_prefix_of_prefix hLast (lineText_isPrefix line) with hInside | hBehind
  · obtain ⟨rest, hRest⟩ := hInside
    rw [← hRest, takeColumns_utf16Length, Nat.min_eq_left]
    exact byteLength_le_of_isPrefix (List.prefix_append last rest)
  · rw [takeColumns_eq_self (utf16Length_le_of_isPrefix hBehind), Nat.min_eq_right]
    exact byteLength_le_of_isPrefix hBehind

/-- Offsets between characters and places of a text give each other back as far as lines and
characters allow. The characters that end a line count as one place with the end of its
text, and a column inside a character or past the end is taken to the next column there is.
Both ways keep the order. -/
theorem offsetAt_positionAt_inverse (text : List Char) :
    (∀ o, IsBoundary text o → ∃ line, lineText? text (positionAt text o).line = some line ∧
      offsetAt text (positionAt text o) =
        min o (lineStart text (positionAt text o).line + byteLength line)) ∧
    (∀ o₁ o₂, IsBoundary text o₁ → IsBoundary text o₂ → o₁ < o₂ →
      positionAt text o₁ < positionAt text o₂) ∧
    (∀ q, IsBoundary text (offsetAt text q)) ∧
    (∀ q₁ q₂, q₁ ≤ q₂ → offsetAt text q₁ ≤ offsetAt text q₂) ∧
    ∀ q line, lineText? text q.line = some line →
      (positionAt text (offsetAt text q)).line = q.line ∧
      ((∃ k, IsColumn line k ∧ q.character ≤ k) →
        IsLeast {k | IsColumn line k ∧ q.character ≤ k}
          (positionAt text (offsetAt text q)).character) ∧
      ((∀ k, IsColumn line k → k < q.character) →
        (positionAt text (offsetAt text q)).character = utf16Length line) := by
  refine ⟨?_, ?_, isBoundary_offsetAt text, fun _ _ => offsetAt_mono, fun q line hLine => ?_⟩
  · rintro o ⟨before, hBefore, rfl⟩
    exact offsetAt_positionAt hBefore
  · rintro o₁ o₂ ⟨a, ha, rfl⟩ ⟨b, hb, rfl⟩ hLt
    exact positionAt_lt ha hb hLt
  · rw [positionAt_offsetAt hLine]
    refine ⟨rfl, ?_, fun hBeyond => ?_⟩
    · rintro ⟨k, ⟨a, ha, rfl⟩, hReach⟩
      exact isLeast_takeColumns (Nat.le_trans hReach (utf16Length_le_of_isPrefix ha))
    · have hEnd := hBeyond _ ⟨line, List.prefix_refl line, rfl⟩
      exact congrArg utf16Length (takeColumns_eq_self (Nat.le_of_lt hEnd))

/-- A carriage return that ends a line, and a column between the halves of a pair. -/
theorem offsetAt_positionAt_inverse_pair :
    let text := ['a', '😀', '\r', '\n', 'b']
    IsBoundary text 6 ∧ positionAt text 6 = ⟨0, 4⟩ ∧ offsetAt text ⟨0, 4⟩ = 5 ∧
      lineText? text 0 = some ['a', '😀'] ∧
      IsLeast {k | IsColumn ['a', '😀'] k ∧ 2 ≤ k}
        (positionAt text (offsetAt text ⟨0, 2⟩)).character := by
  intro text
  have hBoundary : IsBoundary text 6 := ⟨['a', '😀', '\r'], ⟨['\n', 'b'], rfl⟩, by decide⟩
  have hPlace : positionAt text 6 = ⟨0, 4⟩ := by decide
  have hLine : lineText? text 0 = some ['a', '😀'] := by decide
  obtain ⟨hBack, -, -, -, hColumn⟩ := offsetAt_positionAt_inverse text
  refine ⟨hBoundary, hPlace, ?_, hLine, ?_⟩
  · obtain ⟨line, hOf, hOffset⟩ := hBack 6 hBoundary
    rw [hPlace] at hOf hOffset
    obtain rfl := Option.some.inj (hLine.symm.trans hOf)
    exact hOffset
  · exact (hColumn ⟨0, 2⟩ _ hLine).2.1 ⟨3, ⟨['a', '😀'], List.prefix_refl _, by decide⟩, by decide⟩

end ElmScope.Text
