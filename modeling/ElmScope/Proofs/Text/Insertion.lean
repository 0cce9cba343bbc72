import ElmScope.Proofs.Text.Place
import ElmScope.Proofs.Text.Tail

/-! Places that are given by what stands before them. The place behind a beginning of a text
leads back to the end of the beginning, unless the beginning stops among the characters that
end its line, and the beginning of the next line is behind the next line feed, if there is one. -/
namespace ElmScope.Text

variable {text a body : List Char} {c : Char}

/-- A text has one line more than line feeds. -/
theorem length_lines (text : List Char) : (lines text).length = text.count '\n' + 1 := by
  induction text with
  | nil => rfl
  | cons c rest ih =>
      rw [lines]
      split
      · next hFeed => rw [hFeed, List.length_cons, ih, List.count_cons_self]
      · next hOther =>
        rw [List.count_cons_of_ne hOther, ← ih]
        split
        · next hNone => exact absurd hNone (lines_ne_nil rest)
        · next hLines => rw [hLines, List.length_cons, List.length_cons]

/-- The text above a line ends with a line feed, if there is any. -/
theorem getLast?_above {line : List Char} {n : Nat}
    (h : lineText? text n = some line) :
    ∀ c ∈ (above text n).getLast?, c = '\n' := by
  have hPlace := foldl_advance_above h
  rw [foldl_advance, endPlace, Position.mk.injEq] at hPlace
  have hNone : takeTail (· ≠ '\n') (above text n) = [] := by
    cases hTail : takeTail (· ≠ '\n') (above text n) with
    | nil => rfl
    | cons c rest =>
        have := utf16Width_pos c
        rw [hTail, utf16Length] at hPlace
        omega
  have hAll := dropTail_append_takeTail (· ≠ '\n') (above text n)
  rw [hNone, List.append_nil] at hAll
  intro c hc
  rw [← hAll] at hc
  simpa using getLast?_dropTail hc

/-- A beginning that does not stop at a carriage return ends where the place behind it is. -/
theorem offsetAt_endPlace (after : List Char) (h : a.getLast? ≠ some '\r') :
    offsetAt (a ++ after) (endPlace a) = byteLength a := by
  obtain ⟨n, last, rest, hPlace, hNoFeed, hLine, hBefore⟩ := exists_lastLine a after
  have hText : lineText? (a ++ after) n = some (lineText (last ++ rest)) := by
    rw [lineText?, hLine]
    rfl
  have hKept : ∀ c ∈ last.getLast?, isLineEnd c = false := by
    intro c hc
    have hFeed : c ≠ '\n' := fun hFeed => hNoFeed (hFeed ▸ List.mem_of_getLast? hc)
    have hReturn : c ≠ '\r' := by
      rintro rfl
      rw [← hBefore, List.getLast?_append, Option.mem_def.mp hc, Option.some_or] at h
      exact h rfl
    simp [isLineEnd, hFeed, hReturn]
  obtain ⟨more, hMore⟩ := isPrefix_dropTail (List.prefix_append last rest) hKept
  have hOffset := offsetAt_of_line (p := ⟨n, utf16Length last⟩) hText
  rw [lineText, ← hMore, takeColumns_utf16Length, hBefore] at hOffset
  rw [hPlace, hOffset]

/-- Before a character that ends no line a beginning may stop at any character: the text of the
line reaches beyond it. -/
theorem offsetAt_endPlace_cons (a after : List Char) (h : isLineEnd c = false) :
    offsetAt (a ++ c :: after) (endPlace a) = byteLength a := by
  have hText : a ++ c :: after = a ++ [c] ++ after := by simp
  have hKept : (a ++ [c]).getLast? ≠ some '\r' := by
    rw [List.getLast?_concat]
    rintro ⟨⟩
    exact absurd h (by decide)
  have hSameLine : (endPlace (a ++ [c])).line = (endPlace a).line := by
    have hFeed : c ≠ '\n' := by
      rintro rfl
      exact absurd h (by decide)
    rw [endPlace_append_singleton, advance, if_neg hFeed]
  obtain ⟨line, hLine, hOffset⟩ := offsetAt_positionAt (List.prefix_append a (c :: after))
  obtain ⟨same, hSame, hBehind⟩ := offsetAt_positionAt (List.prefix_append (a ++ [c]) after)
  rw [positionAt_byteLength] at hLine hOffset hSame hBehind
  rw [offsetAt_endPlace after hKept, hSameLine, byteLength_append] at hBehind
  rw [hSameLine, ← hText, hLine] at hSame
  obtain rfl := Option.some.inj hSame
  rw [← hText] at hBehind
  rw [hOffset]
  omega

/-- Where a line feed follows, the next line begins behind it. -/
theorem endPlace_nextLine (a : List Char) (h : '\n' ∉ body) :
    endPlace (a ++ body ++ ['\n']) = ⟨(endPlace a).line + 1, 0⟩ := by
  rw [endPlace_append_singleton, advance, if_pos rfl]
  simp [endPlace, List.count_eq_zero_of_not_mem h]

/-- Where no line feed follows, there is no next line, and its place is the end of the text. -/
theorem offsetAt_noNextLine (a : List Char) (h : '\n' ∉ body) :
    offsetAt (a ++ body) ⟨(endPlace a).line + 1, 0⟩ = byteLength (a ++ body) ∧
      (endPlace (a ++ body)).line = (endPlace a).line := by
  have hCount : (a ++ body).count '\n' = (endPlace a).line := by
    rw [List.count_append, List.count_eq_zero_of_not_mem h]
    rfl
  have hNone : lineText? (a ++ body) ((endPlace a).line + 1) = none := by
    rw [lineText?, List.getElem?_eq_none (by rw [length_lines, hCount]), Option.map_none]
  exact ⟨offsetAt_of_no_line hNone, hCount⟩

end ElmScope.Text
