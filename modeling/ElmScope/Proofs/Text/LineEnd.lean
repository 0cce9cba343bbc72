import ElmScope.Proofs.Text.Place
import ElmScope.Proofs.Text.Tail

/-! Offsets among the characters that end a line. All of them have later places than the end of
the line's text, but these places lead back to that end. So a place can have a smaller offset
than one that is no later, and this happens exactly behind a carriage return at the end of the
later place's line. -/
namespace ElmScope.Text

variable {text a : List Char} {p : Position} {offset : Nat}

/-- An offset stands behind a carriage return among the characters that end a line. -/
def IsInLineEnd (text : List Char) (line offset : Nat) : Prop :=
  ∃ whole front, (lines text)[line]? = some whole ∧ lineText whole <+: front ∧
    front ++ ['\r'] <+: whole ∧ offset = lineStart text line + byteLength (front ++ ['\r'])

/-- A place on a later line has no smaller offset. -/
theorem byteLength_le_offsetAt (ha : a <+: text)
    (h : (positionAt text (byteLength a)).line < p.line) : byteLength a ≤ offsetAt text p := by
  cases hLine : lineText? text p.line with
  | none =>
      rw [offsetAt_of_no_line hLine]
      exact byteLength_le_of_isPrefix ha
  | some line =>
      have hAbove : positionAt text (byteLength (above text p.line)) = ⟨p.line, 0⟩ := by
        have hBegin := positionAt_above hLine List.nil_prefix
        rwa [List.append_nil] at hBegin
      rw [offsetAt_of_line hLine, byteLength_append]
      by_contra hLt
      have hOrder := positionAt_mono text (m := byteLength (above text p.line))
        (n := byteLength a) (by omega)
      simp only [hAbove, Position.le_def] at hOrder
      omega

theorem IsInLineEnd.offsetAt_lt (h : IsInLineEnd text p.line offset) :
    offsetAt text p < offset := by
  obtain ⟨whole, front, hLine, hBehind, -, rfl⟩ := h
  have hText : lineText? text p.line = some (lineText whole) := by
    rw [lineText?, hLine, Option.map_some]
  have hColumns := byteLength_le_of_isPrefix ((takeColumns_isPrefix p.character _).trans hBehind)
  have hReturn : byteLength ['\r'] = 1 := rfl
  rw [offsetAt_of_line hText, byteLength_append, ← lineStart_eq, byteLength_append front, hReturn]
  omega

/-- A beginning of a line that goes on behind the line's text ends with a carriage return. -/
theorem exists_return_of_byteLength_lt {last rest : List Char} (hNoFeed : '\n' ∉ last)
    (h : byteLength (lineText (last ++ rest)) < byteLength last) :
    ∃ front, last = front ++ ['\r'] ∧ lineText (last ++ rest) <+: front := by
  obtain ⟨tail, hTail⟩ := isPrefix_of_byteLength_lt (lineText_isPrefix _)
    (List.prefix_append last rest) h
  have hWhole : lineText (last ++ rest) ++ (tail ++ rest) =
      lineText (last ++ rest) ++ takeTail isLineEnd (last ++ rest) := by
    rw [← List.append_assoc, hTail]
    exact (dropTail_append_takeTail isLineEnd (last ++ rest)).symm
  have hCut := List.append_cancel_left hWhole
  rcases List.eq_nil_or_concat tail with rfl | ⟨front, c, rfl⟩
  · rw [List.append_nil] at hTail
    exact absurd h (by rw [hTail]; exact Nat.lt_irrefl _)
  · rw [List.concat_eq_append] at hTail hCut
    have hMem : c ∈ takeTail isLineEnd (last ++ rest) := by simp [← hCut]
    have hEnds := of_mem_takeTail hMem
    have hFeed : c ≠ '\n' := by
      rintro rfl
      refine hNoFeed ?_
      rw [← hTail]
      simp
    obtain rfl : c = '\r' := by simpa [isLineEnd, hFeed] using hEnds
    exact ⟨lineText (last ++ rest) ++ front, by rw [List.append_assoc, hTail],
      List.prefix_append _ _⟩

/-- A place that is no earlier than that of an offset has a smaller offset only where the first
offset stands among the characters that end the line of the place, for it is cut to the end of the
line's text. -/
theorem offsetAt_lt_iff (hOffset : IsBoundary text offset) (h : positionAt text offset ≤ p) :
    offsetAt text p < offset ↔ IsInLineEnd text p.line offset := by
  refine ⟨fun hLt => ?_, IsInLineEnd.offsetAt_lt⟩
  obtain ⟨a, ⟨after, rfl⟩, rfl⟩ := hOffset
  obtain ⟨n, last, rest, hPlace, hNoFeed, hLine, hBefore⟩ := exists_lastLine a after
  have hStart := positionAt_byteLength a after
  have hSame : n = p.line := by
    rw [hStart, hPlace] at h
    rcases h with hAbove | ⟨hSame, -⟩
    · refine absurd (byteLength_le_offsetAt (List.prefix_append a after) ?_) (Nat.not_le.mpr hLt)
      rwa [hStart, hPlace]
    · exact hSame
  subst hSame
  obtain ⟨line, hText, hCut⟩ := offsetAt_positionAt (List.prefix_append a after)
  have hOrder : offsetAt (a ++ after) (positionAt (a ++ after) (byteLength a)) ≤
      offsetAt (a ++ after) p := offsetAt_mono h
  simp only [hStart, hPlace] at hText hCut hOrder
  rw [lineText?, hLine, Option.map_some] at hText
  obtain rfl := Option.some.inj hText
  have hBytes : byteLength a = lineStart (a ++ after) p.line + byteLength last := by
    rw [lineStart_eq, ← byteLength_append, hBefore]
  have hBehind : byteLength (lineText (last ++ rest)) < byteLength last := by omega
  obtain ⟨front, hFront⟩ := exists_return_of_byteLength_lt hNoFeed hBehind
  refine ⟨last ++ rest, front, hLine, hFront.2, ?_, ?_⟩
  · exact hFront.1 ▸ List.prefix_append last rest
  · rw [← hFront.1, hBytes]

end ElmScope.Text
