import ElmScope.Completion.Cursor
import ElmScope.Proofs.Syntax.Span
import ElmScope.Proofs.Text.Insertion

/-! Where the node of a cursor is looked up. The place steps back over a character that ends a
word and over no other, so it is no later than the cursor and stays behind every mark that the
cursor is behind. -/
namespace ElmScope.Tree

open Text

/-- The place at which the node of a cursor is looked up: before the character right before the
cursor if that ends a word, and else at the cursor. -/
def cursorPlace (t : Tree) (p : Position) : Position :=
  match (t.textBefore p).getLast? with
  | some c => if endsWord c then ⟨p.line, utf16Length (t.textBefore p) - utf16Width c⟩ else p
  | none => p

variable {t : Tree} {p : Position} {before after : List Char} {c : Char}

/-- The node into which a cursor types is the deepest one at the place where it is looked up. -/
theorem nodeAtCursor_eq (t : Tree) (p : Position) :
    t.nodeAtCursor p = t.deepestAt (t.cursorPlace p) := by
  simp only [nodeAtCursor, cursorPlace]
  cases (t.textBefore p).getLast? with
  | none => rfl
  | some c => exact (apply_ite t.deepestAt (endsWord c = true) _ _).symm

/-- A cursor behind a word is looked up on the last character of the word. -/
theorem cursorPlace_cases (t : Tree) (p : Position) :
    t.cursorPlace p = p ∨ ∃ line front c, lineText? t.chars p.line = some line ∧
      takeColumns p.character line = front ++ [c] ∧ endsWord c = true ∧
      t.cursorPlace p = ⟨p.line, utf16Length front⟩ := by
  unfold cursorPlace
  split
  · next c hLast =>
    split
    · next hWord =>
      obtain ⟨front, hBefore⟩ := List.getLast?_eq_some_iff.mp hLast
      rw [textBefore] at hBefore
      split at hBefore
      · simp at hBefore
      · next line hLine =>
        refine .inr ⟨line, front, c, hLine, hBefore, hWord, ?_⟩
        simp [textBefore, hLine, hBefore, utf16Length_append, utf16Length]
    · exact .inl rfl
  · exact .inl rfl

/-- The place is no later than the cursor, since a character counts as before the cursor only if it
begins before it. -/
theorem cursorPlace_le (t : Tree) (p : Position) : t.cursorPlace p ≤ p := by
  rcases t.cursorPlace_cases p with h | ⟨line, front, c, -, hBefore, -, h⟩
  · rw [h]
    exact Position.le_refl p
  · rw [h]
    refine .inr ⟨rfl, Nat.le_of_lt (Nat.lt_of_not_le fun hReach => ?_)⟩
    have hFront : front <+: line :=
      (hBefore ▸ List.prefix_append front [c]).trans (takeColumns_isPrefix _ line)
    have hShort := (takeColumns_isPrefix_of_le hFront hReach).length_le
    rw [hBefore, List.length_append, List.length_singleton] at hShort
    omega

/-- Behind a mark that neither ends a word nor a line, the place is behind the mark too: the
character that is stepped over is another one. -/
theorem le_cursorPlace (hSource : t.chars = before ++ c :: after) (hWord : endsWord c = false)
    (hLine : isLineEnd c = false) (h : endPlace (before ++ [c]) ≤ p) :
    endPlace (before ++ [c]) ≤ t.cursorPlace p := by
  rcases t.cursorPlace_cases p with hSame | ⟨line, front, x, hText, hBefore, hEnds, hBack⟩
  · rwa [hSame]
  · have hMarked : t.chars = before ++ [c] ++ after := by simp [hSource]
    have hKept : (before ++ [c]).getLast? ≠ some '\r' := by
      rw [List.getLast?_concat]
      rintro ⟨⟩
      exact absurd hLine (by decide)
    have hTaken : front ++ [x] <+: line := hBefore ▸ takeColumns_isPrefix _ line
    have hFront : front <+: line := (List.prefix_append _ _).trans hTaken
    have hAll : above t.chars p.line ++ front ++ [x] <+: t.chars := by
      rw [List.append_assoc]
      exact ((List.prefix_append_right_inj _).mpr hTaken).trans (above_append_isPrefix_text hText)
    have hBytes : byteLength (before ++ [c]) ≤
        byteLength (above t.chars p.line ++ front ++ [x]) := by
      have hOrder : offsetAt t.chars (endPlace (before ++ [c])) ≤ offsetAt t.chars p :=
        offsetAt_mono h
      rwa [hMarked, offsetAt_endPlace after hKept, ← hMarked, offsetAt_of_line hText, hBefore,
        ← List.append_assoc] at hOrder
    have hOther : c ≠ x := by
      rintro rfl
      exact absurd hEnds (by simp [hWord])
    have hInside := isPrefix_of_byteLength_le_concat (hMarked ▸ List.prefix_append _ after) hAll
      hOther hBytes
    rw [hBack, ← positionAt_above hText hFront, ← positionAt_byteLength (before ++ [c]) after,
      ← hMarked]
    exact positionAt_mono _ (byteLength_le_of_isPrefix hInside)

/-- The text of a cursor's line before the cursor is the last line of all that precedes it. -/
theorem textBefore_eq_takeTail {before line : List Char} (hBefore : before <+: t.chars)
    (hOffset : offsetAt t.chars p = byteLength before)
    (hLine : lineText? t.chars p.line = some line) :
    t.textBefore p = takeTail (· ≠ '\n') before := by
  have hColumns := takeColumns_isPrefix p.character line
  have hWritten : before = above t.chars p.line ++ takeColumns p.character line := by
    apply eq_of_byteLength_eq hBefore
    · exact ((List.prefix_append_right_inj _).mpr hColumns).trans (above_append_isPrefix_text hLine)
    · rw [← hOffset, offsetAt_of_line hLine]
  have hNoFeed : ∀ c ∈ takeColumns p.character line, decide (c ≠ '\n') = true := by
    intro c hc
    refine decide_eq_true ?_
    rintro rfl
    exact feed_not_mem_lineText hLine (hColumns.subset hc)
  have hAbove : ∀ c ∈ (above t.chars p.line).getLast?, decide (c ≠ '\n') = false := by
    intro c hc
    simpa using getLast?_above hLine c hc
  rw [hWritten, takeTail_append hNoFeed hAbove, textBefore, hLine]

end ElmScope.Tree
