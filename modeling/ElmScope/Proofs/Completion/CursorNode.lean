import ElmScope.Proofs.Completion.Cursor
import ElmScope.Proofs.Syntax.Adjacent

/-! The node into which a cursor types. Behind a character of a word it is the deepest named node
over that character, and elsewhere the deepest one over the cursor. Nothing lies below a name, so a
cursor inside a name or right behind it types into the name. -/
namespace ElmScope

namespace Tree

open Text

/-- A node is the deepest of the named nodes with a property, or the root when there are none. -/
structure IsDeepestNamed (t : Tree) (holds : Nat → Prop) (n : Nat) : Prop where
  deepest : ∀ m ∈ t.reachable, holds m → t.isNamed m = true →
    n ∈ t.reachable ∧ holds n ∧ t.isNamed n = true ∧ (m = n ∨ m ∈ t.ancestors n)
  root_of_none : (∀ m ∈ t.reachable, holds m → t.isNamed m = false) → n = root

structure CoversPlace (t : Tree) (p : Position) (n : Nat) : Prop where
  start_le : t.start n ≤ p
  lt_stop : p < t.stop n

/-- A node covers the whole of the character that stands behind a beginning of the source. -/
structure CoversCharacter (t : Tree) (before : List Char) (c : Char) (n : Nat) : Prop where
  startByte_le : t.startByte n ≤ byteLength before
  le_endByte : byteLength (before ++ [c]) ≤ t.endByte n

/-- A leaf that is written as a word, as names are. -/
structure IsWordLeaf (t : Tree) (n : Nat) : Prop where
  reached : n ∈ t.reachable
  named : t.isNamed n = true
  leaf : t.children n = []
  written : (t.text n).toList ≠ []
  word : ∀ c ∈ (t.text n).toList, endsWord c = true

variable {t : Tree} {holds other : Nat → Prop} {p : Position} {n m : Nat}
  {before inside after line : List Char} {c : Char}

/-- No two nodes are the deepest. -/
theorem IsDeepestNamed.unique (hn : t.IsDeepestNamed holds n) (hm : t.IsDeepestNamed holds m) :
    n = m := by
  by_cases hAny : ∃ k ∈ t.reachable, holds k ∧ t.isNamed k = true
  · obtain ⟨k, hk, hOver, hNamed⟩ := hAny
    obtain ⟨hnReached, hnOver, hnNamed, -⟩ := hn.deepest k hk hOver hNamed
    obtain ⟨hmReached, hmOver, hmNamed, -⟩ := hm.deepest k hk hOver hNamed
    obtain ⟨-, -, -, hBelow⟩ := hn.deepest m hmReached hmOver hmNamed
    obtain ⟨-, -, -, hAbove⟩ := hm.deepest n hnReached hnOver hnNamed
    rcases hBelow with rfl | hBelow
    · rfl
    · refine hAbove.resolve_right fun hAbove => ?_
      exact Nat.lt_asymm (lt_of_mem_ancestors hBelow) (lt_of_mem_ancestors hAbove)
  · have hNone : ∀ k ∈ t.reachable, holds k → t.isNamed k = false := by
      intro k hk hOver
      by_contra hNamed
      exact hAny ⟨k, hk, hOver, by simpa using hNamed⟩
    rw [hn.root_of_none hNone, hm.root_of_none hNone]

/-- It only matters which nodes of the tree have the property. -/
theorem IsDeepestNamed.congr (h : ∀ m ∈ t.reachable, holds m ↔ other m) :
    t.IsDeepestNamed holds n ↔ t.IsDeepestNamed other n := by
  have hOneWay : ∀ {holds other : Nat → Prop}, (∀ m ∈ t.reachable, holds m ↔ other m) →
      t.IsDeepestNamed holds n → t.IsDeepestNamed other n := by
    intro holds other h hn
    refine ⟨fun m hm hOther hNamed => ?_, fun hNone => ?_⟩
    · obtain ⟨hReached, hOver, hRest⟩ := hn.deepest m hm ((h m hm).mpr hOther) hNamed
      exact ⟨hReached, (h n hReached).mp hOver, hRest⟩
    · exact hn.root_of_none fun m hm hOver => hNone m hm ((h m hm).mp hOver)
  exact ⟨hOneWay h, hOneWay fun m hm => (h m hm).symm⟩

theorem spans_empty_iff : t.spans (.empty p) n = true ↔ t.CoversPlace p n := by
  rw [spans_iff]
  constructor
  · rintro ⟨hStart, -, hStop⟩
    exact ⟨hStart, hStop⟩
  · rintro ⟨hStart, hStop⟩
    refine ⟨hStart, ?_, hStop⟩
    simp only [Range.empty, Position.le_def, Position.lt_def] at hStop ⊢
    omega

/-- The look-up at a place finds the deepest named node over it. -/
theorem isDeepestNamed_deepestAt (t : Tree) (p : Position) :
    t.IsDeepestNamed (t.CoversPlace p) (t.deepestAt p) := by
  refine (IsDeepestNamed.congr fun m _ => spans_empty_iff).mp ?_
  rw [deepestAt, deepestOver]
  rcases t.descend_cases (.empty p) root root with
    ⟨hRoot, hUnnamed⟩ | ⟨hBelow, hSpans, hNamed, hAll⟩
  · rw [hRoot]
    refine ⟨fun m hm hOver hmNamed => ?_, fun _ => rfl⟩
    rcases List.mem_cons.mp hm with rfl | hm
    · exact ⟨root_mem_reachable, hOver, hmNamed, .inl rfl⟩
    · exact absurd (hUnnamed m hm hOver) (by simp [hmNamed])
  · have hReached := List.mem_cons_of_mem root hBelow
    refine ⟨fun m hm hOver hmNamed => ⟨hReached, hSpans, hNamed, ?_⟩, fun hNone => ?_⟩
    · rcases List.mem_cons.mp hm with rfl | hm
      · exact .inr (mem_descendants_iff_mem_ancestors.mp hBelow)
      · exact hAll m hm hOver hmNamed
    · exact absurd (hNone _ hReached hSpans) (by simp [hNamed])

/-- The last character before a cursor stands in the source right before the cursor's offset. -/
theorem exists_before_of_getLast? (h : (t.textBefore p).getLast? = some c) :
    ∃ before, before ++ [c] <+: t.chars ∧ byteLength (before ++ [c]) = offsetAt t.chars p ∧
      endPlace before = ⟨p.line, utf16Length (t.textBefore p) - utf16Width c⟩ := by
  obtain ⟨front, hFront⟩ := List.getLast?_eq_some_iff.mp h
  obtain ⟨line, hLine⟩ : ∃ line, lineText? t.chars p.line = some line := by
    refine Option.ne_none_iff_exists'.mp fun hNone => ?_
    simp [textBefore, hNone] at h
  have hColumns : takeColumns p.character line = front ++ [c] := by
    rw [← hFront, textBefore, hLine]
  have hTaken : front ++ [c] <+: line := hColumns ▸ takeColumns_isPrefix p.character line
  have hInside : front <+: line := (List.prefix_append front [c]).trans hTaken
  have hSource := above_append_isPrefix_text hLine
  refine ⟨above t.chars p.line ++ front, ?_, ?_, ?_⟩
  · rw [List.append_assoc]
    exact ((List.prefix_append_right_inj _).mpr hTaken).trans hSource
  · rw [List.append_assoc, ← hColumns, offsetAt_of_line hLine]
  · have hPrefix := ((List.prefix_append_right_inj _).mpr hInside).trans hSource
    rw [← foldl_advance, ← positionAt_of_isPrefix hPrefix, positionAt_above hLine hInside, hFront,
      utf16Length_append]
    simp [utf16Length]

/-- Over the place of a character is what covers the character. -/
theorem coversPlace_iff (hn : n ∈ t.reachable) (h : before ++ [c] <+: t.chars) :
    t.CoversPlace (endPlace before) n ↔ t.CoversCharacter before c n := by
  have hPrefix : before <+: t.chars := (List.prefix_append before [c]).trans h
  have hBoundary : IsBoundary t.chars (byteLength before) := ⟨before, hPrefix, rfl⟩
  have hStart := isBoundary_startByte (lt_size_of_mem_reachable hn)
  have hStop := isBoundary_endByte (lt_size_of_mem_reachable hn)
  have hPlace : endPlace before = positionAt t.chars (byteLength before) := by
    rw [positionAt_of_isPrefix hPrefix, foldl_advance]
  have hStarts : t.start n ≤ endPlace before ↔ t.startByte n ≤ byteLength before := by
    rw [← not_iff_not, Position.not_le, Nat.not_le, hPlace, start_eq]
    exact positionAt_lt_iff hBoundary hStart
  have hEnds : endPlace before < t.stop n ↔ byteLength (before ++ [c]) ≤ t.endByte n := by
    rw [hPlace, stop_eq]
    refine (positionAt_lt_iff hBoundary hStop).trans ⟨byteLength_concat_le h hStop, fun hReach => ?_⟩
    have := c.utf8Size_pos
    rw [byteLength_append, byteLength, byteLength] at hReach
    omega
  constructor
  · rintro ⟨hLe, hLt⟩
    exact ⟨hStarts.mp hLe, hEnds.mp hLt⟩
  · rintro ⟨hLe, hLt⟩
    exact ⟨hStarts.mpr hLe, hEnds.mpr hLt⟩

/-- Behind a character of a word the cursor is in the deepest named node over the character. -/
theorem isDeepestNamed_of_endsWord (h : (t.textBefore p).getLast? = some c)
    (hWord : endsWord c = true) :
    ∃ before, before ++ [c] <+: t.chars ∧ byteLength (before ++ [c]) = offsetAt t.chars p ∧
      t.IsDeepestNamed (t.CoversCharacter before c) (t.nodeAtCursor p) := by
  obtain ⟨before, hPrefix, hOffset, hPlace⟩ := exists_before_of_getLast? h
  refine ⟨before, hPrefix, hOffset, (IsDeepestNamed.congr fun m hm => coversPlace_iff hm hPrefix).mp ?_⟩
  have hBack : t.cursorPlace p = endPlace before := by
    rw [hPlace, cursorPlace, h]
    exact if_pos hWord
  rw [nodeAtCursor_eq, hBack]
  exact t.isDeepestNamed_deepestAt _

/-- Behind any other character, and at the beginning of a line, it is in the deepest named node
over itself. -/
theorem isDeepestNamed_of_not_endsWord
    (h : ∀ c ∈ (t.textBefore p).getLast?, endsWord c = false) :
    t.IsDeepestNamed (t.CoversPlace p) (t.nodeAtCursor p) := by
  have hStays : t.cursorPlace p = p := by
    rw [cursorPlace]
    split
    · next c hLast => rw [if_neg (by simp [h c hLast])]
    · rfl
  rw [nodeAtCursor_eq, hStays]
  exact t.isDeepestNamed_deepestAt p

/-- Nothing is below a leaf. -/
theorem not_mem_ancestors_of_leaf (h : t.children n = []) : n ∉ t.ancestors m := by
  rw [← mem_descendants_iff_mem_ancestors, descendants_eq, h, List.flatMap_nil]
  exact List.not_mem_nil

/-- A cursor whose offset is inside a word or at its end is in the leaf of the word, since nothing
but some of the word stands between its beginning and the cursor. -/
theorem IsWordLeaf.nodeAtCursor_eq (hn : t.IsWordLeaf n)
    (hLine : lineText? t.chars p.line = some line) (hAfter : t.startByte n < offsetAt t.chars p)
    (hBefore : offsetAt t.chars p ≤ t.endByte n) : t.nodeAtCursor p = n := by
  obtain ⟨before, inside, after, hCovers⟩ := exists_covers (lt_size_of_mem_reachable hn.reached)
  obtain ⟨reached, hReached, hOffset⟩ := isBoundary_offsetAt t.chars p
  have hWhole : before ++ inside <+: t.chars := ⟨after, hCovers.source.symm⟩
  have hFirst : before <+: t.chars := (List.prefix_append before inside).trans hWhole
  rw [← hOffset, hCovers.startByte] at hAfter
  rw [← hOffset, hCovers.endByte] at hBefore
  obtain ⟨typed, rfl⟩ := isPrefix_of_byteLength_lt hFirst hReached hAfter
  have hTyped : typed <+: inside :=
    (List.prefix_append_right_inj before).mp (isPrefix_of_byteLength_le hReached hWhole hBefore)
  obtain ⟨front, c, rfl⟩ : ∃ front c, typed = front ++ [c] := by
    rcases List.eq_nil_or_concat typed with rfl | ⟨front, c, hTyped⟩
    · simp at hAfter
    · exact ⟨front, c, hTyped.trans List.concat_eq_append⟩
  have hEnds : endsWord c = true := by
    refine hn.word c ?_
    rw [hCovers.text, String.toList_ofList]
    exact hTyped.subset (List.mem_append_right front (List.mem_singleton_self c))
  have hNoFeed : c ≠ '\n' := by
    rintro rfl
    exact absurd hEnds (by decide +kernel)
  have hLast : (t.textBefore p).getLast? = some c := by
    rw [textBefore_eq_takeTail hReached hOffset.symm hLine, ← List.append_assoc,
      takeTail_append_of_pos (by simpa using hNoFeed), List.getLast?_concat]
  obtain ⟨upTo, hUpTo, hSame, hDeepest⟩ := isDeepestNamed_of_endsWord hLast hEnds
  have hCut : upTo ++ [c] = before ++ front ++ [c] := by
    rw [List.append_assoc]
    exact eq_of_byteLength_eq hUpTo hReached (hSame.trans hOffset.symm)
  obtain ⟨rfl, -⟩ := List.append_inj' hCut rfl
  have hOver : t.CoversCharacter (before ++ front) c n := by
    refine ⟨?_, ?_⟩
    · rw [hCovers.startByte]
      exact byteLength_le_of_isPrefix (List.prefix_append before front)
    · rwa [hCovers.endByte, List.append_assoc]
  obtain ⟨-, -, -, hFound⟩ := hDeepest.deepest n hn.reached hOver hn.named
  exact (hFound.resolve_right (not_mem_ancestors_of_leaf hn.leaf)).symm

/-- The leaf of a word begins and ends on one line, and its ends lead back to its offsets. -/
theorem IsWordLeaf.places (hn : t.IsWordLeaf n) : (t.start n).line = (t.stop n).line ∧
    t.startByte n < t.endByte n ∧ offsetAt t.chars (t.stop n) = t.endByte n := by
  obtain ⟨before, inside, after, hCovers⟩ := exists_covers (lt_size_of_mem_reachable hn.reached)
  have hText : (t.text n).toList = inside := by rw [hCovers.text, String.toList_ofList]
  have hWord := hText ▸ hn.word
  have hOther : ∀ c, endsWord c = false → c ∉ inside := by
    intro c hc hMem
    exact absurd (hWord c hMem) (by simp [hc])
  have hNoFeed : inside.count '\n' = 0 :=
    List.count_eq_zero_of_not_mem (hOther '\n' (by decide +kernel))
  have hKept : (before ++ inside).getLast? ≠ some '\r' := by
    rw [List.getLast?_append]
    intro h
    rcases Option.or_eq_some_iff.mp h with hIn | ⟨hNone, -⟩
    · exact hOther '\r' (by decide +kernel) (List.mem_of_getLast? hIn)
    · exact hn.written (hText.trans (List.getLast?_eq_none_iff.mp hNone))
  refine ⟨?_, ?_, ?_⟩
  · rw [hCovers.start, hCovers.stop, endPlace, endPlace, List.count_append, hNoFeed, Nat.add_zero]
  · rw [hCovers.startByte, hCovers.endByte, byteLength_append]
    obtain ⟨c, rest, hInside⟩ := List.exists_cons_of_ne_nil (hText ▸ hn.written)
    have := c.utf8Size_pos
    rw [hInside, byteLength]
    omega
  · rw [hCovers.stop, chars, hCovers.source, hCovers.endByte]
    exact offsetAt_endPlace after hKept

/-- A cursor inside a word or right behind it is in the leaf of the word. If the cursor is taken to
another place, then to a later one or to the end of the line, which is no earlier than the end of
the word. -/
theorem IsWordLeaf.nodeAtCursor_inside (hn : t.IsWordLeaf n) (hAfter : t.start n < p)
    (hBefore : p ≤ t.stop n) : t.nodeAtCursor p = n := by
  obtain ⟨hOneLine, hWritten, hEnd⟩ := hn.places
  obtain ⟨line, hLine⟩ : ∃ line, lineText? t.chars p.line = some line := by
    obtain ⟨last, hLast⟩ := exists_lineText?_positionAt t.chars (t.endByte n)
    rw [chars, ← stop_eq] at hLast
    exact exists_lineText?_of_le hBefore hLast
  refine hn.nodeAtCursor_eq hLine ?_ (hEnd ▸ offsetAt_mono hBefore)
  rcases le_utf16Length_takeColumns p.character line with hReach | hAll
  · have hTaken : t.start n < positionAt t.chars (offsetAt t.chars p) := by
      rw [positionAt_offsetAt hLine]
      simp only [Position.lt_def] at hAfter ⊢
      omega
    rw [start_eq] at hTaken
    exact (positionAt_lt_iff (isBoundary_startByte (lt_size_of_mem_reachable hn.reached))
      (isBoundary_offsetAt t.chars p)).mp hTaken
  · have hSame : p.line = (t.stop n).line := by
      simp only [Position.lt_def, Position.le_def] at hAfter hBefore
      omega
    refine Nat.lt_of_lt_of_le hWritten ?_
    rw [← hEnd, offsetAt_of_line hLine, hAll, offsetAt_of_line (hSame ▸ hLine), hSame]
    exact byteLength_le_of_isPrefix
      ((List.prefix_append_right_inj _).mpr (takeColumns_isPrefix _ line))

/-- A cursor beyond the end of a line that a word ends is in the leaf of the word. -/
theorem IsWordLeaf.nodeAtCursor_beyond (hn : t.IsWordLeaf n)
    (hLine : lineText? t.chars p.line = some line) (hStop : t.stop n = ⟨p.line, utf16Length line⟩)
    (hBeyond : utf16Length line ≤ p.character) : t.nodeAtCursor p = n := by
  obtain ⟨-, hWritten, hEnd⟩ := hn.places
  have hLast := offsetAt_of_line (p := t.stop n) (by rwa [hStop])
  have hOffset : offsetAt t.chars p = t.endByte n := by
    rw [← hEnd, hLast, hStop, offsetAt_of_line hLine, takeColumns_eq_self hBeyond,
      takeColumns_eq_self (Nat.le_refl _)]
  exact hn.nodeAtCursor_eq hLine (hOffset ▸ hWritten) (Nat.le_of_eq hOffset)

/-- The node of a cursor is what is being typed. When the text before the cursor ends with a letter,
a digit or an underscore, it is the deepest named node over the whole of that character, which
stands right before the cursor in the source; else it is the deepest named node that begins at or
before the cursor and ends after it. So a cursor inside a word or right behind it is in the leaf of
the word, wherever its column is in a character, also beyond the end of the line, and one right
before a word unless another word ends there. -/
theorem nodeAtCursor_isDeepest (t : Tree) (p : Position) :
    (∀ c, (t.textBefore p).getLast? = some c → endsWord c = true →
      ∃ before after, t.chars = before ++ c :: after ∧
        byteLength (before ++ [c]) = offsetAt t.chars p ∧
        ∀ n, t.IsDeepestNamed (t.CoversCharacter before c) n ↔ n = t.nodeAtCursor p) ∧
    ((∀ c ∈ (t.textBefore p).getLast?, endsWord c = false) →
      ∀ n, t.IsDeepestNamed (t.CoversPlace p) n ↔ n = t.nodeAtCursor p) ∧
    (∀ n, t.IsWordLeaf n → t.start n < p → p ≤ t.stop n → t.nodeAtCursor p = n) ∧
    (∀ n line, t.IsWordLeaf n → lineText? t.chars p.line = some line →
      t.stop n = ⟨p.line, utf16Length line⟩ → utf16Length line ≤ p.character →
      t.nodeAtCursor p = n) ∧
    ∀ n, t.IsWordLeaf n → t.start n = p → (∀ c ∈ (t.textBefore p).getLast?, endsWord c = false) →
      t.nodeAtCursor p = n := by
  refine ⟨fun c hLast hWord => ?_, fun hOther n => ?_, fun n hn => hn.nodeAtCursor_inside,
    fun n line hn => hn.nodeAtCursor_beyond, fun n hn hStart hOther => ?_⟩
  · obtain ⟨before, ⟨after, hSource⟩, hOffset, hDeepest⟩ := isDeepestNamed_of_endsWord hLast hWord
    refine ⟨before, after, ?_, hOffset, fun n => ⟨fun hn => hn.unique hDeepest, ?_⟩⟩
    · rw [← hSource, List.append_assoc, List.singleton_append]
    · rintro rfl
      exact hDeepest
  · have hDeepest := isDeepestNamed_of_not_endsWord hOther
    exact ⟨fun hn => hn.unique hDeepest, fun hn => hn ▸ hDeepest⟩
  · obtain ⟨-, hWritten, -⟩ := hn.places
    have hSize := lt_size_of_mem_reachable hn.reached
    have hOver : t.CoversPlace p n := by
      refine ⟨hStart ▸ Position.le_refl _, ?_⟩
      rw [← hStart, start_eq, stop_eq]
      exact (positionAt_lt_iff (isBoundary_startByte hSize) (isBoundary_endByte hSize)).mpr hWritten
    obtain ⟨-, -, -, hFound⟩ :=
      (isDeepestNamed_of_not_endsWord hOther).deepest n hn.reached hOver hn.named
    exact (hFound.resolve_right (not_mem_ancestors_of_leaf hn.leaf)).symm

end Tree

namespace Sample

/-- The file `é = a𝒳`. -/
def scriptName : Tree := .ofEvents
  [.enter .file, .token .lowerCaseIdentifier "é", .gap " = ", .enter .valueExpr,
    .token .lowerCaseIdentifier "a𝒳", .leave, .leave]

end Sample

/-- A cursor between the halves of the last letter, and one far beyond the end of the line. -/
theorem Tree.nodeAtCursor_isDeepest_pair :
    Sample.scriptName.nodeAtCursor ⟨0, 6⟩ = 3 ∧ Sample.scriptName.nodeAtCursor ⟨0, 99⟩ = 3 ∧
      Sample.scriptName.nodeAtCursor ⟨0, 4⟩ = 3 ∧
      ∃ before after, Sample.scriptName.chars = before ++ '𝒳' :: after ∧
        Sample.scriptName.IsDeepestNamed (Sample.scriptName.CoversCharacter before '𝒳') 3 := by
  have hWord : Sample.scriptName.IsWordLeaf 3 :=
    ⟨by decide +kernel, by decide +kernel, by decide +kernel, by decide +kernel,
      List.all_eq_true.mp (by decide +kernel)⟩
  have hGap : (Sample.scriptName.textBefore ⟨0, 4⟩).getLast? = some ' ' := by decide +kernel
  have hStart : Sample.scriptName.start 3 = ⟨0, 4⟩ := by decide +kernel
  have hStop : Sample.scriptName.stop 3 = ⟨0, 7⟩ := by decide +kernel
  have hLine : Text.lineText? Sample.scriptName.chars 0 = some "é = a𝒳".toList := by decide +kernel
  obtain ⟨hCharacter, -, hInside, -⟩ := nodeAtCursor_isDeepest Sample.scriptName ⟨0, 6⟩
  obtain ⟨-, -, -, hBeyond, -⟩ := nodeAtCursor_isDeepest Sample.scriptName ⟨0, 99⟩
  obtain ⟨-, -, -, -, hBefore⟩ := nodeAtCursor_isDeepest Sample.scriptName ⟨0, 4⟩
  have hFound := hInside 3 hWord (by rw [hStart]; decide) (by rw [hStop]; decide)
  refine ⟨hFound, ?_, ?_, ?_⟩
  · exact hBeyond 3 _ hWord hLine (by rw [hStop]; decide +kernel) (by decide +kernel)
  · refine hBefore 3 hWord hStart fun c hc => ?_
    obtain rfl := Option.some.inj (hGap.symm.trans hc)
    decide +kernel
  · obtain ⟨before, after, hSource, -, hDeepest⟩ :=
      hCharacter '𝒳' (by decide +kernel) (by decide +kernel)
    exact ⟨before, after, hSource, (hDeepest 3).mpr hFound.symm⟩

end ElmScope
