import ElmScope.Completion.RecordTarget
import ElmScope.Proofs.Module.Declaration
import ElmScope.Proofs.Syntax.Adjacent
import ElmScope.Proofs.Syntax.Span
import ElmScope.Proofs.Text.LineEnd

/-! The text before a cursor in which a record is looked for. It begins with the last node at
the top level that begins no later than the cursor. The search for that node stops at the first
one behind the cursor and yet misses none, since the nodes at the top level begin in order. The
text ends at the cursor, and the two ends are in order unless the node begins among the
characters that end the cursor's line: these count as one place before them. -/
namespace ElmScope

/-- Where nothing that passes a test comes after something that fails it, what precedes the
first failure is all that passes. -/
theorem takeWhile_eq_filter_of_pairwise {α : Type} {test : α → Bool} {l : List α}
    (h : l.Pairwise fun a b => test b = true → test a = true) :
    l.takeWhile test = l.filter test := by
  induction l with
  | nil => rfl
  | cons first rest ih =>
      obtain ⟨hFirst, hRest⟩ := List.pairwise_cons.mp h
      cases hTest : test first with
      | true => rw [List.takeWhile_cons_of_pos hTest, List.filter_cons_of_pos hTest, ih hRest]
      | false =>
          have hFails : ¬ test first = true := by simp [hTest]
          rw [List.takeWhile_cons_of_neg hFails, List.filter_cons_of_neg hFails, eq_comm,
            List.filter_eq_nil_iff]
          exact fun other hOther hPasses => hFails (hFirst other hOther hPasses)

open Text

namespace Tree

variable {t : Tree} {p : Position} {declarations : List Nat}

/-- The nodes at the top level begin in order. -/
theorem topLevel_starts (t : Tree) : t.topLevel.Pairwise fun m n => t.start m ≤ t.start n := by
  refine t.topLevel_sorted.imp_of_mem fun hm hn hLt => ?_
  have hApart := endByte_le_startByte_of_not_above (mem_reachable_of_mem_topLevel hn) hLt
    (not_above_of_mem_topLevel hm hn)
  rw [start_eq, start_eq]
  exact positionAt_mono _
    (Nat.le_trans (startByte_le_endByte (lt_size_of_mem_topLevel hm)) hApart)

/-- Of some nodes at the top level the search finds the last of all that begin no later than a
place. -/
theorem lastStarted?_eq (h : declarations.Sublist t.topLevel) (p : Position) :
    t.lastStarted? declarations p = (declarations.filter fun n => t.start n ≤ p).getLast? := by
  rw [lastStarted?, takeWhile_eq_filter_of_pairwise]
  refine (t.topLevel_starts.sublist h).imp fun hOrder hLater => ?_
  exact decide_eq_true (Position.le_trans hOrder (of_decide_eq_true hLater))

/-- The offset at which the text before a place begins: that of the last node at the top level
that begins no later than the place, or of the file if there is none. -/
def regionStart (t : Tree) (p : Position) : Nat :=
  ((t.lastStarted? t.topLevel p).map t.startByte).getD 0

theorem regionBefore_eq (t : Tree) (p : Position) :
    t.regionBefore p = slice (t.regionStart p) (offsetAt t.chars p) t.chars := rfl

/-- The text begins between characters, and not behind the place. -/
theorem regionStart_spec (t : Tree) (p : Position) :
    IsBoundary t.chars (t.regionStart p) ∧ positionAt t.chars (t.regionStart p) ≤ p := by
  cases hLast : t.lastStarted? t.topLevel p with
  | none =>
      rw [regionStart, hLast]
      refine ⟨⟨[], List.nil_prefix, rfl⟩, ?_⟩
      rw [Option.map_none, Option.getD_none, positionAt, takeBytes_zero]
      simp only [List.foldl_nil, Position.le_def, Position.origin]
      omega
  | some n =>
      have hMem := List.mem_of_getLast? hLast
      have hTop := (List.takeWhile_sublist _).subset hMem
      rw [regionStart, hLast, Option.map_some, Option.getD_some]
      refine ⟨isBoundary_startByte (lt_size_of_mem_topLevel hTop), ?_⟩
      rw [chars, ← start_eq]
      simpa using List.mem_takeWhile_imp hMem

/-- Where a record is looked for before a cursor. The nodes at the top level begin in order, so
the search that stops at the first one behind a place finds the last of all nodes there, and of
all value declarations there, that begin no later than the place. The text that is looked at
begins and ends between characters. It is exactly the source from the beginning of that node, or
of the file, to the place, unless the node begins behind a carriage return among the characters
that end the line of the place. Then, and only then, the two ends are out of order, and the text
is empty. -/
theorem regionBefore_lastStarted (t : Tree) :
    (t.topLevel.Pairwise fun m n => t.start m ≤ t.start n) ∧
    ∀ p : Position,
      t.lastStarted? t.topLevel p = (t.topLevel.filter fun n => t.start n ≤ p).getLast? ∧
      t.lastStarted? (t.topLevelOfKind .valueDeclaration) p =
        ((t.topLevelOfKind .valueDeclaration).filter fun n => t.start n ≤ p).getLast? ∧
      (IsBoundary t.chars (t.regionStart p) ∧ IsBoundary t.chars (offsetAt t.chars p)) ∧
      (t.regionStart p ≤ offsetAt t.chars p →
        ∃ before after, t.chars = before ++ t.regionBefore p ++ after ∧
          byteLength before = t.regionStart p ∧
          byteLength (before ++ t.regionBefore p) = offsetAt t.chars p) ∧
      (offsetAt t.chars p < t.regionStart p ↔ IsInLineEnd t.chars p.line (t.regionStart p)) ∧
      (IsInLineEnd t.chars p.line (t.regionStart p) → t.regionBefore p = []) := by
  refine ⟨t.topLevel_starts, fun p => ?_⟩
  obtain ⟨hStart, hOrder⟩ := t.regionStart_spec p
  have hStop := isBoundary_offsetAt t.chars p
  refine ⟨lastStarted?_eq (List.Sublist.refl _) p, lastStarted?_eq List.filter_sublist p,
    ⟨hStart, hStop⟩, exists_slice hStart hStop, offsetAt_lt_iff hStart hOrder, fun h => ?_⟩
  rw [regionBefore_eq, slice, Nat.sub_eq_zero_of_le (Nat.le_of_lt h.offsetAt_lt), takeBytes_zero]

end Tree

namespace Sample

/-- The file `a` and, on the next line, `b`, where lines end with a carriage return and a line
feed, and a declaration that is missing stands between the two, in an error node. -/
def returned : Tree := .ofEvents
  [.enter .file,
    .enter .valueDeclaration, .token .lowerCaseIdentifier "a", .leave, .gap "\r",
    .enter .error, .enter .valueDeclaration, .missing .lowerCaseIdentifier, .leave, .leave,
    .gap "\n",
    .enter .valueDeclaration, .token .lowerCaseIdentifier "b", .leave,
    .leave]

end Sample

/-- Behind the carriage return the missing declaration is the last one, and there is no text
before the cursor. On the next line the text begins with the declaration there. -/
theorem Tree.regionBefore_lastStarted_return :
    Sample.returned.lastStarted? (Sample.returned.topLevelOfKind .valueDeclaration) ⟨0, 2⟩ =
        some 4 ∧
      IsInLineEnd Sample.returned.chars 0 (Sample.returned.regionStart ⟨0, 2⟩) ∧
      Sample.returned.regionBefore ⟨0, 2⟩ = [] ∧
      Sample.returned.regionStart ⟨1, 1⟩ ≤ offsetAt Sample.returned.chars ⟨1, 1⟩ ∧
      ∃ before after, Sample.returned.chars =
          before ++ Sample.returned.regionBefore ⟨1, 1⟩ ++ after ∧
        byteLength before = 3 ∧ byteLength (before ++ Sample.returned.regionBefore ⟨1, 1⟩) = 4 := by
  obtain ⟨-, hPlaces⟩ := Tree.regionBefore_lastStarted Sample.returned
  obtain ⟨-, hLast, -, -, hReturn, hEmpty⟩ := hPlaces ⟨0, 2⟩
  obtain ⟨-, -, -, hBetween, -, -⟩ := hPlaces ⟨1, 1⟩
  have hIn := hReturn.mp (by decide +kernel)
  have hOrder : Sample.returned.regionStart ⟨1, 1⟩ ≤ offsetAt Sample.returned.chars ⟨1, 1⟩ := by
    decide +kernel
  refine ⟨hLast.trans (by decide +kernel), hIn, hEmpty hIn, hOrder, ?_⟩
  obtain ⟨before, after, hSource, hBegin, hEnd⟩ := hBetween hOrder
  exact ⟨before, after, hSource, hBegin.trans (by decide +kernel), hEnd.trans (by decide +kernel)⟩

end ElmScope
