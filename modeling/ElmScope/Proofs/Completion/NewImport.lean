import ElmScope.Proofs.Completion.ExtendedImport
import ElmScope.Proofs.Syntax.Adjacent
import ElmScope.Proofs.Syntax.Span

/-! The edit that adds a new import clause, made in the source of its file. The clause goes
behind the last import, or else behind the header, to the beginning of the next line. It has a
line of its own when there is a next line, and it lands inside a node at the top level when that
node goes on from the line above. -/
namespace ElmScope

open Text

def Text.BeginsLine (front : List Char) : Prop := front = [] ∨ front.getLast? = some '\n'

namespace Tree

/-- The node behind which a new import clause goes: the last import clause, else the header. -/
def importAnchor? (t : Tree) : Option Nat := t.importClauses.getLast?.or t.header?

def behind (t : Tree) (n : Nat) : List Char := dropBytes (t.endByte n) t.chars

variable {t : Tree} {moduleName item : String} {anchor n : Nat} {before inside after : List Char}

theorem Covers.behind_eq (h : t.Covers n before inside after) : t.behind n = after := by
  rw [behind, h.endByte, chars, h.source, dropBytes_byteLength]

/-- A new clause follows a declaration at the top level. -/
theorem mem_topLevel_of_importAnchor? (h : t.importAnchor? = some anchor) :
    anchor ∈ t.topLevel := by
  rcases Option.or_eq_some_iff.mp h with hImport | ⟨-, hHeader⟩
  · exact (mem_topLevelOfKind_iff.mp (List.mem_of_getLast? hImport)).1
  · exact (mem_topLevelOfKind_iff.mp (List.mem_of_mem_head? hHeader)).1

/-- A new clause goes to the line below its anchor, wherever on its line this ends. -/
theorem newImportPlace_of_anchor (h : t.importAnchor? = some anchor) :
    t.newImportPlace = ⟨(t.stop anchor).line + 1, 0⟩ := by
  rw [importAnchor?] at h
  rw [newImportPlace, h]

/-- Without imports and header a new clause goes to the top. -/
theorem newImportPlace_of_none (h : t.importAnchor? = none) : t.newImportPlace = .origin := by
  rw [importAnchor?] at h
  rw [newImportPlace, h]

theorem offsetAt_newImportPlace_of_none (h : t.importAnchor? = none) :
    offsetAt t.chars t.newImportPlace = 0 := by
  rw [newImportPlace_of_none h]
  exact offsetAt_endPlace (a := []) t.chars (by simp)

/-- Where a line feed follows the anchor, the clause goes behind the first one. -/
theorem exists_nextLine (h : t.importAnchor? = some anchor) (hFeed : '\n' ∈ t.behind anchor) :
    ∃ front back, t.chars = front ++ back ∧ t.endByte anchor ≤ byteLength front ∧
      front.getLast? = some '\n' ∧ offsetAt t.chars t.newImportPlace = byteLength front ∧
      positionAt t.chars (byteLength front) = t.newImportPlace := by
  have hSize := lt_size_of_mem_topLevel (mem_topLevel_of_importAnchor? h)
  obtain ⟨before, inside, after, hCovers⟩ := exists_covers hSize
  rw [hCovers.behind_eq] at hFeed
  obtain ⟨body, rest, rfl, hBody⟩ := List.eq_append_cons_of_mem hFeed
  have hSource : t.chars = before ++ inside ++ body ++ ['\n'] ++ rest := by
    rw [chars, hCovers.source]
    simp
  have hPlace : t.newImportPlace = endPlace (before ++ inside ++ body ++ ['\n']) := by
    rw [newImportPlace_of_anchor h, hCovers.stop, endPlace_nextLine _ hBody]
  refine ⟨before ++ inside ++ body ++ ['\n'], rest, hSource, ?_, List.getLast?_concat, ?_, ?_⟩
  · rw [hCovers.endByte]
    exact byteLength_le_of_isPrefix ⟨body ++ ['\n'], (List.append_assoc _ body _).symm⟩
  · rw [hPlace, hSource, offsetAt_endPlace rest (by rw [List.getLast?_concat]; decide)]
  · rw [hPlace, hSource, positionAt_byteLength]

/-- Where no line feed follows the anchor, the clause goes to the end of the source. -/
theorem offsetAt_lastLine (h : t.importAnchor? = some anchor) (hNoFeed : '\n' ∉ t.behind anchor) :
    offsetAt t.chars t.newImportPlace = byteLength t.chars ∧
      endPlace t.chars < t.newImportPlace := by
  have hSize := lt_size_of_mem_topLevel (mem_topLevel_of_importAnchor? h)
  obtain ⟨before, inside, after, hCovers⟩ := exists_covers hSize
  rw [hCovers.behind_eq] at hNoFeed
  obtain ⟨hOffset, hLine⟩ := offsetAt_noNextLine (before ++ inside) hNoFeed
  rw [newImportPlace_of_anchor h, hCovers.stop, chars, hCovers.source]
  refine ⟨hOffset, .inl ?_⟩
  rw [hLine]
  exact Nat.lt_succ_self _

def IsInside (t : Tree) (offset n : Nat) : Prop := t.startByte n < offset ∧ offset < t.endByte n

/-- A node goes on from the last line of the anchor: it begins there behind the anchor, and ends
behind the beginning of the next line. -/
structure GoesOn (t : Tree) (anchor n : Nat) : Prop where
  isLater : anchor < n
  begins : (t.start n).line = (t.stop anchor).line
  ends : ⟨(t.stop anchor).line + 1, 0⟩ < t.stop n

/-- A node at the top level that ends behind the anchor begins behind it. -/
theorem endByte_le_startByte_of_anchor (h : t.importAnchor? = some anchor) (hn : n ∈ t.topLevel)
    (hEnd : t.endByte anchor < t.endByte n) : anchor < n ∧ t.endByte anchor ≤ t.startByte n := by
  have hAnchor := mem_topLevel_of_importAnchor? h
  rcases Nat.lt_trichotomy anchor n with hLt | rfl | hLt
  · refine ⟨hLt, endByte_le_startByte_of_not_above (mem_reachable_of_mem_topLevel hn) hLt ?_⟩
    exact not_above_of_mem_topLevel hAnchor hn
  · exact absurd hEnd (Nat.lt_irrefl _)
  · have hBefore := endByte_le_startByte_of_not_above (mem_reachable_of_mem_topLevel hAnchor) hLt
      (not_above_of_mem_topLevel hn hAnchor)
    have hInside := startByte_le_endByte (lt_size_of_mem_topLevel hAnchor)
    omega

/-- A new import clause lands inside the nodes that go on from the last line of the anchor. -/
theorem isInside_iff_goesOn (h : t.importAnchor? = some anchor) (hn : n ∈ t.topLevel) :
    t.IsInside (offsetAt t.chars t.newImportPlace) n ↔ t.GoesOn anchor n := by
  have hSize := lt_size_of_mem_topLevel hn
  have hStart : IsBoundary t.chars (t.startByte n) := isBoundary_startByte hSize
  have hEnd : IsBoundary t.chars (t.endByte n) := isBoundary_endByte hSize
  by_cases hFeed : '\n' ∈ t.behind anchor
  · obtain ⟨front, back, hSource, hBehind, -, hOffset, hPlace⟩ := exists_nextLine h hFeed
    have hFront : IsBoundary t.chars (byteLength front) :=
      ⟨front, hSource ▸ List.prefix_append front back, rfl⟩
    have hBegins := positionAt_lt_iff hStart hFront
    have hEnds := positionAt_lt_iff hFront hEnd
    rw [hPlace, newImportPlace_of_anchor h, chars, ← start_eq] at hBegins
    rw [hPlace, newImportPlace_of_anchor h, chars, ← stop_eq] at hEnds
    rw [hOffset]
    constructor
    · rintro ⟨hBefore, hAfter⟩
      obtain ⟨hLater, hApart⟩ :=
        endByte_le_startByte_of_anchor h hn (Nat.lt_of_le_of_lt hBehind hAfter)
      have hOrder : t.stop anchor ≤ t.start n := by
        rw [stop_eq, start_eq]
        exact positionAt_mono _ hApart
      have hAbove := hBegins.mpr hBefore
      refine ⟨hLater, ?_, hEnds.mpr hAfter⟩
      simp only [Position.le_def, Position.lt_def] at hOrder hAbove
      omega
    · intro hGoesOn
      refine ⟨hBegins.mp (.inl ?_), hEnds.mp hGoesOn.ends⟩
      exact hGoesOn.begins ▸ Nat.lt_succ_self _
  · obtain ⟨hOffset, hLast⟩ := offsetAt_lastLine h hFeed
    have hBound := isBoundary_le hEnd
    rw [hOffset]
    constructor
    · rintro ⟨-, hAfter⟩
      omega
    · intro hGoesOn
      have hOrder : t.stop n ≤ endPlace t.chars := by
        have hWhole := positionAt_byteLength t.chars []
        rw [List.append_nil] at hWhole
        rw [stop_eq, ← hWhole]
        exact positionAt_mono _ hBound
      have hEnds := hGoesOn.ends
      rw [newImportPlace_of_anchor h] at hLast
      simp only [Position.le_def, Position.lt_def] at hOrder hLast hEnds
      omega

/-- The clause has a line of its own if a line feed follows the anchor or ends the source. -/
theorem exists_front (t : Tree) :
    ∃ front back, t.chars = front ++ back ∧
      offsetAt t.chars t.newImportPlace = byteLength front ∧
      (∀ anchor, t.importAnchor? = some anchor → t.endByte anchor ≤ byteLength front) ∧
      (BeginsLine front ↔ ∀ anchor, t.importAnchor? = some anchor →
        '\n' ∈ t.behind anchor ∨ BeginsLine t.chars) := by
  cases hAnchor : t.importAnchor? with
  | none =>
      exact ⟨[], t.chars, rfl, offsetAt_newImportPlace_of_none hAnchor, by simp,
        by simp [BeginsLine]⟩
  | some anchor =>
      simp only [Option.some.injEq, forall_eq']
      by_cases hFeed : '\n' ∈ t.behind anchor
      · obtain ⟨front, back, hSource, hBehind, hLast, hOffset, -⟩ := exists_nextLine hAnchor hFeed
        exact ⟨front, back, hSource, hOffset, hBehind, by simp [BeginsLine, hLast, hFeed]⟩
      · have hSize := lt_size_of_mem_topLevel (mem_topLevel_of_importAnchor? hAnchor)
        refine ⟨t.chars, [], (List.append_nil _).symm, (offsetAt_lastLine hAnchor hFeed).1, ?_, ?_⟩
        · exact isBoundary_le (isBoundary_endByte hSize)
        · simp [hFeed]

/-- To import an item of a module that is not imported, a clause is put behind the anchor. The
clause begins a line, unless the anchor is on the last line of a source that does not end with
a line feed, and it lies inside those nodes at the top level that go on from the last line of
the anchor. -/
theorem importEdit_newClause (t : Tree) (moduleName item : String)
    (hNew : ∀ clause ∈ t.importClauses, t.importedModule? clause ≠ some moduleName) :
    ∃ front back, t.chars = front ++ back ∧
      (t.importEdit moduleName item).apply t.chars =
        front ++ ("import " ++ moduleName ++ " exposing (" ++ item ++ ")\n").toList ++ back ∧
      (∀ anchor, t.importAnchor? = some anchor → t.endByte anchor ≤ byteLength front) ∧
      (BeginsLine front ↔ ∀ anchor, t.importAnchor? = some anchor →
        '\n' ∈ t.behind anchor ∨ BeginsLine t.chars) ∧
      ∀ n ∈ t.topLevel, t.IsInside (byteLength front) n ↔
        ∃ anchor, t.importAnchor? = some anchor ∧ t.GoesOn anchor n := by
  obtain ⟨front, back, hSource, hOffset, hBehind, hLine⟩ := t.exists_front
  have hEdit : t.importEdit moduleName item =
      .insertion t.newImportPlace ("import " ++ moduleName ++ " exposing (" ++ item ++ ")\n") := by
    rw [importEdit, List.find?_eq_none.mpr (by simpa using hNew)]
  refine ⟨front, back, hSource, ?_, hBehind, hLine, fun n hn => ?_⟩
  · rw [hEdit]
    rw [hSource] at hOffset ⊢
    exact TextEdit.apply_insertion hOffset _
  · rw [← hOffset]
    cases hAnchor : t.importAnchor? with
    | some anchor => simp [isInside_iff_goesOn hAnchor hn]
    | none => simp [IsInside, offsetAt_newImportPlace_of_none hAnchor]

end Tree

namespace Sample

/-- The file `import B`, with a comment behind it that ends on the next line, and `g x = x`. -/
def overrun : Tree := .ofEvents
  [.enter .file,
    .enter .importClause, .token .importKeyword "import", .gap " ",
    .enter .upperCaseQid, .token .upperCaseIdentifier "B", .leave, .leave, .gap " ",
    .enter .blockComment, .punctuation "\x7b-", .gap " a\nb ", .punctuation "-\x7d", .leave,
    .gap "\n",
    .enter .valueDeclaration, .enter .functionDeclarationLeft,
    .token .lowerCaseIdentifier "g", .gap " ",
    .enter .lowerPattern, .token .lowerCaseIdentifier "x", .leave, .leave, .gap " = ",
    .enter .valueExpr, .enter .valueQid, .token .lowerCaseIdentifier "x", .leave, .leave,
    .leave, .leave]

/-- The file `module B exposing (..)` without a line feed. -/
def unended : Tree := .ofEvents
  [.enter .file,
    .enter .moduleDeclaration, .token .moduleKeyword "module", .gap " ",
    .enter .upperCaseQid, .token .upperCaseIdentifier "B", .leave, .gap " ",
    .enter .exposingList, .punctuation "exposing", .gap " ", .punctuation "(",
    .token .doubleDot "..", .punctuation ")", .leave, .leave, .leave]

end Sample

namespace Tree

/-- Behind a comment that goes on, the clause has a line of its own, inside the comment. -/
theorem importEdit_newClause_overrun :
    (∀ clause ∈ Sample.overrun.importClauses,
        Sample.overrun.importedModule? clause ≠ some "A") ∧
      ∃ front back, Sample.overrun.chars = front ++ back ∧
        (Sample.overrun.importEdit "A" "f").apply Sample.overrun.chars =
          front ++ "import A exposing (f)\n".toList ++ back ∧
        BeginsLine front ∧ Sample.overrun.IsInside (byteLength front) 5 := by
  have hNew : ∀ clause ∈ Sample.overrun.importClauses,
      Sample.overrun.importedModule? clause ≠ some "A" := by decide +kernel
  obtain ⟨front, back, hSource, hEdited, -, hLine, hInside⟩ :=
    importEdit_newClause Sample.overrun "A" "f" hNew
  have hAnchor : Sample.overrun.importAnchor? = some 1 := by decide +kernel
  refine ⟨hNew, front, back, hSource, hEdited, hLine.mpr ?_, ?_⟩
  · intro anchor h
    obtain rfl := Option.some.inj (hAnchor.symm.trans h)
    exact .inl (by decide +kernel)
  · refine (hInside 5 (by decide +kernel)).mpr ⟨1, hAnchor, ?_⟩
    exact ⟨by decide, by decide +kernel, by decide +kernel⟩

/-- The place of a new clause can be inside a comment, and at the end of the line of the header. -/
theorem importEdit_newClause_misplaced :
    ((∀ clause ∈ Sample.overrun.importClauses,
        Sample.overrun.importedModule? clause ≠ some "A") ∧
      ∃ n ∈ Sample.overrun.topLevel, Sample.overrun.IsInside
        (offsetAt Sample.overrun.chars (Sample.overrun.importEdit "A" "f").range.start) n) ∧
    (∀ clause ∈ Sample.unended.importClauses,
        Sample.unended.importedModule? clause ≠ some "A") ∧
      (Sample.unended.importEdit "A" "f").apply Sample.unended.chars =
        "module B exposing (..)import A exposing (f)\n".toList := by
  refine ⟨⟨by decide +kernel, 5, by decide +kernel, ?_⟩, by decide +kernel, by decide +kernel⟩
  exact ⟨by decide +kernel, by decide +kernel⟩

end Tree

end ElmScope
