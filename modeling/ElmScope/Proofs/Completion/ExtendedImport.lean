import ElmScope.Completion
import ElmScope.Proofs.Completion.Candidate
import ElmScope.Proofs.Module.Declaration
import ElmScope.Proofs.Syntax.Description
import ElmScope.Proofs.Text.Insertion

/-! The edit that adds an item to an import, made in the source of its file. The edit is given
by a line and a column, and yet the item lands on the right byte: before the parenthesis that
closes the exposing list of the clause, or behind the clause if that has no list. -/
namespace ElmScope

open Text

namespace TextEdit

/-- A text after an edit: what stands between the two places of the edit is replaced. -/
def apply (edit : TextEdit) (text : List Char) : List Char :=
  takeBytes (offsetAt text edit.range.start) text ++ edit.newText.toList ++
    dropBytes (offsetAt text edit.range.stop) text

/-- An insertion keeps the text on either side of the offset of its place. -/
theorem apply_insertion {before after : List Char} {p : Position}
    (h : offsetAt (before ++ after) p = byteLength before) (newText : String) :
    (insertion p newText).apply (before ++ after) = before ++ newText.toList ++ after := by
  change takeBytes (offsetAt (before ++ after) p) _ ++ newText.toList ++
    dropBytes (offsetAt (before ++ after) p) _ = _
  rw [h, takeBytes_byteLength, dropBytes_byteLength]

end TextEdit

namespace Tree

structure IsFirstImport (t : Tree) (moduleName : String) (clause : Nat) : Prop where
  isClause : clause ∈ t.importClauses
  named : t.importedModule? clause = some moduleName
  first : ∀ other ∈ t.importClauses, t.importedModule? other = some moduleName → clause ≤ other

variable {t : Tree} {moduleName : String} {clause list n : Nat} {before inside after : List Char}

theorem find?_importClauses_eq_some_iff :
    (t.importClauses.find? fun clause => t.importedModule? clause = some moduleName) =
      some clause ↔ t.IsFirstImport moduleName clause := by
  have hSorted : t.importClauses.Pairwise (· < ·) := t.topLevel_sorted.filter _
  rw [find?_eq_some_iff_of_sorted (fun n => n) hSorted]
  simp only [decide_eq_true_eq]
  exact ⟨fun ⟨h, hNamed, hFirst⟩ => ⟨h, hNamed, hFirst⟩,
    fun ⟨h, hNamed, hFirst⟩ => ⟨h, hNamed, hFirst⟩⟩

/-- If clauses import a module, one of them is the first. -/
theorem exists_isFirstImport
    (h : ∃ clause ∈ t.importClauses, t.importedModule? clause = some moduleName) :
    ∃ clause, t.IsFirstImport moduleName clause := by
  obtain ⟨clause, hClause, hNamed⟩ := h
  obtain ⟨first, hFirst⟩ := exists_find?_of_mem (p := fun n => t.importedModule? n = some moduleName)
    hClause (by simpa using hNamed)
  exact ⟨first, find?_importClauses_eq_some_iff.mp hFirst⟩

/-- An item of a module that is imported goes into the first clause for the module. -/
theorem IsFirstImport.importEdit_eq (h : t.IsFirstImport moduleName clause) (item : String) :
    t.importEdit moduleName item = t.extendImport clause item := by
  rw [importEdit, find?_importClauses_eq_some_iff.mpr h]

/-- The place one column before the end of a node that ends with a parenthesis is the place of
the parenthesis. -/
theorem Covers.stop_parenthesis (h : t.Covers n before (inside ++ [')']) after) :
    (⟨(t.stop n).line, (t.stop n).character - 1⟩ : Position) = endPlace (before ++ inside) := by
  have hWidth : utf16Width ')' = 1 := rfl
  rw [h.stop, ← List.append_assoc, endPlace_append_singleton, advance, if_neg (by decide), hWidth,
    Nat.add_sub_cancel]

/-- An item that is added to an exposing list stands before the closing parenthesis. -/
theorem Covers.apply_extendImport (h : t.Covers list before (inside ++ [')']) after)
    (hList : t.childOfKind? clause .exposingList = some list) (item : String) :
    (t.extendImport clause item).apply t.chars =
      before ++ inside ++ (", " ++ item).toList ++ ')' :: after := by
  have hSource : t.chars = before ++ inside ++ ')' :: after := by
    rw [chars, h.source]
    simp
  have hOffset := offsetAt_endPlace_cons (c := ')') (before ++ inside) after (by decide)
  simp only [extendImport, hList]
  rw [h.stop_parenthesis, hSource]
  exact TextEdit.apply_insertion hOffset _

/-- A list that is added to an import clause stands behind the clause. -/
theorem Covers.apply_extendImport_of_none (h : t.Covers clause before inside after)
    (hNone : t.childOfKind? clause .exposingList = none)
    (hReturn : (before ++ inside).getLast? ≠ some '\r') (item : String) :
    (t.extendImport clause item).apply t.chars =
      before ++ inside ++ (" exposing (" ++ item ++ ")").toList ++ after := by
  have hOffset := offsetAt_endPlace after hReturn
  simp only [extendImport, hNone]
  rw [h.stop, chars, h.source]
  exact TextEdit.apply_insertion hOffset _

/-- To import an item of a module that is imported already, the first clause of the module is
extended and nothing else is changed. An exposing list that ends with a parenthesis gets the
item before it, and a clause without a list gets a list right behind its last byte, unless
that is a carriage return. -/
theorem importEdit_extends (t : Tree) (moduleName item : String)
    (hImported : ∃ clause ∈ t.importClauses, t.importedModule? clause = some moduleName) :
    ∃ clause, t.IsFirstImport moduleName clause ∧
      (∀ list, t.childOfKind? clause .exposingList = some list →
        ∃ before inside after, t.Covers list before inside after ∧
          ∀ kept, inside = kept ++ [')'] →
            (t.importEdit moduleName item).apply t.chars =
              before ++ kept ++ (", " ++ item).toList ++ ')' :: after) ∧
      (t.childOfKind? clause .exposingList = none →
        ∃ before inside after, t.Covers clause before inside after ∧
          ((before ++ inside).getLast? ≠ some '\r' →
            (t.importEdit moduleName item).apply t.chars =
              before ++ inside ++ (" exposing (" ++ item ++ ")").toList ++ after)) := by
  obtain ⟨clause, hFirst⟩ := exists_isFirstImport hImported
  rw [hFirst.importEdit_eq item]
  refine ⟨clause, hFirst, fun list hList => ?_, fun hNone => ?_⟩
  · have hSize := (children_bounds (mem_children_of_childOfKind? hList)).2
    obtain ⟨before, inside, after, hCovers⟩ := exists_covers hSize
    refine ⟨before, inside, after, hCovers, ?_⟩
    rintro kept rfl
    exact hCovers.apply_extendImport hList item
  · have hSize := lt_size_of_mem_topLevel (mem_topLevelOfKind_iff.mp hFirst.isClause).1
    obtain ⟨before, inside, after, hCovers⟩ := exists_covers hSize
    exact ⟨before, inside, after, hCovers, fun hReturn =>
      hCovers.apply_extendImport_of_none hNone hReturn item⟩

end Tree

namespace Sample

/-- The file `import B as É exposing ( x )` below a comment, with the list over two lines, a
comment in it and a carriage return behind that. -/
def spread : Tree := .ofEvents
  [.enter .file, .token .lineComment "-- é😀", .gap "\n",
    .enter .importClause, .token .importKeyword "import", .gap " ",
    .enter .upperCaseQid, .token .upperCaseIdentifier "B", .leave, .gap " ",
    .enter .asClause, .punctuation "as", .gap " ", .token .upperCaseIdentifier "É", .leave,
    .gap " ",
    .enter .exposingList, .punctuation "exposing", .gap "\n    ", .punctuation "(", .gap " ",
    .enter .exposedValue, .token .lowerCaseIdentifier "x", .leave, .gap " ",
    .token .lineComment "-- ü", .gap "\r\n    ", .punctuation ")", .leave, .leave, .gap "\n",
    .leave]

end Sample

/-- The item goes in before the parenthesis, over several lines and a comment. -/
theorem Tree.importEdit_extends_spread :
    (∃ clause ∈ Sample.spread.importClauses,
        Sample.spread.importedModule? clause = some "B") ∧
      ∃ before, Sample.spread.chars = before ++ [')', '\n'] ∧
        (Sample.spread.importEdit "B" "y").apply Sample.spread.chars =
          before ++ (", " ++ "y").toList ++ [')', '\n'] := by
  have hImported : ∃ clause ∈ Sample.spread.importClauses,
      Sample.spread.importedModule? clause = some "B" :=
    ⟨2, by decide +kernel, by decide +kernel⟩
  obtain ⟨clause, hFirst, hList, -⟩ := importEdit_extends Sample.spread "B" "y" hImported
  have hClauses : Sample.spread.importClauses = [2] := by decide +kernel
  obtain rfl : clause = 2 := List.mem_singleton.mp (hClauses ▸ hFirst.isClause)
  obtain ⟨before, inside, after, hCovers, hSplices⟩ := hList 9 (by decide +kernel)
  have hText : Sample.spread.text 9 = "exposing\n    ( x -- ü\r\n    )" := by decide +kernel
  have hInside : inside = "exposing\n    ( x -- ü\r\n    ".toList ++ [')'] := by
    have h := congrArg String.toList (hCovers.text.symm.trans hText)
    rw [String.toList_ofList] at h
    rw [h]
    decide
  have hAfter : after = ['\n'] := by
    have h : dropBytes (Sample.spread.endByte 9) Sample.spread.source.toList = ['\n'] := by
      decide +kernel
    rwa [hCovers.endByte, hCovers.source, dropBytes_byteLength] at h
  subst hAfter
  refine ⟨hImported, _, ?_, hSplices _ hInside⟩
  rw [chars, hCovers.source, hInside]
  simp

end ElmScope
