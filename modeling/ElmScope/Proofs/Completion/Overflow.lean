import ElmScope.Proofs.Completion.AutoImport
import ElmScope.Proofs.Completion.NewImport

/-! Lines and columns are numbers of 32 bits, and so is what completion computes from them. Here its
sums and differences are checked: they give nothing when they leave the range. In a source of fewer
than 2³² units all of them give what is computed without a check, for every cursor, but the number
of the line below the cursor: below the last line that a place can be on there is no number, and
the declarations at the top of the file are taken for the ones below the cursor. -/
namespace ElmScope

open Request (lineCount)

/-! ### Checked numbers -/

/-- The sum of two numbers, if there is one in 32 bits. -/
def sum? (a b : Nat) : Option Nat := if a + b < lineCount then some (a + b) else none

/-- The difference of two numbers, if it is not negative. -/
def difference? (a b : Nat) : Option Nat := if b ≤ a then some (a - b) else none

theorem sum?_eq_some {a b : Nat} (h : a + b < lineCount) : sum? a b = some (a + b) := if_pos h

theorem difference?_eq_some_iff {a b c : Nat} : difference? a b = some c ↔ c + b = a := by
  rw [difference?, Option.ite_none_right_eq_some, Option.some.injEq]
  omega

namespace Text

/-- The characters of a line that begin before a column, where the first begins at a column that is
counted up. -/
def takeColumnsFrom? (character column : Nat) : List Char → Option (List Char)
  | [] => some []
  | c :: rest =>
    if character ≤ column then some []
    else do
      let next ← sum? column (utf16Width c)
      let taken ← takeColumnsFrom? character next rest
      return c :: taken

def utf16Length? (text : List Char) : Option Nat :=
  text.foldlM (fun length c => sum? length (utf16Width c)) 0

def offsetAt? (text : List Char) (p : Position) : Option Nat :=
  match lineText? text p.line with
  | none => some (byteLength text)
  | some line => do
    let before ← takeColumnsFrom? p.character 0 line
    return lineStart text p.line + byteLength before

variable {text line : List Char}

/-- Columns are counted without overflow on a line that is not too long. -/
theorem takeColumnsFrom?_eq {character column : Nat} (h : column + utf16Length line < lineCount) :
    takeColumnsFrom? character column line = some (takeColumns (character - column) line) := by
  induction line generalizing column with
  | nil => rw [takeColumnsFrom?, takeColumns]
  | cons c rest ih =>
      rw [utf16Length] at h
      rw [takeColumnsFrom?]
      split
      · next hReach =>
        rw [Nat.sub_eq_zero_of_le hReach]
        rfl
      · next hBefore =>
        obtain ⟨k, hLeft⟩ : ∃ k, character - column = k + 1 :=
          ⟨character - column - 1, by omega⟩
        have hNext : character - (column + utf16Width c) = k + 1 - utf16Width c := by omega
        rw [sum?_eq_some (by omega), hLeft, takeColumns, ← hNext]
        simp only [Option.bind_eq_bind, Option.bind_some, ih (Nat.add_assoc _ _ _ ▸ h)]
        rfl

theorem foldlM_sum?_eq {length : Nat} (h : length + utf16Length text < lineCount) :
    text.foldlM (fun length c => sum? length (utf16Width c)) length =
      some (length + utf16Length text) := by
  induction text generalizing length with
  | nil => rfl
  | cons c rest ih =>
      rw [utf16Length, ← Nat.add_assoc] at h
      rw [List.foldlM_cons, sum?_eq_some (by omega), utf16Length, ← Nat.add_assoc]
      exact ih h

theorem utf16Length?_eq (h : utf16Length text < lineCount) :
    utf16Length? text = some (utf16Length text) := by
  rw [utf16Length?, foldlM_sum?_eq (by rwa [Nat.zero_add]), Nat.zero_add]

/-- A line is no longer than its text. -/
theorem utf16Length_lineText?_le {n : Nat} (h : lineText? text n = some line) :
    utf16Length line ≤ utf16Length text := by
  have := utf16Length_le_of_isPrefix (above_append_isPrefix_text h)
  rw [utf16Length_append] at this
  omega

theorem length_le_utf16Length (text : List Char) : text.length ≤ utf16Length text := by
  induction text with
  | nil => exact Nat.le_refl 0
  | cons c rest ih =>
      have := utf16Width_pos c
      rw [List.length_cons, utf16Length]
      omega

/-- A text that is not all line feeds has fewer of them than units. -/
theorem count_feed_lt {c : Char} (hMem : c ∈ text) (hOther : c ≠ '\n') :
    text.count '\n' < utf16Length text := by
  have hNotAll : text.count '\n' ≠ text.length := fun hAll =>
    hOther (List.count_eq_length.mp hAll c hMem).symm
  have hLe : text.count '\n' ≤ text.length := List.count_le_length
  have := length_le_utf16Length text
  omega

end Text

namespace Tree

open Text

def textBefore? (t : Tree) (p : Position) : Option (List Char) :=
  match lineText? t.chars p.line with
  | none => some []
  | some line => takeColumnsFrom? p.character 0 line

def nodeAtCursor? (t : Tree) (p : Position) : Option Nat := do
  let before ← t.textBefore? p
  match before.getLast? with
  | some c =>
    if endsWord c then
      let length ← utf16Length? before
      let column ← difference? length (utf16Width c)
      return t.deepestAt ⟨p.line, column⟩
    else return t.deepestAt p
  | none => return t.deepestAt p

def newImportPlace? (t : Tree) : Option Position :=
  match t.importAnchor? with
  | some n => do
    let next ← sum? (t.stop n).line 1
    return ⟨next, 0⟩
  | none => some .origin

variable {t : Tree} {p : Position} {n : Nat}

section

variable (hSource : utf16Length t.chars < lineCount)

include hSource

/-- What is before a cursor is read without overflow from a file that is not too long. -/
theorem textBefore?_eq : t.textBefore? p = some (t.textBefore p) := by
  rw [textBefore?, textBefore]
  cases hLine : lineText? t.chars p.line with
  | none => rfl
  | some line =>
      have := utf16Length_lineText?_le hLine
      exact takeColumnsFrom?_eq (by omega)

theorem offsetAt?_eq : offsetAt? t.chars p = some (offsetAt t.chars p) := by
  rw [offsetAt?, offsetAt]
  cases hLine : lineText? t.chars p.line with
  | none => rfl
  | some line =>
      have := utf16Length_lineText?_le hLine
      simp only [takeColumnsFrom?_eq (show 0 + utf16Length line < lineCount by omega)]
      rfl

theorem utf16Length_textBefore_lt : utf16Length (t.textBefore p) < lineCount := by
  rw [textBefore]
  cases hLine : lineText? t.chars p.line with
  | none => exact Nat.zero_lt_of_lt hSource
  | some line =>
      have hWhole := utf16Length_lineText?_le hLine
      have hTaken := utf16Length_le_of_isPrefix (takeColumns_isPrefix p.character line)
      exact Nat.lt_of_le_of_lt (Nat.le_trans hTaken hWhole) hSource

/-- The node of a cursor is found without overflow. What is subtracted is the width of a character
of the text before the cursor, so it is no more than that of the text. -/
theorem nodeAtCursor?_eq : t.nodeAtCursor? p = some (t.nodeAtCursor p) := by
  simp only [nodeAtCursor?, nodeAtCursor, textBefore?_eq hSource, Option.bind_eq_bind,
    Option.bind_some]
  cases hLast : (t.textBefore p).getLast? with
  | none => rfl
  | some c =>
      obtain ⟨front, hFront⟩ := List.getLast?_eq_some_iff.mp hLast
      have hWidth : utf16Length (t.textBefore p) = utf16Length front + utf16Width c := by
        rw [hFront, utf16Length_append]
        rfl
      have hColumn : difference? (utf16Length (t.textBefore p)) (utf16Width c) =
          some (utf16Length (t.textBefore p) - utf16Width c) :=
        difference?_eq_some_iff.mpr (by omega)
      simp only [utf16Length?_eq (utf16Length_textBefore_lt hSource), hColumn, Option.bind_some]
      split <;> rfl

end

/-- What stands before a cursor is part of the source, and no line feed. -/
theorem exists_of_textBefore_ne_nil (h : t.textBefore p ≠ []) : ∃ c ∈ t.chars, c ≠ '\n' := by
  obtain ⟨c, hc⟩ := List.exists_mem_of_ne_nil _ h
  rw [textBefore] at hc
  split at hc
  · exact absurd hc List.not_mem_nil
  · next line hLine =>
    have hInLine := (takeColumns_isPrefix p.character line).subset hc
    refine ⟨c, (above_append_isPrefix_text hLine).subset (List.mem_append_right _ hInLine), ?_⟩
    rintro rfl
    exact feed_not_mem_lineText hLine hInLine

/-- A node ends on a line that the source has. -/
theorem line_stop_le (hn : n < t.size) : (t.stop n).line ≤ t.chars.count '\n' := by
  obtain ⟨before, inside, after, hCovers⟩ := exists_covers hn
  rw [hCovers.stop, chars, hCovers.source]
  exact (List.prefix_append (before ++ inside) after).sublist.count_le '\n'

/-- In a source that is not all line feeds a line follows the one on which a node ends. -/
theorem newImportPlace?_eq (hSource : utf16Length t.chars < lineCount)
    (hOther : ∃ c ∈ t.chars, c ≠ '\n') : t.newImportPlace? = some t.newImportPlace := by
  rw [newImportPlace?]
  cases hAnchor : t.importAnchor? with
  | none => rw [newImportPlace_of_none hAnchor]
  | some anchor =>
      obtain ⟨c, hMem, hNoFeed⟩ := hOther
      have hFeeds := count_feed_lt hMem hNoFeed
      have hStop := line_stop_le (lt_size_of_mem_topLevel (mem_topLevel_of_importAnchor? hAnchor))
      simp only [sum?_eq_some (show (t.stop anchor).line + 1 < lineCount by omega),
        newImportPlace_of_anchor hAnchor]
      rfl

end Tree

namespace Request

def isBesideLine? (t : Tree) (line n : Nat) : Option Bool :=
  match t.kind n with
  | .typeSignature => some (difference? line 1 = some (t.stop n).line)
  | .valueDeclaration => do
    let below ← sum? line 1
    return (t.start n).line = below
  | _ => some false

def besideLine? (t : Tree) (line : Nat) : List Nat → Option (List Nat)
  | [] => some []
  | n :: rest => do
    let isBeside ← isBesideLine? t line n
    let more ← besideLine? t line rest
    return if isBeside then n :: more else more

def checkedTopLevelName? (r : Request) : Option (Option (List Candidate)) :=
  if LineShape.isTopLevelName r.before then do
    let beside ← besideLine? r.tree r.position.line r.tree.topLevel
    return some ((beside.filterMap r.tree.functionName?).map (.ofSymbol .function))
  else some none

/-- The contexts that are tried before that of a name at the beginning of a line. -/
def earlier? (r : Request) : Option (List Candidate) :=
  r.importModule?.or <|
    r.importExposing?.or <|
    r.moduleExposing?.or <|
    r.recordFields?.or <|
    r.qualified?.or <|
    (if r.trigger = .character '.' then some [] else none).or r.typeName?

/-- Candidates with their edits, for which the place of a new import is computed. -/
def withPlaces? (r : Request) (l : List Candidate) : Option (List Candidate) :=
  if ∀ c ∈ l, c.edits = [] then some l
  else do
    let _ ← r.tree.newImportPlace?
    return l

/-- The candidates of the first context that fits. What the contexts read of the cursor is computed
first. -/
def checkedCandidates? (r : Request) : Option (List Candidate) := do
  let _ ← r.tree.textBefore? r.position
  let _ ← r.tree.nodeAtCursor? r.position
  let _ ← Text.offsetAt? r.tree.chars r.position
  match r.earlier? with
  | some l => r.withPlaces? l
  | none =>
    match ← r.checkedTopLevelName? with
    | some l => return l
    | none => r.withPlaces? r.values

/-- A declaration gives its name to a line: an annotation that ends on the line above, or a value
that begins on the line below. Where no line follows it is a value that begins on the first. -/
def NamesLine (t : Tree) (line n : Nat) : Prop :=
  t.kind n = .typeSignature ∧ (t.stop n).line + 1 = line ∨
    t.kind n = .valueDeclaration ∧
      (line + 1 < lineCount ∧ (t.start n).line = line + 1 ∨
        line + 1 = lineCount ∧ (t.start n).line = 0)

variable {r : Request} {t : Tree} {line n : Nat} {names : List Candidate} {c : Candidate}

/-- The check fails for a value where no line follows. -/
theorem isBesideLine?_eq (t : Tree) (line n : Nat) :
    isBesideLine? t line n =
      if t.kind n = .valueDeclaration ∧ lineCount ≤ line + 1 then none
      else some (isBesideLine t line n) := by
  by_cases hType : t.kind n = .typeSignature
  · simp [isBesideLine?, isBesideLine, hType, difference?_eq_some_iff]
  · by_cases hValue : t.kind n = .valueDeclaration
    · simp only [isBesideLine?, isBesideLine, hValue, true_and, sum?]
      split
      · next hRoom => simp [Nat.mod_eq_of_lt hRoom, Nat.not_le.mpr hRoom]
      · next hFull => simp [Nat.not_lt.mp hFull]
    · simp [isBesideLine?, isBesideLine, hValue]

/-- The line below is computed for value declarations only, and it is missing below the last
possible line. -/
theorem besideLine?_eq (t : Tree) (line : Nat) (nodes : List Nat) :
    besideLine? t line nodes =
      if (∃ n ∈ nodes, t.kind n = .valueDeclaration) ∧ lineCount ≤ line + 1 then none
      else some (nodes.filter (isBesideLine t line)) := by
  induction nodes with
  | nil => simp [besideLine?]
  | cons n rest ih =>
      rw [besideLine?, isBesideLine?_eq, ih]
      by_cases hFull : lineCount ≤ line + 1
      · by_cases hValue : t.kind n = .valueDeclaration
        · simp [hFull, hValue]
        · by_cases hRest : ∃ m ∈ rest, t.kind m = .valueDeclaration
          · simp [hFull, hValue, hRest]
          · simp [hFull, hValue, hRest, List.filter_cons]
      · simp [hFull, List.filter_cons]

/-- The check fails where no line follows and the file has a value at its top level. -/
theorem checkedTopLevelName?_eq (r : Request) :
    r.checkedTopLevelName? =
      if LineShape.isTopLevelName r.before = true ∧
          (∃ n ∈ r.tree.topLevel, r.tree.kind n = .valueDeclaration) ∧
          lineCount ≤ r.position.line + 1 then none
      else some r.topLevelName? := by
  rw [checkedTopLevelName?, topLevelName?, besideLine?_eq]
  by_cases hName : LineShape.isTopLevelName r.before = true
  · simp only [hName, if_true, true_and]
    split <;> rfl
  · rw [if_neg hName, if_neg hName, if_neg fun h => hName h.1]

/-- A declaration counts as beside a line when it names the line. -/
theorem isBesideLine_iff (hLine : line < lineCount) :
    isBesideLine t line n = true ↔ NamesLine t line n := by
  by_cases hType : t.kind n = .typeSignature
  · simp [isBesideLine, NamesLine, hType]
  · by_cases hValue : t.kind n = .valueDeclaration
    · rcases Nat.lt_or_eq_of_le hLine with hRoom | hFull
      · simp [isBesideLine, NamesLine, hValue, Nat.mod_eq_of_lt hRoom, hRoom, Nat.ne_of_lt hRoom]
      · have hLast : line + 1 = lineCount := hFull
        simp [isBesideLine, NamesLine, hValue, hLast]
    · simp [isBesideLine, NamesLine, hType, hValue]

/-- At the beginning of a line the names of declarations that name the line are offered. -/
theorem mem_topLevelName?_iff (hLine : r.position.line < lineCount)
    (h : r.topLevelName? = some names) :
    c ∈ names ↔ ∃ n ∈ r.tree.topLevel, ∃ name, r.tree.functionName? n = some name ∧
      c = .ofSymbol .function name ∧ NamesLine r.tree r.position.line n := by
  obtain ⟨-, ⟨⟩⟩ := Option.ite_none_right_eq_some.mp h
  constructor
  · intro hc
    obtain ⟨name, hName, rfl⟩ := List.mem_map.mp hc
    obtain ⟨n, hn, hNamed⟩ := List.mem_filterMap.mp hName
    obtain ⟨hTop, hBeside⟩ := List.mem_filter.mp hn
    exact ⟨n, hTop, name, hNamed, rfl, (isBesideLine_iff hLine).mp hBeside⟩
  · rintro ⟨n, hTop, name, hNamed, rfl, hBeside⟩
    refine List.mem_map_of_mem (List.mem_filterMap.mpr ⟨n, List.mem_filter.mpr ⟨hTop, ?_⟩, hNamed⟩)
    exact (isBesideLine_iff hLine).mpr hBeside

/-- In a context that makes edits the text before the cursor is not empty. -/
theorem before_ne_nil_of_edits (hMem : c ∈ r.candidates) (hEdits : c.edits ≠ []) :
    r.before ≠ [] := by
  intro hEmpty
  rcases autoImports_of_mem_candidates hMem hEdits with ⟨hSignature, -⟩ | ⟨-, hNoName, -⟩
  · rw [hEmpty] at hSignature
    exact absurd hSignature (by decide)
  · rw [hEmpty] at hNoName
    exact absurd hNoName (by decide)

/-- The line below the cursor is computed, and there is none. -/
structure LacksLineBelow (r : Request) : Prop where
  reached : r.earlier? = none
  topLevelName : LineShape.isTopLevelName r.before = true
  compared : ∃ n ∈ r.tree.topLevel, r.tree.kind n = .valueDeclaration
  last : lineCount ≤ r.position.line + 1

/-- A name at the beginning of a line comes behind all contexts but that of an expression. -/
theorem candidates_eq (r : Request) :
    r.candidates = (r.earlier?.or r.topLevelName?).getD r.values := by
  simp only [candidates, earlier?, Option.or_assoc]

section

variable (hSource : Text.utf16Length r.tree.chars < lineCount)

include hSource

/-- A new import has a place wherever one is offered. -/
theorem newImportPlace?_of_edits (hMem : c ∈ r.candidates) (hEdits : c.edits ≠ []) :
    r.tree.newImportPlace? = some r.tree.newImportPlace :=
  Tree.newImportPlace?_eq hSource
    (Tree.exists_of_textBefore_ne_nil (before_ne_nil_of_edits hMem hEdits))

/-- The place of a new import is computed without overflow wherever a candidate needs it. -/
theorem withPlaces?_candidates : r.withPlaces? r.candidates = some r.candidates := by
  rw [withPlaces?]
  split
  · rfl
  · next hSome =>
    push Not at hSome
    obtain ⟨c, hMem, hEdits⟩ := hSome
    rw [newImportPlace?_of_edits hSource hMem hEdits]
    rfl

/-- Without a line below, the computation overflows. -/
theorem checkedCandidates?_eq_none (h : r.LacksLineBelow) : r.checkedCandidates? = none := by
  have hFails : r.checkedTopLevelName? = none := by
    rw [checkedTopLevelName?_eq]
    exact if_pos ⟨h.topLevelName, h.compared, h.last⟩
  simp only [checkedCandidates?, Tree.textBefore?_eq hSource, Tree.nodeAtCursor?_eq hSource,
    Tree.offsetAt?_eq hSource, Option.bind_eq_bind, Option.bind_some, h.reached, hFails,
    Option.bind_none]

/-- With a line below, nothing overflows and the candidates are those that are offered. -/
theorem checkedCandidates?_eq_some (h : ¬ r.LacksLineBelow) :
    r.checkedCandidates? = some r.candidates := by
  simp only [checkedCandidates?, Tree.textBefore?_eq hSource, Tree.nodeAtCursor?_eq hSource,
    Tree.offsetAt?_eq hSource, Option.bind_eq_bind, Option.bind_some]
  have hOffered := withPlaces?_candidates hSource
  have hCandidates := r.candidates_eq
  cases hEarlier : r.earlier? with
  | some l =>
      rw [hEarlier, Option.some_or, Option.getD_some] at hCandidates
      rwa [hCandidates] at hOffered ⊢
  | none =>
      have hChecked : r.checkedTopLevelName? = some r.topLevelName? := by
        rw [checkedTopLevelName?_eq]
        exact if_neg fun hFails => h ⟨hEarlier, hFails.1, hFails.2.1, hFails.2.2⟩
      rw [hEarlier, Option.none_or] at hCandidates
      rw [hChecked, Option.bind_some]
      cases hTopLevel : r.topLevelName? with
      | some l =>
          rw [hCandidates, hTopLevel]
          rfl
      | none =>
          rw [hTopLevel, Option.getD_none] at hCandidates
          rwa [hCandidates] at hOffered ⊢

end

/-- What completion computes from lines and columns stays in the range, but for the number of the
line below the last one that a place can be on. There the values on the first line are taken for
those on the line below. -/
theorem overflows_only_below (r : Request) (hSource : Text.utf16Length r.tree.chars < lineCount)
    (hLine : r.position.line < lineCount) :
    (r.tree.textBefore? r.position = some r.before ∧
      r.tree.nodeAtCursor? r.position = some r.cursor ∧
      Text.offsetAt? r.tree.chars r.position = some (Text.offsetAt r.tree.chars r.position) ∧
      ∀ c ∈ r.candidates, c.edits ≠ [] →
        r.tree.newImportPlace? = some r.tree.newImportPlace) ∧
    (r.checkedCandidates? = none ↔ r.LacksLineBelow) ∧
    (¬ r.LacksLineBelow → r.checkedCandidates? = some r.candidates) ∧
    ∀ names, r.topLevelName? = some names → ∀ c, c ∈ names ↔
      ∃ n ∈ r.tree.topLevel, ∃ name, r.tree.functionName? n = some name ∧
        c = .ofSymbol .function name ∧ NamesLine r.tree r.position.line n := by
  refine ⟨⟨Tree.textBefore?_eq hSource, Tree.nodeAtCursor?_eq hSource, Tree.offsetAt?_eq hSource,
      fun c => newImportPlace?_of_edits hSource⟩,
    ⟨fun h => ?_, checkedCandidates?_eq_none hSource⟩, checkedCandidates?_eq_some hSource,
    fun names hNames c => mem_topLevelName?_iff hLine hNames⟩
  by_contra hHolds
  exact Option.some_ne_none _ ((checkedCandidates?_eq_some hSource hHolds).symm.trans h)

end Request

namespace Sample

/-- The file `foo = 1`. -/
def firstLine : Tree := .ofEvents
  [.enter .file, .enter .valueDeclaration, .enter .functionDeclarationLeft,
    .token .lowerCaseIdentifier "foo", .leave, .gap " = 1", .leave, .leave]

def firstLineWorkspace : Workspace := Workspace.empty.upsert "a" firstLine none

def firstLineRequest (line : Nat) : Request :=
  ⟨firstLineWorkspace, firstLineWorkspace.fileScope ⟨"a", firstLine, none, 0⟩, {}, .invoked,
    ⟨line, 0⟩⟩

end Sample

namespace Request

/-- On the last line but one no number overflows, and no name is offered. -/
theorem overflows_only_below_second :
    let r := Sample.firstLineRequest (lineCount - 2)
    Text.utf16Length r.tree.chars < lineCount ∧ r.position.line < lineCount ∧
      r.checkedCandidates? = some r.candidates ∧ r.candidates = [] := by
  intro r
  have hSource : Text.utf16Length r.tree.chars < lineCount := by decide +kernel
  obtain ⟨-, -, hHolds, -⟩ := overflows_only_below r hSource (by decide +kernel)
  have hRoom : ¬ lineCount ≤ r.position.line + 1 := by decide +kernel
  exact ⟨hSource, by decide +kernel, hHolds fun h => hRoom h.last, by decide +kernel⟩

/-- On the last line the number of the line below overflows, and the declaration on the first line
is offered. -/
theorem overflows_below_last :
    let r := Sample.firstLineRequest (lineCount - 1)
    (Text.utf16Length r.tree.chars < lineCount ∧ r.position.line < lineCount) ∧
      r.checkedCandidates? = none ∧ (r.tree.start 1).line = 0 ∧
      Sample.firstLineWorkspace.completions "a" ⟨lineCount - 1, 0⟩ .invoked {} =
        [.ofSymbol .function "foo"] := by
  decide +kernel

end Request

end ElmScope
