import ElmScope.Proofs.Completion.HeaderList

/-! Completion between the parentheses of the exposing list of an import. The list is told from
the text before the cursor only: the line must begin with the import and go on with the list, in
which no parenthesis is closed yet. So a list is told up to its first `T(..)` and its first line
feed, and up to there what the module shows is answered. -/
namespace ElmScope

open Text

namespace LineShape

/-- Nothing, or `as Alias` and white space. -/
inductive IsAliasPart : List Char → Prop where
  | absent : IsAliasPart []
  | present {before name behind : List Char} (hBefore : IsBlanks before)
      (hName : name ∈ Pattern.names isUpperAscii isWordChar) (hBehind : IsBlanks behind) :
      IsAliasPart ("as".toList ++ (before ++ (name ++ behind)))

/-- `import Mod as Alias exposing`: what precedes the exposing list of an import on one line. -/
inductive IsImportHead (name : List Char) : List Char → Prop where
  | intro {before behind part gap : List Char} (hBefore : IsBlanks before)
      (hName : name ∈ Pattern.names isUpperAscii isDottedChar) (hBehind : IsBlanks behind)
      (hPart : IsAliasPart part) (hGap : ∀ c ∈ gap, isBlank c = true) :
      IsImportHead name
        ("import".toList ++ (before ++ (name ++ (behind ++ (part ++ ("exposing".toList ++ gap))))))

variable {text rest name head items : List Char} {first more : Char → Bool}

/-- A list that is open begins with the word and a parenthesis, and none closes it. -/
theorem isOpenExposing_iff : isOpenExposing text = true ↔
    ∃ gap items, (∀ c ∈ gap, isBlank c = true) ∧
      text = "exposing".toList ++ (gap ++ '(' :: items) ∧ ')' ∉ items := by
  constructor
  · intro h
    rw [isOpenExposing] at h
    split at h
    · cases h
    · next rest hWord =>
      split at h
      · cases h
      · next items hMark =>
        refine ⟨rest.takeWhile isBlank, items, fun c => List.mem_takeWhile_imp, ?_, by simpa using h⟩
        rw [word?_eq_some_iff.mp hWord, ← mark?_eq_some_iff.mp hMark,
          List.takeWhile_append_dropWhile]
  · rintro ⟨gap, items, hGap, hText, hOpen⟩
    have hParen : ∀ c ∈ ('(' :: items).head?, isBlank c = false := by
      rintro c ⟨⟩
      decide
    rw [isOpenExposing, word?_eq_some_iff.mpr hText]
    simp only [dropWhile_append hGap hParen, mark?_eq_some_iff.mpr rfl]
    simpa using hOpen

/-- A name or a word begins with no white space. -/
theorem head?_not_isBlank_of_names (h : name ∈ Pattern.names first more)
    (hFirst : ∀ c, first c = true → isBlank c = false) (rest : List Char) :
    ∀ c ∈ (name ++ rest).head?, isBlank c = false := by
  obtain ⟨c, tail, hc, -, rfl⟩ := h
  rintro x ⟨⟩
  exact hFirst c hc

theorem IsBlanks.head? {test : Char → Bool} {blanks : List Char} (h : IsBlanks blanks)
    (hTest : ∀ c, isBlank c = true → test c = false) (rest : List Char) :
    ∀ c ∈ (blanks ++ rest).head?, test c = false := by
  obtain ⟨hNe, hBlanks⟩ := h
  cases blanks with
  | nil => exact absurd rfl hNe
  | cons c blanks =>
      rintro x ⟨⟩
      exact hTest c (hBlanks c List.mem_cons_self)

theorem isBlank_eq_false_of_isUpperAscii {c : Char} (h : isUpperAscii c = true) :
    isBlank c = false :=
  isBlank_eq_false_of_isWordChar (isWordChar_of_isUpperAscii h)

theorem isDottedChar_eq_false_of_isBlank {c : Char} (h : isBlank c = true) :
    isDottedChar c = false := by
  have hDot : c ≠ '.' := by
    rintro rfl
    exact absurd h (by decide)
  simp [isDottedChar, isWordChar_eq_false_of_isBlank h, hDot]

/-- Neither an `as` part nor the word behind it begins with white space. -/
theorem IsAliasPart.head? {part : List Char} (h : IsAliasPart part) (rest : List Char) :
    ∀ c ∈ (part ++ ("exposing".toList ++ rest)).head?, isBlank c = false := by
  cases h <;>
  · rintro c ⟨⟩
    decide

/-- The `as` part is read off a text up to the word behind it. -/
theorem skipAlias?_exposing : skipAlias? text = some ("exposing".toList ++ rest) ↔
    ∃ part, IsAliasPart part ∧ text = part ++ ("exposing".toList ++ rest) := by
  have hExposing : ∀ c ∈ ("exposing".toList ++ rest).head?, isBlank c = false := by
    rintro c ⟨⟩
    decide
  constructor
  · intro h
    rw [skipAlias?] at h
    split at h
    · exact ⟨[], .absent, Option.some.inj h⟩
    · next after hWord =>
      simp only [Option.bind_eq_bind, Option.bind_eq_some_iff, Prod.exists, blanks?_eq_some_iff,
        name?_eq_some_iff] at h
      obtain ⟨_, ⟨before, hBefore, rfl, -⟩, name, _, ⟨hName, rfl, -⟩, behind, hBehind, rfl, -⟩ := h
      refine ⟨_, .present hBefore hName hBehind, ?_⟩
      rw [word?_eq_some_iff.mp hWord]
      simp
  · rintro ⟨part, hPart, rfl⟩
    cases hPart with
    | absent => rfl
    | @present before name behind hBefore hName hBehind =>
        have hWord : word? "as" ("as".toList ++ (before ++ (name ++ behind)) ++
            ("exposing".toList ++ rest)) =
              some (before ++ (name ++ (behind ++ ("exposing".toList ++ rest)))) :=
          word?_eq_some_iff.mpr (by simp)
        simp only [skipAlias?, hWord, Option.bind_eq_bind, Option.bind_eq_some_iff, Prod.exists,
          blanks?_eq_some_iff, name?_eq_some_iff]
        refine ⟨_, ⟨before, hBefore, rfl, ?_⟩, name, _, ⟨hName, rfl, ?_⟩, behind, hBehind, rfl,
          hExposing⟩
        · exact head?_not_isBlank_of_names hName (fun _ => isBlank_eq_false_of_isUpperAscii) _
        · exact hBehind.head? (fun _ => isWordChar_eq_false_of_isBlank) _

/-- A line is read as the list of an import just when it is the import up to the list, a
parenthesis, and items among which no parenthesis is closed. -/
theorem importExposing?_eq_some_iff : importExposing? text = some name ↔
    ∃ head items, IsImportHead name head ∧ text = head ++ '(' :: items ∧ ')' ∉ items := by
  simp only [importExposing?, moduleName?, Option.bind_eq_bind, Option.bind_eq_some_iff,
    Prod.exists, word?_eq_some_iff, blanks?_eq_some_iff, name?_eq_some_iff]
  constructor
  · rintro ⟨_, rfl, _, ⟨before, hBefore, rfl, -⟩, name, _, ⟨hName, rfl, -⟩, _,
      ⟨behind, hBehind, rfl, -⟩, _, hSkip, hList⟩
    obtain ⟨hOpen, ⟨⟩⟩ := Option.ite_none_right_eq_some.mp hList
    obtain ⟨gap, items, hGap, rfl, hItems⟩ := isOpenExposing_iff.mp hOpen
    obtain ⟨part, hPart, rfl⟩ := skipAlias?_exposing.mp hSkip
    exact ⟨_, items, .intro hBefore hName hBehind hPart hGap, by simp, hItems⟩
  · rintro ⟨_, items, ⟨hBefore, hName, hBehind, hPart, hGap⟩, rfl, hItems⟩
    rename_i before behind part gap
    have hText : "import".toList ++ (before ++ (name ++ (behind ++ (part ++ ("exposing".toList ++
        gap))))) ++ '(' :: items = "import".toList ++ (before ++ (name ++ (behind ++ (part ++
          ("exposing".toList ++ (gap ++ '(' :: items)))))) := by simp
    refine ⟨_, hText, _, ⟨before, hBefore, rfl, ?_⟩, name, _, ⟨hName, rfl, ?_⟩, _,
      ⟨behind, hBehind, rfl, ?_⟩, _, skipAlias?_exposing.mpr ⟨part, hPart, rfl⟩, ?_⟩
    · exact head?_not_isBlank_of_names hName (fun _ => isBlank_eq_false_of_isUpperAscii) _
    · exact hBehind.head? (fun _ => isDottedChar_eq_false_of_isBlank) _
    · exact hPart.head? _
    · exact if_pos (isOpenExposing_iff.mpr ⟨gap, items, hGap, rfl, hItems⟩)

variable {c : Char}

theorem not_mem_of_isBlank (h : ∀ c ∈ text, isBlank c = true) (hc : isBlank c = false) :
    c ∉ text := by
  intro hMem
  exact absurd (h c hMem) (by simp [hc])

theorem not_mem_of_names (h : name ∈ Pattern.names first more) (hFirst : first c = false)
    (hMore : more c = false) : c ∉ name := by
  obtain ⟨x, tail, hx, hTail, rfl⟩ := h
  rw [List.mem_cons, not_or]
  constructor
  · rintro rfl
    exact absurd hx (by simp [hFirst])
  · exact fun hMem => absurd (hTail c hMem) (by simp [hMore])

/-- No parenthesis stands in an import before its list. -/
theorem IsImportHead.paren_not_mem (h : IsImportHead name head) : '(' ∉ head := by
  obtain ⟨hBefore, hName, hBehind, hPart, hGap⟩ := h
  have hModule := not_mem_of_names (c := '(') hName (by decide) (by decide +kernel)
  simp only [List.mem_append, not_or]
  refine ⟨by decide, not_mem_of_isBlank hBefore.2 (by decide), hModule,
    not_mem_of_isBlank hBehind.2 (by decide), ?_, by decide, not_mem_of_isBlank hGap (by decide)⟩
  cases hPart with
  | absent => exact List.not_mem_nil
  | present hBefore hName hBehind =>
      have hShort := not_mem_of_names (c := '(') hName (by decide) (by decide +kernel)
      simp only [List.mem_append, not_or]
      exact ⟨by decide, not_mem_of_isBlank hBefore.2 (by decide), hShort,
        not_mem_of_isBlank hBehind.2 (by decide)⟩

/-- Where a parenthesis is written, no module name is being written. -/
theorem isImport_eq_false (h : '(' ∈ text) : isImport text = false := by
  rw [Bool.eq_false_iff]
  intro hImport
  rw [isImport] at hImport
  split at hImport
  · cases hImport
  · next rest hRest =>
    simp only [Option.bind_eq_some_iff, word?_eq_some_iff, blanks?_eq_some_iff] at hRest
    obtain ⟨_, rfl, blanks, hBlanks, rfl, -⟩ := hRest
    have hAfter : '(' ∈ rest := by
      have hNot := not_mem_of_isBlank (c := '(') hBlanks.2 (by decide)
      simpa [hNot] using h
    rw [Bool.or_eq_true, List.isEmpty_iff, Option.any_eq_true] at hImport
    rcases hImport with rfl | ⟨⟨name, behind⟩, hRead, hEnd⟩
    · exact List.not_mem_nil hAfter
    · obtain ⟨hName, rfl, -⟩ := name?_eq_some_iff.mp hRead
      obtain rfl := List.isEmpty_iff.mp hEnd
      rw [List.append_nil] at hAfter
      exact not_mem_of_names hName (by decide) (by decide +kernel) hAfter

end LineShape

namespace Text

variable {a b : List Char}

/-- A text is cut in one way at its first character of a kind. -/
theorem append_cons_inj {c : Char} {a' b' : List Char} (ha : c ∉ a) (ha' : c ∉ a')
    (h : a ++ c :: b = a' ++ c :: b') : a = a' ∧ b = b' := by
  have hCut : ∀ {x y : List Char}, c ∉ x → (x ++ c :: y).takeWhile (· ≠ c) = x := by
    intro x y hx
    rw [List.takeWhile_append_of_pos fun z hz => decide_eq_true (ne_of_mem_of_not_mem hz hx)]
    simp
  obtain rfl : a = a' := by rw [← hCut ha (y := b), h, hCut ha']
  exact ⟨rfl, (List.cons.inj (List.append_cancel_left h)).2⟩

end Text

namespace Tree

variable {t : Tree} {n left right : Nat} {p : Position}

def typedBehind (t : Tree) (n : Nat) (p : Position) : List Char :=
  slice (t.endByte n) (offsetAt t.chars p) t.chars

/-- Behind the opening parenthesis, the text before the cursor is the last line of the text
before the parenthesis, the parenthesis, and what is typed behind it. -/
theorem Encloses.exists_before (h : t.Encloses n left right p) :
    ∃ before, t.textBefore (t.start left) = takeTail (· ≠ '\n') before ∧
      t.textBefore p = takeTail (· ≠ '\n') (before ++ '(' :: t.typedBehind left p) := by
  obtain ⟨before, after, hCovers⟩ :=
    exists_covers_of_singleton (c := '(') (children_bounds h.left_child).2 h.left_text
  have hSource : t.chars = before ++ ['('] ++ after := hCovers.source
  have hOpen : before ++ ['('] <+: t.chars := hSource ▸ List.prefix_append _ _
  have hFirst : before <+: t.chars := (List.prefix_append _ _).trans hOpen
  refine ⟨before, ?_, ?_⟩
  · obtain ⟨line, hLine⟩ := exists_lineText?_positionAt t.chars (t.startByte left)
    rw [chars, ← start_eq] at hLine
    refine textBefore_eq_takeTail hFirst ?_ hLine
    rw [hCovers.start, hSource, List.append_assoc]
    exact offsetAt_endPlace_cons before after (by decide)
  · obtain ⟨line, hLine⟩ : ∃ line, lineText? t.chars p.line = some line := by
      obtain ⟨last, hLast⟩ := exists_lineText?_positionAt t.chars (t.startByte right)
      rw [chars, ← start_eq] at hLast
      exact exists_lineText?_of_le h.le_start hLast
    obtain ⟨reached, hReached, hOffset⟩ := isBoundary_offsetAt t.chars p
    obtain ⟨typed, rfl⟩ : before ++ ['('] <+: reached := by
      have hOrder : offsetAt t.chars (t.stop left) ≤ offsetAt t.chars p := offsetAt_mono h.stop_le
      rw [hCovers.stop, hSource, offsetAt_endPlace after (by simp), ← hSource, ← hOffset] at hOrder
      exact isPrefix_of_byteLength_le hOpen hReached hOrder
    have hTyped : t.typedBehind left p = typed := by
      obtain ⟨rest, hRest⟩ := hReached
      rw [typedBehind, hCovers.endByte, ← hOffset, ← hRest, slice_byteLength]
    rw [textBefore_eq_takeTail hReached hOffset.symm hLine, hTyped]
    simp

/-- The exposing list of an import clause, opened by the first parenthesis of its line. Where
this line up to the parenthesis reads as an import, it is the import of the clause. -/
structure IsImportList (t : Tree) (clause list left : Nat) (moduleName : String) : Prop where
  isClause : clause ∈ t.importClauses
  isList : t.childOfKind? clause .exposingList = some list
  imported : t.importedModule? clause = some moduleName
  isFirst : '(' ∉ t.textBefore (t.start left)
  asWritten : ∀ name, LineShape.IsImportHead name (t.textBefore (t.start left)) →
    String.ofList name = moduleName

variable {clause list : Nat} {moduleName : String} {name : List Char}

/-- In the list of an import, the text before the cursor reads as the list just when the line of
the list reads as an import up to it and the cursor is on this line with no parenthesis closed. -/
theorem IsImportList.importExposing?_eq_some_iff
    (hList : t.IsImportList clause list left moduleName) (hInside : t.Encloses list left right p)
    (hLater : '\n' ∈ t.typedBehind left p → ¬ "import".toList <+: t.textBefore p) :
    LineShape.importExposing? (t.textBefore p) = some name ↔
      LineShape.IsImportHead name (t.textBefore (t.start left)) ∧
        ')' ∉ t.typedBehind left p ∧ '\n' ∉ t.typedBehind left p := by
  obtain ⟨before, hLine, hText⟩ := hInside.exists_before
  by_cases hFeed : '\n' ∈ t.typedBehind left p
  · have hNone : LineShape.importExposing? (t.textBefore p) = none := by
      rw [LineShape.importExposing?, LineShape.word?_eq_none (hLater hFeed)]
      rfl
    simp [hNone, hFeed]
  · have hTyped : ∀ c ∈ '(' :: t.typedBehind left p, decide (c ≠ '\n') = true := by
      refine List.forall_mem_cons.mpr ⟨by decide, fun c hc => decide_eq_true ?_⟩
      rintro rfl
      exact hFeed hc
    rw [takeTail_append_of_pos hTyped, ← hLine] at hText
    rw [hText, LineShape.importExposing?_eq_some_iff]
    constructor
    · rintro ⟨head, items, hHead, hSame, hOpen⟩
      obtain ⟨rfl, rfl⟩ := append_cons_inj hList.isFirst hHead.paren_not_mem hSame
      exact ⟨hHead, hOpen, hFeed⟩
    · rintro ⟨hHead, hOpen, -⟩
      exact ⟨_, _, hHead, rfl, hOpen⟩

end Tree

/-- What the exposing list of an import can list: the shown symbols of the module, and once more
with `(..)` those that have constructors. -/
inductive Surface.Importable (s : Surface) : Candidate → Prop where
  | plain {symbol : ExposedSymbol} (hShown : symbol ∈ s.exposed) :
      Importable s ((Candidate.ofSymbol symbol.kind.toSymbolKind symbol.name).fromModule
        s.moduleName)
  | withConstructors {symbol : ExposedSymbol} (hShown : symbol ∈ s.exposed)
      (hListed : symbol.listed ≠ []) :
      Importable s ((Candidate.ofSymbol symbol.kind.toSymbolKind (symbol.name ++ "(..)")).fromModule
        s.moduleName)

namespace Request

variable {r : Request} {c : Candidate} {l : List Candidate} {s : Surface} {name : List Char}

/-- What is offered for a surface are the ways to import its symbols. -/
theorem mem_exposedCandidates_iff :
    c ∈ s.exposed.flatMap (exposedCandidates s.moduleName) ↔ s.Importable c := by
  rw [List.mem_flatMap]
  constructor
  · rintro ⟨symbol, hShown, hc⟩
    rw [exposedCandidates] at hc
    split at hc
    · obtain rfl := List.mem_singleton.mp hc
      exact .plain hShown
    · next hListed =>
      rcases List.mem_cons.mp hc with rfl | hc
      · exact .plain hShown
      · obtain rfl := List.mem_singleton.mp hc
        exact .withConstructors hShown (by simpa using hListed)
  · intro h
    cases h with
    | plain hShown =>
        refine ⟨_, hShown, ?_⟩
        rw [exposedCandidates]
        split <;> exact List.mem_cons_self
    | withConstructors hShown hListed =>
        refine ⟨_, hShown, ?_⟩
        rw [exposedCandidates, if_neg (by simpa using hListed)]
        exact List.mem_cons_of_mem _ (List.mem_singleton.mpr rfl)

/-- Where the list of an import is recognised, just what the module can show is offered, and
nothing for an unknown module. -/
theorem mem_importExposing?_iff (hName : LineShape.importExposing? r.before = some name)
    (h : r.importExposing? = some l) :
    c ∈ l ↔ ∃ d s, r.workspace.findModule? (.ofList name) = some d ∧ d.tree.surface? = some s ∧
      s.Importable c := by
  rw [importExposing?, hName] at h
  obtain rfl := Option.some.inj h
  simp only [← mem_exposedCandidates_iff]
  cases hFound : r.workspace.findModule? (.ofList name) with
  | none => simp
  | some d => cases hSurface : d.tree.surface? <;> simp [hSurface]

/-- Where the list of an import is recognised, it is answered. -/
theorem answer_of_importExposing? (h : r.importExposing? = some l) :
    r.answer = (firstOfName l).take r.settings.completionLimit := by
  obtain ⟨name, hName, -⟩ := Option.map_eq_some_iff.mp h
  obtain ⟨head, items, -, hText, -⟩ := LineShape.importExposing?_eq_some_iff.mp hName
  have hImport : r.importModule? = none := by
    rw [importModule?, LineShape.isImport_eq_false (by simp [hText])]
    rfl
  rw [answer, candidates, hImport, h]
  rfl

end Request

namespace Sample

/-- A file that begins with `import A exposing (f, T(..), g)`. -/
def listImporter : Tree := .ofEvents
  [.enter .file,
    .enter .importClause, .token .importKeyword "import", .gap " ",
    .enter .upperCaseQid, .token .upperCaseIdentifier "A", .leave, .gap " ",
    .enter .exposingList, .punctuation "exposing", .gap " ", .punctuation "(",
    .enter .exposedValue, .token .lowerCaseIdentifier "f", .leave, .punctuation ",", .gap " ",
    .enter .exposedType, .token .upperCaseIdentifier "T",
    .enter .exposedUnionConstructors, .punctuation "(", .token .doubleDot "..", .punctuation ")",
    .leave, .leave, .punctuation ",", .gap " ",
    .enter .exposedValue, .token .lowerCaseIdentifier "g", .leave, .punctuation ")",
    .leave, .leave, .gap "\n", .leave]

theorem isImportHead_listImporter :
    LineShape.IsImportHead ['A'] (listImporter.textBefore (listImporter.start 7)) := by
  have hBlanks : LineShape.IsBlanks [' '] := ⟨by decide, List.all_eq_true.mp (by decide +kernel)⟩
  have hHead := LineShape.IsImportHead.intro hBlanks
    ⟨'A', [], by decide, List.forall_mem_nil _, rfl⟩ hBlanks .absent hBlanks.2
  have hLine : listImporter.textBefore (listImporter.start 7) = "import A exposing ".toList := by
    decide +kernel
  exact hLine ▸ hHead

theorem isImportList_listImporter : listImporter.IsImportList 1 5 7 "A" where
  isClause := by decide +kernel
  isList := by decide +kernel
  imported := by decide +kernel
  isFirst := by decide +kernel
  asWritten name hHead := by
    have hRead := LineShape.importExposing?_eq_some_iff.mpr ⟨_, [], hHead, rfl, List.not_mem_nil⟩
    have hOwn := LineShape.importExposing?_eq_some_iff.mpr
      ⟨_, [], isImportHead_listImporter, rfl, List.not_mem_nil⟩
    obtain rfl := Option.some.inj (hRead.symm.trans hOwn)
    rfl

/-- The file beside the module `A`, which shows a function and a type with a constructor. -/
def importerWorkspace : Workspace := itemizedWorkspace.upsert "b" listImporter none

def itemizedType : ExposedSymbol := ⟨"T", 18, .customType, some [⟨"K", 21, true⟩]⟩

def itemizedSurface : Surface := ⟨"A", [itemizedType, Tree.plainSymbol "f" .function 23]⟩

theorem itemizedSurface_importable :
    itemizedSurface.Importable
      ((Candidate.ofSymbol .customType ("T" ++ "(..)")).fromModule "A") := by
  have hShown : itemizedType ∈ itemizedSurface.exposed := List.mem_cons_self
  exact .withConstructors hShown (by decide)

end Sample

namespace Workspace

/-- Between the parentheses of the exposing list of an import, what the module shows is offered
just where the line reads as the import, the cursor is on it, and no parenthesis is closed. -/
theorem completions_importList (w : Workspace) (uri : String) (d : Document) (p : Position)
    (trigger : Trigger) (settings : Settings) (clause list left right : Nat) (moduleName : String)
    (hGet : w.get? uri = some d) (hList : d.tree.IsImportList clause list left moduleName)
    (hInside : d.tree.Encloses list left right p)
    (hLater : '\n' ∈ d.tree.typedBehind left p → ¬ "import".toList <+: d.tree.textBefore p) :
    let r := Request.mk w (w.fileScope d) settings trigger p
    (r.importExposing?.isSome = true ↔
        (∃ name, LineShape.IsImportHead name (d.tree.textBefore (d.tree.start left))) ∧
          ')' ∉ d.tree.typedBehind left p ∧ '\n' ∉ d.tree.typedBehind left p) ∧
      ∀ shown, r.importExposing? = some shown →
        w.completions uri p trigger settings =
          (firstOfName shown).take settings.completionLimit ∧
        ∀ c, c ∈ shown ↔ ∃ m s, w.findModule? moduleName = some m ∧ m.tree.surface? = some s ∧
          s.Importable c := by
  intro r
  have hRead (name) : LineShape.importExposing? (d.tree.textBefore p) = some name ↔ _ :=
    hList.importExposing?_eq_some_iff hInside hLater
  constructor
  · rw [Request.importExposing?, Option.isSome_map, Option.isSome_iff_exists]
    exact (exists_congr hRead).trans exists_and_right
  · intro shown hShown
    obtain ⟨name, hName, -⟩ := Option.map_eq_some_iff.mp hShown
    obtain rfl := hList.asWritten name ((hRead name).mp hName).1
    refine ⟨?_, fun c => Request.mem_importExposing?_iff hName hShown⟩
    rw [completions, hGet]
    exact Request.answer_of_importExposing? hShown

/-- Behind the first item of a list. -/
theorem completions_importList_first :
    Sample.listImporter.Encloses 5 7 20 ⟨0, 21⟩ ∧
      ∃ shown, Sample.importerWorkspace.completions "b" ⟨0, 21⟩ .invoked {} =
          (firstOfName shown).take 100 ∧
        (Candidate.ofSymbol .customType ("T" ++ "(..)")).fromModule "A" ∈ shown := by
  have hInside : Sample.listImporter.Encloses 5 7 20 ⟨0, 21⟩ :=
    ⟨by decide +kernel, by decide +kernel, by decide +kernel, by decide +kernel,
      by decide +kernel, by decide +kernel⟩
  obtain ⟨hShown, hAnswer⟩ := completions_importList Sample.importerWorkspace "b"
    ⟨"b", Sample.listImporter, none, 1⟩ ⟨0, 21⟩ .invoked {} 1 5 7 20 "A" rfl
    Sample.isImportList_listImporter hInside (by decide +kernel)
  obtain ⟨shown, hList⟩ := Option.isSome_iff_exists.mp
    (hShown.mpr ⟨⟨_, Sample.isImportHead_listImporter⟩, by decide +kernel, by decide +kernel⟩)
  obtain ⟨hCompletions, hMem⟩ := hAnswer shown hList
  refine ⟨hInside, shown, hCompletions, (hMem _).mpr ?_⟩
  exact ⟨⟨"a", Sample.itemized, some "A", 0⟩, Sample.itemizedSurface, rfl, by decide +kernel,
    Sample.itemizedSurface_importable⟩

/-- Behind `T(..)`, where a parenthesis is closed, an expression is answered. -/
theorem completions_importList_behind_type :
    (Sample.importerWorkspace.get? "b" = some ⟨"b", Sample.listImporter, none, 1⟩ ∧
      Sample.listImporter.IsImportList 1 5 7 "A" ∧
      Sample.listImporter.Encloses 5 7 20 ⟨0, 28⟩) ∧
    (Sample.importerWorkspace.findModule? "A" = some ⟨"a", Sample.itemized, some "A", 0⟩ ∧
      Sample.itemized.surface? = some Sample.itemizedSurface ∧
      Sample.itemizedSurface.Importable
        ((Candidate.ofSymbol .customType ("T" ++ "(..)")).fromModule "A")) ∧
    ∀ c ∈ Sample.importerWorkspace.completions "b" ⟨0, 28⟩ .invoked {}, c.name ≠ "T" ++ "(..)" := by
  refine ⟨⟨rfl, Sample.isImportList_listImporter, ?_⟩,
    ⟨rfl, by decide +kernel, Sample.itemizedSurface_importable⟩, by decide +kernel⟩
  exact ⟨by decide +kernel, by decide +kernel, by decide +kernel, by decide +kernel,
    by decide +kernel, by decide +kernel⟩

end Workspace

end ElmScope
