import ElmScope.Proofs.Completion.Context
import ElmScope.Proofs.Completion.Cursor
import ElmScope.Proofs.Completion.LineShape
import ElmScope.Proofs.Module.Declaration
import ElmScope.Proofs.Syntax.Description

/-! Completion between the parentheses of the exposing list of a header. The list is told from
the text before the cursor, if the list begins on the cursor's line and no parenthesis was closed
since, or from an item under the cursor. Elsewhere in the list the node under the cursor is the
list, which is not above itself, so white space and commas count for nothing. -/
namespace ElmScope

open Text

/-- A place between two parentheses of a node. -/
structure Tree.Encloses (t : Tree) (n left right : Nat) (p : Position) : Prop where
  left_child : left ∈ t.children n
  right_child : right ∈ t.children n
  left_text : t.text left = "("
  right_text : t.text right = ")"
  stop_le : t.stop left ≤ p
  le_start : p ≤ t.start right

/-- What the exposing list of a file's header can list: the functions and type aliases of the
file, and its types, bare, with `(..)` and constructor by constructor. -/
inductive Tree.Listable (t : Tree) : Candidate → Prop where
  | function {n : Nat} {name : String} (hFunction : n ∈ t.functions)
      (hName : t.functionName? n = some name) : Listable t (.ofSymbol .function name)
  | type {n : Nat} {name : String} (hType : n ∈ t.typeDeclarations)
      (hName : t.upperName? n = some name) : Listable t (.ofSymbol .customType name)
  | typeWithConstructors {n : Nat} {name : String} (hType : n ∈ t.typeDeclarations)
      (hName : t.upperName? n = some name) : Listable t (.ofSymbol .customType (name ++ "(..)"))
  | constructor {n v : Nat} {name : String} (hType : n ∈ t.typeDeclarations)
      (hNamed : (t.upperName? n).isSome) (hVariant : v ∈ t.variants n)
      (hName : t.upperName? v = some name) : Listable t (.ofSymbol .unionConstructor name)
  | typeAlias {n : Nat} {name : String} (hAlias : n ∈ t.typeAliases)
      (hName : t.upperName? n = some name) : Listable t (.ofSymbol .typeAlias name)

/-- Whether the node of a cursor is looked up on an item of a list or on a node of an item. -/
def Tree.IsOnItem (t : Tree) (list : Nat) (p : Position) : Prop :=
  ∃ m ∈ t.descendants list, t.isNamed m = true ∧ t.start m ≤ t.cursorPlace p ∧
    t.cursorPlace p < t.stop m

namespace Tree

variable {t : Tree} {header list left right n : Nat} {p : Position}

/-- A node that is written as one character covers the character. -/
theorem exists_covers_of_singleton {c : Char} (hn : n < t.size)
    (hText : t.text n = .singleton c) : ∃ before after, t.Covers n before [c] after := by
  obtain ⟨before, inside, after, hCovers⟩ := exists_covers hn
  have hInside : inside = [c] := by
    have h := congrArg String.toList (hCovers.text.symm.trans hText)
    simpa using h
  exact ⟨before, after, hInside ▸ hCovers⟩

/-- A node that is written as one character ends behind the character. -/
theorem exists_source_of_singleton {c : Char} (hn : n < t.size)
    (hText : t.text n = .singleton c) :
    ∃ before after, t.chars = before ++ c :: after ∧ t.stop n = endPlace (before ++ [c]) ∧
      t.start n < t.stop n := by
  obtain ⟨before, after, hCovers⟩ := exists_covers_of_singleton hn hText
  refine ⟨before, after, ?_, hCovers.stop, ?_⟩
  · rw [chars, hCovers.source]
    simp
  · rw [hCovers.start, hCovers.stop]
    exact endPlace_lt_append_singleton before c

/-- Between the parentheses of a node the place at which a cursor is looked up is on the node. -/
theorem Encloses.spans (h : t.Encloses n left right p) :
    t.spans (.empty (t.cursorPlace p)) n = true := by
  have hLeft := places_of_parent? (mem_children_iff.mp h.left_child)
  have hRight := places_of_parent? (mem_children_iff.mp h.right_child)
  obtain ⟨before, after, hSource, hStop, hOpen⟩ :=
    exists_source_of_singleton (c := '(') (children_bounds h.left_child).2 h.left_text
  obtain ⟨-, -, -, -, hClose⟩ :=
    exists_source_of_singleton (c := ')') (children_bounds h.right_child).2 h.right_text
  have hBehind : t.stop left ≤ t.cursorPlace p := by
    rw [hStop]
    exact le_cursorPlace hSource (by decide) (by decide) (hStop ▸ h.stop_le)
  have hBefore := Position.le_trans (t.cursorPlace_le p) h.le_start
  rw [spans_iff]
  simp only [Range.empty, Position.le_def, Position.lt_def] at *
  omega

/-- A cursor is on an item if its place lies on a named node somewhere below the list. -/
theorem isOnItem_iff : t.IsOnItem list p ↔
    ∃ m ∈ t.descendants list, t.isNamed m = true ∧
      t.spans (.empty (t.cursorPlace p)) m = true := by
  refine exists_congr fun m => and_congr_right fun _ => and_congr_right fun _ => ?_
  rw [spans_iff]
  simp only [Range.empty, Position.le_def, Position.lt_def]
  omega

theorem parent?_of_header_list (hList : t.childOfKind? header .exposingList = some list) :
    t.parent? list = some header :=
  mem_children_iff.mp (mem_children_of_childOfKind? hList)

/-- The list of the header hangs below the root. -/
theorem mem_descendants_of_header_list (hHeader : t.header? = some header)
    (hList : t.childOfKind? header .exposingList = some list) : list ∈ t.descendants root := by
  have hTop := (mem_topLevelOfKind_iff.mp (List.mem_of_mem_head? hHeader)).1
  have hReached := mem_reachable_of_child (mem_reachable_of_mem_topLevel hTop)
    (mem_children_of_childOfKind? hList)
  refine (List.mem_cons.mp hReached).resolve_left fun hRoot => ?_
  have hLt := parent?_lt (parent?_of_header_list hList)
  rw [hRoot] at hLt
  exact Nat.not_lt_zero _ hLt

end Tree

namespace Request

open ElmScope.Tree

variable {t : Tree} {header list n : Nat}

theorem isHeaderList_iff : isHeaderList t n = true ↔
    t.kind n = .exposingList ∧ ∃ p, t.parent? n = some p ∧ t.kind p = .moduleDeclaration := by
  simp [isHeaderList, Option.any_eq_true]

theorem isHeaderList_of_header (hHeader : t.header? = some header)
    (hList : t.childOfKind? header .exposingList = some list) : isHeaderList t list = true := by
  refine isHeaderList_iff.mpr ⟨by simpa using List.find?_some hList, header,
    parent?_of_header_list hList, ?_⟩
  exact (mem_topLevelOfKind_iff.mp (List.mem_of_mem_head? hHeader)).2

/-- Neither the header nor what is above it is the exposing list of a header. -/
theorem isHeaderList_above_list (hHeader : t.header? = some header)
    (hList : t.childOfKind? header .exposingList = some list) (h : n ∈ t.ancestors list) :
    isHeaderList t n = false := by
  rw [Bool.eq_false_iff]
  intro hHeaderList
  obtain ⟨hKind, p, hParent, -⟩ := isHeaderList_iff.mp hHeaderList
  obtain ⟨hTop, hModule⟩ := mem_topLevelOfKind_iff.mp (List.mem_of_mem_head? hHeader)
  obtain ⟨q, hq, hAbove⟩ := mem_ancestors_iff.mp h
  obtain rfl := Option.some.inj ((parent?_of_header_list hList).symm.trans hq)
  rcases hAbove with rfl | hAbove
  · rw [hKind] at hModule
    cases hModule
  · rcases above_topLevel hTop hAbove with rfl | ⟨-, hError⟩
    · exact Nat.not_lt_zero _ (parent?_lt hParent)
    · simp [isError, hKind] at hError

/-- On the exposing list of the header, the look-up from the cursor upwards finds the list just
when a named node below the list is under the cursor. -/
theorem any_isHeaderList_iff {stretch : Range} (hHeader : t.header? = some header)
    (hList : t.childOfKind? header .exposingList = some list)
    (hSpans : t.spans stretch list = true) :
    (t.ancestors (t.deepestOver stretch)).any (isHeaderList t) = true ↔
      ∃ m ∈ t.descendants list, t.isNamed m = true ∧ t.spans stretch m = true := by
  have hReached := mem_descendants_of_header_list hHeader hList
  rw [← mem_ancestors_deepestOver_iff hReached, List.any_eq_true]
  constructor
  · rintro ⟨other, hAbove, hOther⟩
    have hNotAbove : other ∉ t.ancestors list := by
      intro h
      exact absurd hOther (by simp [isHeaderList_above_list hHeader hList h])
    rcases deepestOver_comparable hReached hSpans with hSame | hHigh | hBelow
    · exact absurd (hSame ▸ hAbove) hNotAbove
    · exact absurd (ancestors_trans hAbove hHigh) hNotAbove
    · exact hBelow
  · exact fun h => ⟨list, h, isHeaderList_of_header hHeader hList⟩

variable {r : Request} {c : Candidate} {l : List Candidate}

theorem mem_map_filterMap_iff {nodes : List Nat} {name? : Nat → Option String}
    {kind : SymbolKind} : c ∈ (nodes.filterMap name?).map (Candidate.ofSymbol kind) ↔
      ∃ n ∈ nodes, ∃ name, name? n = some name ∧ c = Candidate.ofSymbol kind name := by
  simp only [List.mem_map, List.mem_filterMap]
  constructor
  · rintro ⟨name, ⟨n, hn, hName⟩, rfl⟩
    exact ⟨n, hn, name, hName, rfl⟩
  · rintro ⟨n, hn, name, hName, rfl⟩
    exact ⟨name, ⟨n, hn, hName⟩, rfl⟩

/-- A type is offered bare and with `(..)`, and its constructors with it. -/
theorem mem_ownTypeCandidates_iff : c ∈ ownTypeCandidates t n ↔
    ∃ name, t.upperName? n = some name ∧ (c = .ofSymbol .customType name ∨
      c = .ofSymbol .customType (name ++ "(..)") ∨
      ∃ v ∈ t.variants n, ∃ constructor, t.upperName? v = some constructor ∧
        c = .ofSymbol .unionConstructor constructor) := by
  unfold ownTypeCandidates
  split
  · next hNone => simp [hNone]
  · next name hName =>
    simp [hName, constructorCandidates, mem_map_filterMap_iff]

/-- In the exposing list of the header, just what it can list is offered. -/
theorem mem_moduleExposing?_iff (h : r.moduleExposing? = some l) :
    c ∈ l ↔ r.tree.Listable c := by
  obtain ⟨-, ⟨⟩⟩ := Option.ite_none_right_eq_some.mp h
  simp only [List.mem_append, functionCandidates, aliasCandidates, mem_map_filterMap_iff,
    List.mem_flatMap, mem_ownTypeCandidates_iff]
  constructor
  · rintro ((⟨n, hn, name, hName, rfl⟩ | ⟨n, hn, name, hName, hType⟩) | ⟨n, hn, name, hName, rfl⟩)
    · exact .function hn hName
    · rcases hType with rfl | rfl | ⟨v, hv, constructor, hConstructor, rfl⟩
      · exact .type hn hName
      · exact .typeWithConstructors hn hName
      · exact .constructor hn (Option.isSome_of_eq_some hName) hv hConstructor
    · exact .typeAlias hn hName
  · intro h
    cases h with
    | function hn hName => exact .inl (.inl ⟨_, hn, _, hName, rfl⟩)
    | type hn hName => exact .inl (.inr ⟨_, hn, _, hName, .inl rfl⟩)
    | typeWithConstructors hn hName => exact .inl (.inr ⟨_, hn, _, hName, .inr (.inl rfl)⟩)
    | constructor hn hNamed hv hName =>
        obtain ⟨type, hType⟩ := Option.isSome_iff_exists.mp hNamed
        exact .inl (.inr ⟨_, hn, type, hType, .inr (.inr ⟨_, hv, _, hName, rfl⟩)⟩)
    | typeAlias hn hName => exact .inr ⟨_, hn, _, hName, rfl⟩

/-- A line that does not begin with `import` imports nothing. -/
theorem importModule?_eq_none (h : ¬ "import".toList <+: r.before) : r.importModule? = none := by
  rw [importModule?, LineShape.isImport, LineShape.word?_eq_none h]
  rfl

theorem importExposing?_eq_none (h : ¬ "import".toList <+: r.before) :
    r.importExposing? = none := by
  rw [importExposing?, LineShape.importExposing?, LineShape.word?_eq_none h]
  rfl

/-- Between the parentheses of the header the list is recognised from the line, or else on an
item. -/
theorem moduleExposing?_isSome_iff {left right : Nat} (hHeader : r.tree.header? = some header)
    (hList : r.tree.childOfKind? header .exposingList = some list)
    (hInside : r.tree.Encloses list left right r.position) :
    r.moduleExposing?.isSome = true ↔
      LineShape.isModuleExposing r.before = true ∨ r.tree.IsOnItem list r.position := by
  rw [isOnItem_iff, ← any_isHeaderList_iff hHeader hList hInside.spans]
  simp [moduleExposing?, isInHeaderList, cursor, nodeAtCursor_eq, deepestAt]

/-- Where the list of the header is recognised and no import is written, it is answered. -/
theorem answer_of_moduleExposing? (hImport : ¬ "import".toList <+: r.before)
    (h : r.moduleExposing? = some l) :
    r.answer = (firstOfName l).take r.settings.completionLimit := by
  rw [answer, candidates, importModule?_eq_none hImport, importExposing?_eq_none hImport, h]
  rfl

end Request

namespace Sample

/-- The file `module A exposing (T(..), f)`, `type T = K`, `f = 1`. -/
def itemized : Tree := .ofEvents
  [.enter .file,
    .enter .moduleDeclaration, .token .moduleKeyword "module", .gap " ",
    .enter .upperCaseQid, .token .upperCaseIdentifier "A", .leave, .gap " ",
    .enter .exposingList, .punctuation "exposing", .gap " ", .punctuation "(",
    .enter .exposedType, .token .upperCaseIdentifier "T",
    .enter .exposedUnionConstructors, .punctuation "(", .token .doubleDot "..", .punctuation ")",
    .leave, .leave, .punctuation ",", .gap " ",
    .enter .exposedValue, .token .lowerCaseIdentifier "f", .leave, .punctuation ")",
    .leave, .leave, .gap "\n",
    .enter .typeDeclaration, .token .typeKeyword "type", .gap " ",
    .token .upperCaseIdentifier "T", .gap " = ",
    .enter .unionVariant, .token .upperCaseIdentifier "K", .leave, .leave, .gap "\n",
    .enter .valueDeclaration, .enter .functionDeclarationLeft,
    .token .lowerCaseIdentifier "f", .leave, .gap " = 1", .leave, .leave]

def itemizedWorkspace : Workspace := Workspace.empty.upsert "a" itemized (some "A")

end Sample

namespace Workspace

/-- Between the parentheses of the exposing list of a header, what the list can list is offered
just where the line is recognised or the cursor is on an item, unless an import is written. -/
theorem completions_headerList (w : Workspace) (uri : String) (d : Document) (p : Position)
    (trigger : Trigger) (settings : Settings) (header list left right : Nat)
    (hGet : w.get? uri = some d) (hHeader : d.tree.header? = some header)
    (hList : d.tree.childOfKind? header .exposingList = some list)
    (hInside : d.tree.Encloses list left right p)
    (hImport : ¬ "import".toList <+: d.tree.textBefore p) :
    let r := Request.mk w (w.fileScope d) settings trigger p
    (r.moduleExposing?.isSome = true ↔
        LineShape.isModuleExposing (d.tree.textBefore p) = true ∨ d.tree.IsOnItem list p) ∧
      ∀ offered, r.moduleExposing? = some offered →
        w.completions uri p trigger settings =
          (firstOfName offered).take settings.completionLimit ∧
        ∀ c, (c ∈ offered ↔ d.tree.Listable c) ∧ (c ∈ offered → c.edits = []) := by
  intro r
  have hExposing := Request.moduleExposing?_isSome_iff (r := r) hHeader hList hInside
  refine ⟨hExposing, fun offered hOffered => ⟨?_, fun c => ?_⟩⟩
  · rw [completions, hGet]
    exact Request.answer_of_moduleExposing? hImport hOffered
  · exact ⟨Request.mem_moduleExposing?_iff hOffered,
      fun hc => (Request.isOwn_of_moduleExposing? hOffered hc).noEdits⟩

/-- Behind the last item, where the parenthesis of `T(..)` is closed already. -/
theorem completions_headerList_item :
    Sample.itemized.Encloses 5 7 17 ⟨0, 27⟩ ∧
      LineShape.isModuleExposing (Sample.itemized.textBefore ⟨0, 27⟩) = false ∧
      ∃ offered, Sample.itemizedWorkspace.completions "a" ⟨0, 27⟩ .invoked {} =
          (firstOfName offered).take 100 ∧
        Candidate.ofSymbol .customType ("T" ++ "(..)") ∈ offered := by
  have hInside : Sample.itemized.Encloses 5 7 17 ⟨0, 27⟩ :=
    ⟨by decide +kernel, by decide +kernel, by decide +kernel, by decide +kernel,
      by decide +kernel, by decide +kernel⟩
  obtain ⟨hShown, hAnswer⟩ := completions_headerList Sample.itemizedWorkspace "a"
    ⟨"a", Sample.itemized, some "A", 0⟩ ⟨0, 27⟩ .invoked {} 1 5 7 17 rfl
    (by decide +kernel) (by decide +kernel) hInside (by decide +kernel)
  have hItem : Sample.itemized.IsOnItem 5 ⟨0, 27⟩ :=
    ⟨15, by decide +kernel, by decide +kernel, by decide +kernel, by decide +kernel⟩
  obtain ⟨offered, hOffered⟩ := Option.isSome_iff_exists.mp (hShown.mpr (.inr hItem))
  obtain ⟨hCompletions, hMem⟩ := hAnswer offered hOffered
  refine ⟨hInside, by decide +kernel, offered, hCompletions, (hMem _).1.mpr ?_⟩
  exact .typeWithConstructors (n := 18) (by decide +kernel) (by decide +kernel)

/-- Behind the comma, where the node under the cursor is the list, an expression is answered. -/
theorem completions_headerList_comma :
    (Sample.itemizedWorkspace.get? "a" = some ⟨"a", Sample.itemized, some "A", 0⟩ ∧
      Sample.itemized.header? = some 1 ∧
      Sample.itemized.childOfKind? 1 .exposingList = some 5 ∧
      Sample.itemized.Encloses 5 7 17 ⟨0, 25⟩ ∧
      ¬ "import".toList <+: Sample.itemized.textBefore ⟨0, 25⟩) ∧
    Sample.itemized.Listable (.ofSymbol .customType "T") ∧
      ∀ c ∈ Sample.itemizedWorkspace.completions "a" ⟨0, 25⟩ .invoked {}, c.name ≠ "T" := by
  refine ⟨⟨rfl, by decide +kernel, by decide +kernel, ?_, by decide +kernel⟩, ?_,
    by decide +kernel⟩
  · exact ⟨by decide +kernel, by decide +kernel, by decide +kernel, by decide +kernel,
      by decide +kernel, by decide +kernel⟩
  · exact .type (n := 18) (by decide +kernel) (by decide +kernel)

end Workspace

end ElmScope
