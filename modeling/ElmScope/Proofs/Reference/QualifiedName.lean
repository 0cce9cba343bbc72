import Mathlib.Data.List.Chain
import ElmScope.Proofs.Reference.ImportClause
import ElmScope.Proofs.Syntax.Adjacent

/-! Qualified names, segment by segment. A segment before a dot is used as the module that the
name goes through so far, and the last segment, like the name as a whole, as what is named in it.
Both read the source: from the beginning of the name to the end of the segment, and all of the
name. So the texts are the segments joined with dots, and the source that the name has before its
first segment and behind its last one. -/
namespace ElmScope

structure DottedSegment where
  node : Nat
  dot : Nat

namespace DottedSegment

def nodes (s : DottedSegment) : List Nat := [s.node, s.dot]

end DottedSegment

namespace Tree

/-- A qualified name of segments with dots and a last segment, with nothing in between: a type or
a constructor, which no `module` or `import` precedes as a named sibling, or a value. -/
structure IsQualifiedName (t : Tree) (name : Nat) (segments : List DottedSegment) (last : Nat) :
    Prop where
  children : t.children name = segments.flatMap (·.nodes) ++ [last]
  adjacent : (t.children name).IsChain t.IsAdjacent
  isSegment : ∀ s ∈ segments, t.kind s.node = .upperCaseIdentifier ∧ t.kind s.dot = .dot ∧
    t.text s.dot = "."
  isName : (t.kind name = .upperCaseQid ∧ t.kind last = .upperCaseIdentifier ∧
      t.precedingKind? name ≠ some .moduleKeyword ∧ t.precedingKind? name ≠ some .importKeyword) ∨
    (t.kind name = .valueQid ∧ t.kind last = .lowerCaseIdentifier)

/-- The texts of segments and of one more node, joined with dots. -/
def dottedText (t : Tree) (segments : List DottedSegment) (last : Nat) : String :=
  ".".intercalate (segments.map (t.text ·.node) ++ [t.text last])

def leadingText (t : Tree) (n : Nat) : String :=
  t.sourceBetween (t.startByte n) (((t.children n).head?.map t.startByte).getD (t.endByte n))

def trailingText (t : Tree) (n : Nat) : String :=
  t.sourceBetween (((t.children n).getLast?.map t.endByte).getD (t.endByte n)) (t.endByte n)

variable {t : Tree} {name last first : Nat} {segments before after : List DottedSegment}
  {s : DottedSegment}

theorem dottedText_cons : t.dottedText (s :: segments) last =
    t.text s.node ++ "." ++ t.dottedText segments last :=
  String.intercalate_cons_of_ne_nil (List.append_ne_nil_of_right_ne_nil _ (List.cons_ne_nil _ _))

/-- Segments with dots between them read as their texts joined with dots. -/
theorem sourceBetween_dotted (hFirst : (segments.flatMap (·.nodes) ++ [last]).head? = some first)
    (hChain : (segments.flatMap (·.nodes) ++ [last]).IsChain t.IsAdjacent)
    (hSize : ∀ n ∈ segments.flatMap (·.nodes) ++ [last], n < t.size)
    (hDots : ∀ s ∈ segments, t.text s.dot = ".") :
    t.startByte first ≤ t.endByte last ∧
      t.sourceBetween (t.startByte first) (t.endByte last) = t.dottedText segments last := by
  induction segments generalizing first with
  | nil =>
      obtain rfl : last = first := Option.some.inj hFirst
      have hLast : last < t.size := hSize last (List.mem_singleton_self last)
      exact ⟨startByte_le_endByte hLast, (text_eq_sourceBetween hLast).symm⟩
  | cons s rest ih =>
      obtain rfl : s.node = first := Option.some.inj hFirst
      obtain ⟨next, hNext⟩ : ∃ next, (rest.flatMap (·.nodes) ++ [last]).head? = some next :=
        Option.isSome_iff_exists.mp (by simp)
      rw [List.flatMap_cons, List.append_assoc] at hChain hSize
      obtain ⟨hDot, hChain⟩ := List.isChain_cons_cons.mp hChain
      obtain ⟨hBehind, hTail⟩ := List.isChain_cons.mp hChain
      have hTailSize : ∀ n ∈ rest.flatMap (·.nodes) ++ [last], n < t.size := fun n hn =>
        hSize n (List.mem_append_right _ hn)
      obtain ⟨hReach, hRest⟩ := ih hNext hTail hTailSize fun r hr =>
        hDots r (List.mem_cons_of_mem _ hr)
      have hDotSize : s.dot < t.size := hSize s.dot (by simp [DottedSegment.nodes])
      have hNodeSize : s.node < t.size := hSize s.node (by simp [DottedSegment.nodes])
      obtain ⟨hReach, hFromDot⟩ :=
        sourceBetween_of_isAdjacent (hBehind next hNext) hDotSize hReach
      obtain ⟨hReach, hFromNode⟩ := sourceBetween_of_isAdjacent hDot hNodeSize hReach
      refine ⟨hReach, ?_⟩
      rw [hFromNode, hFromDot, hRest, hDots s List.mem_cons_self, dottedText_cons,
        String.append_assoc]

/-- The source from the beginning of a qualified name to the end of one of its segments. -/
theorem IsQualifiedName.sourceBetween_upTo {n : Nat} (h : t.IsQualifiedName name segments last)
    (hUpTo : before.flatMap (·.nodes) ++ [n] <+: t.children name)
    (hSegments : ∀ s ∈ before, s ∈ segments) :
    t.sourceBetween (t.startByte name) (t.endByte n) =
      t.leadingText name ++ t.dottedText before n := by
  obtain ⟨first, hFirst⟩ : ∃ first, (before.flatMap (·.nodes) ++ [n]).head? = some first :=
    Option.isSome_iff_exists.mp (by simp)
  have hHead : (t.children name).head? = some first := by
    obtain ⟨rest, hRest⟩ := hUpTo
    rw [← hRest, List.head?_append, hFirst, Option.some_or]
  have hParent : t.parent? first = some name := mem_children_iff.mp (List.mem_of_mem_head? hHead)
  have hChain := List.IsChain.prefix h.adjacent hUpTo
  obtain ⟨hReach, hDotted⟩ := sourceBetween_dotted hFirst hChain
    (fun c hc => (children_bounds (hUpTo.subset hc)).2)
    fun s hs => (h.isSegment s (hSegments s hs)).2.2
  have hName : name < t.size := Nat.lt_trans (parent?_lt hParent) (parent?_bounds hParent).2
  rw [← hDotted, leadingText, hHead, Option.map_some, Option.getD_some,
    sourceBetween_append (isBoundary_startByte hName)
      (isBoundary_startByte (parent?_bounds hParent).2) (inside_of_parent? hParent).1 hReach]

/-- The whole text of a qualified name. -/
theorem IsQualifiedName.text_eq (h : t.IsQualifiedName name segments last) :
    t.text name = t.leadingText name ++ t.dottedText segments last ++ t.trailingText name := by
  have hLast : (t.children name).getLast? = some last := by
    rw [h.children, List.getLast?_append, List.getLast?_singleton, Option.some_or]
  have hParent : t.parent? last = some name :=
    mem_children_iff.mp (List.mem_of_getLast? hLast)
  have hSize := (parent?_bounds hParent).2
  have hName : name < t.size := Nat.lt_trans (parent?_lt hParent) hSize
  obtain ⟨hStart, hEnd⟩ := inside_of_parent? hParent
  rw [← h.sourceBetween_upTo (h.children ▸ List.prefix_refl _) fun _ => id, trailingText, hLast,
    Option.map_some, Option.getD_some, text_eq_sourceBetween hName,
    sourceBetween_append (isBoundary_startByte hName) (isBoundary_endByte hSize)
      (Nat.le_trans hStart (startByte_le_endByte hSize)) hEnd]

/-- A name that begins with its first segment and ends with its last one is only segments and
dots. -/
theorem leadingText_eq_empty (hHead : (t.children name).head? = some first)
    (hStart : t.startByte first = t.startByte name) : t.leadingText name = "" := by
  rw [leadingText, hHead, Option.map_some, Option.getD_some, hStart, sourceBetween_self]

/-- Nothing stands behind the last child of a name that ends with it. -/
theorem trailingText_eq_empty (hLast : (t.children name).getLast? = some last)
    (hEnd : t.endByte last = t.endByte name) : t.trailingText name = "" := by
  rw [trailingText, hLast, Option.map_some, Option.getD_some, hEnd, sourceBetween_self]

/-- A node right below a qualified name is used as a qualifier, or else as the name is. -/
theorem IsQualifiedName.usage?_below {n : Nat} (h : t.IsQualifiedName name segments last)
    (hChild : n ∈ t.children name)
    (hKind : t.kind n = .upperCaseIdentifier ∨ t.kind n = .lowerCaseIdentifier) :
    t.usage? n = some (t.segmentUsage n name (if t.kind name = .upperCaseQid
      then .upperName (t.text name) else .value (t.text n) (t.text name))) := by
  have hNode : t.kind n ≠ .valueQid ∧ t.kind n ≠ .upperCaseQid := by
    rcases hKind with hKind | hKind <;> simp [hKind]
  rw [usage?_eq_usageUnder? hNode (mem_children_iff.mp hChild), usageUnder?]
  rcases h.isName with ⟨hUpper, -, hModule, hImport⟩ | ⟨hValue, -⟩
  · rw [hUpper, if_pos rfl]
    dsimp only
    split
    · next hBefore => exact absurd hBefore hModule
    · next hBefore => exact absurd hBefore hImport
    · rfl
  · have hOther : Kind.valueQid ≠ .upperCaseQid := by decide
    simp only [hValue, if_neg hOther]

/-- A segment with a dot behind it is used as the module that the name goes through so far. -/
theorem IsQualifiedName.usage?_segment (h : t.IsQualifiedName name segments last)
    (hSegments : segments = before ++ s :: after) :
    t.usage? s.node =
      some (.moduleQualifier (t.leadingText name ++ t.dottedText before s.node)) := by
  have hMem : s ∈ segments := hSegments ▸ List.mem_append_right _ List.mem_cons_self
  obtain ⟨hKind, hDot, -⟩ := h.isSegment s hMem
  have hChildren : t.children name = before.flatMap (·.nodes) ++
      s.node :: (s.dot :: (after.flatMap (·.nodes) ++ [last])) := by
    rw [h.children, hSegments, List.flatMap_append, List.flatMap_cons, DottedSegment.nodes]
    simp
  have hNext : t.nextSibling? s.node = some s.dot := by
    rw [nextSibling?, (siblings_of_children hChildren).2, List.head?_cons]
  have hQualifier : t.isQualifier s.node = true := by
    simp [isQualifier, hKind, hNext, hDot]
  have hUpTo : before.flatMap (·.nodes) ++ [s.node] <+: t.children name := by
    refine ⟨s.dot :: (after.flatMap (·.nodes) ++ [last]), ?_⟩
    rw [hChildren, List.append_assoc, List.singleton_append]
  rw [h.usage?_below (hUpTo.subset (by simp)) (.inl hKind), segmentUsage, if_pos hQualifier]
  exact congrArg (fun text => some (Usage.moduleQualifier text))
    (h.sourceBetween_upTo hUpTo fun r hr => hSegments ▸ List.mem_append_left _ hr)

/-- The last segment is used as a type or a constructor, or as a value, of the whole name. -/
theorem IsQualifiedName.usage?_last (h : t.IsQualifiedName name segments last) :
    t.usage? last = some (if t.kind name = .upperCaseQid then .upperName (t.text name)
      else .value (t.text last) (t.text name)) := by
  have hKind : t.kind last = .upperCaseIdentifier ∨ t.kind last = .lowerCaseIdentifier := by
    rcases h.isName with ⟨-, hUpper, -⟩ | ⟨-, hLower⟩
    · exact .inl hUpper
    · exact .inr hLower
  have hNext : t.nextSibling? last = none := by
    rw [nextSibling?, (siblings_of_children h.children).2, List.head?_nil]
  have hQualifier : ¬ t.isQualifier last = true := by simp [isQualifier, hNext]
  rw [h.usage?_below (h.children ▸ List.mem_append_right _ (List.mem_singleton_self last)) hKind,
    segmentUsage, if_neg hQualifier]

/-- The whole name is used as its last segment is when that is a named node. -/
theorem IsQualifiedName.usage?_name (h : t.IsQualifiedName name segments last)
    (hNamed : t.isNamed last = true) : t.usage? name = t.usage? last := by
  have hUsed : t.usedNode? name = some last := by
    have hLast : t.lastNamedChild? name = some last := by
      rw [lastNamedChild?, namedChildren, h.children, List.filter_append,
        List.filter_cons_of_pos hNamed, List.filter_nil, List.getLast?_concat]
    unfold usedNode?
    rcases h.isName with ⟨hUpper, -⟩ | ⟨hValue, -⟩
    · rw [hUpper]
      exact hLast
    · rw [hValue]
      exact hLast
  have hOwn : t.usedNode? last = some last := by
    unfold usedNode?
    rcases h.isName with ⟨-, hUpper, -⟩ | ⟨-, hLower⟩
    · rw [hUpper]
    · rw [hLower]
  rw [usage?, usage?, hUsed, hOwn]

end Tree

/-- An import clause stands for a document under a name: the document is the stored one of the
module that the clause names, it has a surface, and the name is the module's or the alias of the
clause. -/
structure StandsFor (w : Workspace) (t : Tree) (clause : Nat) (name : String)
    (document : Document) : Prop where
  found : (t.importedModule? clause).bind w.findModule? = some document
  shown : document.tree.surface?.isSome
  named : t.importedModule? clause = some name ∨ t.importAlias? clause = some name

variable {w : Workspace} {t : Tree} {d : Document} {name moduleName : String}
  {clause node : Nat} {m : Imported}

/-- A clause that offers its module under a name stands for the module under the name. -/
theorem Imports.standsFor (h : Imports w t clause moduleName m)
    (hOffers : m.Offers t clause moduleName name .moduleHeader node) :
    StandsFor w t clause name m.document where
  found := by rw [h.named, Option.bind_some, h.found]
  shown := by rw [h.surface, Option.isSome_some]
  named := by
    rw [h.named, Option.some.injEq]
    exact hOffers.of_moduleHeader.2

/-- A clause offers a module under the names under which it stands for the module's document. -/
theorem offersKey_moduleHeader_iff :
    OffersKey w t clause name .moduleHeader ↔ ∃ document, StandsFor w t clause name document := by
  constructor
  · rintro ⟨moduleName, m, node, hImports, hOffers⟩
    exact ⟨m.document, hImports.standsFor hOffers⟩
  · rintro ⟨document, hStands⟩
    obtain ⟨moduleName, hName, hFound⟩ := Option.bind_eq_some_iff.mp hStands.found
    obtain ⟨surface, hSurface⟩ := Option.isSome_iff_exists.mp hStands.shown
    obtain ⟨header, hHeader, -⟩ := Option.bind_eq_some_iff.mp hSurface
    have hImports : Imports w t clause moduleName ⟨document, surface, header⟩ :=
      ⟨hName, hFound, hSurface, hHeader⟩
    rcases hStands.named with hOwn | hAlias
    · obtain rfl := Option.some.inj (hName.symm.trans hOwn)
      exact ⟨moduleName, _, header, hImports, .byName⟩
    · exact ⟨moduleName, _, header, hImports, .byAlias hAlias⟩

/-- A qualifier leads to the header of the last clause's document that goes by it. -/
theorem FileScope.lookup?_moduleQualifier (hClause : clause ∈ d.tree.importClauses)
    {document : Document} (hStands : StandsFor w d.tree clause name document) (n : Nat) :
    ∃ last ∈ d.tree.importClauses, ∃ source header, StandsFor w d.tree last name source ∧
      (∀ later ∈ d.tree.importClauses, last < later →
        ∀ other, ¬ StandsFor w d.tree later name other) ∧
      source.tree.header? = some header ∧
      (w.fileScope d).lookup? n (.moduleQualifier name) =
        some ⟨⟨source, header⟩, .moduleHeader⟩ := by
  obtain ⟨r, hFound⟩ :=
    exists_imported? hClause (offersKey_moduleHeader_iff.mpr ⟨document, hStands⟩)
  obtain ⟨last, lastName, m, hLast, hImports, hOffers, hDocument⟩ := exists_lastOffer hFound
  refine ⟨last, hLast.isClause, m.document, m.header, hImports.standsFor hOffers, ?_,
    hImports.header, ?_⟩
  · intro later hLater hAfter other hOther
    exact hLast.last later hLater hAfter (offersKey_moduleHeader_iff.mpr ⟨other, hOther⟩)
  · rw [lookup?, hFound]
    obtain ⟨⟨document, node⟩, kind⟩ := r
    obtain rfl := imported?_kind hFound
    rw [← hOffers.eq_header, ← hDocument]

/-- A qualified name is used segment by segment. A segment with a dot behind it is the module of
the segments so far, and leads to the header of the last import clause's module that goes by them.
The last segment, or the whole name, is a type, a constructor or a value of all the segments. The
source that the name has around its segments belongs to these texts. -/
theorem Tree.usage?_qualifiedName (t : Tree) (name last : Nat) (segments : List DottedSegment)
    (h : t.IsQualifiedName name segments last) :
    (∀ before s after qualifier, segments = before ++ s :: after →
      qualifier = t.leadingText name ++ t.dottedText before s.node →
      t.usage? s.node = some (.moduleQualifier qualifier) ∧
      ∀ (w : Workspace) (uri : String) (d : Document) (clause : Nat) (document : Document),
        w.get? uri = some d → d.tree = t → clause ∈ t.importClauses →
        StandsFor w t clause qualifier document →
        ∃ final ∈ t.importClauses, ∃ source header, StandsFor w t final qualifier source ∧
          (∀ later ∈ t.importClauses, final < later →
            ∀ other, ¬ StandsFor w t later qualifier other) ∧
          source.tree.header? = some header ∧
          w.definition? uri ⟨d, s.node⟩ = some ⟨⟨source, header⟩, .moduleHeader⟩) ∧
    (∀ whole,
      whole = t.leadingText name ++ t.dottedText segments last ++ t.trailingText name →
      t.usage? last = some (if t.kind name = .upperCaseQid then .upperName whole
        else .value (t.text last) whole) ∧
      (t.isNamed last = true → t.usage? name = t.usage? last)) ∧
    (∀ first, (t.children name).head? = some first → t.startByte first = t.startByte name →
      t.leadingText name = "") ∧
    (t.endByte last = t.endByte name → t.trailingText name = "") := by
  refine ⟨?_, ?_, fun first => leadingText_eq_empty, trailingText_eq_empty ?_⟩
  · rintro before s after qualifier hSegments rfl
    have hUse := h.usage?_segment hSegments
    refine ⟨hUse, ?_⟩
    rintro w uri d clause document hFile rfl hClause hStands
    obtain ⟨final, hFinal, source, header, hSource, hLast, hHeader, hLookup⟩ :=
      FileScope.lookup?_moduleQualifier hClause hStands s.node
    refine ⟨final, hFinal, source, header, hSource, hLast, hHeader, ?_⟩
    have hUse : (w.fileScope d).tree.usage? s.node = some (.moduleQualifier
        (d.tree.leadingText name ++ d.tree.dottedText before s.node)) := hUse
    rw [Workspace.definition?_of_get? hFile, FileScope.definition?, hUse, Option.bind_some, hLookup]
  · rintro whole rfl
    rw [← h.text_eq]
    exact ⟨h.usage?_last, h.usage?_name⟩
  · rw [h.children, List.getLast?_concat]

namespace Sample

/-- The file `import A.B`, `import C as A`, `x = A.B.f`. -/
def qualified : Tree := .ofEvents
  [.enter .file,
    .enter .importClause, .token .importKeyword "import", .gap " ", .enter .upperCaseQid,
    .token .upperCaseIdentifier "A", .token .dot ".", .token .upperCaseIdentifier "B",
    .leave, .leave, .gap "\n",
    .enter .importClause, .token .importKeyword "import", .gap " ", .enter .upperCaseQid,
    .token .upperCaseIdentifier "C", .leave, .gap " ", .enter .asClause, .punctuation "as",
    .gap " ", .token .upperCaseIdentifier "A", .leave, .leave, .gap "\n",
    .enter .valueDeclaration, .enter .functionDeclarationLeft, .token .lowerCaseIdentifier "x",
    .leave, .gap " = ", .enter .valueExpr, .enter .valueQid,
    .token .upperCaseIdentifier "A", .token .dot ".", .token .upperCaseIdentifier "B",
    .token .dot ".", .token .lowerCaseIdentifier "f", .leave, .leave, .leave, .leave]

def documentQualified : Document := ⟨"main", qualified, none, 2⟩

def documentAliased : Document := ⟨"c", library "C", some "C", 1⟩

def qualifiedWorkspace : Workspace :=
  ((Workspace.empty.upsert "ab" (library "A.B") (some "A.B")).upsert "c" (library "C")
    (some "C")).upsert "main" qualified none

/-- The value `A.x` with a space before its first segment and one behind its last. -/
def padded : Tree := .ofEvents
  [.enter .file, .enter .valueQid, .gap " ", .token .upperCaseIdentifier "A", .token .dot ".",
    .token .lowerCaseIdentifier "x", .gap " ", .leave, .leave]

/-- A value whose only segment is a node without a name of its own. -/
def unnamed : Tree := .ofEvents
  [.enter .file, .enter .valueQid, .punctuation "lower_case_identifier", .leave, .leave]

/-- A header in which a bracket stands between `module` and the name. -/
def bracketed : Tree := .ofEvents
  [.enter .file, .enter .moduleDeclaration, .token .moduleKeyword "module", .punctuation "(",
    .enter .upperCaseQid, .token .upperCaseIdentifier "A", .leave, .leave, .leave]

end Sample

/-- The first segment of `A.B.f` leads to the module `C`, which goes by the name `A`, and the second
one to the module `A.B`. -/
theorem Tree.usage?_qualifiedName_alias :
    Sample.qualified.usage? 19 = some (.moduleQualifier "A") ∧
      Sample.qualified.usage? 21 = some (.moduleQualifier "A.B") ∧
      Sample.qualified.usage? 18 = some (.value "f" "A.B.f") ∧
      Sample.qualifiedWorkspace.definition? "main" ⟨Sample.documentQualified, 19⟩ =
        some ⟨⟨Sample.documentAliased, 1⟩, .moduleHeader⟩ := by
  have hName : Sample.qualified.IsQualifiedName 18 [⟨19, 20⟩, ⟨21, 22⟩] 23 :=
    ⟨by decide +kernel, by decide +kernel, by decide +kernel, .inr (by decide +kernel)⟩
  obtain ⟨hSegments, hWhole, hLead, hTrail⟩ := usage?_qualifiedName Sample.qualified 18 23 _ hName
  obtain ⟨hFirst, hStart, hStop, hOne, hTwo, hAll, hNamed⟩ :
      (Sample.qualified.children 18).head? = some 19 ∧
        Sample.qualified.startByte 19 = Sample.qualified.startByte 18 ∧
        Sample.qualified.endByte 23 = Sample.qualified.endByte 18 ∧
        Sample.qualified.dottedText [] 19 = "A" ∧
        Sample.qualified.dottedText [⟨19, 20⟩] 21 = "A.B" ∧
        Sample.qualified.dottedText [⟨19, 20⟩, ⟨21, 22⟩] 23 = "A.B.f" ∧
        Sample.qualified.isNamed 23 = true := by decide +kernel
  rw [hLead 19 hFirst hStart, hTrail hStop] at hWhole
  simp only [hLead 19 hFirst hStart] at hSegments
  obtain ⟨hA, hDefinition⟩ := hSegments [] ⟨19, 20⟩ [⟨21, 22⟩] "A" rfl (by rw [hOne]; rfl)
  obtain ⟨hB, -⟩ := hSegments [⟨19, 20⟩] ⟨21, 22⟩ [] "A.B" rfl (by rw [hTwo]; rfl)
  obtain ⟨hValue, hSame⟩ := hWhole "A.B.f" (by rw [hAll]; rfl)
  refine ⟨hA, hB, (hSame hNamed).trans (hValue.trans (by decide +kernel)), ?_⟩
  have hAlias : StandsFor Sample.qualifiedWorkspace Sample.qualified 7 "A" Sample.documentAliased :=
    ⟨rfl, by decide +kernel, .inr (by decide +kernel)⟩
  obtain ⟨final, hFinal, source, header, hSource, hLast, hHeader, hFound⟩ :=
    hDefinition Sample.qualifiedWorkspace "main" Sample.documentQualified 7 _ rfl rfl
      (by decide +kernel) hAlias
  have hClauses : Sample.qualified.importClauses = [1, 7] := by decide +kernel
  obtain rfl : final = 7 := by
    rcases List.mem_pair.mp (hClauses ▸ hFinal) with rfl | rfl
    · exact absurd hAlias (hLast 7 (by rw [hClauses]; decide) (by decide) _)
    · rfl
  obtain rfl : source = Sample.documentAliased :=
    Option.some.inj (hSource.found.symm.trans hAlias.found)
  have hOwn : Sample.documentAliased.tree.header? = some 1 := by decide +kernel
  obtain rfl : header = 1 := Option.some.inj (hHeader.symm.trans hOwn)
  exact hFound

/-- Nothing is in between the nodes of these names. Yet the first has source around them, which is
in all texts, and the last segment of the second is not found from the whole. The third is that of
a header, though the keyword is not its next sibling. -/
theorem Tree.usage?_qualifiedName_padded :
    (Sample.padded.IsQualifiedName 1 [⟨2, 3⟩] 4 ∧
      Sample.padded.dottedText [] 2 = "A" ∧ Sample.padded.dottedText [⟨2, 3⟩] 4 = "A.x" ∧
      Sample.padded.usage? 2 = some (.moduleQualifier " A") ∧
      Sample.padded.usage? 4 = some (.value "x" " A.x ")) ∧
    (Sample.unnamed.IsQualifiedName 1 [] 2 ∧
      Sample.unnamed.usage? 2 =
        some (.value "lower_case_identifier" "lower_case_identifier") ∧
      Sample.unnamed.usage? 1 = none) ∧
    Sample.bracketed.kind 4 = .upperCaseQid ∧ Sample.bracketed.children 4 = [5] ∧
      Sample.bracketed.kind 5 = .upperCaseIdentifier ∧
      (Sample.bracketed.prevSibling? 4).map Sample.bracketed.kind = some (.ofName "(") ∧
      Sample.bracketed.usage? 5 = some (.moduleHeader 1) := by
  refine ⟨⟨⟨?_, ?_, ?_, .inr ?_⟩, ?_⟩, ⟨⟨?_, ?_, ?_, .inr ?_⟩, ?_⟩, ?_⟩
  all_goals decide +kernel

end ElmScope
