import ElmScope.Proofs.Reference.Lookup
import ElmScope.Proofs.Reference.Usage

/-! Looking up the names that an import clause itself is made of. They are asked of the
index of all clauses, where the last clause that offers a name has it: a clause's own names
lead into its own module as long as no later clause offers them from another file. -/
namespace ElmScope

namespace Tree

/-- A node is the module name of an import clause, or a part of it, right after `import`. -/
structure IsModuleName (t : Tree) (clause n name : Nat) : Prop where
  inClause : t.childOfKind? clause .upperCaseQid = some name
  afterImport : t.precedingKind? name = some .importKeyword
  part : (t.usedNode? n).bind t.parent? = some name

structure IsListedName (t : Tree) (clause n item : Nat) : Prop where
  below : t.parent? n = some item
  isName : t.kind n ≠ .valueQid ∧ t.kind n ≠ .upperCaseQid
  isItem : t.kind item = .exposedValue ∨ t.kind item = .exposedType
  inList : (t.parent? item).bind t.parent? = some clause

end Tree

structure IsLastOffer (w : Workspace) (t : Tree) (clause : Nat) (name : String)
    (kind : SymbolKind) : Prop where
  isClause : clause ∈ t.importClauses
  offers : OffersKey w t clause name kind
  last : ∀ later ∈ t.importClauses, clause < later → ¬ OffersKey w t later name kind

/-- A name is taken from a module when the last clause that offers it imports another file. -/
def IsOvertaken (w : Workspace) (t : Tree) (m : Imported) (name : String) (kind : SymbolKind) :
    Prop :=
  ∃ clause moduleName other, IsLastOffer w t clause name kind ∧
    Imports w t clause moduleName other ∧ other.document ≠ m.document

variable {w : Workspace} {t : Tree} {uri name moduleName otherName : String} {d : Document}
  {clause other n item node : Nat} {kind : SymbolKind} {m m' : Imported} {r : Definition}

/-- No two clauses are the last. -/
theorem IsLastOffer.unique (h : IsLastOffer w t clause name kind)
    (h' : IsLastOffer w t other name kind) : clause = other := by
  rcases Nat.lt_trichotomy clause other with hLess | hSame | hGreater
  · exact absurd h'.offers (h.last other h'.isClause hLess)
  · exact hSame
  · exact absurd h.offers (h'.last clause h.isClause hGreater)

theorem Imports.unique (h : Imports w t clause moduleName m)
    (h' : Imports w t clause otherName m') : m = m' := by
  apply Option.some.inj
  rw [← h.ofClause?_eq, h'.ofClause?_eq]

theorem Imports.header_eq (h : Imports w t clause moduleName m)
    (h' : Imports w t other otherName m') (hSame : m.document = m'.document) :
    m.header = m'.header := by
  apply Option.some.inj
  rw [← h.header, ← h'.header, hSame]

/-- A module is offered for its header, under its own name or under the alias of the clause. -/
theorem Imported.Offers.of_moduleHeader
    (h : m.Offers t clause moduleName name .moduleHeader node) :
    node = m.header ∧ (moduleName = name ∨ t.importAlias? clause = some name) := by
  generalize hHeader : SymbolKind.moduleHeader = kind at h
  cases h with
  | byName => exact ⟨rfl, .inl rfl⟩
  | byAlias hAlias => exact ⟨rfl, .inr hAlias⟩
  | qualified _ => exact absurd hHeader.symm ExposedKind.toSymbolKind_ne_moduleHeader
  | qualifiedConstructor _ _ => exact nomatch hHeader
  | bare _ _ => exact absurd hHeader.symm ExposedKind.toSymbolKind_ne_moduleHeader
  | bareConstructor _ _ _ _ => exact nomatch hHeader

/-- Only the header is offered as a module. -/
theorem Imported.Offers.eq_header (h : m.Offers t clause moduleName name .moduleHeader node) :
    node = m.header :=
  h.of_moduleHeader.1

namespace FileScope

/-- What a clause offers is found, if not from this clause then from a later one. -/
theorem exists_imported? (hClause : clause ∈ d.tree.importClauses)
    (h : OffersKey w d.tree clause name kind) :
    ∃ r, (w.fileScope d).imported? name kind = some r := by
  obtain ⟨entry, hMem, hKey⟩ := offersKey_iff_exists_mem.mp h
  have hFound : ((ImportIndex.ofTree w d.tree).find? name kind).isSome :=
    ImportIndex.find?_isSome_iff.mpr ⟨entry, List.mem_flatMap.mpr ⟨clause, hClause, hMem⟩, hKey⟩
  obtain ⟨found, hFound⟩ := Option.isSome_iff_exists.mp hFound
  exact ⟨⟨found.site, kind⟩, Option.map_eq_some_iff.mpr ⟨found, hFound, rfl⟩⟩

/-- What the imports have is from the last clause that offers it. -/
theorem exists_lastOffer (h : (w.fileScope d).imported? name kind = some r) :
    ∃ clause moduleName m, IsLastOffer w d.tree clause name kind ∧
      Imports w d.tree clause moduleName m ∧
      m.Offers d.tree clause moduleName name kind r.site.node ∧ r.site.document = m.document := by
  obtain ⟨entry, hFind, rfl⟩ := Option.map_eq_some_iff.mp h
  obtain ⟨⟨rfl, rfl⟩, clause, hClause, hEntry, hLast⟩ := exists_last_clause hFind
  obtain ⟨moduleName, m, hImports, hOffers, hDocument, -⟩ := hEntry
  exact ⟨clause, moduleName, m, ⟨hClause, ⟨moduleName, m, _, hImports, hOffers⟩, hLast⟩, hImports,
    hOffers, hDocument⟩

/-- An imported name means the module of a clause unless it is taken from it. -/
theorem document_eq_iff (h : (w.fileScope d).imported? name kind = some r) :
    r.site.document = m.document ↔ ¬ IsOvertaken w d.tree m name kind := by
  obtain ⟨last, lastName, source, hLast, hImports, -, hDocument⟩ := exists_lastOffer h
  rw [hDocument]
  constructor
  · rintro hSame ⟨other, otherName, m', hOther, hImports', hDifferent⟩
    obtain rfl := hLast.unique hOther
    rw [hImports'.unique hImports] at hDifferent
    exact hDifferent hSame
  · intro hKept
    by_contra hDifferent
    exact hKept ⟨last, lastName, source, hLast, hImports, hDifferent⟩

end FileScope

namespace Workspace

/-- The module name of a clause is looked up among the imports. -/
theorem definition?_moduleName (hFile : w.get? uri = some d)
    (hImports : Imports w d.tree clause moduleName m) {q : Nat}
    (hName : d.tree.IsModuleName clause n q) :
    w.definition? uri ⟨d, n⟩ = (w.fileScope d).imported? moduleName .moduleHeader := by
  have hText : d.tree.text q = moduleName := by
    apply Option.some.inj
    rw [← hImports.named, Tree.importedModule?, Tree.childText?, hName.inClause, Option.map_some]
  have hKind : d.tree.kind q = .upperCaseQid := (Tree.parent?_of_childOfKind? hName.inClause).2
  have hUse : (w.fileScope d).tree.usage? n = some (.importedModule (d.tree.text q)) :=
    Tree.usage?_moduleName hName.part hKind hName.afterImport
  rw [definition?_of_get? hFile, FileScope.definition?, hUse, Option.bind_some,
    FileScope.lookup?, hText]

/-- A listed name that means anything means what the imports have under it. -/
theorem imported?_of_listedName (hFile : w.get? uri = some d)
    (hClause : clause ∈ d.tree.importClauses) (hName : d.tree.IsListedName clause n item)
    (h : w.definition? uri ⟨d, n⟩ = some r) :
    (w.fileScope d).imported? (d.tree.text n) r.kind = some r := by
  have hKind : d.tree.kind clause = .importClause := (Tree.mem_topLevelOfKind_iff.mp hClause).2
  obtain ⟨hValue, hType⟩ := Tree.usage?_listedName hName.below hName.isName hName.inList hKind
  rw [definition?_of_get? hFile, FileScope.definition?] at h
  obtain ⟨usage, hUse, hLookup⟩ := Option.bind_eq_some_iff.mp h
  have hUsage : usage = .importedValue (d.tree.text n) ∨ usage = .importedType (d.tree.text n) := by
    rcases hName.isItem with hItem | hItem
    · exact .inl (Option.some.inj (hUse.symm.trans (hValue hItem)))
    · exact .inr (Option.some.inj (hUse.symm.trans (hType hItem)))
  rcases hUsage with rfl | rfl
  · rwa [FileScope.imported?_kind hLookup]
  · rcases Option.or_eq_some_iff.mp hLookup with hCustom | ⟨-, hAlias⟩
    · rwa [FileScope.imported?_kind hCustom]
    · rwa [FileScope.imported?_kind hAlias]

end Workspace

namespace Sample

/-- The file `import A exposing (f)`, `import B as A exposing (f)`. -/
def rivals : Tree := .ofEvents
  [.enter .file,
    .enter .importClause, .token .importKeyword "import", .gap " ",
    .enter .upperCaseQid, .token .upperCaseIdentifier "A", .leave, .gap " ",
    .enter .exposingList, .punctuation "exposing", .gap " ", .punctuation "(",
    .enter .exposedValue, .token .lowerCaseIdentifier "f", .leave,
    .punctuation ")", .leave, .leave, .gap "\n",
    .enter .importClause, .token .importKeyword "import", .gap " ",
    .enter .upperCaseQid, .token .upperCaseIdentifier "B", .leave, .gap " ",
    .enter .asClause, .punctuation "as", .gap " ", .token .upperCaseIdentifier "A", .leave, .gap " ",
    .enter .exposingList, .punctuation "exposing", .gap " ", .punctuation "(",
    .enter .exposedValue, .token .lowerCaseIdentifier "f", .leave,
    .punctuation ")", .leave, .leave, .leave]

/-- The file `import {- library -} A`. -/
def commented : Tree := .ofEvents
  [.enter .file,
    .enter .importClause, .token .importKeyword "import", .gap " ",
    .token .blockComment "\x7b- library -\x7d", .gap " ",
    .enter .upperCaseQid, .token .upperCaseIdentifier "A", .leave, .leave, .leave]

def documentA : Document := ⟨"a", library "A", some "A", 0⟩

def importedA : Imported := ⟨documentA, ⟨"A", [Tree.plainSymbol "f" .function 10]⟩, 1⟩

def importedB : Imported := ⟨documentB, ⟨"B", [Tree.plainSymbol "f" .function 10]⟩, 1⟩

/-- The modules `A` and `B`, a file that imports both under one name, and a file with a
comment in its import. -/
def competing : Workspace :=
  (((Workspace.empty.upsert "a" (library "A") (some "A")).upsert "b" (library "B")
    (some "B")).upsert "main" rivals none).upsert "other" commented none

end Sample

namespace Workspace

/-- What the names of an import clause mean. The module name leads to the header of the last
clause's module that goes by that name, so to the header of its own module as long as no later
clause gives the name to another file. A listed value or type, where it leads anywhere, leads
into the file of its own module as long as the last clause that offers it imports that file. -/
theorem definition?_importClause (w : Workspace) (uri : String) (d : Document) (clause : Nat)
    (moduleName : String) (m : Imported) (hFile : w.get? uri = some d)
    (hClause : clause ∈ d.tree.importClauses) (hImports : Imports w d.tree clause moduleName m) :
    (∀ n name, d.tree.IsModuleName clause n name →
      (∃ last lastName source, IsLastOffer w d.tree last moduleName .moduleHeader ∧
        Imports w d.tree last lastName source ∧
        w.definition? uri ⟨d, n⟩ = some ⟨⟨source.document, source.header⟩, .moduleHeader⟩) ∧
      (w.definition? uri ⟨d, n⟩ = some ⟨⟨m.document, m.header⟩, .moduleHeader⟩ ↔
        ¬ IsOvertaken w d.tree m moduleName .moduleHeader)) ∧
    (∀ n item r, d.tree.IsListedName clause n item → w.definition? uri ⟨d, n⟩ = some r →
      (r.site.document = m.document ↔ ¬ IsOvertaken w d.tree m (d.tree.text n) r.kind)) := by
  constructor
  · intro n name hName
    obtain ⟨r, hFound⟩ :=
      FileScope.exists_imported? hClause ⟨moduleName, m, m.header, hImports, .byName⟩
    obtain ⟨last, lastName, source, hLast, hSource, hOffers, hDocument⟩ :=
      FileScope.exists_lastOffer hFound
    have hAnswer : r = ⟨⟨source.document, source.header⟩, .moduleHeader⟩ := by
      obtain ⟨⟨document, node⟩, kind⟩ := r
      obtain rfl := FileScope.imported?_kind hFound
      rw [← hOffers.eq_header, ← hDocument]
    rw [definition?_moduleName hFile hImports hName, hFound, ← FileScope.document_eq_iff hFound,
      hAnswer]
    refine ⟨⟨last, lastName, source, hLast, hSource, rfl⟩, ?_⟩
    constructor
    · intro hSame
      exact congrArg (fun r => r.site.document) (Option.some.inj hSame)
    · intro hSame
      change source.document = m.document at hSame
      rw [hSame, hSource.header_eq hImports hSame]
  · intro n item r hName hAnswer
    exact FileScope.document_eq_iff (imported?_of_listedName hFile hClause hName hAnswer)

/-- The names of the last clause of `main` are not taken from it. -/
theorem definition?_importClause_last :
    ¬ IsOvertaken Sample.workspace Sample.main Sample.importedB "B" .moduleHeader ∧
      ¬ IsOvertaken Sample.workspace Sample.main Sample.importedB "f" .function := by
  have hImports : Imports Sample.workspace Sample.main 10 "B" Sample.importedB :=
    ⟨by decide +kernel, by decide +kernel, by decide +kernel, by decide +kernel⟩
  have hModule : Sample.main.IsModuleName 10 13 12 :=
    ⟨by decide +kernel, by decide +kernel, by decide +kernel⟩
  have hListed : Sample.main.IsListedName 10 18 17 :=
    ⟨by decide +kernel, by decide +kernel, by decide +kernel, by decide +kernel⟩
  have hText : Sample.main.text 18 = "f" := by decide +kernel
  have hFound :
      Sample.workspace.definition? "main" ⟨Sample.documentMain, 13⟩ =
        some ⟨⟨Sample.documentB, 1⟩, .moduleHeader⟩ ∧
      Sample.workspace.definition? "main" ⟨Sample.documentMain, 18⟩ =
        some ⟨⟨Sample.documentB, 10⟩, .function⟩ := by decide +kernel
  obtain ⟨hHeader, hItem⟩ := definition?_importClause Sample.workspace "main" Sample.documentMain 10
    "B" Sample.importedB (by decide +kernel) (by decide +kernel) hImports
  constructor
  · exact (hHeader 13 12 hModule).2.mp hFound.1
  · have hKept := (hItem 18 17 _ hListed hFound.2).mp rfl
    exact hText ▸ hKept

/-- A later clause can take both the name of a module and the names listed from it, and a
comment after `import` hides the module name. -/
theorem definition?_importClause_overtaken :
    let main : Document := ⟨"main", Sample.rivals, none, 2⟩
    let other : Document := ⟨"other", Sample.commented, none, 3⟩
    Imports Sample.competing Sample.rivals 1 "A" Sample.importedA ∧
    Imports Sample.competing Sample.commented 1 "A" Sample.importedA ∧
    Sample.rivals.IsModuleName 1 4 3 ∧ Sample.rivals.IsListedName 1 9 8 ∧
    Sample.commented.childOfKind? 1 .upperCaseQid = some 4 ∧
    Sample.competing.definition? "main" ⟨main, 4⟩ = some ⟨⟨Sample.documentB, 1⟩, .moduleHeader⟩ ∧
    Sample.competing.definition? "main" ⟨main, 9⟩ = some ⟨⟨Sample.documentB, 10⟩, .function⟩ ∧
    Sample.competing.definition? "other" ⟨other, 4⟩ = none := by
  refine ⟨?_, ?_, ?_, ?_, by decide +kernel⟩
  · exact ⟨by decide +kernel, by decide +kernel, by decide +kernel, by decide +kernel⟩
  · exact ⟨by decide +kernel, by decide +kernel, by decide +kernel, by decide +kernel⟩
  · exact ⟨by decide +kernel, by decide +kernel, by decide +kernel⟩
  · exact ⟨by decide +kernel, by decide +kernel, by decide +kernel, by decide +kernel⟩

end Workspace

end ElmScope
