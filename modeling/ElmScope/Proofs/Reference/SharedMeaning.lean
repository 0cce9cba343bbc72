import ElmScope.Proofs.Reference.Locality
import ElmScope.Proofs.Reference.Lookup

/-! What a name means to the files that import it and in the file that declares it. A module
finds the first declaration of a name. Its importers read their index, where later offers take
the place of earlier ones: a name that an import clause lists is the first declaration, a
qualified name and a name taken in by `(..)` the last one that the module shows. The two can
differ only when `exposing (..)` shows a name that is declared again. -/
namespace ElmScope

def Surface.findLast? (s : Surface) (name : String) (kind : ExposedKind) : Option ExposedSymbol :=
  s.exposed.reverse.find? fun symbol => symbol.kind = kind && symbol.name = name

/-- A node of a file refers to a name of a kind without a qualifier, and nothing hides the
name: no scope around the node binds it, and no type has the name of an alias. -/
inductive Tree.RefersBare (t : Tree) (x : Nat) : ExposedKind → String → Prop where
  | function {name : String} (hUse : t.usage? x = some (.value name name))
      (hFree : ¬ t.IsBound x name) : RefersBare t x .function name
  | customType {name : String} (hUse : t.usage? x = some (.upperName name)) :
      RefersBare t x .customType name
  | typeAlias {name : String} (hUse : t.usage? x = some (.upperName name))
      (hFree : t.findType? name = none) : RefersBare t x .typeAlias name
  | operator {name : String} (hUse : t.usage? x = some (.operator name)) :
      RefersBare t x .operator name

variable {w : Workspace} {t : Tree} {uri name key moduleName : String} {d : Document}
  {clause list node x : Nat} {kind other : ExposedKind} {m : Imported}
  {symbol last : ExposedSymbol} {entry : ImportEntry}

theorem Surface.exists_findLast? {surface : Surface} (h : surface.find? name kind = some symbol) :
    ∃ last, surface.findLast? name kind = some last := by
  obtain ⟨hShown, hKind, hName⟩ := Surface.mem_of_find? h
  rw [← Option.isSome_iff_exists, findLast?, List.find?_isSome]
  exact ⟨symbol, List.mem_reverse.mpr hShown, by simp [hKind, hName]⟩

theorem Surface.mem_of_findLast? {surface : Surface} (h : surface.findLast? name kind = some last) :
    last ∈ surface.exposed ∧ last.kind = kind ∧ last.name = name :=
  ⟨List.mem_reverse.mp (List.mem_of_find?_eq_some h), by simpa using List.find?_some h⟩

namespace Imported

/-- Of the offers for one symbol the one for the symbol itself is found. Its constructors are
offered under a kind of their own. -/
theorem find?_reverse_offers {rename : String → String} (constructors : List ExposedConstructor) :
    (m.entry key other.toSymbolKind node ::
        constructors.map fun c => m.entry (rename c.name) .unionConstructor c.node).reverse.find?
        (ImportEntry.isFor name kind.toSymbolKind) =
      if key = name ∧ other = kind then some (m.entry name kind.toSymbolKind node) else none := by
  have hNone : (constructors.map fun c =>
      m.entry (rename c.name) .unionConstructor c.node).reverse.find?
        (ImportEntry.isFor name kind.toSymbolKind) = none := by
    apply List.find?_eq_none.mpr
    intro entry hEntry hFor
    obtain ⟨c, -, rfl⟩ := List.mem_map.mp (List.mem_reverse.mp hEntry)
    exact ExposedKind.toSymbolKind_ne_unionConstructor (ImportEntry.isFor_iff.mp hFor).2.symm
  rw [List.reverse_cons, List.find?_append, hNone, Option.none_or, List.find?_singleton]
  split
  · next hFor =>
    obtain ⟨rfl, hKind⟩ := ImportEntry.isFor_iff.mp hFor
    obtain rfl := ExposedKind.toSymbolKind_injective hKind
    simp [entry]
  · next hNot =>
    rw [if_neg]
    rintro ⟨rfl, rfl⟩
    exact hNot (ImportEntry.isFor_iff.mpr ⟨rfl, rfl⟩)

/-- When every shown symbol is offered under a name made from its own, the last symbol of a
name and a kind has the name. -/
theorem find?_reverse_flatMap {rename : String → String} {offersOf : ExposedSymbol → List ImportEntry}
    {constructorsOf : ExposedSymbol → List ExposedConstructor} (hRename : Function.Injective rename)
    (hOffers : ∀ symbol, offersOf symbol =
      m.entry (rename symbol.name) symbol.kind.toSymbolKind symbol.node ::
        (constructorsOf symbol).map fun c => m.entry (rename c.name) .unionConstructor c.node) :
    (m.surface.exposed.flatMap offersOf).reverse.find?
        (ImportEntry.isFor (rename name) kind.toSymbolKind) =
      (m.surface.findLast? name kind).map fun last =>
        m.entry (rename name) kind.toSymbolKind last.node := by
  rw [List.reverse_flatMap, List.find?_flatMap, Surface.findLast?]
  induction m.surface.exposed.reverse with
  | nil => rfl
  | cons symbol rest ih =>
      rw [List.findSome?_cons, List.find?_cons, Function.comp_apply, hOffers, find?_reverse_offers]
      by_cases hKey : symbol.name = name ∧ symbol.kind = kind
      · simp [hKey.1, hKey.2]
      · have hNot : ¬ (rename symbol.name = rename name ∧ symbol.kind = kind) :=
          fun h => hKey ⟨hRename h.1, h.2⟩
        have hOther : (symbol.kind = kind && symbol.name = name) = false := by
          simpa using fun hKind hName => hKey ⟨hName, hKind⟩
        simp only [if_neg hNot, hOther]
        exact ih

/-- A bare entry is for the symbol itself or for a constructor. -/
theorem mem_bareEntries_cases {withConstructors : Bool}
    (h : entry ∈ m.bareEntries withConstructors symbol) :
    entry = m.entry symbol.name symbol.kind.toSymbolKind symbol.node ∨
      entry.kind = .unionConstructor := by
  rcases List.mem_cons.mp h with rfl | h
  · exact .inl rfl
  · split at h
    · obtain ⟨c, -, rfl⟩ := List.mem_map.mp h
      exact .inr rfl
    · exact absurd h List.not_mem_nil

/-- What an exposing list takes in comes with a shown symbol, without `(..)` with the first symbol
of its name and kind. -/
theorem exists_symbol_of_mem_exposedEntries (h : entry ∈ m.exposedEntries t list) :
    ∃ symbol ∈ m.surface.exposed, entry ∈ m.bareEntries true symbol ∧
      (t.childOfKind? list .doubleDot = none →
        m.surface.find? symbol.name symbol.kind = some symbol) := by
  unfold exposedEntries at h
  split at h
  · next hDots =>
    obtain ⟨symbol, hShown, h⟩ := List.mem_flatMap.mp h
    exact ⟨symbol, hShown, h, fun hNone => by simp [hNone] at hDots⟩
  · obtain ⟨item, hItem, h⟩ := List.mem_flatMap.mp h
    unfold listedEntries at h
    split at h
    · exact absurd h List.not_mem_nil
    · next symbol hSymbol =>
      have hFirst := (listedSymbol?_eq_some_iff.mp hSymbol).first
      exact ⟨symbol, (Surface.mem_of_find? hFirst).1, mem_bareEntries_true h, fun _ => hFirst⟩

/-- What an exposing list takes in under a bare name is a constructor or a shown symbol, and
without `(..)` the first symbol of its name and kind. -/
theorem mem_exposedEntries_cases (h : entry ∈ m.exposedEntries t list) :
    entry.kind = .unionConstructor ∨
      ∃ symbol ∈ m.surface.exposed,
        entry = m.entry symbol.name symbol.kind.toSymbolKind symbol.node ∧
        (t.childOfKind? list .doubleDot = none →
          m.surface.find? symbol.name symbol.kind = some symbol) := by
  obtain ⟨symbol, hShown, h, hFirst⟩ := exists_symbol_of_mem_exposedEntries h
  rcases mem_bareEntries_cases h with hEntry | hConstructor
  · exact .inr ⟨symbol, hShown, hEntry, hFirst⟩
  · exact .inl hConstructor

def takenEntries (m : Imported) (t : Tree) (clause : Nat) : List ImportEntry :=
  ((t.childOfKind? clause .exposingList).map (m.exposedEntries t)).getD []

theorem mem_takenEntries (h : entry ∈ m.takenEntries t clause) :
    ∃ list, t.childOfKind? clause .exposingList = some list ∧ entry ∈ m.exposedEntries t list := by
  unfold takenEntries at h
  cases hList : t.childOfKind? clause .exposingList with
  | none => simp [hList] at h
  | some list => exact ⟨list, rfl, by simpa [hList] using h⟩

/-- No bare name is a qualified one unless a shown symbol is named like it. -/
theorem find?_takenEntries_qualified {qualified : String}
    (hNames : ∀ symbol ∈ m.surface.exposed, symbol.kind = kind → symbol.name ≠ qualified) :
    (m.takenEntries t clause).reverse.find? (ImportEntry.isFor qualified kind.toSymbolKind) = none := by
  apply List.find?_eq_none.mpr
  intro entry hEntry hFor
  obtain ⟨hName, hKind⟩ := ImportEntry.isFor_iff.mp hFor
  obtain ⟨list, -, hMem⟩ := mem_takenEntries (List.mem_reverse.mp hEntry)
  rcases mem_exposedEntries_cases hMem with hConstructor | ⟨symbol, hShown, rfl, -⟩
  · exact ExposedKind.toSymbolKind_ne_unionConstructor (hKind.symm.trans hConstructor)
  · exact hNames symbol hShown (ExposedKind.toSymbolKind_injective hKind) hName

/-- Taken in by `(..)`, a bare name has the last symbol that the module shows. -/
theorem find?_takenEntries_all (hAll : t.ExposesAll clause)
    (hLast : m.surface.findLast? name kind = some last) :
    (m.takenEntries t clause).reverse.find? (ImportEntry.isFor name kind.toSymbolKind) =
      some (m.entry name kind.toSymbolKind last.node) := by
  obtain ⟨list, hList, hDots⟩ := hAll
  have hTaken : m.takenEntries t clause = m.surface.exposed.flatMap (m.bareEntries true) := by
    rw [takenEntries, hList, Option.map_some, Option.getD_some, exposedEntries, if_pos hDots]
  have hFind : (m.surface.exposed.flatMap (m.bareEntries true)).reverse.find?
      (ImportEntry.isFor (id name) kind.toSymbolKind) = _ :=
    find?_reverse_flatMap Function.injective_id fun _ => rfl
  rw [hLast] at hFind
  rw [hTaken]
  exact hFind

/-- Listed without `(..)`, a bare name has the first symbol that the module shows, by whatever item
it is taken in. -/
theorem find?_takenEntries_item {item : Nat} (hSome : ¬ t.ExposesAll clause)
    (hItem : t.ExposesItem clause item) (hTakes : t.ItemTakes m.surface item symbol) :
    (m.takenEntries t clause).reverse.find?
        (ImportEntry.isFor symbol.name symbol.kind.toSymbolKind) =
      some (m.entry symbol.name symbol.kind.toSymbolKind symbol.node) := by
  have hMem : m.entry symbol.name symbol.kind.toSymbolKind symbol.node ∈ m.takenEntries t clause :=
    mem_exposedEntries_of_item hItem hTakes List.mem_cons_self
  cases hFind : (m.takenEntries t clause).reverse.find?
      (ImportEntry.isFor symbol.name symbol.kind.toSymbolKind) with
  | none =>
      have hNot := List.find?_eq_none.mp hFind _ (List.mem_reverse.mpr hMem)
      exact absurd (ImportEntry.isFor_iff.mpr ⟨rfl, rfl⟩) hNot
  | some found =>
      obtain ⟨hName, hKind⟩ := ImportEntry.isFor_iff.mp (List.find?_some hFind)
      have hFound := List.mem_reverse.mp (List.mem_of_find?_eq_some hFind)
      obtain ⟨list, hList, hFound⟩ := mem_takenEntries hFound
      rcases mem_exposedEntries_cases hFound with hConstructor | ⟨other, -, rfl, hFirst⟩
      · exact absurd (hKind.symm.trans hConstructor) ExposedKind.toSymbolKind_ne_unionConstructor
      · have hNoDots : t.childOfKind? list .doubleDot = none := by
          by_contra hDots
          exact hSome ⟨list, hList, Option.isSome_iff_ne_none.mpr hDots⟩
        have hSame := hFirst hNoDots
        have hOther : other.name = symbol.name := hName
        rw [hOther, ExposedKind.toSymbolKind_injective hKind, hTakes.first] at hSame
        rw [← Option.some.inj hSame]

end Imported

/-- With one import clause the index has what the clause offers: under its key first what is
taken in under bare names, then what is qualified, then the module. -/
theorem find?_ofTree_of_single {kind : SymbolKind} (hClauses : t.importClauses = [clause])
    (hImports : Imports w t clause moduleName m) :
    (ImportIndex.ofTree w t).find? key kind =
      ((m.takenEntries t clause).reverse.find? (ImportEntry.isFor key kind)).or
        (((m.surface.exposed.flatMap
            (m.qualifiedEntries ((t.importAlias? clause).getD moduleName))).reverse.find?
              (ImportEntry.isFor key kind)).or
          ((m.moduleEntries moduleName ((t.importAlias? clause).getD moduleName)).reverse.find?
            (ImportEntry.isFor key kind))) := by
  have hOffers : importOffers w t clause =
      m.moduleEntries moduleName ((t.importAlias? clause).getD moduleName) ++
        m.surface.exposed.flatMap (m.qualifiedEntries ((t.importAlias? clause).getD moduleName)) ++
        m.takenEntries t clause := by
    simp only [importOffers, hImports.named, hImports.ofClause?_eq, Imported.takenEntries]
  rw [ImportIndex.ofTree, hClauses, List.flatMap_singleton, hOffers, ImportIndex.find?_ofOffers]
  simp only [List.reverse_append, List.find?_append]

/-- Under a qualifier the last symbol of a name counts. -/
theorem find?_qualifiedEntries {qualifier : String}
    (hLast : m.surface.findLast? name kind = some last) :
    (m.surface.exposed.flatMap (m.qualifiedEntries qualifier)).reverse.find?
        (ImportEntry.isFor (qualifier ++ "." ++ name) kind.toSymbolKind) =
      some (m.entry (qualifier ++ "." ++ name) kind.toSymbolKind last.node) := by
  have hInjective : Function.Injective fun short => qualifier ++ "." ++ short :=
    fun a b h => by simpa using h
  have hFind : (m.surface.exposed.flatMap (m.qualifiedEntries qualifier)).reverse.find?
      (ImportEntry.isFor ((fun short => qualifier ++ "." ++ short) name) kind.toSymbolKind) = _ :=
    Imported.find?_reverse_flatMap hInjective fun _ => rfl
  rw [hLast] at hFind
  exact hFind

/-- A name that nothing hides means the file's own first declaration. -/
theorem FileScope.definition?_of_refersBare {s : FileScope} (hRefers : s.tree.RefersBare x kind name)
    (hFind : s.tree.findShown? kind name = some node) :
    s.definition? x = some (s.own kind.toSymbolKind node) := by
  cases hRefers with
  | function hUse hFree =>
      have hOwn : s.tree.findFunction? name = some node := hFind
      have hUnbound : s.tree.findBinding? x name = none := Tree.findBinding?_eq_none_iff.mpr hFree
      simp [definition?, hUse, lookup?, bound?, hUnbound, ownFunction?, hOwn,
        ExposedKind.toSymbolKind]
  | customType hUse =>
      have hOwn : s.tree.findType? name = some node := hFind
      simp [definition?, hUse, lookup?, ownType?, hOwn, ExposedKind.toSymbolKind]
  | typeAlias hUse hFree =>
      have hOwn : s.tree.findTypeAlias? name = some node := hFind
      simp [definition?, hUse, lookup?, ownType?, hFree, hOwn, ExposedKind.toSymbolKind]
  | operator hUse =>
      have hOwn : s.tree.findOperator? name = some node := hFind
      simp [definition?, hUse, lookup?, hOwn, ExposedKind.toSymbolKind]

namespace Sample

/-- The file `module C exposing (..)`, `f = 1`, `f = 2`, `g = f`, a function whose name is read
as `C.g`, `type T`, `type alias T = T`. -/
def redeclared : Tree := .ofEvents
  [.enter .file,
    .enter .moduleDeclaration, .token .moduleKeyword "module", .gap " ",
    .enter .upperCaseQid, .token .upperCaseIdentifier "C", .leave, .gap " ",
    .enter .exposingList, .punctuation "exposing", .gap " ", .punctuation "(",
    .token .doubleDot "..", .punctuation ")", .leave, .leave, .gap "\n",
    .enter .valueDeclaration, .enter .functionDeclarationLeft,
    .token .lowerCaseIdentifier "f", .leave, .gap " = 1", .leave, .gap "\n",
    .enter .valueDeclaration, .enter .functionDeclarationLeft,
    .token .lowerCaseIdentifier "f", .leave, .gap " = 2", .leave, .gap "\n",
    .enter .valueDeclaration, .enter .functionDeclarationLeft,
    .token .lowerCaseIdentifier "g", .leave, .gap " = ", .enter .valueExpr, .enter .valueQid,
    .token .lowerCaseIdentifier "f", .leave, .leave, .leave, .gap "\n",
    .enter .valueDeclaration, .enter .functionDeclarationLeft,
    .token .lowerCaseIdentifier "C.g", .leave, .gap " = 3", .leave, .gap "\n",
    .enter .typeDeclaration, .token .typeKeyword "type", .gap " ",
    .token .upperCaseIdentifier "T", .leave, .gap "\n",
    .enter .typeAliasDeclaration, .token .typeKeyword "type", .gap " ",
    .token .aliasKeyword "alias", .gap " ", .token .upperCaseIdentifier "T", .gap " = ",
    .enter .typeExpression, .enter .typeRef, .enter .upperCaseQid,
    .token .upperCaseIdentifier "T", .leave, .leave, .leave, .leave, .leave]

def documentC : Document := ⟨"c", library "C", some "C", 2⟩

def importedC : Imported := ⟨documentC, ⟨"C", [Tree.plainSymbol "f" .function 10]⟩, 1⟩

def documentRedeclared : Document := ⟨"c", redeclared, some "C", 1⟩

def importedRedeclared : Imported :=
  ⟨documentRedeclared,
    ⟨"C", [Tree.plainSymbol "f" .function 10, Tree.plainSymbol "f" .function 13,
      Tree.plainSymbol "g" .function 16, Tree.plainSymbol "C.g" .function 22,
      Tree.plainSymbol "T" .typeAlias 28, ⟨"T", 25, .customType, some []⟩]⟩, 1⟩

/-- A file that imports `C`, and `C` with names declared again. -/
def redeclaring : Workspace :=
  (Workspace.empty.upsert "b" middle (some "B")).upsert "c" redeclared (some "C")

end Sample

/-- What a name that a module shows means to a file with one import clause, and to the module
itself. Listed by the clause, the bare name means the module's first declaration of the name, as
the name without a qualifier does in the module. The qualified name and a bare name taken in by
`(..)` mean the last symbol that the module shows. That is the same declaration, unless the
module's own list is `(..)` and the name is declared again further down. -/
theorem importIndex_shared (w : Workspace) (t : Tree) (clause : Nat) (moduleName : String)
    (m : Imported) (name : String) (kind : ExposedKind) (symbol : ExposedSymbol)
    (hClauses : t.importClauses = [clause]) (hImports : Imports w t clause moduleName m)
    (hShown : m.surface.find? name kind = some symbol) :
    ∃ last, m.surface.findLast? name kind = some last ∧
      (last.node = symbol.node ∨
        symbol.node < last.node ∧ m.document.tree.ExposesAll m.header) ∧
      ((∀ other ∈ m.surface.exposed, other.kind = kind →
          other.name ≠ t.qualifiedName clause moduleName name) →
        (ImportIndex.ofTree w t).find? (t.qualifiedName clause moduleName name) kind.toSymbolKind =
          some (m.entry (t.qualifiedName clause moduleName name) kind.toSymbolKind last.node)) ∧
      (t.ExposesAll clause → (ImportIndex.ofTree w t).find? name kind.toSymbolKind =
        some (m.entry name kind.toSymbolKind last.node)) ∧
      (¬ t.ExposesAll clause →
        (∃ item, t.ExposesItem clause item ∧ t.ItemTakes m.surface item symbol) →
        (ImportIndex.ofTree w t).find? name kind.toSymbolKind =
          some (m.entry name kind.toSymbolKind symbol.node)) ∧
      ∀ x, m.document.tree.RefersBare x kind name →
        w.definition? m.document.uri ⟨m.document, x⟩ =
          some ⟨⟨m.document, symbol.node⟩, kind.toSymbolKind⟩ := by
  obtain ⟨last, hLast⟩ := Surface.exists_findLast? hShown
  obtain ⟨hMem, hKind, hName⟩ := Surface.mem_of_findLast? hLast
  obtain ⟨-, rfl, rfl⟩ := Surface.mem_of_find? hShown
  refine ⟨last, hLast, ?_, ?_, ?_, ?_, ?_⟩
  · exact Tree.node_eq_or_lt hImports.surface hImports.header hShown hMem hKind hName
  · intro hNames
    rw [find?_ofTree_of_single hClauses hImports, Imported.find?_takenEntries_qualified hNames,
      Option.none_or, Tree.qualifiedName, find?_qualifiedEntries hLast, Option.some_or]
  · intro hAll
    rw [find?_ofTree_of_single hClauses hImports, Imported.find?_takenEntries_all hAll hLast,
      Option.some_or]
  · rintro hSome ⟨item, hItem, hTakes⟩
    rw [find?_ofTree_of_single hClauses hImports,
      Imported.find?_takenEntries_item hSome hItem hTakes, Option.some_or]
  · intro x hRefers
    have hFile : w.get? m.document.uri = some m.document := Workspace.get?_of_findModule? hImports.found
    have hFind := Tree.findShown?_of_find? hImports.surface hImports.header hShown
    rw [Workspace.definition?_of_get? hFile]
    exact FileScope.definition?_of_refersBare (s := w.fileScope m.document) hRefers hFind

/-- The function of `C`, which declares nothing twice, is found under both of its names. -/
theorem importIndex_shared_library :
    let index := ImportIndex.ofTree Sample.chain Sample.middle
    index.find? "C.f" .function = some (Sample.importedC.entry "C.f" .function 10) ∧
      index.find? "f" .function = some (Sample.importedC.entry "f" .function 10) := by
  have hImports : Imports Sample.chain Sample.middle 10 "C" Sample.importedC :=
    ⟨by decide +kernel, by decide +kernel, by decide +kernel, by decide +kernel⟩
  have hQualified : Sample.middle.qualifiedName 10 "C" "f" = "C.f" := by decide +kernel
  obtain ⟨last, hLast, -, hIndex, hBare, -⟩ := importIndex_shared Sample.chain Sample.middle 10 "C"
    Sample.importedC "f" .function (Tree.plainSymbol "f" .function 10) (by decide +kernel) hImports
    (by decide)
  obtain rfl : Tree.plainSymbol "f" .function 10 = last := Option.some.inj hLast
  have hNames : ∀ other ∈ Sample.importedC.surface.exposed, other.kind = .function →
      other.name ≠ Sample.middle.qualifiedName 10 "C" "f" := by
    rw [hQualified]
    decide
  exact ⟨hQualified ▸ hIndex hNames, hBare ⟨14, by decide +kernel, by decide +kernel⟩⟩

/-- In a module that declares names again the three meanings fall apart: the importer's `C.f` is
the second function `f` and the module's own `f` the first, a function whose name is read as `C.g`
takes the qualified name of `g`, and the module's own `T` is a type where it shows an alias. -/
theorem importIndex_shared_redeclared :
    let index := ImportIndex.ofTree Sample.redeclaring Sample.middle
    let surface := Sample.importedRedeclared.surface
    let own := fun n => Sample.redeclaring.definition? "c" ⟨Sample.documentRedeclared, n⟩
    Imports Sample.redeclaring Sample.middle 10 "C" Sample.importedRedeclared ∧
    Sample.middle.importClauses = [10] ∧
    ((surface.find? "f" .function).map (·.node) = some 10 ∧
      (index.find? "C.f" .function).map (·.site.node) = some 13 ∧
      (index.find? "f" .function).map (·.site.node) = some 13 ∧
      own 21 = some ⟨⟨Sample.documentRedeclared, 10⟩, .function⟩) ∧
    ((surface.find? "g" .function).map (·.node) = some 16 ∧
      (index.find? "C.g" .function).map (·.site.node) = some 22) ∧
    ((surface.find? "T" .typeAlias).map (·.node) = some 28 ∧
      own 35 = some ⟨⟨Sample.documentRedeclared, 25⟩, .customType⟩) := by
  refine ⟨?_, by decide +kernel⟩
  exact ⟨by decide +kernel, by decide +kernel, by decide +kernel, by decide +kernel⟩

end ElmScope
