import ElmScope.Proofs.Module.Declaration
import ElmScope.Proofs.Scope.ImportIndex

/-! What an import clause offers, case by case: its module under two names, every shown
symbol and constructor under a qualified name, and under bare names what its exposing
list takes in. The entries that a clause puts into the index are exactly its offers. -/
namespace ElmScope

theorem ExposedKind.toSymbolKind_injective {kind other : ExposedKind}
    (h : kind.toSymbolKind = other.toSymbolKind) : kind = other := by
  cases kind <;> cases other <;> first | rfl | exact nomatch h

theorem ExposedKind.toSymbolKind_ne_moduleHeader {kind : ExposedKind} :
    kind.toSymbolKind ≠ .moduleHeader := by
  cases kind <;> simp [toSymbolKind]

theorem ExposedKind.toSymbolKind_ne_unionConstructor {kind : ExposedKind} :
    kind.toSymbolKind ≠ .unionConstructor := by
  cases kind <;> simp [toSymbolKind]

namespace Tree

/-- An item of an exposing list names a symbol. A type item can stand for a type or for
a type alias. -/
inductive ItemNames (t : Tree) (item : Nat) : ExposedKind → String → Prop where
  | value (hKind : t.kind item = .exposedValue) : ItemNames t item .function (t.text item)
  | operator {symbol : String} (hKind : t.kind item = .exposedOperator)
      (hSymbol : t.childText? item .operatorIdentifier = some symbol) :
      ItemNames t item .operator symbol
  | customType {name : String} (hKind : t.kind item = .exposedType)
      (hName : t.childText? item .upperCaseIdentifier = some name) :
      ItemNames t item .customType name
  | typeAlias {name : String} (hKind : t.kind item = .exposedType)
      (hName : t.childText? item .upperCaseIdentifier = some name) :
      ItemNames t item .typeAlias name

/-- An item of an import's exposing list takes a symbol of a surface: the first one of
its name and kind, and a type alias only when no type of that name is shown. -/
structure ItemTakes (t : Tree) (surface : Surface) (item : Nat) (symbol : ExposedSymbol) :
    Prop where
  named : t.ItemNames item symbol.kind symbol.name
  first : surface.find? symbol.name symbol.kind = some symbol
  typesFirst : symbol.kind = .typeAlias → surface.find? symbol.name .customType = none

def ExposesAll (t : Tree) (clause : Nat) : Prop :=
  ∃ list, t.childOfKind? clause .exposingList = some list ∧
    (t.childOfKind? list .doubleDot).isSome

def ExposesItem (t : Tree) (clause item : Nat) : Prop :=
  ∃ list, t.childOfKind? clause .exposingList = some list ∧ item ∈ t.namedChildren list

/-- The name under which a clause qualifies a name of its module: after the clause's
alias if it has one, else after the module's name. -/
def qualifiedName (t : Tree) (clause : Nat) (moduleName name : String) : String :=
  (t.importAlias? clause).getD moduleName ++ "." ++ name

end Tree

/-- A clause of a file imports a module: its name is the stored name of a document that
has a surface and a header. -/
structure Imports (w : Workspace) (t : Tree) (clause : Nat) (moduleName : String)
    (m : Imported) : Prop where
  named : t.importedModule? clause = some moduleName
  found : w.findModule? moduleName = some m.document
  surface : m.document.tree.surface? = some m.surface
  header : m.document.tree.header? = some m.header

/-- What a clause that imports a module offers: a name and a kind for a node of the
module's file. -/
inductive Imported.Offers (m : Imported) (t : Tree) (clause : Nat) (moduleName : String) :
    String → SymbolKind → Nat → Prop where
  | byName : Offers m t clause moduleName moduleName .moduleHeader m.header
  | byAlias {short : String} (hAlias : t.importAlias? clause = some short) :
      Offers m t clause moduleName short .moduleHeader m.header
  | qualified {symbol : ExposedSymbol} (hShown : symbol ∈ m.surface.exposed) :
      Offers m t clause moduleName (t.qualifiedName clause moduleName symbol.name)
        symbol.kind.toSymbolKind symbol.node
  | qualifiedConstructor {symbol : ExposedSymbol} {c : ExposedConstructor}
      (hShown : symbol ∈ m.surface.exposed) (hListed : c ∈ symbol.listed) :
      Offers m t clause moduleName (t.qualifiedName clause moduleName c.name)
        .unionConstructor c.node
  | bare {symbol : ExposedSymbol} (hShown : symbol ∈ m.surface.exposed)
      (hTaken : t.ExposesAll clause ∨
        ∃ item, t.ExposesItem clause item ∧ t.ItemTakes m.surface item symbol) :
      Offers m t clause moduleName symbol.name symbol.kind.toSymbolKind symbol.node
  | bareConstructor {symbol : ExposedSymbol} {c : ExposedConstructor}
      (hShown : symbol ∈ m.surface.exposed) (hListed : c ∈ symbol.listed)
      (hBare : c.isBare = true)
      (hTaken : t.ExposesAll clause ∨
        ∃ item, t.ExposesItem clause item ∧ t.ItemTakes m.surface item symbol ∧
          (t.childOfKind? item .exposedUnionConstructors).isSome) :
      Offers m t clause moduleName c.name .unionConstructor c.node

/-- A clause offers an entry: the entry is for a node that the clause's module offers. -/
def OffersEntry (w : Workspace) (t : Tree) (clause : Nat) (entry : ImportEntry) : Prop :=
  ∃ moduleName m, Imports w t clause moduleName m ∧
    m.Offers t clause moduleName entry.name entry.kind entry.site.node ∧
    entry.site.document = m.document ∧ entry.moduleName = m.surface.moduleName

def OffersKey (w : Workspace) (t : Tree) (clause : Nat) (name : String) (kind : SymbolKind) :
    Prop :=
  ∃ moduleName m node, Imports w t clause moduleName m ∧
    m.Offers t clause moduleName name kind node

variable {w : Workspace} {t : Tree} {clause item : Nat} {moduleName name : String}
  {m : Imported} {symbol : ExposedSymbol} {entry : ImportEntry} {kind : SymbolKind}

theorem Imports.ofClause?_eq (h : Imports w t clause moduleName m) :
    Imported.ofClause? w t clause = some m := by
  simp [Imported.ofClause?, h.named, h.found, h.surface, h.header]

theorem Imports.of_ofClause? (hName : t.importedModule? clause = some moduleName)
    (h : Imported.ofClause? w t clause = some m) : Imports w t clause moduleName m := by
  rw [Imported.ofClause?, hName, Option.bind_some] at h
  obtain ⟨document, hFound, h⟩ := Option.bind_eq_some_iff.mp h
  obtain ⟨surface, hSurface, h⟩ := Option.bind_eq_some_iff.mp h
  obtain ⟨header, hHeader, rfl⟩ := Option.map_eq_some_iff.mp h
  exact ⟨hName, hFound, hSurface, hHeader⟩

theorem Surface.mem_of_find? {surface : Surface} {kind : ExposedKind}
    (h : surface.find? name kind = some symbol) :
    symbol ∈ surface.exposed ∧ symbol.kind = kind ∧ symbol.name = name :=
  ⟨List.mem_of_find?_eq_some h, by simpa using List.find?_some h⟩

theorem Tree.ItemTakes.of_find? {surface : Surface} {kind : ExposedKind}
    (h : surface.find? name kind = some symbol) (hNamed : t.ItemNames item kind name)
    (hTypes : kind = .typeAlias → surface.find? name .customType = none) :
    t.ItemTakes surface item symbol := by
  obtain ⟨-, rfl, rfl⟩ := Surface.mem_of_find? h
  exact ⟨hNamed, h, hTypes⟩

/-- The symbol that an item is matched with is the one it takes. -/
theorem Imported.listedSymbol?_eq_some_iff :
    m.listedSymbol? t item = some symbol ↔ t.ItemTakes m.surface item symbol := by
  constructor
  · intro h
    unfold Imported.listedSymbol? at h
    split at h
    · next hKind => exact .of_find? h (.value hKind) (by simp)
    · next hKind =>
      obtain ⟨operator, hOperator, h⟩ := Option.bind_eq_some_iff.mp h
      exact .of_find? h (.operator hKind hOperator) (by simp)
    · next hKind =>
      obtain ⟨typeName, hName, h⟩ := Option.bind_eq_some_iff.mp h
      rcases Option.or_eq_some_iff.mp h with h | ⟨hNone, h⟩
      · exact .of_find? h (.customType hKind hName) (by simp)
      · exact .of_find? h (.typeAlias hKind hName) (fun _ => hNone)
    · exact nomatch h
  · rintro ⟨hNamed, hFirst, hTypes⟩
    generalize symbol.kind = kind, symbol.name = name at hNamed hFirst hTypes
    cases hNamed with
    | value hKind => simp only [Imported.listedSymbol?, hKind, hFirst]
    | operator hKind hSymbol =>
        simp only [Imported.listedSymbol?, hKind, hSymbol, Option.bind_some, hFirst]
    | customType hKind hName =>
        simp only [Imported.listedSymbol?, hKind, hName, Option.bind_some, hFirst, Option.some_or]
    | typeAlias hKind hName =>
        simp only [Imported.listedSymbol?, hKind, hName, Option.bind_some, hTypes rfl, hFirst,
          Option.none_or]

namespace Imported

def OffersAs (m : Imported) (t : Tree) (clause : Nat) (moduleName : String)
    (entry : ImportEntry) : Prop :=
  ∃ name kind node, m.Offers t clause moduleName name kind node ∧ entry = m.entry name kind node

/-- A clause offers its module under the module's name and the alias. -/
theorem offersAs_of_mem_moduleEntries
    (h : entry ∈ m.moduleEntries moduleName ((t.importAlias? clause).getD moduleName)) :
    m.OffersAs t clause moduleName entry := by
  rcases List.mem_cons.mp h with rfl | h
  · exact ⟨_, _, _, .byName, rfl⟩
  · split at h
    · exact absurd h List.not_mem_nil
    · next hDifferent =>
      obtain rfl := List.mem_singleton.mp h
      cases hAlias : t.importAlias? clause with
      | none => simp [hAlias] at hDifferent
      | some short => exact ⟨_, _, _, .byAlias hAlias, rfl⟩

/-- A clause offers every shown symbol, and its constructors, under qualified names. -/
theorem offersAs_of_mem_qualifiedEntries (hShown : symbol ∈ m.surface.exposed)
    (h : entry ∈ m.qualifiedEntries ((t.importAlias? clause).getD moduleName) symbol) :
    m.OffersAs t clause moduleName entry := by
  rcases List.mem_cons.mp h with rfl | h
  · exact ⟨_, _, _, .qualified hShown, rfl⟩
  · obtain ⟨c, hListed, rfl⟩ := List.mem_map.mp h
    exact ⟨_, _, _, .qualifiedConstructor hShown hListed, rfl⟩

theorem offersAs_of_mem_bareEntries {withConstructors : Bool} (hShown : symbol ∈ m.surface.exposed)
    (hTaken : t.ExposesAll clause ∨
      ∃ item, t.ExposesItem clause item ∧ t.ItemTakes m.surface item symbol ∧
        withConstructors = (t.childOfKind? item .exposedUnionConstructors).isSome)
    (h : entry ∈ m.bareEntries withConstructors symbol) : m.OffersAs t clause moduleName entry := by
  rcases List.mem_cons.mp h with rfl | h
  · refine ⟨_, _, _, .bare hShown (hTaken.imp_right ?_), rfl⟩
    exact fun ⟨item, hItem, hTakes, _⟩ => ⟨item, hItem, hTakes⟩
  · split at h
    · next hWith =>
      obtain ⟨c, hBare, rfl⟩ := List.mem_map.mp h
      obtain ⟨hListed, hBare⟩ := List.mem_filter.mp hBare
      refine ⟨_, _, _, .bareConstructor hShown hListed hBare (hTaken.imp_right ?_), rfl⟩
      exact fun ⟨item, hItem, hTakes, hPart⟩ => ⟨item, hItem, hTakes, hPart ▸ hWith⟩
    · exact absurd h List.not_mem_nil

/-- Whatever the exposing list takes in is offered. -/
theorem offersAs_of_mem_exposedEntries {list : Nat}
    (hList : t.childOfKind? clause .exposingList = some list)
    (h : entry ∈ m.exposedEntries t list) : m.OffersAs t clause moduleName entry := by
  unfold exposedEntries at h
  split at h
  · next hAll =>
    obtain ⟨symbol, hShown, h⟩ := List.mem_flatMap.mp h
    exact offersAs_of_mem_bareEntries hShown (.inl ⟨list, hList, hAll⟩) h
  · obtain ⟨item, hItem, h⟩ := List.mem_flatMap.mp h
    unfold listedEntries at h
    split at h
    · exact absurd h List.not_mem_nil
    · next symbol hSymbol =>
      have hTakes := listedSymbol?_eq_some_iff.mp hSymbol
      have hShown := (Surface.mem_of_find? hTakes.first).1
      exact offersAs_of_mem_bareEntries hShown
        (.inr ⟨item, ⟨list, hList, hItem⟩, hTakes, rfl⟩) h

end Imported

/-- Every entry that a clause brings in is an offer of the clause. -/
theorem offersEntry_of_mem (h : entry ∈ importOffers w t clause) : OffersEntry w t clause entry := by
  unfold importOffers at h
  split at h
  · next moduleName m hName hClause =>
    have hOffers : m.OffersAs t clause moduleName entry := by
      rcases List.mem_append.mp h with h | h
      · rcases List.mem_append.mp h with h | h
        · exact Imported.offersAs_of_mem_moduleEntries h
        · obtain ⟨symbol, hShown, h⟩ := List.mem_flatMap.mp h
          exact Imported.offersAs_of_mem_qualifiedEntries hShown h
      · cases hList : t.childOfKind? clause .exposingList with
        | none => simp [hList] at h
        | some list =>
            rw [hList] at h
            exact Imported.offersAs_of_mem_exposedEntries hList h
    obtain ⟨name, kind, node, hOffers, rfl⟩ := hOffers
    exact ⟨moduleName, m, .of_ofClause? hName hClause, hOffers, rfl, rfl⟩
  · exact absurd h List.not_mem_nil

namespace Imported

theorem mem_bareEntries_constructor {c : ExposedConstructor} (hListed : c ∈ symbol.listed)
    (hBare : c.isBare = true) :
    m.entry c.name .unionConstructor c.node ∈ m.bareEntries true symbol :=
  List.mem_cons_of_mem _ (List.mem_map.mpr ⟨c, List.mem_filter.mpr ⟨hListed, hBare⟩, rfl⟩)

theorem mem_bareEntries_true {withConstructors : Bool}
    (h : entry ∈ m.bareEntries withConstructors symbol) : entry ∈ m.bareEntries true symbol := by
  cases withConstructors with
  | true => exact h
  | false =>
      obtain rfl := List.mem_singleton.mp h
      exact List.mem_cons_self

/-- With `(..)` every shown symbol is taken in. -/
theorem mem_exposedEntries_of_exposesAll (hAll : t.ExposesAll clause)
    (hShown : symbol ∈ m.surface.exposed) (h : entry ∈ m.bareEntries true symbol) :
    entry ∈ ((t.childOfKind? clause .exposingList).map (m.exposedEntries t)).getD [] := by
  obtain ⟨list, hList, hDots⟩ := hAll
  rw [hList, Option.map_some, Option.getD_some, exposedEntries, if_pos hDots]
  exact List.mem_flatMap.mpr ⟨symbol, hShown, h⟩

/-- An item takes in the symbol that it names. A list with dots beside its items takes in
everything, and so this symbol too. -/
theorem mem_exposedEntries_of_item (hItem : t.ExposesItem clause item)
    (hTakes : t.ItemTakes m.surface item symbol)
    (h : entry ∈ m.bareEntries (t.childOfKind? item .exposedUnionConstructors).isSome symbol) :
    entry ∈ ((t.childOfKind? clause .exposingList).map (m.exposedEntries t)).getD [] := by
  obtain ⟨list, hList, hItem⟩ := hItem
  by_cases hDots : (t.childOfKind? list .doubleDot).isSome
  · have hShown := (Surface.mem_of_find? hTakes.first).1
    exact mem_exposedEntries_of_exposesAll ⟨list, hList, hDots⟩ hShown (mem_bareEntries_true h)
  · rw [hList, Option.map_some, Option.getD_some, exposedEntries, if_neg hDots]
    refine List.mem_flatMap.mpr ⟨item, hItem, ?_⟩
    rw [listedEntries, listedSymbol?_eq_some_iff.mpr hTakes]
    exact h

end Imported

/-- Everything that a clause offers is among the entries it puts into the index. -/
theorem mem_importOffers_of_offers {node : Nat} (hImports : Imports w t clause moduleName m)
    (h : m.Offers t clause moduleName name kind node) :
    m.entry name kind node ∈ importOffers w t clause := by
  simp only [importOffers, hImports.named, hImports.ofClause?_eq]
  cases h with
  | byName => exact List.mem_append_left _ (List.mem_append_left _ List.mem_cons_self)
  | byAlias hAlias =>
      refine List.mem_append_left _ (List.mem_append_left _ ?_)
      by_cases hSame : name = moduleName
      · rw [hSame]
        exact List.mem_cons_self
      · simp [Imported.moduleEntries, hAlias, hSame]
  | qualified hShown =>
      refine List.mem_append_left _ (List.mem_append_right _ ?_)
      exact List.mem_flatMap.mpr ⟨_, hShown, List.mem_cons_self⟩
  | qualifiedConstructor hShown hListed =>
      refine List.mem_append_left _ (List.mem_append_right _ (List.mem_flatMap.mpr ⟨_, hShown, ?_⟩))
      exact List.mem_cons_of_mem _ (List.mem_map.mpr ⟨_, hListed, rfl⟩)
  | bare hShown hTaken =>
      refine List.mem_append_right _ ?_
      rcases hTaken with hAll | ⟨item, hItem, hTakes⟩
      · exact Imported.mem_exposedEntries_of_exposesAll hAll hShown List.mem_cons_self
      · exact Imported.mem_exposedEntries_of_item hItem hTakes List.mem_cons_self
  | bareConstructor hShown hListed hBare hTaken =>
      refine List.mem_append_right _ ?_
      have hMem := Imported.mem_bareEntries_constructor (m := m) hListed hBare
      rcases hTaken with hAll | ⟨item, hItem, hTakes, hPart⟩
      · exact Imported.mem_exposedEntries_of_exposesAll hAll hShown hMem
      · exact Imported.mem_exposedEntries_of_item hItem hTakes (hPart ▸ hMem)

/-- Something is offered under a name and a kind if an entry for them is. -/
theorem offersKey_iff_exists_mem :
    OffersKey w t clause name kind ↔
      ∃ entry ∈ importOffers w t clause, entry.name = name ∧ entry.kind = kind := by
  constructor
  · rintro ⟨moduleName, m, node, hImports, hOffers⟩
    exact ⟨_, mem_importOffers_of_offers hImports hOffers, rfl, rfl⟩
  · rintro ⟨entry, hMem, rfl, rfl⟩
    obtain ⟨moduleName, m, hImports, hOffers, -⟩ := offersEntry_of_mem hMem
    exact ⟨moduleName, m, _, hImports, hOffers⟩

/-- The clause of the last offer is the last clause that has one. Clauses are listed in source
order, so a later one would have offered later. -/
theorem exists_last_clause (h : (ImportIndex.ofTree w t).find? name kind = some entry) :
    (entry.name = name ∧ entry.kind = kind) ∧
      ∃ clause ∈ t.importClauses, OffersEntry w t clause entry ∧
        ∀ later ∈ t.importClauses, clause < later → ¬ OffersKey w t later name kind := by
  obtain ⟨before, clause, after, hClauses, hMem, hKey, hLast⟩ := ImportIndex.exists_last_group h
  have hSorted : t.importClauses.Pairwise (· < ·) := t.topLevel_sorted.filter _
  rw [hClauses] at hSorted ⊢
  refine ⟨hKey, clause, List.mem_append_right _ List.mem_cons_self, offersEntry_of_mem hMem, ?_⟩
  intro later hLater hAfter hOffers
  have hLaterMem : later ∈ after := by
    rcases List.mem_append.mp hLater with hBefore | hLater
    · have := (List.pairwise_append.mp hSorted).2.2 later hBefore clause List.mem_cons_self
      omega
    · exact (List.mem_cons.mp hLater).resolve_left (Nat.ne_of_gt hAfter)
  obtain ⟨other, hOther, hSame⟩ := offersKey_iff_exists_mem.mp hOffers
  exact hLast later hLaterMem other hOther hSame

namespace Sample

/-- The file `module <name> exposing (..)` with one function `f`. -/
def library (name : String) : Tree := .ofEvents
  [.enter .file,
    .enter .moduleDeclaration, .token .moduleKeyword "module", .gap " ",
    .enter .upperCaseQid, .token .upperCaseIdentifier name, .leave, .gap " ",
    .enter .exposingList, .punctuation "exposing", .gap " ", .punctuation "(",
    .token .doubleDot "..", .punctuation ")", .leave, .leave, .gap "\n",
    .enter .valueDeclaration, .enter .functionDeclarationLeft,
    .token .lowerCaseIdentifier "f", .leave, .gap " = 1", .leave, .leave]

/-- The file `import A exposing (..)`, `import B exposing (f)`, `g x = f x`. -/
def main : Tree := .ofEvents
  [.enter .file,
    .enter .importClause, .token .importKeyword "import", .gap " ",
    .enter .upperCaseQid, .token .upperCaseIdentifier "A", .leave, .gap " ",
    .enter .exposingList, .punctuation "exposing", .gap " ", .punctuation "(",
    .token .doubleDot "..", .punctuation ")", .leave, .leave, .gap "\n",
    .enter .importClause, .token .importKeyword "import", .gap " ",
    .enter .upperCaseQid, .token .upperCaseIdentifier "B", .leave, .gap " ",
    .enter .exposingList, .punctuation "exposing", .gap " ", .punctuation "(",
    .enter .exposedValue, .token .lowerCaseIdentifier "f", .leave,
    .punctuation ")", .leave, .leave, .gap "\n",
    .enter .valueDeclaration, .enter .functionDeclarationLeft,
    .token .lowerCaseIdentifier "g", .gap " ",
    .enter .lowerPattern, .token .lowerCaseIdentifier "x", .leave, .leave, .gap " = ",
    .enter .valueExpr, .enter .valueQid, .token .lowerCaseIdentifier "f", .leave, .gap " ",
    .enter .valueQid, .token .lowerCaseIdentifier "x", .leave, .leave, .leave, .leave]

def documentB : Document := ⟨"b", library "B", some "B", 1⟩

def documentMain : Document := ⟨"main", main, none, 2⟩

def workspace : Workspace :=
  ((Workspace.empty.upsert "a" (library "A") (some "A")).upsert "b" (library "B")
    (some "B")).upsert "main" main none

end Sample

/-- What the import index has under a name and a kind: something exactly when a clause
offers it, and then an entry of the last clause that does. No two entries share a name
and a kind. -/
theorem importIndex_content (w : Workspace) (t : Tree) (name : String) (kind : SymbolKind) :
    (((ImportIndex.ofTree w t).find? name kind).isSome ↔
      ∃ clause ∈ t.importClauses, OffersKey w t clause name kind) ∧
    (∀ entry, (ImportIndex.ofTree w t).find? name kind = some entry →
      (entry.name = name ∧ entry.kind = kind) ∧
      ∃ clause ∈ t.importClauses, OffersEntry w t clause entry ∧
        ∀ later ∈ t.importClauses, clause < later → ¬ OffersKey w t later name kind) ∧
    (ImportIndex.ofTree w t).entries.Pairwise fun a b => ¬ (a.name = b.name ∧ a.kind = b.kind) := by
  refine ⟨?_, fun entry hFind => exists_last_clause hFind, ImportIndex.keysDistinct_ofOffers _⟩
  rw [ImportIndex.ofTree, ImportIndex.find?_isSome_iff]
  simp only [List.mem_flatMap, offersKey_iff_exists_mem]
  constructor
  · rintro ⟨entry, ⟨clause, hClause, hMem⟩, hKey⟩
    exact ⟨clause, hClause, entry, hMem, hKey⟩
  · rintro ⟨clause, hClause, entry, hMem, hKey⟩
    exact ⟨entry, ⟨clause, hClause, hMem⟩, hKey⟩

/-- Both modules offer an `f`, and the one of the later clause is found. -/
theorem importIndex_content_two_clauses :
    (ImportIndex.ofTree Sample.workspace Sample.main).find? "f" .function =
      some ⟨"f", .function, ⟨Sample.documentB, 10⟩, "B"⟩ ∧
    ∃ clause ∈ Sample.main.importClauses,
      OffersEntry Sample.workspace Sample.main clause
        ⟨"f", .function, ⟨Sample.documentB, 10⟩, "B"⟩ ∧
      ∀ later ∈ Sample.main.importClauses, clause < later →
        ¬ OffersKey Sample.workspace Sample.main later "f" .function := by
  have hFind : (ImportIndex.ofTree Sample.workspace Sample.main).find? "f" .function =
      some ⟨"f", .function, ⟨Sample.documentB, 10⟩, "B"⟩ := by decide +kernel
  obtain ⟨-, hLast, -⟩ := importIndex_content Sample.workspace Sample.main "f" .function
  exact ⟨hFind, (hLast _ hFind).2⟩

end ElmScope
