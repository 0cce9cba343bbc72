import ElmScope.Proofs.Reference.SharedMeaning
import ElmScope.Proofs.Scope.Wildcard

/-! Constructors that an import clause lists. Of an item's constructor part an import only asks
whether it is there, so `T(A)` brings in what `T(..)` does: every constructor of the type that the
module lets importers have under its bare name. The names in the part make no difference. -/
namespace ElmScope

/-- A node uses a bare name for which its file has nothing of its own, and for which its imports
have no type, so that only a constructor is left. -/
structure FileScope.LeavesConstructor (s : FileScope) (x : Nat) (name : String) : Prop where
  use : s.tree.usage? x = some (.upperName name)
  noOwn : s.ownLookup? x (.upperName name) = none
  noType : s.imported? name .customType = none
  noAlias : s.imported? name .typeAlias = none

/-- Where only a constructor is left, the imports are asked for one. -/
theorem FileScope.LeavesConstructor.definition?_eq {s : FileScope} {x : Nat} {name : String}
    (h : s.LeavesConstructor x name) : s.definition? x = s.imported? name .unionConstructor := by
  rw [definition?, h.use, Option.bind_some, lookup?_eq, h.noOwn, Option.none_or, Usage.importKeys,
    findSome?_imported?_cons, findSome?_imported?_cons, findSome?_imported?_cons, h.noType,
    h.noAlias, List.findSome?_nil, Option.none_or, Option.none_or, Option.or_none]

namespace Imported

variable {m : Imported} {t : Tree} {item : Nat} {symbol : ExposedSymbol}
  {entry : ImportEntry}

/-- With a constructor part, whatever it says, an item brings in all bare constructors. -/
theorem listedEntries_of_part (hTakes : t.ItemTakes m.surface item symbol)
    (hPart : t.constructorPart item ≠ .bare) :
    m.listedEntries t item = m.bareEntries true symbol := by
  rw [listedEntries, listedSymbol?_eq_some_iff.mpr hTakes]
  simp only [(Tree.constructorPart_ne_bare_iff item).mp hPart]

/-- The constructors among the entries for a symbol are the bare ones. -/
theorem mem_bareEntries_constructor_iff (hKind : entry.kind = .unionConstructor) :
    entry ∈ m.bareEntries true symbol ↔
      ∃ c ∈ symbol.bare, entry = m.entry c.name .unionConstructor c.node := by
  rw [mem_bareEntries_iff, or_iff_right]
  rintro rfl
  exact ExposedKind.toSymbolKind_ne_unionConstructor hKind

end Imported

/-- With one import clause an index has for the name of a constructor that the clause takes in the
only constructor that the module lists under the name. -/
theorem find?_ofTree_constructor {w : Workspace} {t : Tree} {clause : Nat} {moduleName : String}
    {m : Imported} {c : ExposedConstructor}
    (hImports : Imports w t clause moduleName m) (hClauses : t.importClauses = [clause])
    (hTaken : m.entry c.name .unionConstructor c.node ∈ m.takenEntries t clause)
    (hOnly : ∀ other ∈ m.surface.exposed, ∀ e ∈ other.listed, e.name = c.name → e.node = c.node) :
    (ImportIndex.ofTree w t).find? c.name .unionConstructor =
      some (m.entry c.name .unionConstructor c.node) := by
  rw [find?_ofTree_of_single hClauses hImports]
  cases hFind : (m.takenEntries t clause).reverse.find?
      (ImportEntry.isFor c.name .unionConstructor) with
  | none =>
      have hNot := List.find?_eq_none.mp hFind _ (List.mem_reverse.mpr hTaken)
      exact absurd (ImportEntry.isFor_iff.mpr ⟨rfl, rfl⟩) hNot
  | some found =>
      obtain ⟨hName, hKind⟩ := ImportEntry.isFor_iff.mp (List.find?_some hFind)
      have hFound := List.mem_reverse.mp (List.mem_of_find?_eq_some hFind)
      obtain ⟨list, -, hMem⟩ := Imported.mem_takenEntries hFound
      obtain ⟨other, hShown, hMem, -⟩ := Imported.exists_symbol_of_mem_exposedEntries hMem
      obtain ⟨e, hBare, rfl⟩ := (Imported.mem_bareEntries_constructor_iff hKind).mp hMem
      have hSame : e.name = c.name := hName
      rw [Option.some_or, hSame, hOnly other hShown e (List.mem_filter.mp hBare).1 hSame]

/-- What an item with a list of constructors brings in does not depend on the list. The item's
entries are those of its type with `(..)`, and the constructors among them are all that importers
can have bare, so they keep to the list only if the list has all of these. In a file with no other
clause the name of each such constructor leads to it, listed or not, where nothing hides it and
the module lists no other constructor of that name. -/
theorem importIndex_listedConstructors (w : Workspace) (d : Document) (clause item : Nat)
    (moduleName : String) (m : Imported) (symbol : ExposedSymbol) (names : List String)
    (hImports : Imports w d.tree clause moduleName m) (hItem : d.tree.ExposesItem clause item)
    (hTakes : d.tree.ItemTakes m.surface item symbol)
    (hPart : d.tree.constructorPart item = .some names) :
    m.listedEntries d.tree item = m.bareEntries true symbol ∧
    (∀ entry, entry.kind = .unionConstructor → (entry ∈ m.listedEntries d.tree item ↔
      ∃ c ∈ symbol.bare, entry = m.entry c.name .unionConstructor c.node)) ∧
    ((∀ entry ∈ m.listedEntries d.tree item, entry.kind = .unionConstructor → entry.name ∈ names) ↔
      ∀ c ∈ symbol.bare, c.name ∈ names) ∧
    (d.tree.importClauses = [clause] → ∀ uri, w.get? uri = some d → ∀ c ∈ symbol.bare,
      (∀ other ∈ m.surface.exposed, ∀ e ∈ other.listed, e.name = c.name → e.node = c.node) →
      ∀ x, (w.fileScope d).LeavesConstructor x c.name →
        w.definition? uri ⟨d, x⟩ = some ⟨⟨m.document, c.node⟩, .unionConstructor⟩) := by
  have hSome : d.tree.constructorPart item ≠ .bare := by simp [hPart]
  have hAll := Imported.listedEntries_of_part hTakes hSome
  have hConstructors (entry : ImportEntry) (hKind : entry.kind = .unionConstructor) :
      entry ∈ m.listedEntries d.tree item ↔
        ∃ c ∈ symbol.bare, entry = m.entry c.name .unionConstructor c.node := by
    rw [hAll]
    exact Imported.mem_bareEntries_constructor_iff hKind
  refine ⟨hAll, hConstructors, ?_, ?_⟩
  · constructor
    · intro hKeeps c hBare
      exact hKeeps _ ((hConstructors _ rfl).mpr ⟨c, hBare, rfl⟩) rfl
    · intro hEvery entry hEntry hKind
      obtain ⟨c, hBare, rfl⟩ := (hConstructors entry hKind).mp hEntry
      exact hEvery c hBare
  · intro hClauses uri hFile c hBare hOnly x hLeaves
    have hTaken : m.entry c.name .unionConstructor c.node ∈ m.takenEntries d.tree clause := by
      obtain ⟨hListed, hIsBare⟩ := List.mem_filter.mp hBare
      refine Imported.mem_exposedEntries_of_item hItem hTakes ?_
      rw [(Tree.constructorPart_ne_bare_iff item).mp hSome]
      exact Imported.mem_bareEntries_constructor hListed hIsBare
    have hFind := find?_ofTree_constructor hImports hClauses hTaken hOnly
    rw [Workspace.definition?_of_get? hFile, hLeaves.definition?_eq, FileScope.imported?]
    exact congrArg (Option.map _) hFind

namespace Sample

/-- The file `module M exposing (..)` with the type `T = A | B`. -/
def union : Tree := .ofEvents
  [.enter .file,
    .enter .moduleDeclaration, .token .moduleKeyword "module", .gap " ",
    .enter .upperCaseQid, .token .upperCaseIdentifier "M", .leave, .gap " ",
    .enter .exposingList, .punctuation "exposing", .gap " ", .punctuation "(",
    .token .doubleDot "..", .punctuation ")", .leave, .leave, .gap "\n",
    .enter .typeDeclaration, .token .typeKeyword "type", .gap " ",
    .token .upperCaseIdentifier "T", .gap " = ",
    .enter .unionVariant, .token .upperCaseIdentifier "A", .leave, .gap " | ",
    .enter .unionVariant, .token .upperCaseIdentifier "B", .leave, .leave, .leave]

/-- The file `import M exposing (T(A))` with a function `g = B`. -/
def picking : Tree := .ofEvents
  [.enter .file,
    .enter .importClause, .token .importKeyword "import", .gap " ",
    .enter .upperCaseQid, .token .upperCaseIdentifier "M", .leave, .gap " ",
    .enter .exposingList, .punctuation "exposing", .gap " ", .punctuation "(",
    .enter .exposedType, .token .upperCaseIdentifier "T",
    .enter .exposedUnionConstructors, .punctuation "(",
    .enter (.ofName "exposed_union_constructor"), .token .upperCaseIdentifier "A", .leave,
    .punctuation ")", .leave, .leave, .punctuation ")", .leave, .leave, .gap "\n",
    .enter .valueDeclaration, .enter .functionDeclarationLeft,
    .token .lowerCaseIdentifier "g", .leave, .gap " = ",
    .enter .valueExpr, .enter .upperCaseQid, .token .upperCaseIdentifier "B", .leave, .leave,
    .leave, .leave]

def documentUnion : Document := ⟨"m", union, some "M", 0⟩

def importedUnion : Imported :=
  ⟨documentUnion,
    ⟨"M", [⟨"T", 10, .customType, some [⟨"A", 13, true⟩, ⟨"B", 15, true⟩]⟩]⟩, 1⟩

def documentPicking : Document := ⟨"main", picking, none, 1⟩

def pickingWorkspace : Workspace :=
  .ofChanges [.upsert "m" union (some "M"), .upsert "main" picking none]

end Sample

/-- The list has `A` only, and `B` leads to the type's other constructor. -/
theorem importIndex_listedConstructors_other :
    Sample.picking.constructorPart 8 = .some ["A"] ∧
      (¬ ∀ entry ∈ Sample.importedUnion.listedEntries Sample.picking 8,
        entry.kind = .unionConstructor → entry.name ∈ ["A"]) ∧
      Sample.pickingWorkspace.definition? "main" ⟨Sample.documentPicking, 21⟩ =
        some ⟨⟨Sample.documentUnion, 15⟩, .unionConstructor⟩ := by
  have hImports : Imports Sample.pickingWorkspace Sample.picking 1 "M" Sample.importedUnion :=
    ⟨by decide +kernel, by decide +kernel, by decide +kernel, by decide +kernel⟩
  obtain ⟨hPart, hClauses, hList, hItem, hKind, hName, hUse⟩ :
      Sample.picking.constructorPart 8 = .some ["A"] ∧ Sample.picking.importClauses = [1] ∧
        Sample.picking.childOfKind? 1 .exposingList = some 5 ∧
        8 ∈ Sample.picking.namedChildren 5 ∧ Sample.picking.kind 8 = .exposedType ∧
        Sample.picking.childText? 8 .upperCaseIdentifier = some "T" ∧
        Sample.picking.usage? 21 = some (.upperName "B") := by decide +kernel
  have hLeaves : (Sample.pickingWorkspace.fileScope Sample.documentPicking).LeavesConstructor 21
      "B" := ⟨hUse, by decide +kernel, by decide +kernel, by decide +kernel⟩
  obtain ⟨-, -, hKeeps, hResolves⟩ := importIndex_listedConstructors Sample.pickingWorkspace
    Sample.documentPicking 1 8 "M" Sample.importedUnion
    ⟨"T", 10, .customType, some [⟨"A", 13, true⟩, ⟨"B", 15, true⟩]⟩ ["A"] hImports ⟨5, hList, hItem⟩
    ⟨.customType hKind hName, rfl, by simp⟩ hPart
  refine ⟨hPart, fun hOnly => ?_, ?_⟩
  · have hListed := hKeeps.mp hOnly ⟨"B", 15, true⟩ (by decide)
    exact absurd hListed (by decide)
  · exact hResolves hClauses "main" rfl ⟨"B", 15, true⟩ (by decide) (by decide) 21 hLeaves

/-- In a file that imports only `T(A)` from its module, the name `B` leads to a constructor. -/
theorem importIndex_listedConstructors_taken :
    Sample.picking.importClauses = [1] ∧ Sample.picking.constructorPart 8 = .some ["A"] ∧
      (ImportIndex.ofTree Sample.pickingWorkspace Sample.picking).find? "B" .unionConstructor =
        some (Sample.importedUnion.entry "B" .unionConstructor 15) ∧
      Sample.pickingWorkspace.definition? "main" ⟨Sample.documentPicking, 21⟩ =
        some ⟨⟨Sample.documentUnion, 15⟩, .unionConstructor⟩ := by
  decide +kernel

end ElmScope
