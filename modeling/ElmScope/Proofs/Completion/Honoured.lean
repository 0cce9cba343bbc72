import ElmScope.Proofs.Completion.Expression
import ElmScope.Proofs.Module.Surface
import ElmScope.Proofs.Reference.SharedMeaning

/-! A suggested import can be honoured. Suggestions are read off every file, while an import
means one file of its module's name. Where no two files have one name the two agree: the
module is found, it shows the suggested name, and a clause that lists the suggested item
brings in just the declaration that was shown. -/
namespace ElmScope

/-- A surface gives no type or alias a name twice, and no constructor of one type. -/
structure Surface.TypesDistinct (s : Surface) : Prop where
  types : ∀ a ∈ s.exposed, ∀ b ∈ s.exposed, Request.isExposedType a.kind = true →
    Request.isExposedType b.kind = true → a.name = b.name → a = b
  constructors : ∀ a ∈ s.exposed, (a.bare.map (·.name)).Nodup

/-- Imports find every file under the name that its header declares, and no two files have
one name. -/
structure Workspace.Unambiguous (w : Workspace) : Prop where
  named : ∀ d ∈ w.documents, d.moduleName = d.tree.moduleName?
  distinct : ∀ d ∈ w.documents, ∀ e ∈ w.documents, ∀ name,
    d.moduleName = some name → e.moduleName = some name → d = e

/-- A file has one import clause, and the clause lists one item of a module. -/
structure Tree.ImportsOnly (t : Tree) (clause n : Nat) (moduleName : String)
    (item : ImportItem) : Prop where
  clauses : t.importClauses = [clause]
  named : t.importedModule? clause = some moduleName
  some : ¬ t.ExposesAll clause
  only : ∀ other, t.ExposesItem clause other ↔ other = n
  lists : t.Lists n item

variable {w : Workspace} {r : Request} {t : Tree} {c : Candidate} {d : Document} {s : Surface}
  {m : Imported} {item : ImportItem} {symbol : ExposedSymbol} {kind : SymbolKind}
  {name moduleName : String} {clause n node : Nat} {withConstructors : Bool}

/-- Where no type is shown twice, a shown type is the one that its name finds. -/
theorem Surface.TypesDistinct.find?_of_mem (h : s.TypesDistinct) (hShown : symbol ∈ s.exposed)
    (hType : Request.isExposedType symbol.kind = true) :
    s.find? symbol.name symbol.kind = some symbol := by
  obtain ⟨first, hFirst⟩ := Surface.exists_find? hShown
  obtain ⟨hMem, hKind, hName⟩ := Surface.mem_of_find? hFirst
  rw [hFirst, h.types first hMem symbol hShown (hKind ▸ hType) hType hName]

/-- A node that lists a shown symbol takes it. -/
theorem Tree.Lists.takes (h : t.Lists n ⟨symbol.kind, symbol.name, withConstructors⟩)
    (hFirst : s.find? symbol.name symbol.kind = some symbol) (hTypes : s.TypesDistinct) :
    t.ItemTakes s n symbol := by
  refine ⟨h.named, hFirst, fun hAlias => ?_⟩
  by_contra hFound
  obtain ⟨type, hType⟩ := Option.ne_none_iff_exists'.mp hFound
  obtain ⟨hMem, hKind, hName⟩ := Surface.mem_of_find? hType
  have hSame := hTypes.types type hMem symbol (Surface.mem_of_find? hFirst).1
    (by rw [hKind]; rfl) (by rw [hAlias]; rfl) hName
  rw [hSame, hAlias] at hKind
  exact nomatch hKind

/-- The item that takes a name in names the first symbol of its name and kind. -/
theorem Surface.Shows.exists_symbol (h : s.Shows item kind name node)
    (hSurface : d.tree.surface? = some s) (hTypes : s.TypesDistinct) :
    ∃ symbol, s.find? symbol.name symbol.kind = some symbol ∧ item.kind = symbol.kind ∧
      item.name = symbol.name ∧
      (kind = symbol.kind.toSymbolKind ∧ name = symbol.name ∧ node = symbol.node ∨
        item.withConstructors = true ∧ kind = .unionConstructor ∧
          ∃ c ∈ symbol.bare, name = c.name ∧ node = c.node) := by
  cases h with
  | @symbol symbol hFirst => exact ⟨symbol, hFirst, rfl, rfl, .inl ⟨rfl, rfl, rfl⟩⟩
  | @constructor symbol c hShown hBare =>
      have hKind := Tree.kind_of_mem_listed hSurface hShown (List.mem_filter.mp hBare).1
      refine ⟨symbol, hTypes.find?_of_mem hShown (by rw [hKind]; rfl), rfl, rfl, ?_⟩
      exact .inr ⟨rfl, rfl, c, hBare, rfl, rfl⟩

/-- A clause offers a shown name when it takes in everything or lists the name's item. -/
theorem Surface.Shows.offers (h : m.surface.Shows item kind name node)
    (hImports : Imports w t clause moduleName m) (hTypes : m.surface.TypesDistinct)
    (hTaken : t.ExposesAll clause ∨ ∃ n, t.ExposesItem clause n ∧ t.Lists n item) :
    m.Offers t clause moduleName name kind node := by
  obtain ⟨itemKind, itemName, withConstructors⟩ := item
  obtain ⟨symbol, hFirst, rfl, rfl, hName⟩ := h.exists_symbol hImports.surface hTypes
  have hShown := (Surface.mem_of_find? hFirst).1
  rcases hName with ⟨rfl, rfl, rfl⟩ | ⟨rfl, rfl, c, hBare, rfl, rfl⟩
  · refine .bare hShown (hTaken.imp_right ?_)
    exact fun ⟨n, hItem, hLists⟩ => ⟨n, hItem, hLists.takes hFirst hTypes⟩
  · obtain ⟨hListed, hIsBare⟩ := List.mem_filter.mp hBare
    refine .bareConstructor hShown hListed hIsBare (hTaken.imp_right ?_)
    exact fun ⟨n, hItem, hLists⟩ =>
      ⟨n, hItem, hLists.takes hFirst hTypes, hLists.constructors rfl⟩

/-- Of one listed item only the constructors of its type are taken in. -/
theorem Imported.find?_takenEntries_constructor {c : ExposedConstructor}
    (hOnly : t.ImportsOnly clause n moduleName ⟨symbol.kind, symbol.name, true⟩)
    (hFirst : m.surface.find? symbol.name symbol.kind = some symbol)
    (hTypes : m.surface.TypesDistinct) (hBare : c ∈ symbol.bare) :
    (m.takenEntries t clause).reverse.find? (ImportEntry.isFor c.name .unionConstructor) =
      some (m.entry c.name .unionConstructor c.node) := by
  have hTakes := hOnly.lists.takes hFirst hTypes
  have hShown := (Surface.mem_of_find? hFirst).1
  have hMem : m.entry c.name .unionConstructor c.node ∈ m.takenEntries t clause := by
    refine mem_exposedEntries_of_item ((hOnly.only n).mpr rfl) hTakes ?_
    obtain ⟨hListed, hIsBare⟩ := List.mem_filter.mp hBare
    rw [hOnly.lists.constructors rfl]
    exact mem_bareEntries_constructor hListed hIsBare
  obtain ⟨found, hFind⟩ := exists_find?_of_mem (p := ImportEntry.isFor c.name .unionConstructor)
    (List.mem_reverse.mpr hMem) (ImportEntry.isFor_iff.mpr ⟨rfl, rfl⟩)
  obtain ⟨hName, hKind⟩ := ImportEntry.isFor_iff.mp (List.find?_some hFind)
  obtain ⟨list, hList, hEntry⟩ :=
    mem_takenEntries (List.mem_reverse.mp (List.mem_of_find?_eq_some hFind))
  have hSome : ¬ (t.childOfKind? list .doubleDot).isSome := fun h => hOnly.some ⟨list, hList, h⟩
  rw [exposedEntries, if_neg hSome] at hEntry
  obtain ⟨other, hOther, hEntry⟩ := List.mem_flatMap.mp hEntry
  obtain rfl : other = n := (hOnly.only other).mp ⟨list, hList, hOther⟩
  rw [listedEntries, listedSymbol?_eq_some_iff.mpr hTakes] at hEntry
  rw [hFind]
  rcases List.mem_cons.mp (mem_bareEntries_true hEntry) with rfl | hEntry
  · exact absurd hKind ExposedKind.toSymbolKind_ne_unionConstructor
  · obtain ⟨constructor, hConstructor, rfl⟩ := List.mem_map.mp hEntry
    have hDistinct := hTypes.constructors symbol hShown
    rw [List.inj_on_of_nodup_map hDistinct hConstructor hBare hName]

/-- A file whose one clause lists the item of a shown name has that very declaration under the
name. -/
theorem Surface.Shows.find?_ofTree (h : m.surface.Shows item kind name node)
    (hTypes : m.surface.TypesDistinct) (hOnly : t.ImportsOnly clause n moduleName item)
    (hImports : Imports w t clause moduleName m) :
    (ImportIndex.ofTree w t).find? name kind = some (m.entry name kind node) := by
  obtain ⟨itemKind, itemName, withConstructors⟩ := item
  obtain ⟨symbol, hFirst, rfl, rfl, hName⟩ := h.exists_symbol hImports.surface hTypes
  rw [find?_ofTree_of_single hOnly.clauses hImports]
  rcases hName with ⟨rfl, rfl, rfl⟩ | ⟨rfl, rfl, c, hBare, rfl, rfl⟩
  · have hItem := (hOnly.only n).mpr rfl
    rw [Imported.find?_takenEntries_item hOnly.some hItem (hOnly.lists.takes hFirst hTypes),
      Option.some_or]
  · rw [Imported.find?_takenEntries_constructor hOnly hFirst hTypes hBare, Option.some_or]

namespace Workspace.Unambiguous

/-- A file is stored under the name that its surface has. -/
theorem moduleName_of_surface? (h : w.Unambiguous) (hStored : d ∈ w.documents)
    (hSurface : d.tree.surface? = some s) : d.moduleName = some s.moduleName := by
  obtain ⟨header, -, hName⟩ := Tree.header_of_surface? hSurface
  rw [h.named d hStored, hName]

/-- The name of a surface leads imports to the file of the surface. -/
theorem findModule?_eq (h : w.Unambiguous) (hStored : d ∈ w.documents)
    (hSurface : d.tree.surface? = some s) : w.findModule? s.moduleName = some d := by
  have hName := h.moduleName_of_surface? hStored hSurface
  obtain ⟨e, hFind⟩ : ∃ e, w.findModule? s.moduleName = some e :=
    exists_find?_of_mem hStored (by simp [hName])
  obtain ⟨hMem, hSame⟩ := findModule?_mem hFind
  rw [hFind, h.distinct e hMem d hStored _ hSame hName]

/-- A clause that names a file's module imports the file. -/
theorem exists_imports (h : w.Unambiguous) (hStored : d ∈ w.documents)
    (hSurface : d.tree.surface? = some s) (hNamed : t.importedModule? clause = some s.moduleName) :
    ∃ header, Imports w t clause s.moduleName ⟨d, s, header⟩ := by
  obtain ⟨header, hHeader, -⟩ := Tree.header_of_surface? hSurface
  exact ⟨header, hNamed, h.findModule?_eq hStored hSurface, hSurface, hHeader⟩

end Workspace.Unambiguous

/-- An answer with edits is a suggestion. -/
theorem Request.exists_suggests (hMem : c ∈ r.answer) (hEdits : c.edits ≠ []) :
    ∃ d s item kind node, r.Suggests c d s item kind node := by
  have hCandidate := (firstOfName_sublist _).subset (List.mem_of_mem_take hMem)
  rcases autoImports_of_mem_candidates hCandidate hEdits with ⟨-, h⟩ | ⟨-, -, h⟩
  · obtain ⟨d, s, item, kind, node, hSuggests, -⟩ := suggests_of_mem_autoImports h
    exact ⟨d, s, item, kind, node, hSuggests⟩
  · obtain ⟨d, s, item, kind, node, hSuggests, -⟩ := suggests_of_mem_autoImports h
    exact ⟨d, s, item, kind, node, hSuggests⟩

namespace Sample

def documentTyped : Document := ⟨"a", typed, some "A", 0⟩

def surfaceTyped : Surface :=
  ⟨"A", [Tree.plainSymbol "f" .function 15, ⟨"T", 10, .customType, some [⟨"K", 13, true⟩]⟩]⟩

theorem importsOnly_user : user.ImportsOnly 1 8 "A" ⟨.customType, "T", false⟩ := by
  have hList : user.childOfKind? 1 .exposingList = some 5 := by decide +kernel
  have hItems : user.namedChildren 5 = [8] := by decide +kernel
  refine ⟨by decide +kernel, by decide +kernel, ?_, fun other => ?_, ?_⟩
  · rintro ⟨list, hOther, hDots⟩
    obtain rfl : 5 = list := Option.some.inj (hList.symm.trans hOther)
    exact absurd hDots (by decide +kernel)
  · constructor
    · rintro ⟨list, hOther, hItem⟩
      obtain rfl : 5 = list := Option.some.inj (hList.symm.trans hOther)
      exact List.mem_singleton.mp (hItems ▸ hItem)
    · rintro rfl
      exact ⟨5, hList, by decide +kernel⟩
  · exact ⟨.customType (by decide +kernel) (by decide +kernel), fun h => by cases h⟩

end Sample

namespace Workspace

/-- Where modules are unambiguous every suggested import can be honoured. The module is another
one than the file's own, it is found and shows the name. If it gives no name to two types, a
clause that lists nothing but the suggested item puts the shown declaration under the name. -/
theorem completions_honoured (w : Workspace) (uri : String) (d : Document) (p : Position)
    (trigger : Trigger) (settings : Settings) (c : Candidate) (hUnambiguous : w.Unambiguous)
    (hGet : w.get? uri = some d) (hMem : c ∈ w.completions uri p trigger settings)
    (hEdits : c.edits ≠ []) :
    ∃ e s item kind node, c.kind = .symbol kind ∧ c.sourceModule = some s.moduleName ∧
      c.edits = [d.tree.importEdit s.moduleName item.text] ∧
      d.moduleName ≠ some s.moduleName ∧ w.findModule? s.moduleName = some e ∧
      e.tree.surface? = some s ∧ s.Shows item kind c.name node ∧
      (s.TypesDistinct → ∀ t clause n, t.ImportsOnly clause n s.moduleName item →
        (ImportIndex.ofTree w t).find? c.name kind =
          some ⟨c.name, kind, ⟨e, node⟩, s.moduleName⟩) := by
  rw [completions, hGet] at hMem
  obtain ⟨e, s, item, kind, node, h⟩ := Request.exists_suggests hMem hEdits
  have hName := hUnambiguous.moduleName_of_surface? h.stored h.exposed
  refine ⟨e, s, item, kind, node, ?_, ?_, ?_, fun hOwn => ?_,
    hUnambiguous.findModule?_eq h.stored h.exposed, h.exposed, h.shown, ?_⟩
  · rw [h.candidate]
    rfl
  · rw [h.candidate]
    rfl
  · rw [h.candidate]
    rfl
  · have hStored := (get?_eq_some_iff.mp hGet).1
    exact h.elsewhere (congrArg Document.uri
      (hUnambiguous.distinct e h.stored d hStored _ hName hOwn))
  · intro hTypes t clause n hOnly
    obtain ⟨header, hImports⟩ := hUnambiguous.exists_imports h.stored h.exposed hOnly.named
    have hShown : (Imported.mk e s header).surface.Shows item kind c.name node := h.shown
    exact hShown.find?_ofTree hTypes hOnly hImports

/-- The type `T` is suggested for import, and with the import its name means the type. -/
theorem completions_honoured_type :
    let c : Candidate := ⟨"T", .symbol .customType, some "A",
      some "Auto import from module 'A'", [.insertion ⟨0, 20⟩ ", T"]⟩
    c ∈ Sample.typedWorkspace.completions "user" ⟨1, 7⟩ .invoked {} ∧
      ∃ node, (ImportIndex.ofTree Sample.typedWorkspace Sample.user).find? "T" .customType =
        some ⟨"T", .customType, ⟨Sample.documentTyped, node⟩, "A"⟩ := by
  intro c
  have hUnambiguous : Sample.typedWorkspace.Unambiguous :=
    ⟨by decide +kernel, by decide +kernel⟩
  have hMem : c ∈ Sample.typedWorkspace.completions "user" ⟨1, 7⟩ .invoked {} := by
    decide +kernel
  obtain ⟨e, s, item, kind, node, hKind, hModule, -, -, hFind, hSurface, hShown, hIndex⟩ :=
    completions_honoured Sample.typedWorkspace "user" Sample.documentUser ⟨1, 7⟩ .invoked {} c
      hUnambiguous (by decide +kernel) hMem (List.cons_ne_nil _ _)
  obtain rfl : SymbolKind.customType = kind := CandidateKind.symbol.inj hKind
  have hName : "A" = s.moduleName := Option.some.inj hModule
  rw [← hName] at hFind hIndex
  have hTyped : Sample.typedWorkspace.findModule? "A" = some Sample.documentTyped := by
    decide +kernel
  obtain rfl : Sample.documentTyped = e := Option.some.inj (hTyped.symm.trans hFind)
  have hShows : Sample.documentTyped.tree.surface? = some Sample.surfaceTyped := by
    decide +kernel
  obtain rfl : Sample.surfaceTyped = s := Option.some.inj (hShows.symm.trans hSurface)
  have hItem : item = ⟨.customType, "T", false⟩ := by
    rcases hShown.item_cases with ⟨hCustom, hItem⟩ | ⟨hConstructor, -⟩
    · have hSame : ExposedKind.customType.toSymbolKind = item.kind.toSymbolKind := hCustom
      rw [hItem, ← ExposedKind.toSymbolKind_injective hSame]
    · cases hConstructor
  refine ⟨hMem, node, hIndex ⟨by decide, by decide⟩ Sample.user 1 8 (hItem ▸ ?_)⟩
  exact Sample.importsOnly_user

end Workspace

namespace Sample

/-- Two files claim one module, and only the second shows the type. -/
def claimedTwice : Workspace :=
  ((Workspace.empty.upsert "a" (library "A") (some "A")).upsert "b" typed
    (some "A")).upsert "user" user none

end Sample

/-- Where two files claim a module, what the second shows is suggested too, although an import
of the module means the first. -/
theorem Workspace.completions_honoured_claimed_twice :
    (∀ d ∈ Sample.claimedTwice.documents, d.moduleName = d.tree.moduleName?) ∧
      ∃ c ∈ Sample.claimedTwice.completions "user" ⟨1, 7⟩ .invoked {},
        c.name = "K" ∧ c.kind = .symbol .unionConstructor ∧ c.sourceModule = some "A" ∧
          c.edits ≠ [] ∧
          ∃ e s, Sample.claimedTwice.findModule? "A" = some e ∧ e.tree.surface? = some s ∧
            ∀ item node, ¬ s.Shows item .unionConstructor "K" node := by
  refine ⟨by decide +kernel, ?_⟩
  refine ⟨⟨"K", .symbol .unionConstructor, some "A", some "Auto import from module 'A'",
    [.insertion ⟨0, 20⟩ ", T(..)"]⟩, by decide +kernel, rfl, rfl, rfl, List.cons_ne_nil _ _, ?_⟩
  refine ⟨⟨"a", Sample.library "A", some "A", 0⟩, ⟨"A", [Tree.plainSymbol "f" .function 10]⟩,
    by decide +kernel, by decide +kernel, ?_⟩
  intro item node h
  generalize hKind : SymbolKind.unionConstructor = kind, "K" = name at h
  cases h with
  | symbol hFirst => exact absurd hKind.symm ExposedKind.toSymbolKind_ne_unionConstructor
  | constructor hShown hBare =>
      obtain rfl := List.mem_singleton.mp hShown
      exact absurd hBare List.not_mem_nil

end ElmScope
