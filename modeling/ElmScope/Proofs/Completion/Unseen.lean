import ElmScope.Proofs.Completion.Honoured

/-! Suggested imports are of names that a file does not have yet. The context of a suggestion
hides whatever the file declares or imports of the kinds that the context lists. An expression
does not list types, so there a type is suggested although the file has it; of the other
kinds, and in annotations, only what is new is suggested. -/
namespace ElmScope

namespace Tree

/-- What a file itself declares under a name, for the kinds that suggestions have. -/
def findOwn? (t : Tree) : SymbolKind → String → Option Nat
  | .function => t.findFunction?
  | .customType => t.findType?
  | .typeAlias => t.findTypeAlias?
  | .unionConstructor => t.findConstructor?
  | .operator | .parameter | .moduleHeader => fun _ => none

def ownCandidates (t : Tree) : SymbolKind → List Candidate
  | .function => t.functionCandidates
  | .customType => t.typeCandidates
  | .typeAlias => t.aliasCandidates
  | .unionConstructor => t.constructorCandidates t.typeDeclarations
  | .operator | .parameter | .moduleHeader => []

theorem ofSymbol_mem_ownCandidates {t : Tree} {kind : SymbolKind} {name : String} {n : Nat}
    (h : t.findOwn? kind name = some n) :
    Candidate.ofSymbol kind name ∈ t.ownCandidates kind := by
  have hFound : ∀ {declarations : List Nat} {nameOf : Nat → Option String},
      (declarations.find? fun n => nameOf n = some name) = some n →
      Candidate.ofSymbol kind name ∈ (declarations.filterMap nameOf).map (.ofSymbol kind) := by
    intro declarations nameOf hFind
    have hName := List.find?_some hFind
    refine List.mem_map_of_mem (List.mem_filterMap.mpr ⟨n, List.mem_of_find?_eq_some hFind, ?_⟩)
    exact of_decide_eq_true hName
  cases kind with
  | function => exact hFound h
  | customType => exact hFound h
  | typeAlias => exact hFound h
  | unionConstructor => exact hFound h
  | operator => cases h
  | parameter => cases h
  | moduleHeader => cases h

end Tree

variable {w : Workspace} {r : Request} {t : Tree} {c : Candidate} {m : Imported}
  {kind : SymbolKind} {name moduleName : String} {clause node : Nat}

/-- What a clause of a file offers is in the file's index. -/
theorem find?_isSome_of_offers (hClause : clause ∈ t.importClauses)
    (hImports : Imports w t clause moduleName m)
    (hOffers : m.Offers t clause moduleName name kind node) :
    ((ImportIndex.ofTree w t).find? name kind).isSome :=
  ImportIndex.find?_isSome_iff.mpr ⟨_,
    List.mem_flatMap.mpr ⟨clause, hClause, mem_importOffers_of_offers hImports hOffers⟩, rfl, rfl⟩

namespace Request

/-- A file has nothing of a kind under a name, neither imported nor of its own. -/
def IsUnseen (r : Request) (kind : SymbolKind) (name : String) : Prop :=
  r.scope.imports.find? name kind = none ∧ r.tree.findOwn? kind name = none

/-- A name is unseen when no candidate for what the file has is visible. -/
theorem isUnseen_of_hidden {visible : List Candidate} (hHidden : name ∉ visible.map (·.name))
    (hOwn : ∀ c ∈ r.tree.ownCandidates kind, c ∈ visible)
    (hImported : ∀ entry, r.scope.imports.find? name kind = some entry →
      importCandidate entry ∈ visible ∧ entry.name = name) : r.IsUnseen kind name := by
  constructor
  · rw [Option.eq_none_iff_forall_ne_some]
    intro entry hEntry
    obtain ⟨hMem, hName⟩ := hImported entry hEntry
    exact hHidden (List.mem_map.mpr ⟨_, hMem, hName⟩)
  · rw [Option.eq_none_iff_forall_ne_some]
    intro n hFind
    have hMem := hOwn _ (Tree.ofSymbol_mem_ownCandidates hFind)
    exact hHidden (List.mem_map.mpr ⟨_, hMem, rfl⟩)

/-- The file's own types are visible in an annotation. -/
theorem mem_visibleTypes_of_own (hKind : isTypeKind kind = true)
    (hc : c ∈ r.tree.ownCandidates kind) : c ∈ r.visibleTypes := by
  cases kind with
  | customType => exact List.mem_append_left _ (List.mem_append_left _ hc)
  | typeAlias => exact List.mem_append_left _ (List.mem_append_right _ hc)
  | _ => cases hKind

/-- The file's own values are visible in an expression. -/
theorem mem_visibleValues_of_own (hKind : isValueKind kind = true)
    (hc : c ∈ r.tree.ownCandidates kind) : c ∈ r.visibleValues := by
  simp only [visibleValues, List.mem_append]
  cases kind with
  | function => exact .inl (.inl (.inl (.inr hc)))
  | unionConstructor => exact .inl (.inl (.inr hc))
  | typeAlias => exact .inl (.inr hc)
  | parameter => exact absurd hc List.not_mem_nil
  | moduleHeader => exact absurd hc List.not_mem_nil
  | _ => cases hKind

/-- A type that is not visible in an annotation is unseen. -/
theorem isUnseen_of_hidden_type (hKind : isTypeKind kind = true)
    (hHidden : name ∉ r.visibleTypes.map (·.name)) : r.IsUnseen kind name := by
  refine isUnseen_of_hidden hHidden (fun c => mem_visibleTypes_of_own hKind) ?_
  intro entry hEntry
  have hKey := List.find?_some hEntry
  simp only [Bool.and_eq_true, decide_eq_true_eq] at hKey
  refine ⟨List.mem_append_right _ (List.mem_map_of_mem (List.mem_filter.mpr ⟨?_, ?_⟩)), hKey.1⟩
  · exact List.mem_of_find?_eq_some hEntry
  · rw [hKey.2]
    exact hKind

/-- A value that is not visible in an expression is unseen. -/
theorem isUnseen_of_hidden_value (hKind : isValueKind kind = true)
    (hPlain : r.settings.qualifiedCompletions = true ∨ '.' ∉ name.toList)
    (hHidden : name ∉ r.visibleValues.map (·.name)) : r.IsUnseen kind name := by
  refine isUnseen_of_hidden hHidden (fun c => mem_visibleValues_of_own hKind) ?_
  intro entry hEntry
  obtain ⟨hMem, hName, -⟩ := importCandidate_mem_visibleValues hEntry hKind hPlain
  exact ⟨hMem, hName⟩

/-- A suggestion is unseen, unless it is a type in an expression or a qualified name where
those are not wanted. -/
theorem exists_suggests_unseen (hMem : c ∈ r.answer) (hEdits : c.edits ≠ [])
    (hListed : LineShape.isSignature r.before = true ∨ c.kind ≠ .symbol .customType ∧
      (r.settings.qualifiedCompletions = true ∨ '.' ∉ c.name.toList)) :
    ∃ d s item kind node, r.Suggests c d s item kind node ∧ r.IsUnseen kind c.name := by
  have hCandidate := (firstOfName_sublist _).subset (List.mem_of_mem_take hMem)
  rcases autoImports_of_mem_candidates hCandidate hEdits with ⟨-, h⟩ | ⟨hNoSignature, -, h⟩
  · obtain ⟨d, s, item, kind, node, hSuggests, hHidden, hAccepted, -, hWith⟩ :=
      suggests_of_mem_autoImports h
    refine ⟨d, s, item, kind, node, hSuggests, isUnseen_of_hidden_type ?_ hHidden⟩
    rcases hSuggests.shown.item_cases with ⟨rfl, -⟩ | ⟨-, hConstructors⟩
    · exact hAccepted
    · exact nomatch hWith hConstructors
  · obtain ⟨d, s, item, kind, node, hSuggests, hHidden, -, hNotOperator, -⟩ :=
      suggests_of_mem_autoImports h
    obtain ⟨hNoType, hPlain⟩ := hListed.resolve_left (by rw [hNoSignature]; decide)
    refine ⟨d, s, item, kind, node, hSuggests, isUnseen_of_hidden_value ?_ hPlain hHidden⟩
    have hNotType : kind ≠ .customType := by
      rintro rfl
      exact hNoType (by rw [hSuggests.candidate]; rfl)
    rcases hSuggests.shown.item_cases with ⟨rfl, -⟩ | ⟨rfl, -⟩
    · generalize item.kind = shown at hNotOperator hNotType ⊢
      cases shown with
      | customType => exact absurd rfl hNotType
      | operator => exact absurd rfl hNotOperator
      | function => rfl
      | typeAlias => rfl
    · rfl

end Request

namespace Workspace

/-- A suggested import is of a name that the file neither imports nor declares. This holds of
all suggestions in annotations, and in expressions of all but types (a name with a dot can be
unlisted where qualified names are not wanted). Where modules are unambiguous the clause that
the edit extends neither takes in everything nor lists the item already. -/
theorem completions_unseen (w : Workspace) (uri : String) (d : Document) (p : Position)
    (trigger : Trigger) (settings : Settings) (c : Candidate) (hGet : w.get? uri = some d)
    (hMem : c ∈ w.completions uri p trigger settings) (hEdits : c.edits ≠ [])
    (hListed : LineShape.isSignature (d.tree.textBefore p) = true ∨
      c.kind ≠ .symbol .customType ∧
        (settings.qualifiedCompletions = true ∨ '.' ∉ c.name.toList)) :
    ∃ (s : Surface) (item : ImportItem) (kind : SymbolKind) (node : Nat),
      c.kind = .symbol kind ∧ s.Shows item kind c.name node ∧
      c.edits = [d.tree.importEdit s.moduleName item.text] ∧
      (w.importIndex uri).find? c.name kind = none ∧ d.tree.findOwn? kind c.name = none ∧
      (w.Unambiguous → s.TypesDistinct → ∀ clause ∈ d.tree.importClauses,
        d.tree.importedModule? clause = some s.moduleName →
        ¬ d.tree.ExposesAll clause ∧
          ∀ n, d.tree.ExposesItem clause n → ¬ d.tree.Lists n item) := by
  rw [completions, hGet] at hMem
  obtain ⟨e, s, item, kind, node, h, hUnseen⟩ :=
    Request.exists_suggests_unseen hMem hEdits hListed
  refine ⟨s, item, kind, node, ?_, h.shown, ?_, ?_, hUnseen.2, ?_⟩
  · rw [h.candidate]
    rfl
  · rw [h.candidate]
    rfl
  · rw [importIndex, hGet]
    exact hUnseen.1
  · intro hUnambiguous hTypes clause hClause hNamed
    obtain ⟨header, hImports⟩ := hUnambiguous.exists_imports h.stored h.exposed hNamed
    have hShown : (Imported.mk e s header).surface.Shows item kind c.name node := h.shown
    have hNotTaken : ¬ (d.tree.ExposesAll clause ∨
        ∃ n, d.tree.ExposesItem clause n ∧ d.tree.Lists n item) := by
      intro hTaken
      have hOffers := hShown.offers hImports hTypes hTaken
      have hFound := find?_isSome_of_offers hClause hImports hOffers
      have hNone : (ImportIndex.ofTree w d.tree).find? c.name kind = none := hUnseen.1
      simp [hNone] at hFound
    exact ⟨fun hAll => hNotTaken (.inl hAll), fun n hItem hLists =>
      hNotTaken (.inr ⟨n, hItem, hLists⟩)⟩

/-- A function that `user` sees only under its qualified name is suggested for import. -/
theorem completions_unseen_function :
    let c : Candidate := ⟨"f", .symbol .function, some "A",
      some "Auto import from module 'A'", [.insertion ⟨0, 20⟩ ", f"]⟩
    c ∈ Sample.typedWorkspace.completions "user" ⟨1, 7⟩ .invoked {} ∧
      (Sample.typedWorkspace.importIndex "user").find? "f" .function = none ∧
      Sample.user.findFunction? "f" = none := by
  intro c
  have hMem : c ∈ Sample.typedWorkspace.completions "user" ⟨1, 7⟩ .invoked {} := by
    decide +kernel
  obtain ⟨s, item, kind, node, hKind, -, -, hIndex, hOwn, -⟩ :=
    completions_unseen Sample.typedWorkspace "user" Sample.documentUser ⟨1, 7⟩ .invoked {} c
      (by decide +kernel) hMem (List.cons_ne_nil _ _) (.inr ⟨by decide, .inl rfl⟩)
  obtain rfl : SymbolKind.function = kind := CandidateKind.symbol.inj hKind
  exact ⟨hMem, hIndex, hOwn⟩

/-- In an expression a type is suggested although the file imports it, and the edit adds the
type to the clause that lists it. -/
theorem completions_unseen_imported_type :
    (∃ c ∈ Sample.typedWorkspace.completions "user" ⟨1, 7⟩ .invoked {},
      c.name = "T" ∧ c.kind = .symbol .customType ∧
        c.edits = [Sample.user.importEdit "A" "T"]) ∧
      ((Sample.typedWorkspace.importIndex "user").find? "T" .customType).isSome ∧
      ∃ clause ∈ Sample.user.importClauses, Sample.user.importedModule? clause = some "A" ∧
        ∃ n, Sample.user.ExposesItem clause n ∧ Sample.user.Lists n ⟨.customType, "T", false⟩ := by
  have hOnly := Sample.importsOnly_user
  refine ⟨?_, by decide +kernel, 1, by decide +kernel, hOnly.named, 8, (hOnly.only 8).mpr rfl,
    hOnly.lists⟩
  exact ⟨⟨"T", .symbol .customType, some "A", some "Auto import from module 'A'",
    [.insertion ⟨0, 20⟩ ", T"]⟩, by decide +kernel, rfl, rfl, by decide +kernel⟩

end Workspace

end ElmScope
