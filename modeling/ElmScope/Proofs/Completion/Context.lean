import ElmScope.Completion

/-! Which source of names gave a candidate. The contexts of a cursor read three sources: the file
itself, its import index, and what other files show. What the file gives has neither a module nor
edits, and is the same kind of candidate in every context. -/
namespace ElmScope

/-- A candidate of the file itself: from no module, and without edits. -/
structure Candidate.IsOwn (c : Candidate) : Prop where
  noSource : c.sourceModule = none
  noEdits : c.edits = []

namespace Request

def visibleTypes (r : Request) : List Candidate :=
  r.tree.typeCandidates ++ r.tree.aliasCandidates ++
    (r.scope.imports.entries.filter fun entry => isTypeKind entry.kind).map importCandidate

variable {r : Request} {c : Candidate} {l : List Candidate} {symbol : ExposedSymbol}
  {accept : ExposedKind → Bool} {withConstructors : Bool} {moduleName : String}

theorem isOwn_of_mem_map {kind : SymbolKind} {names : List String}
    (h : c ∈ names.map (Candidate.ofSymbol kind)) : c.IsOwn := by
  obtain ⟨name, -, rfl⟩ := List.mem_map.mp h
  exact ⟨rfl, rfl⟩

theorem isOwn_of_importModule? (h : r.importModule? = some l) (hc : c ∈ l) : c.IsOwn := by
  obtain ⟨-, ⟨⟩⟩ := Option.ite_none_right_eq_some.mp h
  exact isOwn_of_mem_map hc

theorem isOwn_of_mem_ownTypeCandidates {t : Tree} {declaration : Nat}
    (h : c ∈ ownTypeCandidates t declaration) : c.IsOwn := by
  rw [ownTypeCandidates] at h
  split at h
  · exact absurd h List.not_mem_nil
  · rcases List.mem_cons.mp h with rfl | h
    · exact ⟨rfl, rfl⟩
    · rcases List.mem_cons.mp h with rfl | h
      · exact ⟨rfl, rfl⟩
      · exact isOwn_of_mem_map h

/-- The exposing list of the header offers what the file itself declares. -/
theorem isOwn_of_moduleExposing? (h : r.moduleExposing? = some l) (hc : c ∈ l) : c.IsOwn := by
  obtain ⟨-, ⟨⟩⟩ := Option.ite_none_right_eq_some.mp h
  rcases List.mem_append.mp hc with hc | hAlias
  · rcases List.mem_append.mp hc with hFunction | hType
    · exact isOwn_of_mem_map hFunction
    · obtain ⟨declaration, -, hType⟩ := List.mem_flatMap.mp hType
      exact isOwn_of_mem_ownTypeCandidates hType
  · exact isOwn_of_mem_map hAlias

/-- Fields come from no module and make no edits. -/
theorem isOwn_of_recordFields? (h : r.recordFields? = some l) (hc : c ∈ l) : c.IsOwn := by
  obtain ⟨target, -, rfl⟩ := Option.map_eq_some_iff.mp h
  cases hType : r.targetType? target with
  | none => simp [hType] at hc
  | some record =>
      rw [hType] at hc
      obtain ⟨field, -, hField⟩ := List.mem_filterMap.mp hc
      obtain ⟨name, -, rfl⟩ := Option.map_eq_some_iff.mp hField
      exact ⟨rfl, rfl⟩

/-- Where the target has a record type, its fields are what is offered. -/
theorem recordFields?_of_targetType? {target : RecordTarget} {record : Site}
    (hTarget : r.tree.targetAt? r.position = some target)
    (h : r.targetType? target = some record) :
    r.recordFields? = some (fieldCandidates record) := by
  rw [recordFields?, hTarget, Option.map_some, h]
  rfl

/-- Where a field name is written and no clause of a header, only fields are answered. -/
theorem answer_of_recordFields? (hImport : r.importModule? = none)
    (hExposing : r.importExposing? = none) (hHeader : r.moduleExposing? = none)
    (h : r.recordFields? = some l) :
    r.answer = (firstOfName l).take r.settings.completionLimit := by
  rw [answer, candidates, hImport, hExposing, hHeader, h]
  rfl

/-- Where the record type of a target is known, its fields are answered. -/
theorem answer_of_targetType? {target : RecordTarget} {record : Site}
    (hImport : r.importModule? = none) (hExposing : r.importExposing? = none)
    (hHeader : r.moduleExposing? = none) (hTarget : r.tree.targetAt? r.position = some target)
    (h : r.targetType? target = some record) :
    r.answer = (firstOfName (fieldCandidates record)).take r.settings.completionLimit :=
  answer_of_recordFields? hImport hExposing hHeader (recordFields?_of_targetType? hTarget h)

/-- The names beside a line are the file's own. -/
theorem isOwn_of_topLevelName? (h : r.topLevelName? = some l) (hc : c ∈ l) : c.IsOwn := by
  obtain ⟨-, ⟨⟩⟩ := Option.ite_none_right_eq_some.mp h
  exact isOwn_of_mem_map hc

/-- What is visible in an annotation is the file's own or from its import index. -/
theorem mem_visibleTypes_cases (h : c ∈ r.visibleTypes) :
    c.IsOwn ∨ ∃ entry ∈ r.scope.imports.entries, c = importCandidate entry := by
  rcases List.mem_append.mp h with h | hImported
  · rcases List.mem_append.mp h with hType | hAlias
    · exact .inl (isOwn_of_mem_map hType)
    · exact .inl (isOwn_of_mem_map hAlias)
  · obtain ⟨entry, hEntry, rfl⟩ := List.mem_map.mp hImported
    exact .inr ⟨entry, (List.mem_filter.mp hEntry).1, rfl⟩

/-- What is visible in an expression is the file's own or from its import index. -/
theorem mem_visibleValues_cases (h : c ∈ r.visibleValues) :
    c.IsOwn ∨ ∃ entry ∈ r.scope.imports.entries, c = importCandidate entry := by
  simp only [visibleValues, List.mem_append] at h
  rcases h with (((hBound | hFunction) | hConstructor) | hAlias) | hImported
  · obtain ⟨binding, -, rfl⟩ := List.mem_map.mp hBound
    exact .inl ⟨rfl, rfl⟩
  · exact .inl (isOwn_of_mem_map hFunction)
  · exact .inl (isOwn_of_mem_map hConstructor)
  · exact .inl (isOwn_of_mem_map hAlias)
  · obtain ⟨entry, hEntry, rfl⟩ := List.mem_map.mp hImported
    exact .inr ⟨entry, (List.mem_filter.mp hEntry).1, rfl⟩

/-- Behind a qualifier only names of the import index are offered. -/
theorem exists_entry_of_qualified? (h : r.qualified? = some l) (hc : c ∈ l) :
    ∃ entry ∈ r.scope.imports.entries, c = importCandidate entry := by
  obtain ⟨qualifier, -, rfl⟩ := Option.map_eq_some_iff.mp h
  obtain ⟨entry, hEntry, rfl⟩ := List.mem_map.mp hc
  exact ⟨entry, (List.mem_filter.mp hEntry).1, rfl⟩

/-- A candidate is for a shown symbol of a module, plain or with `(..)` behind its name. -/
structure IsExposedCandidate (c : Candidate) (moduleName : String) (symbol : ExposedSymbol) :
    Prop where
  kind : c.kind = .symbol symbol.kind.toSymbolKind
  source : c.sourceModule = some moduleName
  noEdits : c.edits = []
  name : c.name = symbol.name ∨ symbol.listed ≠ [] ∧ c.name = symbol.name ++ "(..)"

theorem isExposedCandidate_of_mem (h : c ∈ exposedCandidates moduleName symbol) :
    IsExposedCandidate c moduleName symbol := by
  rw [exposedCandidates] at h
  split at h
  · obtain rfl := List.mem_singleton.mp h
    exact ⟨rfl, rfl, rfl, .inl rfl⟩
  · next hListed =>
    rcases List.mem_cons.mp h with rfl | h
    · exact ⟨rfl, rfl, rfl, .inl rfl⟩
    · obtain rfl := List.mem_singleton.mp h
      exact ⟨rfl, rfl, rfl, .inr ⟨by simpa using hListed, rfl⟩⟩

/-- In the exposing list of an import, every candidate is for what the module shows. -/
theorem exists_exposed_of_importExposing? (h : r.importExposing? = some l) (hc : c ∈ l) :
    ∃ name d s symbol, r.workspace.findModule? name = some d ∧ d.tree.surface? = some s ∧
      symbol ∈ s.exposed ∧ IsExposedCandidate c s.moduleName symbol := by
  obtain ⟨name, -, rfl⟩ := Option.map_eq_some_iff.mp h
  split at hc
  · exact absurd hc List.not_mem_nil
  · next s hSurface =>
    obtain ⟨d, hFound, hSurface⟩ := Option.bind_eq_some_iff.mp hSurface
    obtain ⟨symbol, hShown, hc⟩ := List.mem_flatMap.mp hc
    exact ⟨_, d, s, symbol, hFound, hSurface, hShown, isExposedCandidate_of_mem hc⟩

/-- A candidate is visible already or could be imported. -/
theorem mem_withAutoImports_cases (h : c ∈ r.withAutoImports accept withConstructors l) :
    c ∈ l ∨ c ∈ r.autoImports (l.map (·.name)) accept withConstructors := by
  rw [withAutoImports] at h
  split at h
  · exact List.mem_append.mp h
  · exact .inl h

/-- Of several contexts the first that fits gives a candidate. -/
theorem mem_getD_or_cases {context others : Option (List Candidate)}
    (h : c ∈ (context.or others).getD l) :
    (∃ own, context = some own ∧ c ∈ own) ∨ context = none ∧ c ∈ others.getD l := by
  cases context with
  | none => exact .inr ⟨rfl, h⟩
  | some own => exact .inl ⟨own, rfl, h⟩

/-- A candidate is the file's own, or from one of the contexts that read other files. -/
theorem mem_candidates_cases (h : c ∈ r.candidates) :
    c.IsOwn ∨ (∃ l, r.importExposing? = some l ∧ c ∈ l) ∨ (∃ l, r.qualified? = some l ∧ c ∈ l) ∨
      LineShape.isSignature r.before = true ∧
        c ∈ r.withAutoImports isExposedType false r.visibleTypes ∨
      LineShape.isSignature r.before = false ∧ LineShape.isTopLevelName r.before = false ∧
        c ∈ r.values := by
  rcases mem_getD_or_cases h with ⟨l, hContext, hc⟩ | ⟨-, h⟩
  · exact .inl (isOwn_of_importModule? hContext hc)
  rcases mem_getD_or_cases h with hContext | ⟨-, h⟩
  · exact .inr (.inl hContext)
  rcases mem_getD_or_cases h with ⟨l, hContext, hc⟩ | ⟨-, h⟩
  · exact .inl (isOwn_of_moduleExposing? hContext hc)
  rcases mem_getD_or_cases h with ⟨l, hContext, hc⟩ | ⟨-, h⟩
  · exact .inl (isOwn_of_recordFields? hContext hc)
  rcases mem_getD_or_cases h with hContext | ⟨-, h⟩
  · exact .inr (.inr (.inl hContext))
  rcases mem_getD_or_cases h with ⟨l, hContext, hc⟩ | ⟨-, h⟩
  · obtain ⟨-, ⟨⟩⟩ := Option.ite_none_right_eq_some.mp hContext
    exact absurd hc List.not_mem_nil
  by_cases hSignature : LineShape.isSignature r.before = true
  · rw [typeName?, if_pos hSignature, Option.some_or, Option.getD_some] at h
    exact .inr (.inr (.inr (.inl ⟨hSignature, h⟩)))
  · rw [typeName?, if_neg hSignature, Option.none_or, ← Option.or_none (o := r.topLevelName?)] at h
    rcases mem_getD_or_cases h with ⟨l, hContext, hc⟩ | ⟨hNone, h⟩
    · exact .inl (isOwn_of_topLevelName? hContext hc)
    · have hNoName : LineShape.isTopLevelName r.before = false := by
        simpa [topLevelName?] using hNone
      exact .inr (.inr (.inr (.inr ⟨Bool.eq_false_iff.mpr hSignature, hNoName, h⟩)))

end Request

end ElmScope
