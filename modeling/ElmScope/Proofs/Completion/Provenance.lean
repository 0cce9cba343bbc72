import ElmScope.Proofs.Completion.Expression
import ElmScope.Proofs.Module.Surface
import ElmScope.Proofs.Workspace.History

/-! Candidates of other modules. Whichever context of a cursor gives it, a candidate that names a
module stands for something in the surface of a file with that module name, or for the module
itself, and its name says which: it is bare, behind the qualifier of an import clause, or with
`(..)` behind it. A constructor is offered bare only where importers can take it in bare. -/
namespace ElmScope

structure Tree.NamesModule (t : Tree) (w : Workspace) (clause : Nat) (name : String)
    (d : Document) : Prop where
  isClause : clause ∈ t.importClauses
  named : t.importedModule? clause = some name
  found : w.findModule? name = some d

/-- A name that a file can be offered from a document with a surface: of the module or of an
alias of its import, of a shown symbol or of one of its constructors. -/
inductive Reveals (w : Workspace) (t : Tree) (d : Document) (s : Surface) :
    SymbolKind → String → Prop where
  | moduleName {clause : Nat} {name : String} (hClause : t.NamesModule w clause name d) :
      Reveals w t d s .moduleHeader name
  | moduleAlias {clause : Nat} {name short : String} (hClause : t.NamesModule w clause name d)
      (hAlias : t.importAlias? clause = some short) : Reveals w t d s .moduleHeader short
  | symbol {symbol : ExposedSymbol} (hShown : symbol ∈ s.exposed) :
      Reveals w t d s symbol.kind.toSymbolKind symbol.name
  | withConstructors {symbol : ExposedSymbol} (hShown : symbol ∈ s.exposed)
      (hListed : symbol.listed ≠ []) :
      Reveals w t d s symbol.kind.toSymbolKind (symbol.name ++ "(..)")
  | qualified {clause : Nat} {name : String} {symbol : ExposedSymbol}
      (hClause : t.NamesModule w clause name d) (hShown : symbol ∈ s.exposed) :
      Reveals w t d s symbol.kind.toSymbolKind (t.qualifiedName clause name symbol.name)
  | constructor {e : ExposedConstructor} (hBare : e ∈ s.bareConstructors) :
      Reveals w t d s .unionConstructor e.name
  | qualifiedConstructor {clause : Nat} {name : String} {symbol : ExposedSymbol}
      {e : ExposedConstructor} (hClause : t.NamesModule w clause name d)
      (hShown : symbol ∈ s.exposed) (hListed : e ∈ symbol.listed) :
      Reveals w t d s .unionConstructor (t.qualifiedName clause name e.name)

/-- A candidate for a file is from a stored document: its module is that of the document's
surface, and the document reveals its name for its kind. -/
structure Candidate.IsFrom (c : Candidate) (w : Workspace) (t : Tree) (d : Document)
    (s : Surface) (kind : SymbolKind) : Prop where
  stored : d ∈ w.documents
  exposed : d.tree.surface? = some s
  source : c.sourceModule = some s.moduleName
  ofKind : c.kind = .symbol kind
  revealed : Reveals w t d s kind c.name

variable {w : Workspace} {t : Tree} {d : Document} {s : Surface} {r : Request} {c : Candidate}
  {m : Imported} {clause node : Nat} {moduleName name : String} {kind : SymbolKind}
  {entry : ImportEntry} {symbol : ExposedSymbol} {e : ExposedConstructor} {item : ImportItem}

theorem Surface.mem_bareConstructors (hShown : symbol ∈ s.exposed) (hBare : e ∈ symbol.bare) :
    e ∈ s.bareConstructors :=
  List.mem_flatMap.mpr ⟨symbol, hShown, hBare⟩

/-- Whatever an item takes in is a name that can be offered. -/
theorem Surface.Shows.reveals (h : s.Shows item kind name node) : Reveals w t d s kind name := by
  cases h with
  | symbol hFirst => exact .symbol (Surface.mem_of_find? hFirst).1
  | constructor hShown hBare => exact .constructor (Surface.mem_bareConstructors hShown hBare)

/-- Everything that a clause offers is revealed by the module that it names. -/
theorem Imported.Offers.reveals (h : m.Offers t clause moduleName name kind node)
    (hClause : t.NamesModule w clause moduleName m.document) :
    Reveals w t m.document m.surface kind name := by
  cases h with
  | byName => exact .moduleName hClause
  | byAlias hAlias => exact .moduleAlias hClause hAlias
  | qualified hShown => exact .qualified hClause hShown
  | qualifiedConstructor hShown hListed => exact .qualifiedConstructor hClause hShown hListed
  | bare hShown _ => exact .symbol hShown
  | bareConstructor hShown hListed hBare _ =>
      exact .constructor (Surface.mem_bareConstructors hShown (List.mem_filter.mpr ⟨hListed, hBare⟩))

/-- Every entry of an import index is from a module that a clause names. -/
theorem exists_isFrom_of_entry (h : entry ∈ (ImportIndex.ofTree w t).entries) :
    ∃ d s kind, (Request.importCandidate entry).IsFrom w t d s kind := by
  obtain ⟨clause, hClause, hOffer⟩ := List.mem_flatMap.mp (ImportIndex.mem_offers_of_mem_entries h)
  obtain ⟨moduleName, m, hImports, hOffers, -, hSource⟩ := offersEntry_of_mem hOffer
  exact ⟨m.document, m.surface, entry.kind, (Workspace.findModule?_mem hImports.found).1,
    hImports.surface, congrArg some hSource, rfl,
    hOffers.reveals ⟨hClause, hImports.named, hImports.found⟩⟩

theorem Request.IsExposedCandidate.isFrom (h : Request.IsExposedCandidate c s.moduleName symbol)
    (hFound : w.findModule? name = some d) (hSurface : d.tree.surface? = some s)
    (hShown : symbol ∈ s.exposed) : c.IsFrom w t d s symbol.kind.toSymbolKind := by
  refine ⟨(Workspace.findModule?_mem hFound).1, hSurface, h.source, h.kind, ?_⟩
  rcases h.name with hPlain | ⟨hListed, hName⟩
  · exact hPlain ▸ .symbol hShown
  · exact hName ▸ .withConstructors hShown hListed

/-- A suggested name is from the module that its edit imports. -/
theorem Request.Suggests.isFrom (h : r.Suggests c d s item kind node) :
    c.IsFrom r.workspace t d s kind := by
  refine ⟨h.stored, h.exposed, ?_, ?_, h.shown.reveals⟩
  · rw [h.candidate]
    rfl
  · rw [h.candidate]
    rfl

/-- A candidate with a module is from a document of the workspace. -/
theorem Request.exists_isFrom (hImports : r.scope.imports = .ofTree r.workspace t)
    (hMem : c ∈ r.candidates) (hSource : c.sourceModule ≠ none) :
    ∃ d s kind, c.IsFrom r.workspace t d s kind := by
  have hVisible : c.IsOwn ∨ (∃ entry ∈ r.scope.imports.entries, c = importCandidate entry) →
      ∃ d s kind, c.IsFrom r.workspace t d s kind := by
    rintro (hOwn | ⟨entry, hEntry, rfl⟩)
    · exact absurd hOwn.noSource hSource
    · exact exists_isFrom_of_entry (hImports ▸ hEntry)
  have hImportable : ∀ {visible accept withConstructors},
      c ∈ r.autoImports visible accept withConstructors →
      ∃ d s kind, c.IsFrom r.workspace t d s kind := by
    intro visible accept withConstructors hc
    obtain ⟨d, s, item, kind, node, hSuggests, -⟩ := suggests_of_mem_autoImports hc
    exact ⟨d, s, kind, hSuggests.isFrom⟩
  rcases mem_candidates_cases hMem with
    hOwn | ⟨l, hContext, hc⟩ | ⟨l, hContext, hc⟩ | ⟨-, hc⟩ | ⟨-, -, hc⟩
  · exact hVisible (.inl hOwn)
  · obtain ⟨name, d, s, symbol, hFound, hSurface, hShown, hExposed⟩ :=
      exists_exposed_of_importExposing? hContext hc
    exact ⟨d, s, _, hExposed.isFrom hFound hSurface hShown⟩
  · exact hVisible (.inr (exists_entry_of_qualified? hContext hc))
  · rcases mem_withAutoImports_cases hc with hc | hc
    · exact hVisible (mem_visibleTypes_cases hc)
    · exact hImportable hc
  · rcases mem_withAutoImports_cases hc with hc | hc
    · exact hVisible (mem_visibleValues_cases hc)
    · exact hImportable hc

/-- A name revealed for a module is the module's own, where imports know the file by the name in
its header, or an alias of the file's import. -/
theorem Reveals.moduleHeader_cases (h : Reveals w t d s .moduleHeader name)
    (hSurface : d.tree.surface? = some s) (hNamed : d.moduleName = d.tree.moduleName?) :
    name = s.moduleName ∨ ∃ clause moduleName, t.NamesModule w clause moduleName d ∧
      t.importAlias? clause = some name := by
  generalize hHeader : SymbolKind.moduleHeader = kind at h
  cases h with
  | moduleName hClause =>
      obtain ⟨header, -, hName⟩ := Tree.header_of_surface? hSurface
      have hStored := (Workspace.findModule?_mem hClause.found).2
      rw [hNamed, hName] at hStored
      exact .inl (Option.some.inj hStored).symm
  | moduleAlias hClause hAlias => exact .inr ⟨_, _, hClause, hAlias⟩
  | symbol _ => exact absurd hHeader.symm ExposedKind.toSymbolKind_ne_moduleHeader
  | withConstructors _ _ => exact absurd hHeader.symm ExposedKind.toSymbolKind_ne_moduleHeader
  | qualified _ _ => exact absurd hHeader.symm ExposedKind.toSymbolKind_ne_moduleHeader
  | constructor _ => exact nomatch hHeader
  | qualifiedConstructor _ _ _ => exact nomatch hHeader

/-- Completion offers of other modules only what they show. A candidate with a module is from a
document whose surface has the module's name, as a shown symbol or constructor or as the module
itself, and a constructor stands without a qualifier only if importers can take it in bare. -/
theorem Workspace.completions_revealed (w : Workspace) (uri : String) (p : Position)
    (trigger : Trigger) (settings : Settings) (c : Candidate) (moduleName : String)
    (hMem : c ∈ w.completions uri p trigger settings)
    (hSource : c.sourceModule = some moduleName) :
    ∃ file d s kind, w.get? uri = some file ∧ c.IsFrom w file.tree d s kind ∧
      s.moduleName = moduleName ∧
      (kind = .moduleHeader → d.moduleName = d.tree.moduleName? → c.name = moduleName ∨
        ∃ clause importName, file.tree.NamesModule w clause importName d ∧
          file.tree.importAlias? clause = some c.name) := by
  unfold completions at hMem
  split at hMem
  · exact absurd hMem List.not_mem_nil
  · next file hFile =>
    have hCandidate := (firstOfName_sublist _).subset (List.mem_of_mem_take hMem)
    obtain ⟨d, s, kind, hFrom⟩ :=
      Request.exists_isFrom (t := file.tree) rfl hCandidate (by simp [hSource])
    have hName : s.moduleName = moduleName := Option.some.inj (hFrom.source.symm.trans hSource)
    refine ⟨file, d, s, kind, hFile, hFrom, hName, ?_⟩
    rintro rfl hNamed
    exact hName ▸ hFrom.revealed.moduleHeader_cases hFrom.exposed hNamed

/-- The function of `A` is offered under its qualified name and is from `A`. -/
theorem Workspace.completions_revealed_qualified :
    ∃ d s, (⟨"A.f", .symbol .function, some "A", none, []⟩ : Candidate).IsFrom
      Sample.typedWorkspace Sample.user d s .function ∧ s.moduleName = "A" := by
  obtain ⟨file, d, s, kind, hFile, hFrom, hName, -⟩ := completions_revealed Sample.typedWorkspace
    "user" ⟨1, 7⟩ .invoked {} ⟨"A.f", .symbol .function, some "A", none, []⟩ "A"
    (by decide +kernel) rfl
  have hUser : Sample.typedWorkspace.get? "user" = some Sample.documentUser := by decide +kernel
  obtain rfl := Option.some.inj (hUser.symm.trans hFile)
  obtain rfl : SymbolKind.function = kind := by simpa using hFrom.ofKind
  exact ⟨d, s, hFrom, hName⟩

end ElmScope
