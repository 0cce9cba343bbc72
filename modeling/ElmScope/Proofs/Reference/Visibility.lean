import ElmScope.Proofs.Reference.Lookup

/-! Nothing that a module keeps to itself is reached from another file. An answer stands in
the file of the name, or it comes through an import clause of that file under a name by
which the clause's module offers it, and then that module's own file declares it. -/
namespace ElmScope

/-- An answer is the file's own: the file has it for the use of the name. -/
def IsOwnAnswer (w : Workspace) (d : Document) (n : Nat) (usage : Usage) (r : Definition) : Prop :=
  (w.fileScope d).ownLookup? n usage = some r ∧ r.site.document = d

/-- An answer is imported: the file has nothing of its own for the use of the name, and the
answer comes through one of the file's clauses under a name that the use asks for. It is
declared where it stands. -/
def IsImportedAnswer (w : Workspace) (d : Document) (n : Nat) (usage : Usage) (r : Definition) :
    Prop :=
  (w.fileScope d).ownLookup? n usage = none ∧
    ∃ name, (name, r.kind) ∈ usage.importKeys ∧
      ∃ clause ∈ d.tree.importClauses, ∃ moduleName m, Imports w d.tree clause moduleName m ∧
        m.Offers d.tree clause moduleName name r.kind r.site.node ∧
        r.site.document = m.document ∧ m.document.tree.IsDeclared r.kind r.site.node

namespace Workspace

/-- Every answer is the file's own or comes through one of its import clauses, from what
the clause's module shows and declares. -/
theorem definition?_visible (w : Workspace) (uri : String) (s : Site) (r : Definition)
    (h : w.definition? uri s = some r) :
    ∃ d usage, w.get? uri = some d ∧ d.revision = s.document.revision ∧
      d.tree.usage? s.node = some usage ∧
      (IsOwnAnswer w d s.node usage r ∨ IsImportedAnswer w d s.node usage r) := by
  obtain ⟨d, hGet, hSame, h⟩ := definition?_eq_some_iff.mp h
  obtain ⟨usage, hUse, h⟩ := Option.bind_eq_some_iff.mp h
  refine ⟨d, usage, hGet, hSame, hUse, ?_⟩
  rcases FileScope.lookup?_cases h with hOwn | ⟨hNone, name, hKey, hImported⟩
  · exact .inl ⟨hOwn, (FileScope.supplies_of_ownLookup? hOwn).document_eq⟩
  · obtain ⟨clause, hClause, moduleName, m, hImports, hOffers, hDocument⟩ :=
      comesThrough_of_imported? hImported
    refine .inr ⟨hNone, name, hKey, clause, hClause, moduleName, m, hImports, hOffers, hDocument, ?_⟩
    exact hOffers.isDeclared hImports

/-- The bare `f` of `main` is imported from `B`. -/
theorem definition?_visible_bare :
    Sample.workspace.definition? "main" ⟨Sample.documentMain, 27⟩ =
      some ⟨⟨Sample.documentB, 10⟩, .function⟩ ∧
    IsImportedAnswer Sample.workspace Sample.documentMain 27 (.value "f" "f")
      ⟨⟨Sample.documentB, 10⟩, .function⟩ := by
  have h : Sample.workspace.definition? "main" ⟨Sample.documentMain, 27⟩ =
      some ⟨⟨Sample.documentB, 10⟩, .function⟩ := by decide +kernel
  refine ⟨h, ?_⟩
  obtain ⟨d, usage, hGet, -, hUse, hAnswer⟩ :=
    definition?_visible Sample.workspace "main" ⟨Sample.documentMain, 27⟩ _ h
  have hMain : Sample.workspace.get? "main" = some Sample.documentMain := by decide +kernel
  have hValue : Sample.documentMain.tree.usage? 27 = some (.value "f" "f") := by decide +kernel
  obtain rfl : Sample.documentMain = d := Option.some.inj (hMain.symm.trans hGet)
  obtain rfl : Usage.value "f" "f" = usage := Option.some.inj (hValue.symm.trans hUse)
  exact hAnswer.resolve_left fun hOwn => absurd hOwn.2 (by decide)

end Workspace

end ElmScope
