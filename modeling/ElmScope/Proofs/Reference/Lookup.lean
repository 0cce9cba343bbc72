import ElmScope.Proofs.Module.Surface
import ElmScope.Proofs.Scope.Binding
import ElmScope.Proofs.Scope.Offer
import ElmScope.Proofs.Workspace.History
import ElmScope.Reference.Definition

/-! The two halves of a look-up. A file answers from the scopes around a name and from
its own top level. Only a name that it does not have goes to its imports, under the keys
that the use of the name asks for, and what comes back is declared by the file of the
module that an import clause names. -/
namespace ElmScope

/-- The names and kinds under which a use of a name asks the imports, in this order. -/
def Usage.importKeys : Usage → List (String × SymbolKind)
  | .importedModule name | .moduleQualifier name => [(name, .moduleHeader)]
  | .importedValue name => [(name, .function)]
  | .importedType name => [(name, .customType), (name, .typeAlias)]
  | .upperName text => [(text, .customType), (text, .typeAlias), (text, .unionConstructor)]
  | .value _ qualified => [(qualified, .function)]
  | .operator symbol => [(symbol, .operator)]
  | .moduleHeader _ | .declaredName _ _ | .ownFunction _ | .ownType _ | .variant _ => []

namespace FileScope

def ownLookup? (s : FileScope) (n : Nat) : Usage → Option Definition
  | .moduleHeader declaration => some (s.own .moduleHeader declaration)
  | .declaredName name block =>
    ((block.bind (s.tree.findLetFunction? · name)).map (s.own .function)).or (s.ownFunction? name)
  | .ownFunction name => s.ownFunction? name
  | .ownType name => s.ownType? name
  | .variant node => some (s.own .unionConstructor node)
  | .upperName text =>
    (s.ownType? text).or ((s.tree.findConstructor? text).map (s.own .unionConstructor))
  | .value name qualified =>
    (if name = qualified then s.bound? n name else none).or (s.ownFunction? qualified)
  | .operator symbol => (s.tree.findOperator? symbol).map (s.own .operator)
  | .importedModule _ | .moduleQualifier _ | .importedValue _ | .importedType _ => none

variable {s : FileScope} {n : Nat} {usage : Usage} {r : Definition} {name : String}
  {kind : SymbolKind}

/-- What a file supplies of its own for a use of a name at a node. -/
inductive Supplies (s : FileScope) (n : Nat) : Usage → Definition → Prop where
  | header {declaration : Nat} :
      Supplies s n (.moduleHeader declaration) (s.own .moduleHeader declaration)
  | letFunction {name : String} {block m : Nat}
      (hFind : s.tree.findLetFunction? block name = some m) :
      Supplies s n (.declaredName name (some block)) (s.own .function m)
  | variant {node : Nat} : Supplies s n (.variant node) (s.own .unionConstructor node)
  | bound {name : String} {b : Binding} (hNearest : s.tree.IsNearestBinding n name b) :
      Supplies s n (.value name name) (s.own b.kind b.node)
  | declared {usage : Usage} {kind : SymbolKind} {m : Nat} (hDeclared : s.tree.IsDeclared kind m) :
      Supplies s n usage (s.own kind m)

theorem Supplies.document_eq (h : s.Supplies n usage r) : r.site.document = s.document := by
  cases h <;> rfl

theorem supplies_of_ownFunction? (h : s.ownFunction? name = some r) : s.Supplies n usage r := by
  obtain ⟨m, hFind, rfl⟩ := Option.map_eq_some_iff.mp h
  exact .declared (Tree.isDeclared_of_findFunction? hFind)

theorem supplies_of_ownType? (h : s.ownType? name = some r) : s.Supplies n usage r := by
  rcases Option.or_eq_some_iff.mp h with h | ⟨-, h⟩
  · obtain ⟨m, hFind, rfl⟩ := Option.map_eq_some_iff.mp h
    exact .declared (Tree.isDeclared_of_findType? hFind)
  · obtain ⟨m, hFind, rfl⟩ := Option.map_eq_some_iff.mp h
    exact .declared (Tree.isDeclared_of_findTypeAlias? hFind)

theorem supplies_of_bound? (h : s.bound? n name = some r) : s.Supplies n (.value name name) r := by
  obtain ⟨b, hFind, rfl⟩ := Option.map_eq_some_iff.mp h
  exact .bound (Tree.findBinding?_eq_some_iff.mp hFind)

/-- What a file has of its own for a use it supplies. -/
theorem supplies_of_ownLookup? (h : s.ownLookup? n usage = some r) : s.Supplies n usage r := by
  cases usage with
  | moduleHeader declaration =>
      cases h
      exact .header
  | declaredName name block =>
      rcases Option.or_eq_some_iff.mp h with h | ⟨-, h⟩
      · obtain ⟨m, hFind, rfl⟩ := Option.map_eq_some_iff.mp h
        obtain ⟨b, rfl, hFind⟩ := Option.bind_eq_some_iff.mp hFind
        exact .letFunction hFind
      · exact supplies_of_ownFunction? h
  | ownFunction name => exact supplies_of_ownFunction? h
  | ownType name => exact supplies_of_ownType? h
  | variant node =>
      cases h
      exact .variant
  | upperName text =>
      rcases Option.or_eq_some_iff.mp h with h | ⟨-, h⟩
      · exact supplies_of_ownType? h
      · obtain ⟨m, hFind, rfl⟩ := Option.map_eq_some_iff.mp h
        exact .declared (Tree.isDeclared_of_findConstructor? hFind)
  | value name qualified =>
      rcases Option.or_eq_some_iff.mp h with hBound | ⟨-, hOwn⟩
      · split at hBound
        · next hPlain =>
          subst hPlain
          exact supplies_of_bound? hBound
        · exact nomatch hBound
      · exact supplies_of_ownFunction? hOwn
  | operator symbol =>
      obtain ⟨m, hFind, rfl⟩ := Option.map_eq_some_iff.mp h
      exact .declared (Tree.isDeclared_of_findOperator? hFind)
  | importedModule name => exact nomatch h
  | moduleQualifier qualifier => exact nomatch h
  | importedValue name => exact nomatch h
  | importedType name => exact nomatch h

theorem findSome?_imported?_cons (s : FileScope) (keys : List (String × SymbolKind)) :
    ((name, kind) :: keys).findSome? (fun key => s.imported? key.1 key.2) =
      (s.imported? name kind).or (keys.findSome? fun key => s.imported? key.1 key.2) := by
  rw [List.findSome?_cons]
  cases s.imported? name kind <;> rfl

/-- A look-up asks the imports exactly when the file has nothing of its own. -/
theorem lookup?_eq (s : FileScope) (n : Nat) (usage : Usage) :
    s.lookup? n usage = (s.ownLookup? n usage).or
      (usage.importKeys.findSome? fun key => s.imported? key.1 key.2) := by
  cases usage <;>
    simp only [lookup?, ownLookup?, Usage.importKeys, findSome?_imported?_cons,
      List.findSome?_nil, Option.or_none, Option.none_or, Option.or_assoc]

theorem imported?_kind (h : s.imported? name kind = some r) : r.kind = kind := by
  obtain ⟨entry, -, rfl⟩ := Option.map_eq_some_iff.mp h
  rfl

/-- An answer is the file's own, or the file has none and the imports have it under one
of the keys of the use. -/
theorem lookup?_cases (h : s.lookup? n usage = some r) :
    s.ownLookup? n usage = some r ∨ s.ownLookup? n usage = none ∧
      ∃ name, (name, r.kind) ∈ usage.importKeys ∧ s.imported? name r.kind = some r := by
  rw [lookup?_eq] at h
  rcases Option.or_eq_some_iff.mp h with h | ⟨hNone, h⟩
  · exact .inl h
  · obtain ⟨⟨name, kind⟩, hKey, hFound⟩ := List.exists_of_findSome?_eq_some h
    obtain rfl := imported?_kind hFound
    exact .inr ⟨hNone, name, hKey, hFound⟩

end FileScope

section Imports

variable {w : Workspace} {t : Tree} {d : Document} {clause node : Nat} {moduleName name : String}
  {kind : SymbolKind} {m : Imported} {r : Definition}

/-- An answer comes through an import clause of a file, under a name by which the clause's
module offers it. -/
def ComesThrough (w : Workspace) (t : Tree) (name : String) (r : Definition) : Prop :=
  ∃ clause ∈ t.importClauses, ∃ moduleName m, Imports w t clause moduleName m ∧
    m.Offers t clause moduleName name r.kind r.site.node ∧ r.site.document = m.document

/-- A module offers only what its own file declares. -/
theorem Imported.Offers.isDeclared (h : m.Offers t clause moduleName name kind node)
    (hImports : Imports w t clause moduleName m) : m.document.tree.IsDeclared kind node := by
  have hShows : ∀ symbol ∈ m.surface.exposed, m.document.tree.IsShown symbol :=
    fun _ h => Tree.isShown_of_mem_exposed hImports.surface h
  cases h with
  | byName => exact Tree.isDeclared_of_header? hImports.header
  | byAlias _ => exact Tree.isDeclared_of_header? hImports.header
  | qualified hShown => exact (hShows _ hShown).declared
  | qualifiedConstructor hShown hListed => exact (hShows _ hShown).constructors _ hListed
  | bare hShown _ => exact (hShows _ hShown).declared
  | bareConstructor hShown hListed _ _ => exact (hShows _ hShown).constructors _ hListed

/-- An answer through a clause is declared where it stands, in a stored file. -/
theorem ComesThrough.isDeclared (h : ComesThrough w t name r) :
    w.get? r.site.document.uri = some r.site.document ∧
      r.site.document.tree.IsDeclared r.kind r.site.node := by
  obtain ⟨clause, -, moduleName, m, hImports, hOffers, hDocument⟩ := h
  rw [hDocument]
  exact ⟨Workspace.get?_of_findModule? hImports.found, hOffers.isDeclared hImports⟩

/-- Whatever the imports have has come through a clause. -/
theorem comesThrough_of_imported? (h : (w.fileScope d).imported? name kind = some r) :
    ComesThrough w d.tree name r := by
  obtain ⟨entry, hFind, rfl⟩ := Option.map_eq_some_iff.mp h
  obtain ⟨⟨rfl, rfl⟩, clause, hClause, hOffers, -⟩ := exists_last_clause hFind
  obtain ⟨moduleName, m, hImports, hOffers, hDocument, -⟩ := hOffers
  exact ⟨clause, hClause, moduleName, m, hImports, hOffers, hDocument⟩

end Imports

/-- A node is looked up in the document that is stored under the uri, provided that it is
the node's own document. -/
theorem Workspace.definition?_eq_some_iff {w : Workspace} {uri : String} {s : Site}
    {r : Definition} :
    w.definition? uri s = some r ↔ ∃ d, w.get? uri = some d ∧
      d.revision = s.document.revision ∧ (w.fileScope d).definition? s.node = some r := by
  rw [definition?, Option.bind_eq_some_iff]
  constructor
  · rintro ⟨d, hGet, h⟩
    split at h
    · next hSame => exact ⟨d, hGet, hSame, h⟩
    · exact nomatch h
  · rintro ⟨d, hGet, hSame, h⟩
    exact ⟨d, hGet, by rw [if_pos hSame, h]⟩

/-- A node of the stored document is looked up in that document. -/
theorem Workspace.definition?_of_get? {w : Workspace} {uri : String} {d : Document} {n : Nat}
    (hGet : w.get? uri = some d) :
    w.definition? uri ⟨d, n⟩ = (w.fileScope d).definition? n := by
  rw [definition?, hGet, Option.bind_some, if_pos rfl]

end ElmScope
