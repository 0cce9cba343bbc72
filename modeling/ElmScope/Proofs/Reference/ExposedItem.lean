import ElmScope.Proofs.Module.Exposure
import ElmScope.Proofs.Reference.Lookup
import ElmScope.Proofs.Reference.Usage

/-! Names in a header's exposing list. A surface is made from the items of the list, and a look-up
goes by the place of an identifier in the tree. For every form of item the two end at the same
declaration, with the type before the type alias and the operator behind its fixity. -/
namespace ElmScope

/-- The identifier of an item of an exposing list. A value is nothing but its identifier. -/
inductive Tree.IsItemName (t : Tree) (item i : Nat) : Prop where
  | value (hKind : t.kind item = .exposedValue)
      (hName : t.childOfKind? item .lowerCaseIdentifier = some i) (hWhole : t.text item = t.text i)
  | type (hKind : t.kind item = .exposedType)
      (hName : t.childOfKind? item .upperCaseIdentifier = some i)
  | operator (hKind : t.kind item = .exposedOperator)
      (hName : t.childOfKind? item .operatorIdentifier = some i)

section Items

variable {t : Tree} {item i : Nat} {kind : ExposedKind} {name : String}

theorem Tree.ItemNames.of_value (h : t.ItemNames item kind name)
    (hKind : t.kind item = .exposedValue) : kind = .function ∧ name = t.text item := by
  cases h with
  | value _ => exact ⟨rfl, rfl⟩
  | operator hOther _ => exact nomatch hKind.symm.trans hOther
  | customType hOther _ => exact nomatch hKind.symm.trans hOther
  | typeAlias hOther _ => exact nomatch hKind.symm.trans hOther

theorem Tree.ItemNames.of_type (h : t.ItemNames item kind name)
    (hKind : t.kind item = .exposedType) :
    (kind = .customType ∨ kind = .typeAlias) ∧
      t.childText? item .upperCaseIdentifier = some name := by
  cases h with
  | value hOther => exact nomatch hKind.symm.trans hOther
  | operator hOther _ => exact nomatch hKind.symm.trans hOther
  | customType _ hName => exact ⟨.inl rfl, hName⟩
  | typeAlias _ hName => exact ⟨.inr rfl, hName⟩

theorem Tree.ItemNames.of_operator (h : t.ItemNames item kind name)
    (hKind : t.kind item = .exposedOperator) :
    kind = .operator ∧ t.childText? item .operatorIdentifier = some name := by
  cases h with
  | value hOther => exact nomatch hKind.symm.trans hOther
  | operator _ hName => exact ⟨rfl, hName⟩
  | customType hOther _ => exact nomatch hKind.symm.trans hOther
  | typeAlias hOther _ => exact nomatch hKind.symm.trans hOther

end Items

namespace FileScope

variable {s : FileScope} {item i header : Nat} {symbol : ExposedSymbol}

/-- Looked up as a type of the file, the name of an item for a type means what the item shows. -/
theorem ownType?_of_showsItem (hShows : s.tree.ShowsItem item symbol)
    (hKind : symbol.kind = .customType ∨ symbol.kind = .typeAlias) :
    s.ownType? symbol.name = some (s.own symbol.kind.toSymbolKind symbol.node) := by
  have hFound := hShows.found
  rcases hKind with hType | hAlias
  · rw [hType] at hFound ⊢
    have hFind : s.tree.findType? symbol.name = some symbol.node := hFound
    rw [ownType?, hFind]
    rfl
  · have hNone := (hShows.typesFirst hAlias).2
    rw [hAlias] at hFound ⊢
    have hFind : s.tree.findTypeAlias? symbol.name = some symbol.node := hFound
    rw [ownType?, hNone, hFind]
    rfl

/-- The name of an item leads to what the item shows. -/
theorem definition?_of_showsItem (hHeader : s.tree.kind header = .moduleDeclaration)
    (hList : (s.tree.parent? item).bind s.tree.parent? = some header)
    (hName : s.tree.IsItemName item i) (hShows : s.tree.ShowsItem item symbol) :
    s.definition? i = some (s.own symbol.kind.toSymbolKind symbol.node) := by
  have hFound := hShows.found
  have hUse : ∀ {kind}, s.tree.childOfKind? item kind = some i →
      kind ≠ .valueQid ∧ kind ≠ .upperCaseQid →
      (s.tree.kind item = .exposedValue → s.tree.usage? i = some (.ownFunction (s.tree.text i))) ∧
        (s.tree.kind item = .exposedType → s.tree.usage? i = some (.ownType (s.tree.text i))) := by
    intro kind hChild hPlain
    obtain ⟨hParent, rfl⟩ := Tree.parent?_of_childOfKind? hChild
    exact Tree.usage?_headerItem hParent hPlain hList hHeader
  cases hName with
  | value hKind hName hWhole =>
      obtain ⟨hFunction, hText⟩ := hShows.named.of_value hKind
      rw [hFunction, hText, hWhole] at hFound
      have hFind : s.tree.findFunction? (s.tree.text i) = some symbol.node := hFound
      rw [definition?, (hUse hName (by decide)).1 hKind, Option.bind_some, lookup?, ownFunction?,
        hFind, hFunction]
      rfl
  | type hKind hName =>
      obtain ⟨hType, hText⟩ := hShows.named.of_type hKind
      have hSame : s.tree.text i = symbol.name := by
        rw [Tree.childText?, hName] at hText
        exact Option.some.inj hText
      rw [definition?, (hUse hName (by decide)).2 hKind, Option.bind_some, lookup?, hSame]
      exact ownType?_of_showsItem hShows hType
  | operator hKind hName =>
      obtain ⟨hOperator, hText⟩ := hShows.named.of_operator hKind
      have hSame : s.tree.text i = symbol.name := by
        rw [Tree.childText?, hName] at hText
        exact Option.some.inj hText
      rw [hOperator] at hFound
      have hFind : s.tree.findOperator? symbol.name = some symbol.node := hFound
      rw [definition?, Tree.usage?_operatorItem hKind hName, Option.bind_some, lookup?, hSame,
        hFind, hOperator]
      rfl

end FileScope

namespace Sample

def documentPartly : Document := ⟨"a", partly, some "A", 0⟩

end Sample

namespace Workspace

/-- Looked up, the identifier of an item in the exposing list of a file's header means the
declaration that the item shows, as a symbol of the kind that the item shows. -/
theorem definition?_exposedItem (w : Workspace) (uri : String) (d : Document)
    (header list item i : Nat) (symbol : ExposedSymbol) (hGet : w.get? uri = some d)
    (hHeader : d.tree.header? = some header)
    (hList : d.tree.childOfKind? header .exposingList = some list)
    (hItem : item ∈ d.tree.namedChildren list) (hName : d.tree.IsItemName item i)
    (hShown : d.tree.listedSymbol? item = some symbol) :
    w.definition? uri ⟨d, i⟩ = some ⟨⟨d, symbol.node⟩, symbol.kind.toSymbolKind⟩ := by
  have hKind : d.tree.kind header = .moduleDeclaration :=
    (Tree.isDeclared_of_header? hHeader).form
  have hParent : d.tree.parent? item = some list :=
    Tree.mem_children_iff.mp (List.mem_filter.mp hItem).1
  have hUp : (d.tree.parent? item).bind d.tree.parent? = some header := by
    rw [hParent, Option.bind_some, (Tree.parent?_of_childOfKind? hList).1]
  rw [definition?_of_get? hGet]
  exact FileScope.definition?_of_showsItem (s := w.fileScope d) hKind hUp hName
    (Tree.listedSymbol?_eq_some_iff.mp hShown)

/-- The `T` of `exposing (T(K), U, f)` leads to the type. -/
theorem definition?_exposedItem_type :
    (Workspace.empty.upsert "a" Sample.partly (some "A")).definition? "a"
      ⟨Sample.documentPartly, 9⟩ = some ⟨⟨Sample.documentPartly, 22⟩, .customType⟩ :=
  definition?_exposedItem (Workspace.empty.upsert "a" Sample.partly (some "A")) "a"
    Sample.documentPartly 1 5 8 9 Sample.typePartly (by decide +kernel) (by decide +kernel)
    (by decide +kernel) (by decide +kernel) (.type (by decide +kernel) (by decide +kernel))
    (by decide +kernel)

end Workspace

end ElmScope
