import ElmScope.Proofs.Completion.Candidate
import ElmScope.Proofs.Completion.Context
import ElmScope.Proofs.Scope.Offer

/-! Where the candidates with edits come from. Only two contexts have them, annotations and
expressions. Each such candidate is a name that another file shows and that the context does
not have, and its edit imports the item that takes the name in. -/
namespace ElmScope

/-- What an exposing list says to take in a shown symbol, with its constructors or without. -/
structure ImportItem where
  kind : ExposedKind
  name : String
  withConstructors : Bool

def ImportItem.text (item : ImportItem) : String :=
  if item.withConstructors then item.name ++ "(..)" else item.name

structure Tree.Lists (t : Tree) (n : Nat) (item : ImportItem) : Prop where
  named : t.ItemNames n item.kind item.name
  constructors : item.withConstructors = true →
    (t.childOfKind? n .exposedUnionConstructors).isSome

/-- A surface shows a name of a kind for a node, and an item takes it in: the first symbol
of a name and kind, or a bare constructor of a symbol. -/
inductive Surface.Shows (s : Surface) : ImportItem → SymbolKind → String → Nat → Prop where
  | symbol {symbol : ExposedSymbol} (hFirst : s.find? symbol.name symbol.kind = some symbol) :
      Shows s ⟨symbol.kind, symbol.name, false⟩ symbol.kind.toSymbolKind symbol.name symbol.node
  | constructor {symbol : ExposedSymbol} {c : ExposedConstructor}
      (hShown : symbol ∈ s.exposed) (hBare : c ∈ symbol.bare) :
      Shows s ⟨symbol.kind, symbol.name, true⟩ .unionConstructor c.name c.node

/-- A request suggests to import a candidate: another file shows its name, and its edit
imports the item that takes the name in. -/
structure Request.Suggests (r : Request) (c : Candidate) (d : Document) (surface : Surface)
    (item : ImportItem) (kind : SymbolKind) (node : Nat) : Prop where
  stored : d ∈ r.workspace.documents
  elsewhere : d.uri ≠ r.scope.document.uri
  exposed : d.tree.surface? = some surface
  shown : surface.Shows item kind c.name node
  candidate : c = r.importable surface.moduleName kind c.name item.text

/-- A shown symbol is found under its name and kind, unless another one comes before it. -/
theorem Surface.exists_find? {s : Surface} {symbol : ExposedSymbol} (h : symbol ∈ s.exposed) :
    ∃ first, s.find? symbol.name symbol.kind = some first :=
  exists_find?_of_mem h (by simp)

/-- What a surface finds under a name is shown under it, and the item of that name takes it in. -/
theorem Surface.shows_of_find? {s : Surface} {name : String} {kind : ExposedKind}
    {symbol : ExposedSymbol} (h : s.find? name kind = some symbol) :
    s.Shows ⟨kind, name, false⟩ kind.toSymbolKind name symbol.node := by
  obtain ⟨-, rfl, rfl⟩ := Surface.mem_of_find? h
  exact .symbol h

/-- A shown name is that of its item, unless the item takes it in as a constructor. -/
theorem Surface.Shows.item_cases {s : Surface} {item : ImportItem} {kind : SymbolKind}
    {name : String} {node : Nat} (h : s.Shows item kind name node) :
    kind = item.kind.toSymbolKind ∧ item = ⟨item.kind, name, false⟩ ∨
      kind = .unionConstructor ∧ item.withConstructors = true := by
  cases h with
  | symbol _ => exact .inl ⟨rfl, rfl⟩
  | constructor _ _ => exact .inr ⟨rfl, rfl⟩

def NoEdits (l : List Candidate) : Prop := ∀ c ∈ l, c.edits = []

variable {r : Request} {c : Candidate} {visible : List String} {accept : ExposedKind → Bool}
  {withConstructors : Bool}

namespace Request

/-- Only suggestions for import make edits, not what a file sees already. -/
theorem noEdits_visibleTypes (r : Request) : NoEdits r.visibleTypes := by
  intro c hc
  rcases mem_visibleTypes_cases hc with hOwn | ⟨entry, -, rfl⟩
  · exact hOwn.noEdits
  · rfl

theorem noEdits_visibleValues (r : Request) : NoEdits r.visibleValues := by
  intro c hc
  rcases mem_visibleValues_cases hc with hOwn | ⟨entry, -, rfl⟩
  · exact hOwn.noEdits
  · rfl

/-- What a request can import is what another file shows under a name that is not visible. Of the
shown symbols that give one candidate, an import takes in the first. -/
theorem suggests_of_mem_autoImports (h : c ∈ r.autoImports visible accept withConstructors) :
    ∃ d surface item kind node, r.Suggests c d surface item kind node ∧ c.name ∉ visible ∧
      accept item.kind = true ∧ item.kind ≠ .operator ∧
      (item.withConstructors = true → withConstructors = true) := by
  obtain ⟨d, hd, h⟩ := List.mem_flatMap.mp h
  obtain ⟨hStored, hOther⟩ := List.mem_filter.mp hd
  split at h
  · exact absurd h List.not_mem_nil
  · next surface hSurface =>
    obtain ⟨symbol, hSymbol, h⟩ := List.mem_flatMap.mp h
    obtain ⟨hShown, hKind⟩ := List.mem_filter.mp hSymbol
    simp only [Bool.and_eq_true, decide_eq_true_eq] at hOther hKind
    rcases List.mem_append.mp h with h | h
    · split at h
      · exact absurd h List.not_mem_nil
      · next hHidden =>
        obtain rfl := List.mem_singleton.mp h
        obtain ⟨first, hFirst⟩ := Surface.exists_find? hShown
        refine ⟨d, surface, ⟨symbol.kind, symbol.name, false⟩, symbol.kind.toSymbolKind, first.node,
          ⟨hStored, hOther, hSurface, Surface.shows_of_find? hFirst, rfl⟩, ?_, hKind.1, hKind.2, ?_⟩
        · simpa [importable] using hHidden
        · exact fun hWith => nomatch hWith
    · split at h
      · next hWith =>
        obtain ⟨constructor, hConstructor, rfl⟩ := List.mem_map.mp h
        obtain ⟨hBare, hHidden⟩ := List.mem_filter.mp hConstructor
        refine ⟨d, surface, ⟨symbol.kind, symbol.name, true⟩, .unionConstructor, constructor.node,
          ⟨hStored, hOther, hSurface, .constructor hShown hBare, rfl⟩, ?_, hKind.1, hKind.2, ?_⟩
        · simpa [importable] using hHidden
        · exact fun _ => hWith
      · exact absurd h List.not_mem_nil

/-- Candidates with edits are offered in annotations and in expressions only. -/
theorem autoImports_of_mem_candidates (hMem : c ∈ r.candidates) (hEdits : c.edits ≠ []) :
    LineShape.isSignature r.before = true ∧
        c ∈ r.autoImports (r.visibleTypes.map (·.name)) isExposedType false ∨
      LineShape.isSignature r.before = false ∧ LineShape.isTopLevelName r.before = false ∧
        c ∈ r.autoImports (r.visibleValues.map (·.name)) (fun _ => true) true := by
  rcases mem_candidates_cases hMem with
    hOwn | ⟨l, hContext, hc⟩ | ⟨l, hContext, hc⟩ | ⟨hSignature, hc⟩ | ⟨hNone, hNoName, hc⟩
  · exact absurd hOwn.noEdits hEdits
  · obtain ⟨name, d, s, symbol, -, -, -, hExposed⟩ := exists_exposed_of_importExposing? hContext hc
    exact absurd hExposed.noEdits hEdits
  · obtain ⟨entry, -, rfl⟩ := exists_entry_of_qualified? hContext hc
    exact absurd rfl hEdits
  · refine .inl ⟨hSignature, (mem_withAutoImports_cases hc).resolve_left fun hVisible => ?_⟩
    exact hEdits (r.noEdits_visibleTypes c hVisible)
  · refine .inr ⟨hNone, hNoName, (mem_withAutoImports_cases hc).resolve_left fun hVisible => ?_⟩
    exact hEdits (r.noEdits_visibleValues c hVisible)

end Request

end ElmScope
