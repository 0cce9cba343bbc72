import ElmScope.Proofs.Module.Declaration
import ElmScope.Module.Surface

/-! What a module shows is declared in its own file. This holds of both forms of the
exposing list and of every constructor that comes with a type. -/
namespace ElmScope.Tree

def declarationsOf (t : Tree) : ExposedKind → List Nat
  | .function => t.functions
  | .customType => t.typeDeclarations
  | .typeAlias => t.typeAliases
  | .operator => []

def shownSymbol? (t : Tree) (kind : ExposedKind) (n : Nat) : Option ExposedSymbol :=
  match kind with
  | .function => (t.functionName? n).map fun name => plainSymbol name .function n
  | .customType => t.typeSymbol? n fun _ => true
  | .typeAlias => (t.upperName? n).map fun name => plainSymbol name .typeAlias n
  | .operator => none

def findShown? (t : Tree) : ExposedKind → String → Option Nat
  | .function => t.findFunction?
  | .customType => t.findType?
  | .typeAlias => t.findTypeAlias?
  | .operator => t.findOperator?

variable {t : Tree} {n item : Nat} {name : String} {symbol : ExposedSymbol}

/-- A file declares a shown symbol itself, with all the constructors that come along. -/
structure IsShown (t : Tree) (symbol : ExposedSymbol) : Prop where
  declared : t.IsDeclared symbol.kind.toSymbolKind symbol.node
  constructors : ∀ c ∈ symbol.listed, t.IsDeclared .unionConstructor c.node

theorem isShown_plainSymbol {kind : ExposedKind} (h : t.IsDeclared kind.toSymbolKind n) :
    t.IsShown (plainSymbol name kind n) :=
  ⟨h, fun _ hc => absurd hc List.not_mem_nil⟩

theorem isShown_of_typeSymbol? {isBare : String → Bool}
    (hType : n ∈ t.typeDeclarations) (h : t.typeSymbol? n isBare = some symbol) :
    t.IsShown symbol := by
  obtain ⟨typeName, -, rfl⟩ := Option.map_eq_some_iff.mp h
  refine ⟨isDeclared_of_mem_typeDeclarations hType, fun c hc => ?_⟩
  obtain ⟨variant, hVariant, hc⟩ := List.mem_filterMap.mp hc
  obtain ⟨constructor, -, rfl⟩ := Option.map_eq_some_iff.mp hc
  exact .of_variant (mem_topLevelOfKind_iff.mp hType).1 hVariant

/-- Everything that `exposing (..)` shows is declared in the file. -/
theorem isShown_of_mem_wildcardSymbols (h : symbol ∈ t.wildcardSymbols) : t.IsShown symbol := by
  simp only [wildcardSymbols, List.mem_append, List.mem_filterMap, Option.map_eq_some_iff] at h
  rcases h with (⟨n, hn, functionName, hName, rfl⟩ | ⟨n, hn, aliasName, -, rfl⟩) | ⟨n, hn, h⟩
  · exact isShown_plainSymbol (isDeclared_of_mem_functions hn hName)
  · exact isShown_plainSymbol (isDeclared_of_mem_typeAliases hn)
  · exact isShown_of_typeSymbol? hn h

/-- An item shows a declaration that the file finds, without constructors, or a type that it
finds, with constructors. -/
theorem listedSymbol?_cases (h : t.listedSymbol? item = some symbol) :
    (∃ kind name n, t.findShown? kind name = some n ∧ symbol = plainSymbol name kind n) ∨
      ∃ name n isBare, t.findType? name = some n ∧ t.typeSymbol? n isBare = some symbol := by
  unfold listedSymbol? at h
  split at h
  · obtain ⟨operator, -, h⟩ := Option.bind_eq_some_iff.mp h
    obtain ⟨n, hFind, rfl⟩ := Option.map_eq_some_iff.mp h
    exact .inl ⟨.operator, _, n, hFind, rfl⟩
  · obtain ⟨n, hFind, rfl⟩ := Option.map_eq_some_iff.mp h
    exact .inl ⟨.function, _, n, hFind, rfl⟩
  · obtain ⟨typeName, -, h⟩ := Option.bind_eq_some_iff.mp h
    unfold listedTypeSymbol? at h
    split at h
    · rcases Option.or_eq_some_iff.mp h with h | ⟨-, h⟩
      · obtain ⟨n, hFind, rfl⟩ := Option.map_eq_some_iff.mp h
        exact .inl ⟨.customType, _, n, hFind, rfl⟩
      · obtain ⟨n, hFind, rfl⟩ := Option.map_eq_some_iff.mp h
        exact .inl ⟨.typeAlias, _, n, hFind, rfl⟩
    · obtain ⟨declaration, hFind, h⟩ := Option.bind_eq_some_iff.mp h
      split at h
      · exact .inr ⟨_, _, _, hFind, h⟩
      · exact .inr ⟨_, _, _, hFind, h⟩
  · exact nomatch h

theorem isDeclared_of_findShown? {kind : ExposedKind} (h : t.findShown? kind name = some n) :
    t.IsDeclared kind.toSymbolKind n := by
  cases kind with
  | function => exact isDeclared_of_findFunction? h
  | customType => exact isDeclared_of_findType? h
  | typeAlias => exact isDeclared_of_findTypeAlias? h
  | operator => exact isDeclared_of_findOperator? h

/-- Everything that a header lists is declared in the file. -/
theorem isShown_of_listedSymbol? (h : t.listedSymbol? item = some symbol) : t.IsShown symbol := by
  rcases listedSymbol?_cases h with ⟨kind, name, n, hFind, rfl⟩ | ⟨name, n, isBare, hFind, h⟩
  · exact isShown_plainSymbol (isDeclared_of_findShown? hFind)
  · exact isShown_of_typeSymbol? (List.mem_of_find?_eq_some hFind) h

/-- A module shows only what its own file declares. -/
theorem isShown_of_mem_exposed {surface : Surface}
    (hSurface : t.surface? = some surface) (h : symbol ∈ surface.exposed) : t.IsShown symbol := by
  obtain ⟨header, -, hSurface⟩ := Option.bind_eq_some_iff.mp hSurface
  obtain ⟨moduleName, -, hSurface⟩ := Option.bind_eq_some_iff.mp hSurface
  obtain ⟨list, -, rfl⟩ := Option.map_eq_some_iff.mp hSurface
  change symbol ∈ t.exposedSymbols list at h
  unfold exposedSymbols at h
  split at h
  · exact isShown_of_mem_wildcardSymbols h
  · obtain ⟨item, -, h⟩ := List.mem_filterMap.mp h
    exact isShown_of_listedSymbol? h

variable {kind other : ExposedKind} {surface : Surface} {header : Nat}

theorem shownSymbol?_eq_some (h : t.shownSymbol? kind n = some symbol) :
    symbol.kind = kind ∧ symbol.node = n := by
  cases kind with
  | operator => exact nomatch h
  | function =>
      obtain ⟨name, -, rfl⟩ := Option.map_eq_some_iff.mp h
      exact ⟨rfl, rfl⟩
  | customType =>
      obtain ⟨name, -, rfl⟩ := Option.map_eq_some_iff.mp h
      exact ⟨rfl, rfl⟩
  | typeAlias =>
      obtain ⟨name, -, rfl⟩ := Option.map_eq_some_iff.mp h
      exact ⟨rfl, rfl⟩

/-- Only one of the three parts of a surface has symbols of a kind. -/
theorem filter_filterMap_shownSymbol? (l : List Nat) :
    (l.filterMap (t.shownSymbol? other)).filter (·.kind = kind) =
      if other = kind then l.filterMap (t.shownSymbol? other) else [] := by
  have hKind : ∀ symbol ∈ l.filterMap (t.shownSymbol? other), symbol.kind = other := by
    intro symbol h
    obtain ⟨n, -, h⟩ := List.mem_filterMap.mp h
    exact (shownSymbol?_eq_some h).1
  split
  · next hSame =>
    apply List.filter_eq_self.mpr
    intro symbol h
    simp [hKind symbol h, hSame]
  · next hDifferent =>
    apply List.filter_eq_nil_iff.mpr
    intro symbol h
    simp [hKind symbol h, hDifferent]

/-- Of each kind `exposing (..)` shows the declarations in source order. -/
theorem filter_wildcardSymbols (t : Tree) (kind : ExposedKind) :
    t.wildcardSymbols.filter (·.kind = kind) =
      (t.declarationsOf kind).filterMap (t.shownSymbol? kind) := by
  have hParts : t.wildcardSymbols = t.functions.filterMap (t.shownSymbol? .function) ++
      t.typeAliases.filterMap (t.shownSymbol? .typeAlias) ++
      t.typeDeclarations.filterMap (t.shownSymbol? .customType) := rfl
  simp only [hParts, List.filter_append, filter_filterMap_shownSymbol?]
  cases kind <;> simp [declarationsOf]

/-- A look-up in the surface goes through the declarations of one kind. -/
theorem find?_wildcardSymbols (t : Tree) (kind : ExposedKind) (name : String) :
    t.wildcardSymbols.find? (fun symbol => symbol.kind = kind && symbol.name = name) =
      ((t.declarationsOf kind).filterMap (t.shownSymbol? kind)).find? (·.name = name) := by
  rw [← filter_wildcardSymbols, List.find?_filter]
  congr 1
  funext symbol
  simp

/-- A look-up in a file finds the first declaration that `exposing (..)` shows under the name. -/
theorem findShown?_eq_find? (hKind : kind ≠ .operator) :
    t.findShown? kind name = (t.declarationsOf kind).find? fun n =>
      (t.shownSymbol? kind n).any (·.name = name) := by
  cases kind with
  | operator => exact absurd rfl hKind
  | function =>
      rw [findShown?, findFunction?, declarationsOf]
      congr 1
      funext n
      cases hName : t.functionName? n <;> simp [shownSymbol?, hName, plainSymbol]
  | customType =>
      rw [findShown?, findType?, declarationsOf]
      congr 1
      funext n
      cases hName : t.upperName? n <;> simp [shownSymbol?, typeSymbol?, hName]
  | typeAlias =>
      rw [findShown?, findTypeAlias?, declarationsOf]
      congr 1
      funext n
      cases hName : t.upperName? n <;> simp [shownSymbol?, hName, plainSymbol]

/-- Of everything that `(..)` shows, a name has the declaration that the file finds. -/
theorem map_node_find?_wildcardSymbols (hKind : kind ≠ .operator) :
    (t.wildcardSymbols.find? fun symbol => symbol.kind = kind && symbol.name = name).map (·.node) =
      t.findShown? kind name := by
  rw [find?_wildcardSymbols, List.find?_filterMap, findShown?_eq_find? hKind]
  cases hFind : (t.declarationsOf kind).find? fun n =>
      (t.shownSymbol? kind n).any (·.name = name) with
  | none => rfl
  | some n =>
      have hNamed := List.find?_some hFind
      cases hShown : t.shownSymbol? kind n with
      | none => simp [hShown] at hNamed
      | some symbol => simp [hShown, (shownSymbol?_eq_some hShown).2]

/-- What is first in the surface is first in the file. -/
theorem findShown?_of_wildcard
    (h : t.wildcardSymbols.find? (fun symbol => symbol.kind = kind && symbol.name = name) =
      some symbol) : t.findShown? kind name = some symbol.node := by
  have hKind : kind ≠ .operator := by
    rintro rfl
    rw [find?_wildcardSymbols] at h
    exact nomatch h
  rw [← map_node_find?_wildcardSymbols hKind, h]
  rfl

theorem findShown?_of_typeSymbol? {isBare : String → Bool} (hFind : t.findType? name = some n)
    (h : t.typeSymbol? n isBare = some symbol) :
    t.findShown? symbol.kind symbol.name = some symbol.node := by
  obtain ⟨shown, hName, rfl⟩ := Option.map_eq_some_iff.mp h
  have hNamed : t.upperName? n = some name := by simpa using List.find?_some hFind
  obtain rfl := Option.some.inj (hNamed.symm.trans hName)
  exact hFind

/-- What a listed item shows is what the file finds under its name. -/
theorem findShown?_of_listedSymbol? (h : t.listedSymbol? item = some symbol) :
    t.findShown? symbol.kind symbol.name = some symbol.node := by
  rcases listedSymbol?_cases h with ⟨kind, name, n, hFind, rfl⟩ | ⟨name, n, isBare, hFind, h⟩
  · exact hFind
  · exact findShown?_of_typeSymbol? hFind h

/-- A surface has what the list of the header shows. -/
theorem exposed_eq_exposedSymbols (hSurface : t.surface? = some surface)
    (hHeader : t.header? = some header) :
    ∃ list, t.childOfKind? header .exposingList = some list ∧
      surface.exposed = t.exposedSymbols list := by
  rw [surface?, hHeader, Option.bind_some] at hSurface
  obtain ⟨moduleName, -, hSurface⟩ := Option.bind_eq_some_iff.mp hSurface
  obtain ⟨list, hList, rfl⟩ := Option.map_eq_some_iff.mp hSurface
  exact ⟨list, hList, rfl⟩

theorem header_of_surface? (h : t.surface? = some surface) :
    ∃ header, t.header? = some header ∧ t.moduleName? = some surface.moduleName := by
  obtain ⟨header, hHeader, h⟩ := Option.bind_eq_some_iff.mp h
  obtain ⟨moduleName, hName, h⟩ := Option.bind_eq_some_iff.mp h
  obtain ⟨list, -, rfl⟩ := Option.map_eq_some_iff.mp h
  exact ⟨header, hHeader, by rw [moduleName?, hHeader, Option.bind_some, hName]⟩

theorem kind_of_typeSymbol? {isBare : String → Bool} (h : t.typeSymbol? n isBare = some symbol) :
    symbol.kind = .customType := by
  obtain ⟨name, -, rfl⟩ := Option.map_eq_some_iff.mp h
  rfl

/-- Only types come with constructors. -/
theorem plain_or_type_of_listedSymbol? (h : t.listedSymbol? item = some symbol) :
    symbol.constructors = none ∨ symbol.kind = .customType := by
  rcases listedSymbol?_cases h with ⟨kind, name, n, -, rfl⟩ | ⟨name, n, isBare, -, h⟩
  · exact .inl rfl
  · exact .inr (kind_of_typeSymbol? h)

/-- Only a type comes with constructors. -/
theorem kind_of_mem_listed {c : ExposedConstructor} (hSurface : t.surface? = some surface)
    (h : symbol ∈ surface.exposed) (hListed : c ∈ symbol.listed) : symbol.kind = .customType := by
  have hForm : symbol.constructors = none ∨ symbol.kind = .customType := by
    obtain ⟨header, hHeader, -⟩ := Option.bind_eq_some_iff.mp hSurface
    obtain ⟨list, -, hExposed⟩ := exposed_eq_exposedSymbols hSurface hHeader
    rw [hExposed, exposedSymbols] at h
    split at h
    · simp only [wildcardSymbols, List.mem_append, List.mem_filterMap, Option.map_eq_some_iff] at h
      rcases h with (⟨n, -, name, -, rfl⟩ | ⟨n, -, name, -, rfl⟩) | ⟨n, -, h⟩
      · exact .inl rfl
      · exact .inl rfl
      · exact .inr (kind_of_typeSymbol? h)
    · obtain ⟨item, -, h⟩ := List.mem_filterMap.mp h
      exact plain_or_type_of_listedSymbol? h
  refine hForm.resolve_left fun hNone => ?_
  rw [ExposedSymbol.listed, hNone] at hListed
  exact absurd hListed List.not_mem_nil

/-- The first symbol of a name and a kind in a surface is what the file itself finds. -/
theorem findShown?_of_find? (hSurface : t.surface? = some surface)
    (hHeader : t.header? = some header) (h : surface.find? name kind = some symbol) :
    t.findShown? kind name = some symbol.node := by
  obtain ⟨list, -, hExposed⟩ := exposed_eq_exposedSymbols hSurface hHeader
  have hKey := List.find?_some h
  rw [Surface.find?, hExposed, exposedSymbols] at h
  split at h
  · exact findShown?_of_wildcard h
  · obtain ⟨item, -, hItem⟩ := List.mem_filterMap.mp (List.mem_of_find?_eq_some h)
    simp only [Bool.and_eq_true, decide_eq_true_eq] at hKey
    rw [← hKey.1, ← hKey.2]
    exact findShown?_of_listedSymbol? hItem

theorem declarationsOf_sorted (t : Tree) (kind : ExposedKind) :
    (t.declarationsOf kind).Pairwise (· < ·) := by
  cases kind with
  | operator => exact .nil
  | function => exact t.topLevel_sorted.filter _
  | customType => exact t.topLevel_sorted.filter _
  | typeAlias => exact t.topLevel_sorted.filter _

theorem shownSymbol?_sorted (t : Tree) (kind : ExposedKind) :
    ((t.declarationsOf kind).filterMap (t.shownSymbol? kind)).Pairwise
      fun a b => a.node < b.node := by
  apply List.pairwise_filterMap.mpr
  refine (t.declarationsOf_sorted kind).imp fun {a b} hLess shown hShown later hLater => ?_
  rw [(shownSymbol?_eq_some hShown).2, (shownSymbol?_eq_some hLater).2]
  exact hLess

/-- A module that lists what it shows means one declaration by one name. Only `exposing (..)`
can show further declarations of the name, and they stand below the first. -/
theorem node_eq_or_lt (hSurface : t.surface? = some surface) (hHeader : t.header? = some header)
    (h : surface.find? name kind = some symbol) {again : ExposedSymbol}
    (hAgain : again ∈ surface.exposed) (hKind : again.kind = kind) (hName : again.name = name) :
    again.node = symbol.node ∨ symbol.node < again.node ∧
      ∃ list, t.childOfKind? header .exposingList = some list ∧
        (t.childOfKind? list .doubleDot).isSome := by
  have hFirst := findShown?_of_find? hSurface hHeader h
  obtain ⟨list, hList, hExposed⟩ := exposed_eq_exposedSymbols hSurface hHeader
  rw [Surface.find?, hExposed, exposedSymbols] at h
  rw [hExposed, exposedSymbols] at hAgain
  split at h
  · next hDots =>
    rw [if_pos hDots] at hAgain
    rw [find?_wildcardSymbols,
      find?_eq_some_iff_of_sorted ExposedSymbol.node (t.shownSymbol?_sorted kind)] at h
    have hMem : again ∈ (t.declarationsOf kind).filterMap (t.shownSymbol? kind) := by
      rw [← filter_wildcardSymbols]
      exact List.mem_filter.mpr ⟨hAgain, by simpa using hKind⟩
    have hLe := h.2.2 again hMem (by simpa using hName)
    rcases Nat.eq_or_lt_of_le hLe with hSame | hLess
    · exact .inl hSame.symm
    · exact .inr ⟨hLess, list, hList, hDots⟩
  · next hDots =>
    rw [if_neg hDots] at hAgain
    obtain ⟨item, -, hItem⟩ := List.mem_filterMap.mp hAgain
    have hShown := findShown?_of_listedSymbol? hItem
    rw [hKind, hName] at hShown
    exact .inl (Option.some.inj (hShown.symm.trans hFirst))

end ElmScope.Tree
