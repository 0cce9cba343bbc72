import ElmScope.Proofs.Module.Surface
import ElmScope.Proofs.Scope.Offer

/-! What a module shows is what its file finds. `exposing (..)` goes through the whole file, an
explicit list through its items, and both give under each name the declaration that a look-up in
the file gives. `(..)` leaves out nothing that has a name, and a list shows what its items name. -/
namespace ElmScope

/-- The part of a surface of `exposing (..)` in which a kind stands. -/
def ExposedKind.rank : ExposedKind → Nat
  | .function => 0
  | .typeAlias => 1
  | .customType => 2
  | .operator => 3

/-- Functions stand before type aliases and those before types, and among declarations of one
kind the source says which stands first. -/
def ExposedSymbol.Precedes (a b : ExposedSymbol) : Prop :=
  a.kind.rank < b.kind.rank ∨ a.kind = b.kind ∧ a.node < b.node

namespace Tree

/-- A declaration at the top level of a file has a name. Ports are functions. -/
inductive Declares (t : Tree) (n : Nat) (name : String) : ExposedKind → Prop where
  | function (hTop : n ∈ t.topLevel)
      (hKind : t.kind n = .valueDeclaration ∨ t.kind n = .portSignature)
      (hName : t.functionName? n = some name) : Declares t n name .function
  | typeAlias (hTop : n ∈ t.topLevel) (hKind : t.kind n = .typeAliasDeclaration)
      (hName : t.upperName? n = some name) : Declares t n name .typeAlias
  | customType (hTop : n ∈ t.topLevel) (hKind : t.kind n = .typeDeclaration)
      (hName : t.upperName? n = some name) : Declares t n name .customType

def namedVariants (t : Tree) (declaration : Nat) : List (String × Nat) :=
  (t.variants declaration).filterMap fun v => (t.upperName? v).map fun name => (name, v)

/-- A symbol comes with all named variants of its declaration, and those that a property picks
can be taken in under their bare names. -/
structure CarriesVariants (t : Tree) (symbol : ExposedSymbol) (IsBare : String → Prop) :
    Prop where
  variants : symbol.constructors.map (·.map fun c => (c.name, c.node)) =
    some (t.namedVariants symbol.node)
  bare : ∀ c ∈ symbol.listed, c.isBare = true ↔ IsBare c.name

def PartLists (t : Tree) (part : Nat) (name : String) : Prop :=
  (t.childOfKind? part .doubleDot).isSome ∨
    ∃ n ∈ t.descendants part, t.kind n = .upperCaseIdentifier ∧ t.text n = name

/-- What a header with `exposing (..)` shows: everything that the file declares by a name, once
and in order, and every type with all its constructors. -/
structure ShowsAll (t : Tree) (s : Surface) : Prop where
  found : ∀ kind name n, kind ≠ .operator → t.findShown? kind name = some n →
    ∃ symbol, s.find? name kind = some symbol ∧ symbol.node = n
  declared : ∀ kind name n, t.Declares n name kind ↔
    ∃ symbol ∈ s.exposed, symbol.kind = kind ∧ symbol.name = name ∧ symbol.node = n
  ordered : s.exposed.Pairwise ExposedSymbol.Precedes
  types : ∀ symbol ∈ s.exposed, symbol.kind = .customType →
    t.CarriesVariants symbol fun _ => True

/-- What an item of a header's exposing list shows: the declaration that the file finds under
its name. Only a type with a constructor part comes with constructors, and only an item without
one stands for a type alias, where no type has the name. -/
structure ShowsItem (t : Tree) (item : Nat) (symbol : ExposedSymbol) : Prop where
  named : t.ItemNames item symbol.kind symbol.name
  found : t.findShown? symbol.kind symbol.name = some symbol.node
  typesFirst : symbol.kind = .typeAlias →
    t.childOfKind? item .exposedUnionConstructors = none ∧ t.findType? symbol.name = none
  plain : symbol.kind ≠ .customType ∨ t.childOfKind? item .exposedUnionConstructors = none →
    symbol.constructors = none
  parted : symbol.kind = .customType → ∀ part,
    t.childOfKind? item .exposedUnionConstructors = some part →
    t.CarriesVariants symbol (t.PartLists part)

variable {t : Tree} {n item part list : Nat} {name : String} {kind : ExposedKind}
  {symbol : ExposedSymbol} {isBare : String → Bool}

/-- What a file declares under a name is what `exposing (..)` shows under it. -/
theorem declares_iff : t.Declares n name kind ↔
    n ∈ t.declarationsOf kind ∧ ∃ symbol, t.shownSymbol? kind n = some symbol ∧ symbol.name = name := by
  constructor
  · intro h
    cases h with
    | function hTop hKind hName =>
        refine ⟨List.mem_filter.mpr ⟨hTop, ?_⟩, plainSymbol name .function n, ?_, rfl⟩
        · obtain ⟨node, hNode, -⟩ := Option.map_eq_some_iff.mp hName
          rcases hKind with hKind | hKind <;> simp [isFunction, hKind, hNode]
        · simp [shownSymbol?, hName]
    | typeAlias hTop hKind hName =>
        exact ⟨mem_topLevelOfKind_iff.mpr ⟨hTop, hKind⟩, plainSymbol name .typeAlias n,
          by simp [shownSymbol?, hName], rfl⟩
    | customType hTop hKind hName =>
        refine ⟨mem_topLevelOfKind_iff.mpr ⟨hTop, hKind⟩, ?_⟩
        simp [shownSymbol?, typeSymbol?, hName]
  · rintro ⟨hMem, symbol, hShown, hName⟩
    cases kind with
    | operator => simp [shownSymbol?] at hShown
    | function =>
        obtain ⟨shown, hNamed, rfl⟩ := Option.map_eq_some_iff.mp hShown
        obtain rfl : shown = name := hName
        have hDeclared := isDeclared_of_mem_functions hMem hNamed
        exact .function hDeclared.mem_topLevel hDeclared.form.1 hNamed
    | typeAlias =>
        obtain ⟨shown, hNamed, rfl⟩ := Option.map_eq_some_iff.mp hShown
        obtain rfl : shown = name := hName
        obtain ⟨hTop, hKind⟩ := mem_topLevelOfKind_iff.mp hMem
        exact .typeAlias hTop hKind hNamed
    | customType =>
        obtain ⟨shown, hNamed, rfl⟩ := Option.map_eq_some_iff.mp hShown
        obtain rfl : shown = name := hName
        obtain ⟨hTop, hKind⟩ := mem_topLevelOfKind_iff.mp hMem
        exact .customType hTop hKind hNamed

/-- A type symbol comes with all variants, and its declaration and the test for bare names say
all about it. -/
theorem typeSymbol?_eq_some_iff : t.typeSymbol? n isBare = some symbol ↔
    t.upperName? n = some symbol.name ∧ symbol.kind = .customType ∧ symbol.node = n ∧
      t.CarriesVariants symbol fun name => isBare name = true := by
  have hConstructors : ((t.variants n).filterMap fun v => (t.upperName? v).map fun name =>
      (⟨name, v, isBare name⟩ : ExposedConstructor)) =
      (t.namedVariants n).map fun v => ⟨v.1, v.2, isBare v.1⟩ := by
    simp only [namedVariants, List.map_filterMap, Option.map_map]
    rfl
  rw [typeSymbol?, hConstructors, Option.map_eq_some_iff]
  constructor
  · rintro ⟨shown, hName, rfl⟩
    refine ⟨hName, rfl, rfl, ?_, ?_⟩
    · simp [Function.comp_def]
    · intro c hc
      obtain ⟨v, -, rfl⟩ := List.mem_map.mp hc
      exact Iff.rfl
  · obtain ⟨shown, node, kind, constructors⟩ := symbol
    rintro ⟨hName, rfl, rfl, hVariants, hBare⟩
    obtain ⟨l, rfl, hPairs⟩ := Option.map_eq_some_iff.mp hVariants
    refine ⟨shown, hName, ?_⟩
    have hSame : l = l.map fun c => ⟨c.name, c.node, isBare c.name⟩ := by
      conv => lhs; rw [← List.map_id l]
      refine List.map_congr_left fun c hc => ?_
      have hIff : c.isBare = true ↔ isBare c.name = true := hBare c hc
      rw [← Bool.eq_iff_iff.mpr hIff]
      rfl
    rw [hSame, ← hPairs, List.map_map]
    rfl

theorem partLists_iff : t.PartLists part name ↔
    (t.childOfKind? part .doubleDot).isSome ∨
      ((t.descendantsOfKind part .upperCaseIdentifier).map t.text).contains name = true := by
  simp [PartLists, descendantsOfKind, and_assoc]

/-- A listed type is the one that the file finds, with its variants. -/
theorem exists_typeSymbol?_iff {IsBare : String → Prop}
    (hBare : ∀ c, IsBare c ↔ isBare c = true) :
    (∃ n, t.findType? name = some n ∧ t.typeSymbol? n isBare = some symbol) ↔
      t.findType? name = some symbol.node ∧ symbol.name = name ∧ symbol.kind = .customType ∧
        t.CarriesVariants symbol IsBare := by
  obtain rfl : IsBare = fun c => isBare c = true := funext fun c => propext (hBare c)
  have hNamed : ∀ {n}, t.findType? name = some n → t.upperName? n = some name := by
    intro n h
    simpa using List.find?_some h
  constructor
  · rintro ⟨n, hFind, hSymbol⟩
    obtain ⟨hName, hKind, rfl, hCarries⟩ := typeSymbol?_eq_some_iff.mp hSymbol
    exact ⟨hFind, Option.some.inj (hName.symm.trans (hNamed hFind)), hKind, hCarries⟩
  · rintro ⟨hFind, rfl, hKind, hCarries⟩
    exact ⟨_, hFind, typeSymbol?_eq_some_iff.mpr ⟨hNamed hFind, hKind, rfl, hCarries⟩⟩

/-- A type item with a constructor part shows the type with what the part lists. -/
theorem listedTypeSymbol?_of_part (hPart : t.childOfKind? item .exposedUnionConstructors = some part) :
    t.listedTypeSymbol? item name = some symbol ↔
      t.findType? name = some symbol.node ∧ symbol.name = name ∧ symbol.kind = .customType ∧
        t.CarriesVariants symbol (t.PartLists part) := by
  rw [listedTypeSymbol?, hPart]
  simp only [Option.bind_eq_some_iff]
  by_cases hDots : (t.childOfKind? part .doubleDot).isSome
  · simp only [if_pos hDots]
    exact exists_typeSymbol?_iff fun c => by simp [partLists_iff, hDots]
  · simp only [if_neg hDots]
    exact exists_typeSymbol?_iff fun c => by rw [partLists_iff, or_iff_right hDots]

/-- A bare type item shows the type of its name, or else the type alias. -/
theorem listedTypeSymbol?_of_bare (hBare : t.childOfKind? item .exposedUnionConstructors = none) :
    t.listedTypeSymbol? item name = some symbol ↔
      symbol.name = name ∧ symbol.constructors = none ∧
        (symbol.kind = .customType ∧ t.findType? name = some symbol.node ∨
          symbol.kind = .typeAlias ∧ t.findType? name = none ∧
            t.findTypeAlias? name = some symbol.node) := by
  simp only [listedTypeSymbol?, hBare, bareTypeSymbol?, Option.or_eq_some_iff,
    Option.map_eq_some_iff, Option.map_eq_none_iff]
  obtain ⟨shown, node, kind, constructors⟩ := symbol
  constructor
  · rintro (⟨n, hFind, ⟨⟩⟩ | ⟨hNone, n, hFind, ⟨⟩⟩)
    · exact ⟨rfl, rfl, .inl ⟨rfl, hFind⟩⟩
    · exact ⟨rfl, rfl, .inr ⟨rfl, hNone, hFind⟩⟩
  · rintro ⟨rfl, rfl, ⟨rfl, hFind⟩ | ⟨rfl, hNone, hFind⟩⟩
    · exact .inl ⟨node, hFind, rfl⟩
    · exact .inr ⟨hNone, node, hFind, rfl⟩

/-- What is made of a listed type is what the item shows. -/
theorem showsItem_of_listedTypeSymbol? (hKind : t.kind item = .exposedType)
    (hName : t.childText? item .upperCaseIdentifier = some name)
    (h : t.listedTypeSymbol? item name = some symbol) : t.ShowsItem item symbol := by
  cases hPart : t.childOfKind? item .exposedUnionConstructors with
  | some part =>
      obtain ⟨hFind, rfl, hType, hCarries⟩ := (listedTypeSymbol?_of_part hPart).mp h
      refine ⟨?_, ?_, ?_, ?_, ?_⟩
      · exact hType ▸ .customType hKind hName
      · rw [hType]
        exact hFind
      · intro hAlias
        exact nomatch hType.symm.trans hAlias
      · rintro (hOther | hNone)
        · exact absurd hType hOther
        · exact nomatch hPart.symm.trans hNone
      · intro _ other hOther
        obtain rfl := Option.some.inj (hPart.symm.trans hOther)
        exact hCarries
  | none =>
      obtain ⟨rfl, hPlain, hFound⟩ := (listedTypeSymbol?_of_bare hPart).mp h
      have hParted : ∀ part, t.childOfKind? item .exposedUnionConstructors = some part →
          t.CarriesVariants symbol (t.PartLists part) :=
        fun part hSome => nomatch hPart.symm.trans hSome
      rcases hFound with ⟨hType, hFind⟩ | ⟨hAlias, hNone, hFind⟩
      · refine ⟨hType ▸ .customType hKind hName, ?_, ?_, fun _ => hPlain, fun _ => hParted⟩
        · rw [hType]
          exact hFind
        · intro hAlias
          exact nomatch hType.symm.trans hAlias
      · refine ⟨hAlias ▸ .typeAlias hKind hName, ?_, fun _ => ⟨hPart, hNone⟩, fun _ => hPlain,
          fun _ => hParted⟩
        rw [hAlias]
        exact hFind

/-- What an item shows of a type is what is made of it. -/
theorem ShowsItem.listedTypeSymbol?_eq (h : t.ShowsItem item symbol)
    (hKind : symbol.kind = .customType ∨ symbol.kind = .typeAlias) :
    t.listedTypeSymbol? item symbol.name = some symbol := by
  have hFound := h.found
  cases hPart : t.childOfKind? item .exposedUnionConstructors with
  | some part =>
      have hType : symbol.kind = .customType := hKind.resolve_right fun hAlias =>
        nomatch hPart.symm.trans (h.typesFirst hAlias).1
      rw [hType] at hFound
      exact (listedTypeSymbol?_of_part hPart).mpr ⟨hFound, rfl, hType, h.parted hType part hPart⟩
  | none =>
      refine (listedTypeSymbol?_of_bare hPart).mpr ⟨rfl, h.plain (.inr hPart), ?_⟩
      rcases hKind with hType | hAlias
      · rw [hType] at hFound
        exact .inl ⟨hType, hFound⟩
      · rw [hAlias] at hFound
        exact .inr ⟨hAlias, (h.typesFirst hAlias).2, hFound⟩

/-- An item without constructors shows what the file finds. -/
theorem showsItem_plainSymbol (hNamed : t.ItemNames item kind name)
    (hFound : t.findShown? kind name = some n)
    (hKind : kind ≠ .customType ∧ kind ≠ .typeAlias) :
    t.ShowsItem item (plainSymbol name kind n) :=
  ⟨hNamed, hFound, fun h => absurd h hKind.2, fun _ => rfl, fun h => absurd h hKind.1⟩

/-- The symbol of an item is the one that the item shows. -/
theorem listedSymbol?_eq_some_iff :
    t.listedSymbol? item = some symbol ↔ t.ShowsItem item symbol := by
  constructor
  · intro h
    unfold listedSymbol? at h
    split at h
    · next hKind =>
      obtain ⟨operator, hOperator, h⟩ := Option.bind_eq_some_iff.mp h
      obtain ⟨n, hFind, rfl⟩ := Option.map_eq_some_iff.mp h
      exact showsItem_plainSymbol (.operator hKind hOperator) hFind (by simp)
    · next hKind =>
      obtain ⟨n, hFind, rfl⟩ := Option.map_eq_some_iff.mp h
      exact showsItem_plainSymbol (.value hKind) hFind (by simp)
    · next hKind =>
      obtain ⟨typeName, hName, h⟩ := Option.bind_eq_some_iff.mp h
      exact showsItem_of_listedTypeSymbol? hKind hName h
    · exact nomatch h
  · intro h
    obtain ⟨shown, node, kind, constructors⟩ := symbol
    have hPlain : kind ≠ .customType → constructors = none := fun hOther => h.plain (.inl hOther)
    have hFound := h.found
    have hType := h.listedTypeSymbol?_eq
    cases h.named with
    | value hKind =>
        obtain rfl := hPlain (by simp)
        simp only [listedSymbol?, hKind]
        exact Option.map_eq_some_iff.mpr ⟨node, hFound, rfl⟩
    | operator hKind hSymbol =>
        obtain rfl := hPlain (by simp)
        simp only [listedSymbol?, hKind, hSymbol, Option.bind_some]
        exact Option.map_eq_some_iff.mpr ⟨node, hFound, rfl⟩
    | customType hKind hName => simpa [listedSymbol?, hKind, hName] using hType (.inl rfl)
    | typeAlias hKind hName => simpa [listedSymbol?, hKind, hName] using hType (.inr rfl)

theorem mem_wildcardSymbols_iff : symbol ∈ t.wildcardSymbols ↔
    ∃ n ∈ t.declarationsOf symbol.kind, t.shownSymbol? symbol.kind n = some symbol := by
  rw [← List.mem_filterMap, ← filter_wildcardSymbols, List.mem_filter]
  simp

/-- Whatever is declared is in the surface of `exposing (..)`. -/
theorem declares_iff_exists_mem : t.Declares n name kind ↔
    ∃ symbol ∈ t.wildcardSymbols, symbol.kind = kind ∧ symbol.name = name ∧ symbol.node = n := by
  rw [declares_iff]
  constructor
  · rintro ⟨hMem, symbol, hShown, rfl⟩
    obtain ⟨rfl, rfl⟩ := shownSymbol?_eq_some hShown
    exact ⟨symbol, mem_wildcardSymbols_iff.mpr ⟨_, hMem, hShown⟩, rfl, rfl, rfl⟩
  · rintro ⟨symbol, hSymbol, rfl, rfl, rfl⟩
    obtain ⟨n, hMem, hShown⟩ := mem_wildcardSymbols_iff.mp hSymbol
    obtain ⟨-, rfl⟩ := shownSymbol?_eq_some hShown
    exact ⟨hMem, symbol, hShown, rfl⟩

/-- The surface of `exposing (..)` is in order. -/
theorem wildcardSymbols_ordered (t : Tree) : t.wildcardSymbols.Pairwise ExposedSymbol.Precedes := by
  have hKind : ∀ {kind symbol}, symbol ∈ (t.declarationsOf kind).filterMap (t.shownSymbol? kind) →
      symbol.kind = kind := by
    intro kind symbol h
    obtain ⟨n, -, h⟩ := List.mem_filterMap.mp h
    exact (shownSymbol?_eq_some h).1
  have hPart : ∀ kind, ((t.declarationsOf kind).filterMap (t.shownSymbol? kind)).Pairwise
      ExposedSymbol.Precedes := fun kind =>
    (t.shownSymbol?_sorted kind).imp_of_mem fun ha hb hLess =>
      .inr ⟨(hKind ha).trans (hKind hb).symm, hLess⟩
  have hParts : ∀ first later, first.rank < later.rank → ∀ {a b},
      a ∈ (t.declarationsOf first).filterMap (t.shownSymbol? first) →
      b ∈ (t.declarationsOf later).filterMap (t.shownSymbol? later) → a.Precedes b := by
    intro first later hRank a b ha hb
    exact .inl (by rwa [hKind ha, hKind hb])
  refine List.pairwise_append.mpr ⟨List.pairwise_append.mpr
    ⟨hPart .function, hPart .typeAlias, fun a ha b hb => ?_⟩, hPart .customType, fun a ha b hb => ?_⟩
  · exact hParts .function .typeAlias (by decide) ha hb
  · rcases List.mem_append.mp ha with ha | ha
    · exact hParts .function .customType (by decide) ha hb
    · exact hParts .typeAlias .customType (by decide) ha hb

theorem showsAll_of_wildcard {s : Surface} (h : s.exposed = t.wildcardSymbols) : t.ShowsAll s where
  found kind name n hKind hFind := by
    rw [← map_node_find?_wildcardSymbols hKind, ← h] at hFind
    exact Option.map_eq_some_iff.mp hFind
  declared kind name n := h ▸ declares_iff_exists_mem
  ordered := h ▸ t.wildcardSymbols_ordered
  types symbol hMem hType := by
    rw [h] at hMem
    obtain ⟨n, -, hShown⟩ := mem_wildcardSymbols_iff.mp hMem
    rw [hType] at hShown
    obtain ⟨-, -, -, hVariants, hBare⟩ := typeSymbol?_eq_some_iff.mp hShown
    exact ⟨hVariants, fun c hc => (hBare c hc).trans (by simp)⟩

end Tree

namespace Sample

/-- The file `module A exposing (T(K), U, f)`, `type T = K | L`, `type alias U = T`, `f = 1`. -/
def partly : Tree := .ofEvents
  [.enter .file,
    .enter .moduleDeclaration, .token .moduleKeyword "module", .gap " ",
    .enter .upperCaseQid, .token .upperCaseIdentifier "A", .leave, .gap " ",
    .enter .exposingList, .punctuation "exposing", .gap " ", .punctuation "(",
    .enter .exposedType, .token .upperCaseIdentifier "T",
    .enter .exposedUnionConstructors, .punctuation "(",
    .enter (.other "exposed_union_constructor"), .token .upperCaseIdentifier "K", .leave,
    .punctuation ")", .leave, .leave, .punctuation ",", .gap " ",
    .enter .exposedType, .token .upperCaseIdentifier "U", .leave, .punctuation ",", .gap " ",
    .enter .exposedValue, .token .lowerCaseIdentifier "f", .leave,
    .punctuation ")", .leave, .leave, .gap "\n",
    .enter .typeDeclaration, .token .typeKeyword "type", .gap " ",
    .token .upperCaseIdentifier "T", .gap " = ",
    .enter .unionVariant, .token .upperCaseIdentifier "K", .leave, .gap " | ",
    .enter .unionVariant, .token .upperCaseIdentifier "L", .leave, .leave, .gap "\n",
    .enter .typeAliasDeclaration, .token .typeKeyword "type", .gap " ",
    .token .aliasKeyword "alias", .gap " ", .token .upperCaseIdentifier "U", .gap " = ",
    .enter .typeExpression, .enter .typeRef, .enter .upperCaseQid,
    .token .upperCaseIdentifier "T", .leave, .leave, .leave, .leave, .gap "\n",
    .enter .valueDeclaration, .enter .functionDeclarationLeft,
    .token .lowerCaseIdentifier "f", .leave, .gap " = 1", .leave, .leave]

def typePartly : ExposedSymbol :=
  ⟨"T", 22, .customType, some [⟨"K", 25, true⟩, ⟨"L", 27, false⟩]⟩

end Sample

/-- A module with a name and an exposing list has a surface, and whatever the surface has under
a name is what the file itself finds. A list `(..)` shows all that the file declares by a name,
and any other list exactly what its items show. -/
theorem Tree.surface?_agrees (t : Tree) (header list : Nat) (moduleName : String)
    (hHeader : t.header? = some header)
    (hName : t.childText? header .upperCaseQid = some moduleName)
    (hList : t.childOfKind? header .exposingList = some list) :
    ∃ s, t.surface? = some s ∧ s.moduleName = moduleName ∧
      (∀ name kind symbol, s.find? name kind = some symbol →
        t.findShown? kind name = some symbol.node) ∧
      ((t.childOfKind? list .doubleDot).isSome → t.ShowsAll s) ∧
      (t.childOfKind? list .doubleDot = none → ∀ symbol,
        symbol ∈ s.exposed ↔ ∃ item ∈ t.namedChildren list, t.ShowsItem item symbol) := by
  have hSurface : t.surface? = some ⟨moduleName, t.exposedSymbols list⟩ := by
    simp [surface?, hHeader, hName, hList]
  refine ⟨_, hSurface, rfl, fun name kind symbol => findShown?_of_find? hSurface hHeader, ?_, ?_⟩
  · intro hDots
    exact showsAll_of_wildcard (by rw [exposedSymbols, if_pos hDots])
  · intro hNoDots symbol
    rw [exposedSymbols, if_neg (by simp [hNoDots]), List.mem_filterMap]
    simp only [listedSymbol?_eq_some_iff]

/-- A type that lists one of its constructors is the type that the file finds. -/
theorem Tree.surface?_agrees_listed :
    Sample.partly.findType? "T" = some 22 ∧
      ∃ item ∈ Sample.partly.namedChildren 5, Sample.partly.ShowsItem item Sample.typePartly := by
  obtain ⟨s, hSurface, -, hFound, -, hListed⟩ := surface?_agrees Sample.partly 1 5 "A"
    (by decide +kernel) (by decide +kernel) (by decide +kernel)
  have hShows : Sample.partly.surface? = some ⟨"A", [Sample.typePartly,
      plainSymbol "U" .typeAlias 29, plainSymbol "f" .function 37]⟩ := by decide +kernel
  obtain rfl := Option.some.inj (hShows.symm.trans hSurface)
  have hFirst := hFound "T" .customType Sample.typePartly (by decide)
  exact ⟨hFirst, (hListed (by decide +kernel) _).mp List.mem_cons_self⟩

end ElmScope
