import ElmScope.Proofs.Module.Listing
import ElmScope.Proofs.Scope.Offer

/-! `exposing (..)` against a list of everything. What a clause offers depends on what it says
and not on where it stands in the file. A list that takes every shown symbol of a module makes
the offers of `(..)` in another order, and the order makes no difference to the index where no
two of the offers are for one name and kind. -/
namespace ElmScope

inductive ExposingPart where
  | all
  | items (items : List ListedItem)
deriving DecidableEq

structure ClauseText where
  moduleName : Option String
  shortName : Option String
  shows : Option ExposingPart
deriving DecidableEq

namespace Tree

def exposingPart (t : Tree) (list : Nat) : ExposingPart :=
  if (t.childOfKind? list .doubleDot).isSome then .all else .items (t.listedItems list)

def clauseText (t : Tree) (clause : Nat) : ClauseText :=
  ⟨t.importedModule? clause, t.importAlias? clause,
    (t.childOfKind? clause .exposingList).map t.exposingPart⟩

end Tree

/-- Whether the constructors of a type come along with an item. -/
def ListedItem.takesConstructors : ListedItem → Bool
  | .type _ part => part ≠ .bare
  | _ => false

/-- The item that takes everything about a shown symbol, a type with all its constructors. -/
def ExposedSymbol.item (symbol : ExposedSymbol) : ListedItem :=
  match symbol.kind with
  | .function => .value symbol.name
  | .operator => .operator symbol.name
  | .customType => .type symbol.name .all
  | .typeAlias => .type symbol.name .bare

/-- A surface shows nothing under one name and kind twice, nothing as both a type and a type
alias, and no constructor's name with two types. -/
structure Surface.NamesDistinct (s : Surface) : Prop where
  keys : s.exposed.Pairwise fun a b => ¬ (a.name = b.name ∧ a.kind = b.kind)
  typeOrAlias : ∀ a ∈ s.exposed, ∀ b ∈ s.exposed,
    a.kind = .customType → b.kind = .typeAlias → a.name ≠ b.name
  constructors : s.exposed.Pairwise fun a b => ∀ c ∈ a.listed, ∀ e ∈ b.listed, c.name ≠ e.name

section Alike

/-! Sequences of offers that no look-up tells apart. -/

/-- After either sequence of offers every look-up gives the same. -/
def OffersAlike (a b : List ImportEntry) : Prop :=
  ∀ name kind, (ImportIndex.ofOffers a).find? name kind = (ImportIndex.ofOffers b).find? name kind

/-- No offer of one sequence and one of the other are for the same name and kind. -/
def OffersApart (a b : List ImportEntry) : Prop :=
  ∀ x ∈ a, ∀ y ∈ b, ¬ (x.name = y.name ∧ x.kind = y.kind)

variable {a b c e : List ImportEntry}

theorem OffersAlike.refl (a : List ImportEntry) : OffersAlike a a := fun _ _ => rfl

theorem OffersAlike.trans (h : OffersAlike a b) (h' : OffersAlike b c) : OffersAlike a c :=
  fun name kind => (h name kind).trans (h' name kind)

/-- Later offers hide earlier ones. -/
theorem find?_ofOffers_append (a b : List ImportEntry) (name : String) (kind : SymbolKind) :
    (ImportIndex.ofOffers (a ++ b)).find? name kind =
      ((ImportIndex.ofOffers b).find? name kind).or ((ImportIndex.ofOffers a).find? name kind) := by
  simp only [ImportIndex.find?_ofOffers, List.reverse_append, List.find?_append]

/-- Sequences that offer alike do so one behind the other. -/
theorem OffersAlike.append (h : OffersAlike a b) (h' : OffersAlike c e) :
    OffersAlike (a ++ c) (b ++ e) := by
  intro name kind
  rw [find?_ofOffers_append, find?_ofOffers_append, h name kind, h' name kind]

theorem OffersApart.symm (h : OffersApart a b) : OffersApart b a :=
  fun y hy x hx hKey => h x hx y hy ⟨hKey.1.symm, hKey.2.symm⟩

/-- Offers for different names and kinds can change places. -/
theorem OffersApart.append_alike (h : OffersApart a b) : OffersAlike (a ++ b) (b ++ a) := by
  intro name kind
  rw [find?_ofOffers_append, find?_ofOffers_append]
  have hOne : (ImportIndex.ofOffers a).find? name kind = none ∨
      (ImportIndex.ofOffers b).find? name kind = none := by
    by_contra! hBoth
    obtain ⟨x, hx, hxKey⟩ :=
      ImportIndex.find?_isSome_iff.mp (Option.isSome_iff_ne_none.mpr hBoth.1)
    obtain ⟨y, hy, hyKey⟩ :=
      ImportIndex.find?_isSome_iff.mp (Option.isSome_iff_ne_none.mpr hBoth.2)
    exact h x hx y hy ⟨hxKey.1.trans hyKey.1.symm, hxKey.2.trans hyKey.2.symm⟩
  rcases hOne with hNone | hNone <;> simp [hNone]

/-- Groups of offers for different names and kinds can come in any order. -/
theorem offersAlike_flatMap {α : Type} {f : α → List ImportEntry} {l l' : List α}
    (hPerm : l.Perm l') (hApart : l.Pairwise fun x y => OffersApart (f x) (f y)) :
    OffersAlike (l.flatMap f) (l'.flatMap f) := by
  induction hPerm with
  | nil => exact .refl []
  | cons x _ ih => exact (OffersAlike.refl (f x)).append (ih (List.pairwise_cons.mp hApart).2)
  | swap x y rest =>
      have hApart : OffersApart (f y) (f x) :=
        (List.pairwise_cons.mp hApart).1 x List.mem_cons_self
      simp only [List.flatMap_cons, ← List.append_assoc]
      exact hApart.append_alike.append (.refl _)
  | trans hFirst _ ih ih' =>
      have hMiddle := (hFirst.pairwise_iff fun h => OffersApart.symm h).mp hApart
      exact (ih hApart).trans (ih' hMiddle)

end Alike

namespace Imported

variable {m : Imported} {t : Tree} {symbol : ExposedSymbol}

def ofName? (w : Workspace) (name : String) : Option Imported :=
  (w.findModule? name).bind fun document =>
  document.tree.surface?.bind fun surface =>
  document.tree.header?.map fun header => ⟨document, surface, header⟩

def saidSymbol? (m : Imported) : ListedItem → Option ExposedSymbol
  | .value name => m.surface.find? name .function
  | .operator symbol => m.surface.find? symbol .operator
  | .type name _ => (m.surface.find? name .customType).or (m.surface.find? name .typeAlias)

def saidEntries (m : Imported) (item : ListedItem) : List ImportEntry :=
  match m.saidSymbol? item with
  | none => []
  | some symbol => m.bareEntries item.takesConstructors symbol

def partEntries (m : Imported) : ExposingPart → List ImportEntry
  | .all => m.surface.exposed.flatMap (m.bareEntries true)
  | .items items => items.flatMap m.saidEntries

/-- Only a type has constructors that could come along. -/
theorem bareEntries_of_kind (hFile : m.document.tree.surface? = some m.surface)
    (hShown : symbol ∈ m.surface.exposed) (hKind : symbol.kind ≠ .customType)
    (withConstructors : Bool) :
    m.bareEntries withConstructors symbol = m.bareEntries true symbol := by
  have hNone : symbol.bare = [] := by
    refine List.filter_eq_nil_iff.mpr fun c hc => ?_
    exact absurd (Tree.kind_of_mem_listed hFile hShown hc) hKind
  cases withConstructors <;> simp [bareEntries, hNone]

/-- Nothing but a type brings constructors along. -/
theorem bareEntries_of_find? (hFile : m.document.tree.surface? = some m.surface) {name : String}
    {kind : ExposedKind} (hFind : m.surface.find? name kind = some symbol)
    (hKind : kind ≠ .customType) (withConstructors others : Bool) :
    m.bareEntries withConstructors symbol = m.bareEntries others symbol := by
  obtain ⟨hShown, rfl, -⟩ := Surface.mem_of_find? hFind
  rw [bareEntries_of_kind hFile hShown hKind, bareEntries_of_kind hFile hShown hKind others]

/-- An item takes in what it says, not what node it is. -/
theorem listedSymbol?_eq_saidSymbol? (item : Nat) :
    m.listedSymbol? t item = (t.listedItem? item).bind m.saidSymbol? := by
  unfold listedSymbol?
  split
  · next hKind => simp only [Tree.listedItem?, hKind, Option.bind_some, saidSymbol?]
  · next hKind =>
    simp only [Tree.listedItem?, hKind, Option.bind_map]
    rfl
  · next hKind =>
    simp only [Tree.listedItem?, hKind, Option.bind_map]
    rfl
  · next hValue hOperator hType => simp [Tree.listedItem?]

/-- An item brings in what it says. -/
theorem listedEntries_eq (hFile : m.document.tree.surface? = some m.surface) (item : Nat) :
    m.listedEntries t item = (t.listedItem? item).toList.flatMap m.saidEntries := by
  rw [listedEntries, listedSymbol?_eq_saidSymbol?]
  cases hItem : t.listedItem? item with
  | none => rfl
  | some said =>
      rw [Option.bind_some, Option.toList_some, List.flatMap_singleton, saidEntries]
      cases hSaid : m.saidSymbol? said with
      | none => rfl
      | some symbol =>
          cases said with
          | value name => exact bareEntries_of_find? hFile hSaid (by decide) _ _
          | operator name => exact bareEntries_of_find? hFile hSaid (by decide) _ _
          | type name part =>
              obtain rfl := Tree.constructorPart_of_listedItem? hItem
              simp only [ListedItem.takesConstructors, Tree.constructorPart_ne_bare_iff,
                Bool.decide_eq_true]

/-- A list takes in what its items say. -/
theorem exposedEntries_eq (hFile : m.document.tree.surface? = some m.surface) (list : Nat) :
    m.exposedEntries t list = m.partEntries (t.exposingPart list) := by
  rw [exposedEntries, Tree.exposingPart]
  split
  · rfl
  · rw [partEntries, Tree.listedItems, List.filterMap_eq_flatMap_toList, List.flatMap_assoc]
    exact List.flatMap_congr fun item _ => listedEntries_eq hFile item

end Imported

def ClauseText.offers (w : Workspace) (said : ClauseText) : List ImportEntry :=
  match said.moduleName, said.moduleName.bind (Imported.ofName? w) with
  | some name, some m =>
    let qualifier := said.shortName.getD name
    m.moduleEntries name qualifier ++ m.surface.exposed.flatMap (m.qualifiedEntries qualifier) ++
      (said.shows.map m.partEntries).getD []
  | _, _ => []

variable {w : Workspace} {t : Tree}

/-- A clause offers by what it says. -/
theorem importOffers_eq (clause : Nat) :
    importOffers w t clause = (t.clauseText clause).offers w := by
  have hModule : Imported.ofClause? w t clause =
      (t.importedModule? clause).bind (Imported.ofName? w) := rfl
  simp only [importOffers, ClauseText.offers, Tree.clauseText, ← hModule]
  cases hName : t.importedModule? clause with
  | none => rfl
  | some name =>
      cases hClause : Imported.ofClause? w t clause with
      | none => rfl
      | some m =>
          have hFile := (Imports.of_ofClause? hName hClause).surface
          have hEntries := funext (Imported.exposedEntries_eq (t := t) hFile)
          simp only [hEntries, Option.map_map, Function.comp_def]

/-- An import index depends only on what the clauses say. -/
theorem ofTree_eq_ofOffers (w : Workspace) (t : Tree) : ImportIndex.ofTree w t =
    .ofOffers ((t.importClauses.map t.clauseText).flatMap (ClauseText.offers w)) := by
  rw [ImportIndex.ofTree, List.flatMap_map]
  exact congrArg _ (List.flatMap_congr fun clause _ => importOffers_eq clause)

section Everything

/-! A list that takes everything of a surface whose names are distinct. -/

variable {m : Imported} {symbol : ExposedSymbol}

theorem Surface.NamesDistinct.find?_eq {s : Surface} (h : s.NamesDistinct)
    (hShown : symbol ∈ s.exposed) : s.find? symbol.name symbol.kind = some symbol := by
  cases hFind : s.find? symbol.name symbol.kind with
  | none => exact absurd (List.find?_eq_none.mp hFind symbol hShown) (by simp)
  | some first =>
      obtain ⟨hFirst, hKind, hName⟩ := Surface.mem_of_find? hFind
      by_contra hNe
      have hSymmetric : Std.Symm fun a b : ExposedSymbol => ¬ (a.name = b.name ∧ a.kind = b.kind) :=
        ⟨fun _ _ hab hba => hab ⟨hba.1.symm, hba.2.symm⟩⟩
      exact h.keys.forall hFirst hShown (fun hSame => hNe (congrArg some hSame)) ⟨hName, hKind⟩

/-- The item for everything about a symbol says the symbol. -/
theorem Imported.saidSymbol?_item (hDistinct : m.surface.NamesDistinct)
    (hShown : symbol ∈ m.surface.exposed) : m.saidSymbol? symbol.item = some symbol := by
  have hFind := hDistinct.find?_eq hShown
  cases hKind : symbol.kind <;> rw [hKind] at hFind
  case function => simp [ExposedSymbol.item, hKind, saidSymbol?, hFind]
  case operator => simp [ExposedSymbol.item, hKind, saidSymbol?, hFind]
  case customType => simp [ExposedSymbol.item, hKind, saidSymbol?, hFind]
  case typeAlias =>
    have hNoType : m.surface.find? symbol.name .customType = none := by
      refine Option.eq_none_iff_forall_ne_some.mpr fun other hOther => ?_
      obtain ⟨hMem, hType, hName⟩ := Surface.mem_of_find? hOther
      exact hDistinct.typeOrAlias other hMem symbol hShown hType hKind hName
    simp [ExposedSymbol.item, hKind, saidSymbol?, hNoType, hFind]

/-- The item for everything about a symbol brings in what `(..)` brings in of it. -/
theorem Imported.saidEntries_item (hFile : m.document.tree.surface? = some m.surface)
    (hDistinct : m.surface.NamesDistinct) (hShown : symbol ∈ m.surface.exposed) :
    m.saidEntries symbol.item = m.bareEntries true symbol := by
  simp only [saidEntries, saidSymbol?_item hDistinct hShown]
  by_cases hKind : symbol.kind = .customType
  · simp [ExposedSymbol.item, hKind, ListedItem.takesConstructors]
  · exact bareEntries_of_kind hFile hShown hKind _

theorem Imported.mem_bareEntries_iff {entry : ImportEntry} : entry ∈ m.bareEntries true symbol ↔
    entry = m.entry symbol.name symbol.kind.toSymbolKind symbol.node ∨
      ∃ c ∈ symbol.bare, entry = m.entry c.name .unionConstructor c.node := by
  simp [bareEntries, eq_comm]

/-- No two symbols bring in anything for one name and kind. -/
theorem Imported.bareEntries_apart (hDistinct : m.surface.NamesDistinct) :
    m.surface.exposed.Pairwise fun a b =>
      OffersApart (m.bareEntries true a) (m.bareEntries true b) := by
  refine (hDistinct.keys.and hDistinct.constructors).imp fun {a b} hApart x hx y hy hKey => ?_
  obtain ⟨hKeys, hConstructors⟩ := hApart
  rcases mem_bareEntries_iff.mp hx with rfl | ⟨c, hc, rfl⟩
  · rcases mem_bareEntries_iff.mp hy with rfl | ⟨e, -, rfl⟩
    · exact hKeys ⟨hKey.1, ExposedKind.toSymbolKind_injective hKey.2⟩
    · exact ExposedKind.toSymbolKind_ne_unionConstructor hKey.2
  · rcases mem_bareEntries_iff.mp hy with rfl | ⟨e, he, rfl⟩
    · exact ExposedKind.toSymbolKind_ne_unionConstructor hKey.2.symm
    · exact hConstructors c (List.mem_filter.mp hc).1 e (List.mem_filter.mp he).1 hKey.1

/-- All symbols listed, in any order, are taken in as with `(..)`. -/
theorem Imported.partEntries_alike (hFile : m.document.tree.surface? = some m.surface)
    (hDistinct : m.surface.NamesDistinct) {items : List ListedItem}
    (hItems : items.Perm (m.surface.exposed.map ExposedSymbol.item)) :
    OffersAlike (m.partEntries .all) (m.partEntries (.items items)) := by
  have hEverything : (m.surface.exposed.map ExposedSymbol.item).flatMap m.saidEntries =
      m.surface.exposed.flatMap (m.bareEntries true) := by
    rw [List.flatMap_map]
    exact List.flatMap_congr fun symbol hShown => saidEntries_item hFile hDistinct hShown
  rw [partEntries, partEntries, ← hEverything]
  refine offersAlike_flatMap hItems.symm (List.pairwise_map.mpr ?_)
  refine (bareEntries_apart hDistinct).imp_of_mem fun ha hb hApart => ?_
  rw [saidEntries_item hFile hDistinct ha, saidEntries_item hFile hDistinct hb]
  exact hApart

end Everything

namespace Sample

/-- The file `module A exposing (f, U, T(..))`, `type T = K`, `type alias U = T`, `f = 1`. -/
def listing : Tree := .ofEvents
  [.enter .file,
    .enter .moduleDeclaration, .token .moduleKeyword "module", .gap " ",
    .enter .upperCaseQid, .token .upperCaseIdentifier "A", .leave, .gap " ",
    .enter .exposingList, .punctuation "exposing", .gap " ", .punctuation "(",
    .enter .exposedValue, .token .lowerCaseIdentifier "f", .leave, .punctuation ",", .gap " ",
    .enter .exposedType, .token .upperCaseIdentifier "U", .leave, .punctuation ",", .gap " ",
    .enter .exposedType, .token .upperCaseIdentifier "T",
    .enter .exposedUnionConstructors, .punctuation "(", .token .doubleDot "..",
    .punctuation ")", .leave, .leave,
    .punctuation ")", .leave, .leave, .gap "\n",
    .enter .typeDeclaration, .token .typeKeyword "type", .gap " ",
    .token .upperCaseIdentifier "T", .gap " = ",
    .enter .unionVariant, .token .upperCaseIdentifier "K", .leave, .leave, .gap "\n",
    .enter .typeAliasDeclaration, .token .typeKeyword "type", .gap " ",
    .token .aliasKeyword "alias", .gap " ", .token .upperCaseIdentifier "U", .gap " = ",
    .enter .typeExpression, .enter .typeRef, .enter .upperCaseQid,
    .token .upperCaseIdentifier "T", .leave, .leave, .leave, .leave, .gap "\n",
    .enter .valueDeclaration, .enter .functionDeclarationLeft,
    .token .lowerCaseIdentifier "f", .leave, .gap " = 1", .leave, .leave]

def importerOf (list : List Event) : Tree := .ofEvents <|
  [.enter .file,
    .enter .importClause, .token .importKeyword "import", .gap " ",
    .enter .upperCaseQid, .token .upperCaseIdentifier "A", .leave, .gap " ",
    .enter .exposingList, .punctuation "exposing", .gap " ", .punctuation "("] ++ list ++
  [.punctuation ")", .leave, .leave, .leave]

/-- The file `import A exposing (..)`. -/
def importsAll : Tree := importerOf [.token .doubleDot ".."]

/-- The file `import A exposing (T(..), f, U)`. -/
def importsEach : Tree := importerOf
  [.enter .exposedType, .token .upperCaseIdentifier "T",
    .enter .exposedUnionConstructors, .punctuation "(", .token .doubleDot "..",
    .punctuation ")", .leave, .leave, .punctuation ",", .gap " ",
    .enter .exposedValue, .token .lowerCaseIdentifier "f", .leave, .punctuation ",", .gap " ",
    .enter .exposedType, .token .upperCaseIdentifier "U", .leave]

def listed : Surface :=
  ⟨"A", [Tree.plainSymbol "f" .function 34, Tree.plainSymbol "U" .typeAlias 26,
    ⟨"T", 21, .customType, some [⟨"K", 24, true⟩]⟩]⟩

def documentListing : Document := ⟨"a", listing, some "A", 0⟩

def listingWorkspace : Workspace := Workspace.empty.upsert "a" listing (some "A")

end Sample

/-- `exposing (..)` is as good as a list of everything. A header that lists every function, every
type alias and every type with all constructors has the surface of `(..)`, if no two functions
and no two types or aliases share a name. In an import clause a list of everything that the
module shows, in any order, gives every name and kind the entry that `(..)` gives it, if the
module shows nothing twice. -/
theorem exposingAll_eq_listing :
    (∀ (t : Tree) (header list : Nat), t.DeclarationsDistinct → t.header? = some header →
      t.childOfKind? header .exposingList = some list → t.listedItems list = t.everyItem →
      t.surface? = (t.childText? header .upperCaseQid).map fun name =>
        ⟨name, t.wildcardSymbols⟩) ∧
    ∀ (w : Workspace) (t other : Tree) (moduleName : String) (d : Document) (s : Surface)
      (shortName : Option String) (before after : List ClauseText) (items : List ListedItem),
      w.findModule? moduleName = some d → d.tree.surface? = some s → s.NamesDistinct →
      t.importClauses.map t.clauseText =
        before ++ ⟨some moduleName, shortName, some .all⟩ :: after →
      other.importClauses.map other.clauseText =
        before ++ ⟨some moduleName, shortName, some (.items items)⟩ :: after →
      items.Perm (s.exposed.map ExposedSymbol.item) →
      ∀ name kind, (ImportIndex.ofTree w t).find? name kind =
        (ImportIndex.ofTree w other).find? name kind := by
  constructor
  · intro t header list hDistinct hHeader hList hItems
    simp only [Tree.surface?, hHeader, hList, Option.bind_some, Option.map_some,
      Tree.exposedSymbols_everyItem hDistinct hItems]
    exact (Option.map_eq_bind ..).symm
  · intro w t other moduleName d s shortName before after items hFound hSurface hDistinct hAll hEach
      hItems
    obtain ⟨header, hHeader, -⟩ := Option.bind_eq_some_iff.mp hSurface
    have hModule : Imported.ofName? w moduleName = some ⟨d, s, header⟩ := by
      simp [Imported.ofName?, hFound, hSurface, hHeader]
    have hParts := Imported.partEntries_alike (m := ⟨d, s, header⟩) hSurface hDistinct hItems
    rw [ofTree_eq_ofOffers, ofTree_eq_ofOffers, hAll, hEach]
    simp only [List.flatMap_append, List.flatMap_cons]
    refine OffersAlike.append (.refl _) (OffersAlike.append ?_ (.refl _))
    simp only [ClauseText.offers, Option.bind_some, hModule, Option.map_some, Option.getD_some]
    exact OffersAlike.append (.refl _) hParts

/-- Everything that `listing` shows is imported alike by `(..)` and by a list in another order. -/
theorem exposingAll_eq_listing_reordered :
    Sample.listing.surface? = some ⟨"A", Sample.listing.wildcardSymbols⟩ ∧
      ∀ name kind,
        (ImportIndex.ofTree Sample.listingWorkspace Sample.importsAll).find? name kind =
          (ImportIndex.ofTree Sample.listingWorkspace Sample.importsEach).find? name kind := by
  obtain ⟨hHeader, hImport⟩ := exposingAll_eq_listing
  have hSurface : Sample.documentListing.tree.surface? = some Sample.listed := by decide +kernel
  constructor
  · have hName : Sample.listing.childText? 1 .upperCaseQid = some "A" := by decide +kernel
    have hShown := hHeader Sample.listing 1 5 ⟨by decide +kernel, by decide +kernel⟩
      (by decide +kernel) (by decide +kernel) (by decide +kernel)
    rwa [hName] at hShown
  · exact hImport Sample.listingWorkspace Sample.importsAll Sample.importsEach "A"
      Sample.documentListing Sample.listed none [] [] [.type "T" .all, .value "f", .type "U" .bare]
      (by decide +kernel) hSurface ⟨by decide +kernel, by decide +kernel, by decide +kernel⟩
      (by decide +kernel) (by decide +kernel) (by decide +kernel)

end ElmScope
