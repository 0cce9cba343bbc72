import ElmScope.Proofs.Module.Surface

/-! What an exposing list says, item by item. What an item of a header shows depends on nothing
else, and a header that says every declaration of its file, the types with all constructors,
shows what `(..)` shows. -/
namespace ElmScope

inductive ConstructorPart where
  | bare
  | all
  | some (names : List String)
deriving DecidableEq

inductive ListedItem where
  | value (name : String)
  | operator (symbol : String)
  | type (name : String) (part : ConstructorPart)
deriving DecidableEq

namespace Tree

def constructorPart (t : Tree) (item : Nat) : ConstructorPart :=
  match t.childOfKind? item .exposedUnionConstructors with
  | none => .bare
  | some part =>
    if (t.childOfKind? part .doubleDot).isSome then .all
    else .some ((t.descendantsOfKind part .upperCaseIdentifier).map t.text)

def listedItem? (t : Tree) (item : Nat) : Option ListedItem :=
  match t.kind item with
  | .exposedValue => some (.value (t.text item))
  | .exposedOperator => (t.childText? item .operatorIdentifier).map .operator
  | .exposedType =>
    (t.childText? item .upperCaseIdentifier).map fun name => .type name (t.constructorPart item)
  | _ => none

/-- The items of an exposing list. Comments and whatever else stands there are not among them. -/
def listedItems (t : Tree) (list : Nat) : List ListedItem :=
  (t.namedChildren list).filterMap t.listedItem?

/-- What a header shows by an item that says this. -/
def shownItem? (t : Tree) : ListedItem → Option ExposedSymbol
  | .value name => (t.findFunction? name).map (plainSymbol name .function)
  | .operator symbol => (t.findOperator? symbol).map (plainSymbol symbol .operator)
  | .type name .bare => t.bareTypeSymbol? name
  | .type name .all => (t.findType? name).bind fun n => t.typeSymbol? n fun _ => true
  | .type name (.some names) => (t.findType? name).bind fun n => t.typeSymbol? n names.contains

/-- The items for every function, then every type alias and then every type with all its
constructors. -/
def everyItem (t : Tree) : List ListedItem :=
  (t.functions.filterMap t.functionName?).map .value ++
  (t.typeAliases.filterMap t.upperName?).map (.type · .bare) ++
  (t.typeDeclarations.filterMap t.upperName?).map (.type · .all)

/-- No two functions of a file have one name, and no two of its types and type aliases. -/
structure DeclarationsDistinct (t : Tree) : Prop where
  functions : (t.functions.filterMap t.functionName?).Nodup
  types : ((t.typeDeclarations ++ t.typeAliases).filterMap t.upperName?).Nodup

variable {t : Tree} {header list : Nat}

/-- What is shown of a type depends on its name and on what the item says about constructors. -/
theorem listedTypeSymbol?_eq_shownItem? (item : Nat) (name : String) :
    t.listedTypeSymbol? item name = t.shownItem? (.type name (t.constructorPart item)) := by
  rw [listedTypeSymbol?, constructorPart]
  cases t.childOfKind? item .exposedUnionConstructors with
  | none => rfl
  | some part =>
      by_cases hDots : (t.childOfKind? part .doubleDot).isSome
      · simp only [if_pos hDots, shownItem?]
      · simp only [if_neg hDots, shownItem?]

/-- What an item shows depends on what it says, not on where and how it is written. -/
theorem listedSymbol?_eq_bind (item : Nat) :
    t.listedSymbol? item = (t.listedItem? item).bind t.shownItem? := by
  unfold listedSymbol?
  split
  · next hKind =>
    simp only [listedItem?, hKind, Option.bind_map]
    rfl
  · next hKind => simp only [listedItem?, hKind, Option.bind_some, shownItem?]
  · next hKind =>
    simp only [listedItem?, hKind, Option.bind_map]
    exact congrArg _ (funext (listedTypeSymbol?_eq_shownItem? item))
  · next hOperator hValue hType => simp [listedItem?]

/-- Constructors come along with an item that has a constructor part. -/
theorem constructorPart_ne_bare_iff (item : Nat) :
    t.constructorPart item ≠ .bare ↔ (t.childOfKind? item .exposedUnionConstructors).isSome := by
  rw [constructorPart]
  cases t.childOfKind? item .exposedUnionConstructors with
  | none => simp
  | some part => by_cases hDots : (t.childOfKind? part .doubleDot).isSome <;> simp [hDots]

theorem constructorPart_of_listedItem? {item : Nat} {name : String} {part : ConstructorPart}
    (h : t.listedItem? item = some (.type name part)) : part = t.constructorPart item := by
  unfold listedItem? at h
  split at h
  · simp at h
  · simp at h
  · obtain ⟨_, -, hSame⟩ := Option.map_eq_some_iff.mp h
    injection hSame with _ hPart
    exact hPart.symm
  · simp at h

/-- What a header shows by an explicit list, item by item. -/
theorem filterMap_listedSymbol? (t : Tree) (list : Nat) :
    (t.namedChildren list).filterMap t.listedSymbol? =
      (t.listedItems list).filterMap t.shownItem? := by
  rw [listedItems, List.filterMap_filterMap]
  exact congrArg (List.filterMap · _) (funext listedSymbol?_eq_bind)

/-- Items for the names of some declarations show what each declaration shows. -/
theorem filterMap_shownItem?_map {l : List Nat} {nameOf? : Nat → Option String}
    {item : String → ListedItem} {symbol? : Nat → Option ExposedSymbol}
    (h : ∀ n ∈ l, (nameOf? n).bind (fun name => t.shownItem? (item name)) = symbol? n) :
    ((l.filterMap nameOf?).map item).filterMap t.shownItem? = l.filterMap symbol? := by
  rw [List.filterMap_map, List.filterMap_filterMap]
  exact List.filterMap_congr h

/-- Where names are distinct, the items for everything show everything. -/
theorem filterMap_everyItem (h : t.DeclarationsDistinct) :
    t.everyItem.filterMap t.shownItem? = t.wildcardSymbols := by
  rw [everyItem, List.filterMap_append, List.filterMap_append, wildcardSymbols]
  congr 1
  · congr 1
    · refine filterMap_shownItem?_map fun n hn => ?_
      cases hName : t.functionName? n with
      | none => rfl
      | some name =>
          have hFind : t.findFunction? name = some n :=
            find?_of_nodup_filterMap h.functions hn hName
          simp [shownItem?, hFind]
    · refine filterMap_shownItem?_map fun n hn => ?_
      cases hName : t.upperName? n with
      | none => rfl
      | some name =>
          obtain ⟨hNoType, hFind⟩ := findTypeAlias?_of_nodup h.types hn hName
          simp [shownItem?, bareTypeSymbol?, hNoType, hFind]
  · refine filterMap_shownItem?_map fun n hn => ?_
    cases hName : t.upperName? n with
    | none => simp [typeSymbol?, hName]
    | some name => simp [shownItem?, findType?_of_nodup h.types hn hName]

/-- A header that says every declaration shows what `(..)` shows. -/
theorem exposedSymbols_everyItem (h : t.DeclarationsDistinct)
    (hItems : t.listedItems list = t.everyItem) : t.exposedSymbols list = t.wildcardSymbols := by
  rw [exposedSymbols]
  split
  · rfl
  · rw [filterMap_listedSymbol?, hItems, filterMap_everyItem h]

end Tree

end ElmScope
