import ElmScope.Module.Declaration

/-! What a module shows to the files that import it. The exposing list of its
header says so: `(..)` shows every function, type alias and type with all
constructors; an explicit list shows what it names and the file declares. A type
listed with `(..)` shows its constructors, one listed with some constructors shows
those, and one listed bare keeps them to itself. -/
namespace ElmScope

inductive ExposedKind where
  | function
  | customType
  | typeAlias
  | operator
deriving DecidableEq, Repr, Inhabited

def ExposedKind.toSymbolKind : ExposedKind → SymbolKind
  | function => .function
  | customType => .customType
  | typeAlias => .typeAlias
  | operator => .operator

structure ExposedConstructor where
  name : String
  node : Nat
  /-- Whether importers can take the constructor in under its bare name. -/
  isBare : Bool
deriving DecidableEq, Repr

/-- A shown name with its declaration. Only a type whose constructors are shown
in some form lists them. -/
structure ExposedSymbol where
  name : String
  node : Nat
  kind : ExposedKind
  constructors : Option (List ExposedConstructor)
deriving DecidableEq, Repr

namespace ExposedSymbol

def listed (s : ExposedSymbol) : List ExposedConstructor := s.constructors.getD []

/-- The constructors that importers can take in under their bare names. -/
def bare (s : ExposedSymbol) : List ExposedConstructor := s.listed.filter (·.isBare)

end ExposedSymbol

/-- Everything that a module shows. -/
structure Surface where
  moduleName : String
  exposed : List ExposedSymbol
deriving DecidableEq, Repr

namespace Surface

def find? (s : Surface) (name : String) (kind : ExposedKind) : Option ExposedSymbol :=
  s.exposed.find? fun symbol => symbol.kind = kind && symbol.name = name

def bareConstructors (s : Surface) : List ExposedConstructor :=
  s.exposed.flatMap (·.bare)

end Surface

namespace Tree

def plainSymbol (name : String) (kind : ExposedKind) (node : Nat) : ExposedSymbol :=
  ⟨name, node, kind, none⟩

/-- A type with its named variants, each bare when a test says so. -/
def typeSymbol? (t : Tree) (declaration : Nat) (isBare : String → Bool) :
    Option ExposedSymbol :=
  (t.upperName? declaration).map fun name =>
    ⟨name, declaration, .customType, some <| (t.variants declaration).filterMap fun variant =>
      (t.upperName? variant).map fun constructor =>
        ⟨constructor, variant, isBare constructor⟩⟩

/-- What `exposing (..)` shows: the functions, then the type aliases, then the
types with all constructors. -/
def wildcardSymbols (t : Tree) : List ExposedSymbol :=
  (t.functions.filterMap fun n =>
    (t.functionName? n).map fun name => plainSymbol name .function n) ++
  (t.typeAliases.filterMap fun n =>
    (t.upperName? n).map fun name => plainSymbol name .typeAlias n) ++
  t.typeDeclarations.filterMap fun n => t.typeSymbol? n fun _ => true

/-- A type name listed bare stands for the type if there is one, else for the
type alias. -/
def bareTypeSymbol? (t : Tree) (name : String) : Option ExposedSymbol :=
  ((t.findType? name).map (plainSymbol name .customType)).or
    ((t.findTypeAlias? name).map (plainSymbol name .typeAlias))

/-- What a listed type shows, by the form of its constructor part. -/
def listedTypeSymbol? (t : Tree) (item : Nat) (name : String) : Option ExposedSymbol :=
  match t.childOfKind? item .exposedUnionConstructors with
  | none => t.bareTypeSymbol? name
  | some part =>
    (t.findType? name).bind fun declaration =>
      if (t.childOfKind? part .doubleDot).isSome then t.typeSymbol? declaration fun _ => true
      else
        let listed := (t.descendantsOfKind part .upperCaseIdentifier).map t.text
        t.typeSymbol? declaration listed.contains

def listedSymbol? (t : Tree) (item : Nat) : Option ExposedSymbol :=
  match t.kind item with
  | .exposedOperator =>
    (t.childText? item .operatorIdentifier).bind fun symbol =>
      (t.findOperator? symbol).map (plainSymbol symbol .operator)
  | .exposedValue =>
    (t.findFunction? (t.text item)).map (plainSymbol (t.text item) .function)
  | .exposedType => (t.childText? item .upperCaseIdentifier).bind (t.listedTypeSymbol? item)
  | _ => none

def exposedSymbols (t : Tree) (list : Nat) : List ExposedSymbol :=
  if (t.childOfKind? list .doubleDot).isSome then t.wildcardSymbols
  else (t.namedChildren list).filterMap t.listedSymbol?

/-- The surface of a file whose header has a module name and an exposing list. -/
def surface? (t : Tree) : Option Surface :=
  t.header?.bind fun header =>
  (t.childText? header .upperCaseQid).bind fun name =>
  (t.childOfKind? header .exposingList).map fun list => ⟨name, t.exposedSymbols list⟩

end Tree

end ElmScope
