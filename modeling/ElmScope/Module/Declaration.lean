import ElmScope.Syntax.Walk

/-! What one file declares. A declaration is a node directly under the root, or
directly under an error node there, so that a damaged file keeps the declarations
that could still be read. Every search takes the first match in source order. -/
namespace ElmScope

inductive SymbolKind where
  | function
  | parameter
  | typeAlias
  | customType
  | operator
  | moduleHeader
  | unionConstructor
deriving DecidableEq, Repr, Inhabited, Hashable

namespace Tree

def topLevel (t : Tree) : List Nat :=
  (t.children root).flatMap fun c => if t.isError c then t.namedChildren c else [c]

def topLevelOfKind (t : Tree) (kind : Kind) : List Nat := t.topLevel.filter (t.kind · = kind)

def childText? (t : Tree) (n : Nat) (kind : Kind) : Option String :=
  (t.childOfKind? n kind).map t.text

def header? (t : Tree) : Option Nat := (t.topLevelOfKind .moduleDeclaration).head?

def moduleName? (t : Tree) : Option String := t.header?.bind (t.childText? · .upperCaseQid)

def importClauses (t : Tree) : List Nat := t.topLevelOfKind .importClause

def importedModule? (t : Tree) (clause : Nat) : Option String := t.childText? clause .upperCaseQid

/-- The name that an import clause gives to its module with its `as` part. -/
def importAlias? (t : Tree) (clause : Nat) : Option String :=
  (t.childOfKind? clause .asClause).bind (t.childText? · .upperCaseIdentifier)

/-- The name node of a value declaration, a `port` or a type annotation. -/
def functionNameNode? (t : Tree) (n : Nat) : Option Nat :=
  match t.kind n with
  | .valueDeclaration =>
    (t.childOfKind? n .functionDeclarationLeft).bind (t.childOfKind? · .lowerCaseIdentifier)
  | .portSignature | .typeSignature => t.childOfKind? n .lowerCaseIdentifier
  | _ => none

def functionName? (t : Tree) (n : Nat) : Option String := (t.functionNameNode? n).map t.text

/-- The name of a type, a type alias or a union variant. -/
def upperName? (t : Tree) (n : Nat) : Option String := t.childText? n .upperCaseIdentifier

/-- A function is a value declaration with a name, or a `port`. -/
def isFunction (t : Tree) (n : Nat) : Bool :=
  (t.kind n = .valueDeclaration && (t.functionNameNode? n).isSome) || t.kind n = .portSignature

def functions (t : Tree) : List Nat := t.topLevel.filter t.isFunction

def typeDeclarations (t : Tree) : List Nat := t.topLevelOfKind .typeDeclaration

def typeAliases (t : Tree) : List Nat := t.topLevelOfKind .typeAliasDeclaration

def variants (t : Tree) (declaration : Nat) : List Nat :=
  t.childrenOfKind declaration .unionVariant

def findFunction? (t : Tree) (name : String) : Option Nat :=
  t.functions.find? fun n => t.functionName? n = some name

/-- The value declaration of a name directly inside a `let` block. -/
def findLetFunction? (t : Tree) (block : Nat) (name : String) : Option Nat :=
  (t.childrenOfKind block .valueDeclaration).find? fun n => t.functionName? n = some name

/-- The function that stands behind an operator: the first declaration of the
operator's fixity names it. -/
def findOperator? (t : Tree) (symbol : String) : Option Nat :=
  ((t.topLevelOfKind .infixDeclaration).find? fun n =>
    t.childText? n .operatorIdentifier = some symbol).bind fun fixity =>
  (t.childText? fixity .valueExpr).bind t.findFunction?

def findType? (t : Tree) (name : String) : Option Nat :=
  t.typeDeclarations.find? fun n => t.upperName? n = some name

def findTypeAlias? (t : Tree) (name : String) : Option Nat :=
  t.typeAliases.find? fun n => t.upperName? n = some name

def findConstructor? (t : Tree) (name : String) : Option Nat :=
  (t.typeDeclarations.flatMap t.variants).find? fun n => t.upperName? n = some name

/-- The last declaration of a source-ordered list among those, from the beginning
on, that start no later than a place. -/
def lastStarted? (t : Tree) (declarations : List Nat) (p : Position) : Option Nat :=
  (declarations.takeWhile fun n => t.start n ≤ p).getLast?

end Tree

end ElmScope
