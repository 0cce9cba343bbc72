import ElmScope.Module.Declaration

/-! Type annotations and the declarations they belong to. A declaration directly
inside a `let` block has its annotation among the children of the block, and every
other declaration has it at the top level of its file. -/
namespace ElmScope.Tree

def findSignature? (t : Tree) (among : List Nat) (name : String) : Option Nat :=
  among.find? fun n => t.kind n = .typeSignature && t.functionName? n = some name

/-- The nodes among which the annotation of a declaration is looked for. -/
def signatureScope (t : Tree) (declaration : Nat) : List Nat :=
  match t.parent? declaration with
  | some parent => if t.kind parent = .letInExpr then t.children parent else t.topLevel
  | none => t.topLevel

def signature? (t : Tree) (declaration : Nat) : Option Nat :=
  (t.functionName? declaration).bind (t.findSignature? (t.signatureScope declaration))

/-- Arrows and comments separate the segments of a type expression. -/
def separatesSegments (kind : Kind) : Bool :=
  match kind with
  | .arrow | .lineComment | .blockComment => true
  | _ => false

/-- The segments of a type expression: `A -> B -> C` has `A`, `B` and `C`. -/
def arrowSegments (t : Tree) (n : Nat) : List Nat :=
  (t.namedChildren n).filter fun c => !separatesSegments (t.kind c)

def annotatedSegments? (t : Tree) (signature : Nat) : Option (List Nat) :=
  (t.childOfKind? signature .typeExpression).map t.arrowSegments

/-- The type of what a declaration yields: the last segment of its annotation. -/
def resultType? (t : Tree) (declaration : Nat) : Option Nat :=
  ((t.signature? declaration).bind t.annotatedSegments?).bind (·.getLast?)

/-- The type of the parameter in which a pattern lies: the segment of the
annotation at the place that the parameter has among the named children of the
left-hand side after the name. -/
def parameterType? (t : Tree) (pattern : Nat) : Option Nat := do
  let declaration ← (t.ancestors pattern).find? (t.kind · = .valueDeclaration)
  let left ← t.childOfKind? declaration .functionDeclarationLeft
  let place ← ((t.namedChildren left).drop 1).findIdx? fun parameter =>
    parameter = pattern || (t.ancestors pattern).contains parameter
  let signature ← t.signature? declaration
  let segments ← t.annotatedSegments? signature
  segments[place]?

end ElmScope.Tree
