import ElmScope.Completion.AutoImport
import ElmScope.Completion.LineShape

/-! Completions of names: qualified names behind a dot, types in annotations, the
name of a declaration at the beginning of a line, and values everywhere else. -/
namespace ElmScope.Request

/-- Behind a qualifier and a dot, the imported names under the qualifier. -/
def qualified? (r : Request) : Option (List Candidate) :=
  (LineShape.qualifier? r.before).map fun qualifier =>
    (r.scope.imports.entries.filter fun entry =>
      qualifier.isPrefixOf entry.name.toList).map importCandidate

/-- The kinds of names that can stand in a type. -/
def isTypeKind (kind : SymbolKind) : Bool :=
  match kind with
  | .customType | .typeAlias => true
  | _ => false

def isExposedType (kind : ExposedKind) : Bool := isTypeKind kind.toSymbolKind

/-- In an annotation, the types of the file and its imports. -/
def typeName? (r : Request) : Option (List Candidate) :=
  if LineShape.isSignature r.before then
    some <| r.withAutoImports isExposedType false <|
      r.tree.typeCandidates ++ r.tree.aliasCandidates ++
        (r.scope.imports.entries.filter fun entry => isTypeKind entry.kind).map importCandidate
  else none

/-- The number of lines that a place can be on. -/
def lineCount : Nat := 0x100000000

/-- Whether a declaration gives a name to what is written on a line: an annotation
that ends on the line above, or a value that begins on the line below. Below the
last possible line comes the first again. -/
def isBesideLine (t : Tree) (line n : Nat) : Bool :=
  match t.kind n with
  | .typeSignature => (t.stop n).line + 1 = line
  | .valueDeclaration => (t.start n).line = (line + 1) % lineCount
  | _ => false

/-- At the beginning of a line, the names of the declarations beside it. -/
def topLevelName? (r : Request) : Option (List Candidate) :=
  if LineShape.isTopLevelName r.before then
    some (((r.tree.topLevel.filter (isBesideLine r.tree r.position.line)).filterMap
      r.tree.functionName?).map (.ofSymbol .function))
  else none

def isValueKind (kind : SymbolKind) : Bool :=
  match kind with
  | .customType | .operator => false
  | _ => true

/-- Whether an imported name is offered in an expression: a qualified one only if
the settings ask for it, unless it is the name of a module. -/
def offersImport (r : Request) (entry : ImportEntry) : Bool :=
  isValueKind entry.kind &&
    (r.settings.qualifiedCompletions || entry.kind = .moduleHeader ||
      !entry.name.toList.contains '.')

/-- In an expression, the names that the cursor sees: local ones, those of the file,
and imported ones. Type aliases of records are constructors too. -/
def visibleValues (r : Request) : List Candidate :=
  ((r.tree.visibleBindings r.cursor).map fun b => Candidate.ofSymbol b.kind b.name) ++
    r.tree.functionCandidates ++ r.tree.constructorCandidates r.tree.typeDeclarations ++
    r.tree.aliasCandidates ++ (r.scope.imports.entries.filter r.offersImport).map importCandidate

def values (r : Request) : List Candidate :=
  r.withAutoImports (fun _ => true) true r.visibleValues

end ElmScope.Request
