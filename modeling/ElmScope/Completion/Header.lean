import ElmScope.Completion.LineShape
import ElmScope.Completion.Request

/-! Completions in headers and imports: module names behind `import`, what a module
shows in the exposing list of its import, and what the file declares in the
exposing list of its own header. -/
namespace ElmScope.Request

/-- Behind `import`, every module of the workspace. -/
def importModule? (r : Request) : Option (List Candidate) :=
  if LineShape.isImport r.before then
    some (r.workspace.moduleNames.map (.ofSymbol .moduleHeader))
  else none

/-- A shown symbol, and once more with `(..)` if constructors are shown with it. -/
def exposedCandidates (moduleName : String) (symbol : ExposedSymbol) : List Candidate :=
  let plain := (Candidate.ofSymbol symbol.kind.toSymbolKind symbol.name).fromModule moduleName
  if symbol.listed.isEmpty then [plain]
  else [plain, { plain with name := symbol.name ++ "(..)" }]

/-- In the exposing list of an import, what the module shows. -/
def importExposing? (r : Request) : Option (List Candidate) :=
  (LineShape.importExposing? r.before).map fun name =>
    match (r.workspace.findModule? (.ofList name)).bind (·.tree.surface?) with
    | none => []
    | some surface => surface.exposed.flatMap (exposedCandidates surface.moduleName)

def isHeaderList (t : Tree) (n : Nat) : Bool :=
  t.kind n = .exposingList && (t.parent? n).any fun parent => t.kind parent = .moduleDeclaration

/-- Whether the cursor is in the exposing list of the file's header. A list over
several lines is told from the tree. -/
def isInHeaderList (r : Request) : Bool :=
  LineShape.isModuleExposing r.before || (r.tree.ancestors r.cursor).any (isHeaderList r.tree)

def ownTypeCandidates (t : Tree) (declaration : Nat) : List Candidate :=
  match t.upperName? declaration with
  | none => []
  | some name =>
    .ofSymbol .customType name :: .ofSymbol .customType (name ++ "(..)") ::
      t.constructorCandidates [declaration]

/-- In the exposing list of the file's header, what the file declares. -/
def moduleExposing? (r : Request) : Option (List Candidate) :=
  if r.isInHeaderList then
    some (r.tree.functionCandidates ++
      r.tree.typeDeclarations.flatMap (ownTypeCandidates r.tree) ++ r.tree.aliasCandidates)
  else none

end ElmScope.Request
