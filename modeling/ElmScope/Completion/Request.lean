import ElmScope.Completion.Candidate
import ElmScope.Completion.Cursor
import ElmScope.Reference.Definition
import ElmScope.Settings

/-! A request for completions, with what every source of candidates reads: the
workspace, the file with its imports, the settings, and the cursor. -/
namespace ElmScope

structure Request where
  workspace : Workspace
  scope : FileScope
  settings : Settings
  trigger : Trigger
  position : Position

namespace Request

def tree (r : Request) : Tree := r.scope.tree

/-- The text of the cursor's line up to the cursor. -/
def before (r : Request) : List Char := r.tree.textBefore r.position

def cursor (r : Request) : Nat := r.tree.nodeAtCursor r.position

def importCandidate (entry : ImportEntry) : Candidate :=
  (Candidate.ofSymbol entry.kind entry.name).fromModule entry.moduleName

end Request

namespace Tree

def functionCandidates (t : Tree) : List Candidate :=
  (t.functions.filterMap t.functionName?).map (.ofSymbol .function)

def typeCandidates (t : Tree) : List Candidate :=
  (t.typeDeclarations.filterMap t.upperName?).map (.ofSymbol .customType)

def aliasCandidates (t : Tree) : List Candidate :=
  (t.typeAliases.filterMap t.upperName?).map (.ofSymbol .typeAlias)

def constructorCandidates (t : Tree) (declarations : List Nat) : List Candidate :=
  ((declarations.flatMap t.variants).filterMap t.upperName?).map (.ofSymbol .unionConstructor)

end Tree

end ElmScope
