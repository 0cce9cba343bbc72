import ElmScope.Module.Declaration

/-! Names bound inside declarations: parameters, `let` functions and patterns, the
pattern of a `case` branch and the patterns of a lambda. A name means the binding
of the nearest scope around it, and in one scope the first binding. -/
namespace ElmScope

/-- A name bound by a scope, with the pattern variable or `let` declaration that
binds it. -/
structure Binding where
  name : String
  node : Nat
  kind : SymbolKind
deriving DecidableEq, Repr

namespace Tree

/-- How many nodes, counting outward from a name, are looked at for scopes. -/
def scopeReach : Nat := 512

def isScope (kind : Kind) : Bool :=
  match kind with
  | .valueDeclaration | .letInExpr | .caseOfBranch | .anonymousFunctionExpr => true
  | _ => false

def enclosingScopes (t : Tree) (n : Nat) : List Nat :=
  ((n :: t.ancestors n).take scopeReach).filter fun scope => isScope (t.kind scope)

def variableBinding (t : Tree) (pattern : Nat) : Binding := ⟨t.text pattern, pattern, .parameter⟩

/-- The variables strictly inside a pattern. -/
def patternBindings (t : Tree) (pattern : Nat) : List Binding :=
  (t.descendantsOfKind pattern .lowerPattern).map t.variableBinding

/-- What one declaration of a `let` block binds: its name, or else the variables
of its pattern. -/
def letBindings (t : Tree) (declaration : Nat) : List Binding :=
  match t.functionNameNode? declaration with
  | some name => [⟨t.text name, declaration, .function⟩]
  | none => ((t.childOfKind? declaration .pattern).map t.patternBindings).getD []

def lambdaBindings (t : Tree) (child : Nat) : List Binding :=
  if t.kind child = .lowerPattern then [t.variableBinding child] else t.patternBindings child

def bindingsOf (t : Tree) (scope : Nat) : List Binding :=
  match t.kind scope with
  | .valueDeclaration =>
    ((t.childOfKind? scope .functionDeclarationLeft).map t.patternBindings).getD []
  | .letInExpr => (t.childrenOfKind scope .valueDeclaration).flatMap t.letBindings
  | .caseOfBranch => ((t.firstNamedChild? scope).map t.patternBindings).getD []
  | .anonymousFunctionExpr =>
    ((t.children scope).takeWhile fun c => t.kind c ≠ .arrow).flatMap t.lambdaBindings
  | _ => []

/-- Every binding visible at a node, nearest scope first. Shadowed names are kept. -/
def visibleBindings (t : Tree) (n : Nat) : List Binding :=
  (t.enclosingScopes n).flatMap t.bindingsOf

def findBinding? (t : Tree) (n : Nat) (name : String) : Option Binding :=
  (t.visibleBindings n).find? (·.name = name)

def findParameter? (t : Tree) (n : Nat) (name : String) : Option Nat :=
  ((((t.enclosingScopes n).filter fun scope => t.kind scope = .valueDeclaration).flatMap
    t.bindingsOf).find? (·.name = name)).map (·.node)

end Tree

end ElmScope
