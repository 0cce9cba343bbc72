import ElmScope.Syntax.Kind
import ElmScope.Text.Position

/-! One node of a syntax tree. A node is named by its index in its tree, and the
indices of a tree follow the order in which its nodes begin. -/
namespace ElmScope

/-- One node: its kind, where it lies, and how it hangs in the tree. -/
structure Node where
  kind : Kind
  /-- Whether the node stands for a rule of the grammar and not for fixed text. -/
  isNamed : Bool
  /-- Whether the node stands for a token that was expected and not found. -/
  isMissing : Bool
  startByte : Nat
  endByte : Nat
  range : Range
  text : String
  parent : Option Nat
  children : List Nat
  /-- The place of the node among the children of its parent. -/
  index : Nat
deriving DecidableEq, Repr, Inhabited

/-- What stands for a node that a tree does not have. -/
def Node.absent : Node := ⟨.other "", false, false, 0, 0, ⟨.origin, .origin⟩, "", none, [], 0⟩

end ElmScope
