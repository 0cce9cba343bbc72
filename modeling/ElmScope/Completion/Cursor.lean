import ElmScope.Syntax.Walk
import ElmScope.Text.Line
import ElmScope.Text.Word

/-! What stands at a cursor: the text of its line before it, and the node into
which it types. A cursor right behind a word belongs to the word. -/
namespace ElmScope.Tree

open Text

def chars (t : Tree) : List Char := t.source.toList

/-- The text of a cursor's line up to the cursor. -/
def textBefore (t : Tree) (p : Position) : List Char :=
  match lineText? t.chars p.line with
  | none => []
  | some line => takeColumns p.character line

/-- Whether a cursor behind a character belongs to the word that the character
ends. -/
def endsWord (c : Char) : Bool := isAlphanumeric c || c = '_'

/-- The node into which a cursor types. -/
def nodeAtCursor (t : Tree) (p : Position) : Nat :=
  let before := t.textBefore p
  match before.getLast? with
  | some c =>
    if endsWord c then t.deepestAt ⟨p.line, utf16Length before - utf16Width c⟩
    else t.deepestAt p
  | none => t.deepestAt p

end ElmScope.Tree
