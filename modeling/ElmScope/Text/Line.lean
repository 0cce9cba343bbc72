import ElmScope.Text.Blank
import ElmScope.Text.Position
import ElmScope.Text.Width

/-! Lines of a text, and the passage between byte offsets and places. A line
ends with a line feed; the text of a line leaves out the line feeds and carriage
returns at its end, so every place on a line counts as one before them. -/
namespace ElmScope.Text

/-- The lines of a text with their line feeds. A text that ends with a line feed
has an empty last line. -/
def lines : List Char → List (List Char)
  | [] => [[]]
  | c :: rest =>
    if c = '\n' then [c] :: lines rest
    else match lines rest with
      | [] => [[c]]
      | line :: more => (c :: line) :: more

def isLineEnd (c : Char) : Bool := c = '\n' || c = '\r'

/-- A line without the line feeds and carriage returns at its end. -/
def lineText (line : List Char) : List Char := dropTail isLineEnd line

def lineText? (text : List Char) (line : Nat) : Option (List Char) :=
  (lines text)[line]?.map lineText

def lineStart (text : List Char) (line : Nat) : Nat :=
  byteLength ((lines text).take line).flatten

/-- The byte offset of a place. A column past the end of its line is taken to
the end of the line's text, and a line past the last to the end of the text. -/
def offsetAt (text : List Char) (p : Position) : Nat :=
  match lineText? text p.line with
  | none => byteLength text
  | some line => lineStart text p.line + byteColumn line p.character

def advance (p : Position) (c : Char) : Position :=
  if c = '\n' then ⟨p.line + 1, 0⟩ else ⟨p.line, p.character + utf16Width c⟩

def positionAt (text : List Char) (offset : Nat) : Position :=
  (takeBytes offset text).foldl advance Position.origin

/-- The lines of a text make up the text. -/
theorem flatten_lines (text : List Char) : (lines text).flatten = text := by
  induction text with
  | nil => rfl
  | cons c rest ih =>
    rw [lines]
    split
    · simp [ih]
    · split
      · next h => rw [h] at ih; simp_all
      · next line more h => rw [h] at ih; simpa using ih

theorem lines_ne_nil (text : List Char) : lines text ≠ [] := by
  cases text with
  | nil => simp [lines]
  | cons c rest =>
    rw [lines]
    split
    · simp
    · split <;> simp

end ElmScope.Text
