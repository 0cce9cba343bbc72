import ElmScope.Text.Width

/-! Braces and separators in the text before a cursor. Comments, strings and
character literals are passed over when braces are matched. -/
namespace ElmScope.Braces

inductive Region where
  | code
  | lineComment
  /-- Block comments nest; the depth counts those around the innermost. -/
  | blockComment (depth : Nat)
  | string
  | character
deriving DecidableEq, Repr

/-- The open braces, innermost first, after a text that is read in a region from a
byte offset on with some braces open before it. The marks of comments are read
whole, and so is a backslash in a literal with the character behind it. -/
def unmatchedFrom : Region → Nat → List Nat → List Char → List Nat
  | _, _, stack, [] => stack
  | .lineComment, offset, stack, c :: rest =>
    unmatchedFrom (if c = '\n' then .code else .lineComment) (offset + c.utf8Size) stack rest
  | .blockComment depth, offset, stack, '\x7b' :: '-' :: rest =>
    unmatchedFrom (.blockComment (depth + 1)) (offset + 2) stack rest
  | .blockComment depth, offset, stack, '-' :: '\x7d' :: rest =>
    unmatchedFrom (match depth with | 0 => .code | outer + 1 => .blockComment outer)
      (offset + 2) stack rest
  | .blockComment depth, offset, stack, c :: rest =>
    unmatchedFrom (.blockComment depth) (offset + c.utf8Size) stack rest
  | .string, offset, stack, '\\' :: c :: rest =>
    unmatchedFrom .string (offset + 1 + c.utf8Size) stack rest
  | .string, offset, stack, c :: rest =>
    unmatchedFrom (if c = '"' then .code else .string) (offset + c.utf8Size) stack rest
  | .character, offset, stack, '\\' :: c :: rest =>
    unmatchedFrom .character (offset + 1 + c.utf8Size) stack rest
  | .character, offset, stack, c :: rest =>
    unmatchedFrom (if c = '\'' then .code else .character) (offset + c.utf8Size) stack rest
  | .code, offset, stack, '\x7b' :: '-' :: rest =>
    unmatchedFrom (.blockComment 0) (offset + 2) stack rest
  | .code, offset, stack, '-' :: '-' :: rest =>
    unmatchedFrom .lineComment (offset + 2) stack rest
  | .code, offset, stack, '"' :: rest => unmatchedFrom .string (offset + 1) stack rest
  | .code, offset, stack, '\'' :: rest => unmatchedFrom .character (offset + 1) stack rest
  | .code, offset, stack, '\x7b' :: rest =>
    unmatchedFrom .code (offset + 1) (offset :: stack) rest
  | .code, offset, stack, '\x7d' :: rest => unmatchedFrom .code (offset + 1) stack.tail rest
  | .code, offset, stack, c :: rest => unmatchedFrom .code (offset + c.utf8Size) stack rest

/-- The byte offsets of the opening braces of a text that are not closed in it,
outermost first. -/
def unmatched (text : List Char) : List Nat := (unmatchedFrom .code 0 [] text).reverse

/-- Whether a bar between two characters separates a record from its update, and is
no part of an operator. -/
def isUpdateBar (previous next : Option Char) : Bool :=
  !(previous = some '|' || previous = some '<' || next = some '|' || next = some '>' ||
    next = some '=' || next = some '.')

/-- The text after the last separator outside brackets, while a segment is known
and the depth of brackets is counted. -/
def segmentFrom (depth : Int) (previous : Option Char) (segment : List Char) :
    List Char → List Char
  | [] => segment
  | c :: rest =>
    if c = '(' || c = '[' || c = '\x7b' then segmentFrom (depth + 1) (some c) segment rest
    else if c = ')' || c = ']' || c = '\x7d' then segmentFrom (depth - 1) (some c) segment rest
    else if depth = 0 && (c = ',' || c = '|' && isUpdateBar previous rest.head?) then
      segmentFrom depth (some c) rest rest
    else segmentFrom depth (some c) segment rest

/-- The text of a record's body after the last comma or update bar outside
brackets. -/
def currentSegment (body : List Char) : List Char := segmentFrom 0 none body body

end ElmScope.Braces
