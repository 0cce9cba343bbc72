import ElmScope.Text.Blank
import ElmScope.Text.Word

/-! Shapes of text before a cursor. Half-written code seldom has a useful tree, so
what is being written is told from the text alone: an import, an exposing list, an
annotation, a dotted name. -/
namespace ElmScope.LineShape

open Text

/-- The rest after some white space, of which there is at least one character. -/
def blanks? : List Char → Option (List Char)
  | [] => none
  | c :: rest => if isBlank c then some (rest.dropWhile isBlank) else none

def after? : List Char → List Char → Option (List Char)
  | [], text => some text
  | _ :: _, [] => none
  | w :: word, c :: rest => if w = c then after? word rest else none

def word? (word : String) (text : List Char) : Option (List Char) := after? word.toList text

def mark? (mark : Char) : List Char → Option (List Char)
  | [] => none
  | c :: rest => if c = mark then some rest else none

/-- A name that begins with a character of one class and goes on with characters of
another, and the rest after it. -/
def name? (first more : Char → Bool) : List Char → Option (List Char × List Char)
  | [] => none
  | c :: rest =>
    if first c then some (c :: rest.takeWhile more, rest.dropWhile more) else none

def isDottedChar (c : Char) : Bool := isWordChar c || c = '.'

def valueName? (text : List Char) : Option (List Char × List Char) :=
  name? isLowerAscii isWordChar text

def moduleName? (text : List Char) : Option (List Char × List Char) :=
  name? isUpperAscii isDottedChar text

def isValueName (text : List Char) : Bool := (valueName? text).any fun name => name.2.isEmpty

def isOpenExposing (text : List Char) : Bool :=
  match word? "exposing" text with
  | none => false
  | some rest =>
    match mark? '(' (rest.dropWhile isBlank) with
    | none => false
    | some list => !list.contains ')'

/-- `import Mod`: the keyword and as much of a module name as is written. -/
def isImport (text : List Char) : Bool :=
  match (word? "import" text).bind blanks? with
  | none => false
  | some rest => rest.isEmpty || (moduleName? rest).any fun name => name.2.isEmpty

def skipAlias? (text : List Char) : Option (List Char) :=
  match word? "as" text with
  | none => some text
  | some rest => do
    let (_, rest) ← name? isUpperAscii isWordChar (← blanks? rest)
    blanks? rest

/-- `import Mod exposing (a, `: the module whose exposing list is being written. -/
def importExposing? (text : List Char) : Option (List Char) := do
  let (name, rest) ← moduleName? (← blanks? (← word? "import" text))
  let rest ← skipAlias? (← blanks? rest)
  if isOpenExposing rest then some name else none

/-- `module Mod exposing (a, `, also after `port`. -/
def isModuleExposing (text : List Char) : Bool :=
  let header := ((word? "port" text).bind blanks?).getD text
  match ((word? "module" header).bind blanks?).bind moduleName? with
  | none => false
  | some (_, rest) => (blanks? rest).any isOpenExposing

/-- A name at the beginning of a line, or nothing yet. -/
def isTopLevelName (text : List Char) : Bool := text.isEmpty || isValueName text

def annotatedName? (text : List Char) : Option (List Char) :=
  (valueName? text).bind fun name => mark? ':' (name.2.dropWhile isBlank)

/-- The rest after `name :` or `port name :`. -/
def signature? (text : List Char) : Option (List Char) :=
  (((word? "port" text).bind blanks?).bind annotatedName?).or (annotatedName? text)

/-- `name : `, with one colon and not the two of a list pattern. -/
def isSignature (text : List Char) : Bool :=
  (signature? (text.dropWhile isBlank)).any fun rest => rest.head? ≠ some ':'

/-- Text that begins a type declaration or an annotation. -/
def isTypeLevel (text : List Char) : Bool :=
  let text := text.dropWhile isBlank
  ((word? "type" text).any fun rest => rest.head?.any isBlank) || (signature? text).isSome

def splitDots : List Char → List (List Char)
  | [] => [[]]
  | c :: rest =>
    if c = '.' then [] :: splitDots rest
    else match splitDots rest with
      | [] => [[c]]
      | segment :: more => (c :: segment) :: more

/-- The segments before the last dot of the dotted name at the end of a text, when
there are any and each begins with a character of a class. -/
def dottedPath? (first : Char → Bool) (text : List Char) : Option (List (List Char)) :=
  let path := (splitDots (takeTail isDottedChar text)).dropLast
  if !path.isEmpty && path.all (fun segment => segment.head?.any first) then some path else none

/-- `Json.Decode.fi`: the qualifier with its last dot, `Json.Decode.`. -/
def qualifier? (text : List Char) : Option (List Char) :=
  (dottedPath? isUpperAscii text).map fun path => path.flatMap (· ++ ['.'])

/-- `model.user.na`: the path to the record, `model` and `user`. -/
def fieldPath? (text : List Char) : Option (List (List Char)) := dottedPath? isLowerAscii text

/-- The path that a whole text is, when it is one. -/
def valuePath? (text : List Char) : Option (List (List Char)) :=
  let path := splitDots text
  if path.all isValueName then some path else none

/-- `base |` at the beginning of a record: the name of the record being updated. -/
def updateBase? (text : List Char) : Option (List Char) := do
  let (name, rest) ← valueName? (text.dropWhile isBlank)
  let _ ← mark? '|' (rest.dropWhile isBlank)
  return name

/-- `field =` at the end of a text: what precedes the field's name, and the name.
A word that begins otherwise gives its part from the first lower-case letter on. -/
def fieldBefore? (text : List Char) : Option (List Char × List Char) :=
  if text.getLast? = some '=' then
    let head := trimEnd text.dropLast
    let word := takeTail isWordChar head
    match word.dropWhile (!isLowerAscii ·) with
    | [] => none
    | name => some (dropTail isWordChar head ++ word.takeWhile (!isLowerAscii ·), name)
  else none

/-- What precedes the name of a field is shorter, so a walk outward over the fields around it
ends. -/
theorem fieldBefore?_length_lt {text outer name : List Char}
    (h : fieldBefore? text = some (outer, name)) : outer.length < text.length := by
  unfold fieldBefore? at h
  split at h
  · next hLast =>
    simp only at h
    split at h
    · simp at h
    · next hWord =>
      simp only [Option.some.injEq, Prod.mk.injEq] at h
      obtain ⟨rfl, rfl⟩ := h
      have hPos : 0 < text.length := by
        cases text with
        | nil => simp at hLast
        | cons => simp
      have hHead := dropTail_length_le isBlank text.dropLast
      have hParts := congrArg List.length
        (dropTail_append_takeTail isWordChar (trimEnd text.dropLast))
      have hTake : ((takeTail isWordChar (trimEnd text.dropLast)).takeWhile
          (!isLowerAscii ·)).length ≤ (takeTail isWordChar (trimEnd text.dropLast)).length :=
        (List.takeWhile_prefix _).length_le
      simp only [List.length_append, List.length_dropLast, trimEnd] at *
      omega
  · simp at h

end ElmScope.LineShape
