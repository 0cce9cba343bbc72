import ElmScope.Settings.Numeral
import ElmScope.Text.Blank

/-! The names in a settings file. A name may address a part of a field: an entry of
an object as in `hover.delay`, or an element of a list as in `hover[0]`. Any other
name is the name of a field as it stands. -/
namespace ElmScope.Settings

open Text

inductive Step where
  | entry (name : String)
  | element (index : Int)
deriving DecidableEq, Repr

/-- What a name addresses: a field, and the way from its value to the part. -/
structure Key where
  field : String
  path : List Step
deriving DecidableEq, Repr

/-- A name in lower case. The Kelvin sign is the only character beyond ASCII whose
lower case is an ASCII character; others beyond ASCII are in no field's name. -/
def lowerCase (name : String) : String :=
  name.map fun c => if c = '\u212A' then 'k' else c.toLower

/-- The characters of identifiers, among them the space. -/
def isIdentifierChar (c : Char) : Bool :=
  c.isAlphanum || c = '_' || c = '-' || c = ' '

/-- The index of an element, with or without a minus sign, between spaces and tabs. -/
def index? (text : List Char) : Option Int :=
  let isGap (c : Char) := c = ' ' || c = '\t'
  match dropTail isGap (text.dropWhile isGap) with
  | '-' :: digits => (digitsValue? digits).bind (int64? true)
  | digits => (digitsValue? digits).bind (int64? false)

/-- The steps that a text writes behind an identifier, if it writes nothing else. -/
def path? : List Char → Option (List Step)
  | [] => some []
  | '.' :: rest =>
    match rest.takeWhile isIdentifierChar with
    | [] => none
    | name => (path? (rest.dropWhile isIdentifierChar)).map (.entry (.ofList name) :: ·)
  | '[' :: rest =>
    if ']' ∈ rest then do
      let index ← index? (rest.takeWhile (· ≠ ']'))
      let path ← path? (rest.dropWhile (· ≠ ']')).tail
      return .element index :: path
    else none
  | _ => none
termination_by text => text.length
decreasing_by
  · have := (List.dropWhile_sublist isIdentifierChar (l := rest)).length_le
    simp only [List.length_cons]
    omega
  · have := (List.dropWhile_sublist (· ≠ ']') (l := rest)).length_le
    simp only [List.length_cons, List.length_tail]
    omega

def Key.ofName (name : String) : Key :=
  match name.toList.takeWhile isIdentifierChar,
      path? (name.toList.dropWhile isIdentifierChar) with
  | c :: identifier, some path => ⟨.ofList (c :: identifier), path⟩
  | _, _ => ⟨name, []⟩

/-- A plain identifier addresses the field of its name. -/
theorem Key.ofName_eq_of_all {name : String} (h : name.toList.all isIdentifierChar = true) :
    ofName name = ⟨name, []⟩ := by
  have hSplit (text : List Char) (hText : text.all isIdentifierChar = true) :
      text.takeWhile isIdentifierChar = text ∧ text.dropWhile isIdentifierChar = [] := by
    induction text with
    | nil => exact ⟨rfl, rfl⟩
    | cons c rest ih =>
        simp only [List.all_cons, Bool.and_eq_true] at hText
        simp [hText.1, ih hText.2]
  obtain ⟨hHead, hRest⟩ := hSplit name.toList h
  rw [ofName, hRest, hHead, path?]
  split
  · next c identifier path hName hPath =>
      cases hPath
      rw [← hName, String.ofList_toList]
  · rfl

end ElmScope.Settings
