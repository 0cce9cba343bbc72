import ElmScope.Settings.Key
import ElmScope.Settings.Reader

/-! The reader of settings in JSON that the program runs with. -/
namespace ElmScope.Settings

def trueWords : List String := ["true", "on", "yes"]

def falseWords : List String := ["false", "off", "no"]

def maxLimit : Nat := 0xFFFFFFFFFFFFFFFF

/-- A number of 64 bits in decimal, with or without a plus sign. -/
def limitOfText? (s : String) : Option Nat :=
  let digits := match s.toList with
    | '+' :: rest => rest
    | all => all
  (digitsValue? digits).filter (· ≤ maxLimit)

namespace Value

/-- A number is an integer if it is written as one and has room in 64 bits. -/
def ofNumeral (n : Numeral) : Value :=
  match n.toInt? with
  | some i => integer i
  | none => float n.toFloat

/-- The value that has a given one as the part to which some steps lead. The other
elements of a list are left out, since no list converts. -/
def nest (path : List Step) (value : Value) : Value :=
  path.foldr (fun step part =>
    match step with
    | .entry name => object [(name, part)]
    | .element _ => list [part]) value

mutual

def isFinite : Value → Bool
  | float x => x.isFinite
  | list items => areFinite items
  | object fields => fieldsAreFinite fields
  | _ => true

def areFinite : List Value → Bool
  | [] => true
  | v :: rest => v.isFinite && areFinite rest

def fieldsAreFinite : List (String × Value) → Bool
  | [] => true
  | (_, v) :: rest => v.isFinite && fieldsAreFinite rest

end

/-- A number counts as true unless it is zero, and a word as its meaning; other
values are no truth values. -/
def toBool? : Value → Option Bool
  | bool b => some b
  | integer n => some (n ≠ 0)
  | float x => some (x != 0)
  | text s =>
    if "1" :: trueWords |>.contains s.toLower then some true
    else if "0" :: falseWords |>.contains s.toLower then some false
    else none
  | _ => none

/-- A limit is a number that is not negative, with a fraction rounded to the
nearest and a half away from zero; a truth value or its word counts as one or
zero. -/
def toLimit? : Value → Option Nat
  | bool b => some b.toNat
  | integer n => if 0 ≤ n then some n.toNat else none
  | float x => some x.round.toUInt64.toNat
  | text s =>
    if trueWords.contains s.toLower then some 1
    else if falseWords.contains s.toLower then some 0
    else limitOfText? s
  | _ => none

/-- An object is merged into what is there, so an empty one defines nothing. -/
def isDefining : Value → Bool
  | object [] => false
  | _ => true

end Value

/-- The fields of an object by their names in lower case, with a name that addresses
a part written out. Of names that differ only in case, the greatest counts. -/
def Layer.ofFields (fields : List (String × Value)) : Layer :=
  let counting := fields.filter fun field => fields.all fun other =>
    lowerCase other.1 ≠ lowerCase field.1 || other.1 ≤ field.1
  counting.map fun field =>
    let key := Key.ofName (lowerCase field.1)
    (key.field, field.2.nest key.path)

/-- What an object gives as a layer: all that it defines. -/
def Layer.ofObject (fields : List (String × Value)) : Layer :=
  (Layer.ofFields fields).filter (·.2.isDefining)

/-- The last value under a name counts. -/
def Layer.value? (layer : Layer) (name : String) : Option Value :=
  (layer.filter (·.1 = name)).getLast?.map (·.2)

/-- A file has to hold an object in which no number is out of range. -/
def Value.fields? : Value → Option (List (String × Value))
  | object fields => if fieldsAreFinite fields then some fields else none
  | _ => none

/-- The reader of files in JSON, each given as the value that is written in it. -/
def jsonReader : Reader where
  File := Value
  Table := Layer
  object? := Value.fields?
  lower := lowerCase
  defines := Value.isDefining
  table := Layer.ofObject
  overlay lower upper := lower ++ upper
  build? defaults files overrides :=
    (files.mapM Value.fields?).map fun objects =>
      (objects ++ [overrides]).foldl (fun table fields => table ++ Layer.ofObject fields)
        (Layer.ofObject defaults)
  get? := Layer.value?
  toBool? := Value.toBool?
  toLimit? := Value.toLimit?

end ElmScope.Settings
