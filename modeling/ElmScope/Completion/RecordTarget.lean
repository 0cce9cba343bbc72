import ElmScope.Completion.Braces
import ElmScope.Completion.Cursor
import ElmScope.Completion.LineShape
import ElmScope.Module.Declaration

/-! Which record a cursor on a field name belongs to: one behind a dotted path, one
being updated, or a literal, and the field of one of these. The tree says so when
the record is written well enough to be in it, and otherwise the text between the
beginning of the declaration and the cursor does. -/
namespace ElmScope

open Text

/-- The record whose fields are being written. -/
inductive RecordTarget where
  /-- The record that a name stands for. -/
  | value (name : String)
  /-- The record in a field of another. -/
  | field (record : RecordTarget) (name : String)
  /-- The record that the declaration around the cursor yields. -/
  | literal
deriving DecidableEq, Repr

namespace RecordTarget

/-- The record at the end of a path: `model.user` is the field `user` of `model`. -/
def ofPath : List (List Char) → RecordTarget
  | [] => .value ""
  | base :: fields =>
    fields.foldl (fun record field => .field record (.ofList field)) (.value (.ofList base))

end RecordTarget

namespace Tree

/-- The record that a record expression stands for: its base, or the field of the
record around it, or a literal. -/
def recordTarget? (t : Tree) (record : Nat) : Option RecordTarget :=
  if t.kind record ≠ .recordExpr then none
  else match t.childText? record .recordBaseIdentifier with
    | some base => some (.value base)
    | none =>
      match _hf : t.parent? record with
      | none => some .literal
      | some field =>
        if t.kind field ≠ .field then some .literal
        else match t.firstNamedChild? field, _ho : t.parent? field with
          | some name, some outer =>
            (t.recordTarget? outer).map fun target => .field target (t.text name)
          | _, _ => none
termination_by record
decreasing_by
  have := parent?_lt _hf
  have := parent?_lt _ho
  omega

/-- The record of the field name on which a cursor is, as the tree has it. -/
def fieldTarget? (t : Tree) (cursor : Nat) : Option RecordTarget :=
  if t.kind cursor ≠ .lowerCaseIdentifier then none
  else (t.parent? cursor).bind fun parent =>
    match t.kind parent with
    | .fieldAccessExpr =>
      if t.lastNamedChild? parent = some cursor then
        ((t.firstNamedChild? parent).bind fun target =>
          LineShape.valuePath? (t.text target).toList).map .ofPath
      else none
    | .field =>
      if t.firstNamedChild? parent = some cursor then (t.parent? parent).bind t.recordTarget?
      else none
    | _ => none

end Tree

namespace LineShape

def isAtFieldName (body : List Char) : Bool :=
  let segment := Braces.currentSegment body
  !segment.contains '=' && ((trim segment).isEmpty || isValueName (trim segment))

/-- The record of the innermost open brace of a text that ends at the cursor. -/
def recordTarget? (text : List Char) : Option RecordTarget :=
  let braces := Braces.unmatched text
  match braces.getLast? with
  | none => none
  | some brace =>
    let body := dropBytes (brace + 1) text
    if !isAtFieldName body then none
    else match updateBase? body with
      | some base => some (.value (.ofList base))
      | none =>
        if braces.length ≤ 1 then some .literal
        else match _h : fieldBefore? (trimEnd (takeBytes brace text)) with
          | none => none
          | some (outer, name) =>
            (recordTarget? outer).map fun target => .field target (.ofList name)
termination_by text.length
decreasing_by
  have := fieldBefore?_length_lt _h
  have : (trimEnd (takeBytes brace text)).length ≤ (takeBytes brace text).length :=
    dropTail_length_le _ _
  have := takeBytes_length_le brace text
  omega

end LineShape

namespace Tree

/-- The text from the beginning of the last top-level node before a place to the
place. -/
def regionBefore (t : Tree) (p : Position) : List Char :=
  let start := ((t.lastStarted? t.topLevel p).map t.startByte).getD 0
  slice start (offsetAt t.chars p) t.chars

/-- The record of the field name before a cursor, as the text has it. Types hold
fields too, but no records. -/
def textTarget? (t : Tree) (p : Position) : Option RecordTarget :=
  match LineShape.fieldPath? (t.textBefore p) with
  | some path => some (.ofPath path)
  | none =>
    let region := t.regionBefore p
    if LineShape.isTypeLevel region then none else LineShape.recordTarget? region

def targetAt? (t : Tree) (p : Position) : Option RecordTarget :=
  (t.fieldTarget? (t.nodeAtCursor p)).or (t.textTarget? p)

end Tree

end ElmScope
