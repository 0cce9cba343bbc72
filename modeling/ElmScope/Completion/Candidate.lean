import ElmScope.Module.Surface
import ElmScope.Text.Position

/-! What a completion offers. A candidate is a name with its kind, the module it
comes from when that is not the file itself, a detail to show, and the edits that
accepting it makes elsewhere in the file. -/
namespace ElmScope

structure TextEdit where
  range : Range
  newText : String
deriving DecidableEq, Repr

namespace TextEdit

def insertion (p : Position) (newText : String) : TextEdit := ⟨.empty p, newText⟩

end TextEdit

/-- What a candidate stands for: a symbol, or a field of a record. -/
inductive CandidateKind where
  | symbol (kind : SymbolKind)
  | field
deriving DecidableEq, Repr

namespace CandidateKind

/-- The number by which editors know the kind of a completion item. -/
def itemKind : CandidateKind → Nat
  | symbol .function => 3
  | symbol .parameter => 6
  | symbol .customType => 13
  | symbol .typeAlias => 22
  | symbol .unionConstructor => 20
  | symbol .operator => 24
  | symbol .moduleHeader => 9
  | field => 5

end CandidateKind

structure Candidate where
  name : String
  kind : CandidateKind
  sourceModule : Option String := none
  detail : Option String := none
  edits : List TextEdit := []
deriving DecidableEq, Repr

namespace Candidate

def ofSymbol (kind : SymbolKind) (name : String) : Candidate := { name, kind := .symbol kind }

def fromModule (c : Candidate) (moduleName : String) : Candidate :=
  { c with sourceModule := some moduleName }

end Candidate

def firstOfName : List Candidate → List Candidate
  | [] => []
  | c :: rest => c :: (firstOfName rest).filter fun other => other.name ≠ c.name

inductive Trigger where
  | invoked
  | character (c : Char)
  | incomplete
deriving DecidableEq, Repr

namespace Trigger

/-- The trigger of a request, from the number that editors give for its manner and
the text that was typed. Only a typed character counts as one. -/
def ofRequest (manner : Option Nat) (typed : Option String) : Trigger :=
  match manner with
  | some 2 =>
    match typed.bind (·.toList.head?) with
    | some c => character c
    | none => invoked
  | some 3 => incomplete
  | _ => invoked

end Trigger

end ElmScope
