import ElmScope.Settings
import ElmScope.Syntax.Walk
import ElmScope.Text.Blank
import ElmScope.Workspace

/-! Diagnostics for damaged syntax: one for every missing token, and one for every
piece of text that fits no rule, counted once however errors nest in it. -/
namespace ElmScope

open Text

structure Diagnostic where
  range : Range
  message : String
deriving DecidableEq, Repr

namespace Diagnostic

/-- The number by which editors know errors, the severity of every diagnostic. -/
def severity : Nat := 1

/-- The name under which editors show where a diagnostic comes from. -/
def origin : String := "elmwood"

def excerptLength : Nat := 40

/-- The text itself when it is short enough, else its beginning and an ellipsis. -/
def excerpt (text : List Char) : List Char :=
  if text.length ≤ excerptLength then text else text.take excerptLength ++ ['.', '.', '.']

end Diagnostic

namespace Tree

/-- Whether a node is an error inside no other error. -/
def isOutermostError (t : Tree) (n : Nat) : Bool :=
  t.isError n && !(t.ancestors n).any t.isError

/-- The message about a node, if it is damage to report. -/
def damage? (t : Tree) (n : Nat) : Option String :=
  if t.isMissing n then some ("Missing \"" ++ (t.kind n).name ++ "\"")
  else if t.isOutermostError n then
    some ("Unexpected syntax: \"" ++
      .ofList (Diagnostic.excerpt (trim (t.text n).toList)) ++ "\"")
  else none

def diagnostics (t : Tree) : List Diagnostic :=
  t.reachable.filterMap fun n => (t.damage? n).map fun message => ⟨t.range n, message⟩

end Tree

namespace Workspace

def diagnostics? (w : Workspace) (uri : String) (settings : Settings) :
    Option (List Diagnostic) :=
  if settings.syntaxDiagnostics then (w.get? uri).map (·.tree.diagnostics) else none

/-- The diagnostics of every file in the order of their uris. -/
def allDiagnostics (w : Workspace) (settings : Settings) :
    List (String × List Diagnostic) :=
  if settings.syntaxDiagnostics then w.documents.map fun d => (d.uri, d.tree.diagnostics)
  else []

end Workspace

end ElmScope
