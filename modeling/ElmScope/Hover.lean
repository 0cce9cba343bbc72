import ElmScope.Module.Signature
import ElmScope.Reference.Definition
import ElmScope.Settings
import ElmScope.Text.Blank

/-! What is shown for the name under a cursor: the declaration it refers to, as a
block of code, with the documentation comment of the declaration below. -/
namespace ElmScope

open Text

namespace Tree

/-- The text of a documentation comment between its marks. A comment without the
opening mark documents nothing. -/
def documentationText? (comment : List Char) : Option (List Char) :=
  if ['\x7b', '-', '|'].isPrefixOf comment then
    let body := comment.drop 3
    some (trim (if ['-', '\x7d'].isSuffixOf body then body.dropLast.dropLast else body))
  else none

/-- The node behind which the documentation of a declaration ends: its annotation
if that comes first, else the declaration itself. -/
def documentedNode (t : Tree) (declaration : Nat) : Nat :=
  ((t.signature? declaration).filter fun a => t.stop a ≤ t.start declaration).getD declaration

/-- The sibling that can document a declaration. A module's documentation follows
its header, every other precedes its declaration. -/
def documentation? (t : Tree) (declaration : Nat) : Option Nat :=
  if t.kind declaration = .moduleDeclaration then t.nextNamedSibling? declaration
  else t.prevNamedSibling? (t.documentedNode declaration)

def documentationOf? (t : Tree) (declaration : Nat) : Option (List Char) :=
  ((t.documentation? declaration).filter fun n => t.kind n = .blockComment).bind fun n =>
    documentationText? (t.text n).toList

/-- The text that shows what a declaration is: of a value its annotation or else
its left-hand side, of the others the whole declaration. -/
def heading? (t : Tree) (declaration : Nat) : Option String :=
  match t.kind declaration with
  | .valueDeclaration =>
    match t.signature? declaration with
    | some signature => some (t.text signature)
    | none => t.childText? declaration .functionDeclarationLeft
  | .portSignature | .typeDeclaration | .typeAliasDeclaration | .unionVariant
  | .moduleDeclaration => some (t.text declaration)
  | _ => none

def hint? (t : Tree) (declaration : Nat) : Option String :=
  (t.heading? declaration).map fun heading =>
    "```elm\n" ++ .ofList (trimEnd heading.toList) ++ "\n```" ++
      match t.documentationOf? declaration with
      | none => ""
      | some documentation => "\n\n" ++ .ofList documentation

end Tree

namespace Definition

/-- The Markdown for a reference. A parameter is only said to be one. -/
def hint? (d : Definition) : Option String :=
  if d.kind = .parameter then some "Local parameter"
  else d.site.document.tree.hint? d.site.node

end Definition

namespace Workspace

/-- The Markdown for the name at a place, unless hovers are switched off. -/
def hover? (w : Workspace) (uri : String) (p : Position) (settings : Settings) :
    Option String :=
  if settings.hover then (w.definitionAt? uri p).bind (·.hint?) else none

end Workspace

end ElmScope
