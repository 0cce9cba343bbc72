import ElmScope.Reference.Usage
import ElmScope.Scope.Binding
import ElmScope.Scope.ImportIndex

/-! Where a name is declared. Each use of a name has its sequence of places to
look, and the first that has the name wins: scopes around the name, then the file,
then its imports. A node is resolved only while its tree is the one stored for the
file, so a node kept from before an edit refers to nothing. -/
namespace ElmScope

/-- A declaration that a name refers to. -/
structure Definition where
  site : Site
  kind : SymbolKind
deriving DecidableEq

namespace Definition

/-- Two references are the same when they name the same node of the same tree, the
same file and the same kind. -/
def same (a b : Definition) : Bool :=
  a.site.same b.site && a.site.document.uri = b.site.document.uri && a.kind = b.kind

end Definition

/-- A file with its import index, in which names are looked up. -/
structure FileScope where
  document : Document
  imports : ImportIndex

namespace FileScope

def tree (s : FileScope) : Tree := s.document.tree

def own (s : FileScope) (kind : SymbolKind) (n : Nat) : Definition := ⟨⟨s.document, n⟩, kind⟩

def imported? (s : FileScope) (name : String) (kind : SymbolKind) : Option Definition :=
  (s.imports.find? name kind).map fun entry => ⟨entry.site, kind⟩

/-- The file's own type of a name, else its type alias. -/
def ownType? (s : FileScope) (name : String) : Option Definition :=
  ((s.tree.findType? name).map (s.own .customType)).or
    ((s.tree.findTypeAlias? name).map (s.own .typeAlias))

def ownFunction? (s : FileScope) (name : String) : Option Definition :=
  (s.tree.findFunction? name).map (s.own .function)

def bound? (s : FileScope) (n : Nat) (name : String) : Option Definition :=
  (s.tree.findBinding? n name).map fun binding => s.own binding.kind binding.node

def lookup? (s : FileScope) (n : Nat) : Usage → Option Definition
  | .moduleHeader declaration => some (s.own .moduleHeader declaration)
  | .importedModule name => s.imported? name .moduleHeader
  | .moduleQualifier qualifier => s.imported? qualifier .moduleHeader
  | .declaredName name block =>
    ((block.bind (s.tree.findLetFunction? · name)).map (s.own .function)).or (s.ownFunction? name)
  | .ownFunction name => s.ownFunction? name
  | .ownType name => s.ownType? name
  | .importedValue name => s.imported? name .function
  | .importedType name => (s.imported? name .customType).or (s.imported? name .typeAlias)
  | .variant node => some (s.own .unionConstructor node)
  | .upperName text =>
    (s.ownType? text).or <|
    ((s.tree.findConstructor? text).map (s.own .unionConstructor)).or <|
    (s.imported? text .customType).or <|
    (s.imported? text .typeAlias).or (s.imported? text .unionConstructor)
  | .value name qualified =>
    (if name = qualified then s.bound? n name else none).or <|
    (s.ownFunction? qualified).or (s.imported? qualified .function)
  | .operator symbol =>
    ((s.tree.findOperator? symbol).map (s.own .operator)).or (s.imported? symbol .operator)

def definition? (s : FileScope) (n : Nat) : Option Definition :=
  (s.tree.usage? n).bind (s.lookup? n)

end FileScope

namespace Workspace

def fileScope (w : Workspace) (d : Document) : FileScope := ⟨d, .ofTree w d.tree⟩

/-- The declaration that a node of a document refers to, when the document is the
one stored under the uri. -/
def definition? (w : Workspace) (uri : String) (s : Site) : Option Definition :=
  (w.get? uri).bind fun d =>
    if d.revision = s.document.revision then (w.fileScope d).definition? s.node else none

def definitionAt? (w : Workspace) (uri : String) (p : Position) : Option Definition :=
  (w.get? uri).bind fun d => w.definition? uri ⟨d, d.tree.deepestAt p⟩

/-- Whether the names at two places of a file refer to the same declaration, or
both to none. -/
def sameDefinition (w : Workspace) (uri : String) (p q : Position) : Bool :=
  match w.definitionAt? uri p, w.definitionAt? uri q with
  | none, none => true
  | some a, some b => a.same b
  | _, _ => false

/-- The file and the stretch to go to from a place. -/
def goto? (w : Workspace) (uri : String) (p : Position) : Option (String × Range) :=
  (w.definitionAt? uri p).map fun d => (d.site.document.uri, d.site.range)

/-- The references of a document's nodes, in the order of the nodes. -/
def definitions (w : Workspace) (d : Document) : List (Nat × Definition) :=
  match w.get? d.uri with
  | none => []
  | some current =>
    if current.revision = d.revision then
      let scope := w.fileScope current
      d.tree.reachable.filterMap fun n => (scope.definition? n).map (n, ·)
    else []

end Workspace

end ElmScope
