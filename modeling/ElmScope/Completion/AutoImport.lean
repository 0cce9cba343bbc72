import ElmScope.Completion.Request

/-! Names that other modules show and the file does not see yet, each with the edit
that imports it. A first import of a module gets a line of its own behind the last
import; a further name goes into the import that is there. -/
namespace ElmScope

namespace Tree

/-- Where a new import clause goes: to the line behind the last import clause, else
behind the header, else to the top. -/
def newImportPlace (t : Tree) : Position :=
  match t.importClauses.getLast?.or t.header? with
  | some n => ⟨(t.stop n).line + 1, 0⟩
  | none => .origin

def extendImport (t : Tree) (clause : Nat) (item : String) : TextEdit :=
  match t.childOfKind? clause .exposingList with
  | some list =>
    let stop := t.stop list
    .insertion ⟨stop.line, stop.character - 1⟩ (", " ++ item)
  | none => .insertion (t.stop clause) (" exposing (" ++ item ++ ")")

/-- The edit that makes an item of a module visible under its bare name. -/
def importEdit (t : Tree) (moduleName item : String) : TextEdit :=
  match t.importClauses.find? fun clause => t.importedModule? clause = some moduleName with
  | some clause => t.extendImport clause item
  | none =>
    .insertion t.newImportPlace ("import " ++ moduleName ++ " exposing (" ++ item ++ ")\n")

end Tree

namespace Request

def importable (r : Request) (moduleName : String) (kind : SymbolKind) (name item : String) :
    Candidate where
  name := name
  kind := .symbol kind
  sourceModule := some moduleName
  detail := some ("Auto import from module '" ++ moduleName ++ "'")
  edits := [r.tree.importEdit moduleName item]

/-- What a shown symbol offers for import, unless it is visible. Constructors are
imported with their whole type. -/
def importableOf (r : Request) (visible : List String) (withConstructors : Bool)
    (moduleName : String) (symbol : ExposedSymbol) : List Candidate :=
  let kind := symbol.kind.toSymbolKind
  (if visible.contains symbol.name then []
    else [r.importable moduleName kind symbol.name symbol.name]) ++
  if withConstructors then
    (symbol.bare.filter fun c => !visible.contains c.name).map fun c =>
      r.importable moduleName .unionConstructor c.name (symbol.name ++ "(..)")
  else []

/-- What other files show of the accepted kinds, operators never. -/
def autoImports (r : Request) (visible : List String) (accept : ExposedKind → Bool)
    (withConstructors : Bool) : List Candidate :=
  (r.workspace.documents.filter (·.uri ≠ r.scope.document.uri)).flatMap fun d =>
    match d.tree.surface? with
    | none => []
    | some surface =>
      (surface.exposed.filter fun symbol =>
        accept symbol.kind && symbol.kind ≠ .operator).flatMap
        (r.importableOf visible withConstructors surface.moduleName)

def withAutoImports (r : Request) (accept : ExposedKind → Bool) (withConstructors : Bool)
    (candidates : List Candidate) : List Candidate :=
  if r.settings.autoImportCompletions then
    candidates ++ r.autoImports (candidates.map (·.name)) accept withConstructors
  else candidates

end Request

end ElmScope
