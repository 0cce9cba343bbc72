import ElmScope.Module.Surface
import ElmScope.Workspace

/-! What the import clauses of a file bring into scope. A clause offers its module
under the module's name and its alias, every shown symbol with all its constructors
under a qualified name, and bare names as its exposing list says. A clause whose
module is not in the workspace, or shows nothing, offers nothing. The index keeps
one entry for a name and a kind: a later offer takes the place of an earlier one. -/
namespace ElmScope

/-- An imported name with its declaration in the file it comes from. -/
structure ImportEntry where
  name : String
  kind : SymbolKind
  site : Site
  moduleName : String
deriving DecidableEq

namespace ImportEntry

def clashes (a b : ImportEntry) : Bool := a.name = b.name && a.kind = b.kind

end ImportEntry

/-- The entries of a file's imports, in the order in which their names and kinds
were first offered. -/
structure ImportIndex where
  entries : List ImportEntry := []

namespace ImportIndex

def empty : ImportIndex := {}

/-- An entry takes the place of the entry for its name and kind, or goes to the
end. -/
def place (entry : ImportEntry) : List ImportEntry → List ImportEntry
  | [] => [entry]
  | other :: rest =>
    if other.clashes entry then entry :: rest else other :: place entry rest

def insert (index : ImportIndex) (entry : ImportEntry) : ImportIndex :=
  ⟨place entry index.entries⟩

def find? (index : ImportIndex) (name : String) (kind : SymbolKind) : Option ImportEntry :=
  index.entries.find? fun entry => entry.name = name && entry.kind = kind

/-- An entry that was put in is found under its name and kind. -/
theorem find?_insert_self (index : ImportIndex) (entry : ImportEntry) :
    (index.insert entry).find? entry.name entry.kind = some entry := by
  obtain ⟨entries⟩ := index
  simp only [find?, insert]
  induction entries with
  | nil => simp [place]
  | cons first rest ih =>
    rw [place]
    split
    · simp
    · next h =>
      rw [List.find?_cons_of_neg (by simpa [ImportEntry.clashes] using h)]
      exact ih

/-- Putting an entry in does not touch the entries for other names and kinds. -/
theorem find?_insert_of_ne (index : ImportIndex) (entry : ImportEntry) {name : String}
    {kind : SymbolKind} (h : ¬ (entry.name = name ∧ entry.kind = kind)) :
    (index.insert entry).find? name kind = index.find? name kind := by
  obtain ⟨entries⟩ := index
  simp only [find?, insert]
  induction entries with
  | nil => simpa [place] using h
  | cons first rest ih =>
    rw [place]
    split
    · next hc =>
      simp only [ImportEntry.clashes, Bool.and_eq_true, decide_eq_true_eq] at hc
      rw [List.find?_cons_of_neg (by simpa using h),
        List.find?_cons_of_neg (by simpa [hc.1, hc.2] using h)]
    · simp only [List.find?_cons, ih]

def ofOffers (offers : List ImportEntry) : ImportIndex := offers.foldl insert empty

end ImportIndex

/-- The module that an import clause means: its document, what it shows, and the
header of the document. -/
structure Imported where
  document : Document
  surface : Surface
  header : Nat

namespace Imported

def ofClause? (w : Workspace) (t : Tree) (clause : Nat) : Option Imported :=
  (t.importedModule? clause).bind fun name =>
  (w.findModule? name).bind fun document =>
  document.tree.surface?.bind fun surface =>
  document.tree.header?.map fun header => ⟨document, surface, header⟩

def entry (m : Imported) (name : String) (kind : SymbolKind) (node : Nat) : ImportEntry :=
  ⟨name, kind, ⟨m.document, node⟩, m.surface.moduleName⟩

def moduleEntries (m : Imported) (name qualifier : String) : List ImportEntry :=
  m.entry name .moduleHeader m.header ::
    if qualifier = name then [] else [m.entry qualifier .moduleHeader m.header]

/-- A shown symbol and all its constructors under qualified names. -/
def qualifiedEntries (m : Imported) (qualifier : String) (symbol : ExposedSymbol) :
    List ImportEntry :=
  m.entry (qualifier ++ "." ++ symbol.name) symbol.kind.toSymbolKind symbol.node ::
    symbol.listed.map fun c =>
      m.entry (qualifier ++ "." ++ c.name) .unionConstructor c.node

/-- A shown symbol under its bare name, with its bare constructors or without. -/
def bareEntries (m : Imported) (withConstructors : Bool) (symbol : ExposedSymbol) :
    List ImportEntry :=
  m.entry symbol.name symbol.kind.toSymbolKind symbol.node ::
    if withConstructors then symbol.bare.map fun c => m.entry c.name .unionConstructor c.node
    else []

/-- The shown symbol that an item of an import's exposing list names. -/
def listedSymbol? (m : Imported) (t : Tree) (item : Nat) : Option ExposedSymbol :=
  match t.kind item with
  | .exposedValue => m.surface.find? (t.text item) .function
  | .exposedOperator =>
    (t.childText? item .operatorIdentifier).bind (m.surface.find? · .operator)
  | .exposedType =>
    (t.childText? item .upperCaseIdentifier).bind fun name =>
      (m.surface.find? name .customType).or (m.surface.find? name .typeAlias)
  | _ => none

/-- What an item of an import's exposing list brings in under bare names. The
constructors come along when the item has a constructor part. -/
def listedEntries (m : Imported) (t : Tree) (item : Nat) : List ImportEntry :=
  match m.listedSymbol? t item with
  | none => []
  | some symbol =>
    m.bareEntries (t.childOfKind? item .exposedUnionConstructors).isSome symbol

def exposedEntries (m : Imported) (t : Tree) (list : Nat) : List ImportEntry :=
  if (t.childOfKind? list .doubleDot).isSome then m.surface.exposed.flatMap (m.bareEntries true)
  else (t.namedChildren list).flatMap (m.listedEntries t)

end Imported

def importOffers (w : Workspace) (t : Tree) (clause : Nat) : List ImportEntry :=
  match t.importedModule? clause, Imported.ofClause? w t clause with
  | some name, some m =>
    let qualifier := (t.importAlias? clause).getD name
    m.moduleEntries name qualifier ++ m.surface.exposed.flatMap (m.qualifiedEntries qualifier) ++
      ((t.childOfKind? clause .exposingList).map (m.exposedEntries t)).getD []
  | _, _ => []

def ImportIndex.ofTree (w : Workspace) (t : Tree) : ImportIndex :=
  .ofOffers (t.importClauses.flatMap (importOffers w t))

/-- The import index of the file stored under a uri, empty for an unknown file. -/
def Workspace.importIndex (w : Workspace) (uri : String) : ImportIndex :=
  match w.get? uri with
  | none => .empty
  | some d => .ofTree w d.tree

end ElmScope
