/-! The settings of a workspace, and how they are read. Values come in layers: the
defaults, then the user's file, then the workspace's file, then what the client
forces. What files look like, how one layer is laid over another and what a value
means is left to a reader. -/
namespace ElmScope

/-- What a user can switch, and how many completions are answered at most. -/
structure Settings where
  hover : Bool := true
  syntaxDiagnostics : Bool := true
  /-- Whether names of modules not yet imported are offered. -/
  autoImportCompletions : Bool := true
  /-- Whether qualified names are offered in expressions. -/
  qualifiedCompletions : Bool := true
  completionLimit : Nat := 100
deriving DecidableEq, Repr, Inhabited

namespace Settings

/-- A value in a settings file. A number with a fraction or an exponent is a
floating-point number. -/
inductive Value where
  | null
  | bool (b : Bool)
  | integer (n : Int)
  | float (x : Float)
  | text (s : String)
  | list (items : List Value)
  | object (fields : List (String × Value))
deriving Inhabited

/-- The values that one layer gives, by key. -/
abbrev Layer := List (String × Value)

inductive Client where
  /-- It tells nothing. -/
  | silent
  /-- It shows no hovers. -/
  | withoutHover
  | withHover
deriving DecidableEq, Repr

def Client.layer : Client → Layer
  | withoutHover => [("hover", .bool false)]
  | _ => []

def defaultLayer : Layer :=
  let settings : Settings := {}
  [("hover", .bool settings.hover),
    ("syntax_diagnostics", .bool settings.syntaxDiagnostics),
    ("auto_import_completions", .bool settings.autoImportCompletions),
    ("qualified_completions", .bool settings.qualifiedCompletions),
    ("completion_limit", .integer settings.completionLimit)]

/-- What reads the files of settings, lays the layers over each other and converts values. -/
structure Reader where
  /-- What is stored as a file. -/
  File : Type
  /-- Layers laid over each other. -/
  Table : Type
  /-- The object that a file holds, if it holds one. -/
  object? : File → Option Layer
  /-- A key in lower case. -/
  lower : String → String
  /-- Whether a value defines what it is given for. Values are merged if they are objects, and
  then there may be nothing to define. -/
  defines : Value → Bool
  table : Layer → Table
  overlay : Table → Table → Table
  /-- The table of defaults, files and overrides. -/
  build? : Layer → List File → Layer → Option Table
  get? : Table → String → Option Value
  toBool? : Value → Option Bool
  toLimit? : Value → Option Nat

namespace Reader

def ofTable? (reader : Reader) (table : reader.Table) : Option Settings := do
  let flag (name : String) := (reader.get? table name).bind reader.toBool?
  let limit (name : String) := (reader.get? table name).bind reader.toLimit?
  return {
    hover := ← flag "hover"
    syntaxDiagnostics := ← flag "syntax_diagnostics"
    autoImportCompletions := ← flag "auto_import_completions"
    qualifiedCompletions := ← flag "qualified_completions"
    completionLimit := ← limit "completion_limit" }

def load? (reader : Reader) (user workspace : Option reader.File) (client : Client) :
    Option Settings :=
  (reader.build? defaultLayer (user.toList ++ workspace.toList) client.layer).bind reader.ofTable?

end Reader

end Settings

end ElmScope
