import ElmScope.Module.Declaration
import ElmScope.Text.Width

/-! How a name is used, judged by its place in the tree alone: by the kind of the
node above it, by the keyword before that node, and by the list that holds it. -/
namespace ElmScope

/-- The uses of a name that can refer to a declaration. -/
inductive Usage where
  /-- The module name in a file's own header, with the node above it. -/
  | moduleHeader (declaration : Nat)
  /-- The module name of an import clause. -/
  | importedModule (name : String)
  /-- A segment of a qualified name before a dot, with the qualifier up to it. -/
  | moduleQualifier (qualifier : String)
  /-- The name being declared, with the `let` block that holds the declaration. -/
  | declaredName (name : String) (block : Option Nat)
  /-- A value that the file's own header lists, or the name of an annotation. -/
  | ownFunction (name : String)
  /-- A type that the file's own header lists, or the name of a type declaration. -/
  | ownType (name : String)
  /-- A value listed by an import clause. -/
  | importedValue (name : String)
  /-- A type listed by an import clause. -/
  | importedType (name : String)
  /-- The name of a union variant. -/
  | variant (node : Nat)
  /-- A type or constructor with its whole qualified name. -/
  | upperName (text : String)
  /-- A value, with its last segment and its whole qualified name. -/
  | value (name qualified : String)
  | operator (symbol : String)
deriving DecidableEq, Repr

namespace Tree

def isQualifier (t : Tree) (segment : Nat) : Bool :=
  t.kind segment = .upperCaseIdentifier &&
    (t.nextSibling? segment).any fun next => t.kind next = .dot

/-- The source from the beginning of a qualified name to the end of one of its
segments: `Json.Decode` for the segment `Decode` of `Json.Decode.int`. -/
def qualifierText (t : Tree) (qualified segment : Nat) : String :=
  .ofList (Text.slice (t.startByte qualified) (t.endByte segment) t.source.toList)

/-- Whether a list's owner, two nodes above its item, has a kind. -/
def isListedUnder (t : Tree) (item : Nat) (owner : Kind) : Bool :=
  ((t.parent? item).bind t.parent?).any fun n => t.kind n = owner

def precedingKind? (t : Tree) (n : Nat) : Option Kind := (t.prevNamedSibling? n).map t.kind

/-- Whether a name in a type declaration stands right after `type` or `alias`. -/
def isDeclaredType (t : Tree) (n : Nat) : Bool :=
  match t.precedingKind? n with
  | some .typeKeyword | some .aliasKeyword => true
  | _ => false

/-- The use of an operator symbol; other nodes have none of their own. -/
def operatorUsage? (t : Tree) (n : Nat) : Option Usage :=
  if t.kind n = .operatorIdentifier then some (.operator (t.text n)) else none

/-- The use of a segment of a qualified name outside headers and imports. -/
def segmentUsage (t : Tree) (n parent : Nat) (whole : Usage) : Usage :=
  if t.isQualifier n then .moduleQualifier (t.qualifierText parent n) else whole

def usageUnder? (t : Tree) (n parent : Nat) : Option Usage :=
  match t.kind parent with
  | .upperCaseQid =>
    match t.precedingKind? parent with
    | some .moduleKeyword => (t.parent? parent).map .moduleHeader
    | some .importKeyword => some (.importedModule (t.text parent))
    | _ => some (t.segmentUsage n parent (.upperName (t.text parent)))
  | .valueQid => some (t.segmentUsage n parent (.value (t.text n) (t.text parent)))
  | .lowerPattern | .recordBaseIdentifier => some (.value (t.text n) (t.text parent))
  | .functionDeclarationLeft =>
    some <| .declaredName (t.text n) <|
      ((t.parent? parent).bind t.parent?).filter (t.kind · = .letInExpr)
  | .typeSignature => some (.ownFunction (t.text n))
  | .exposedValue =>
    if t.isListedUnder parent .moduleDeclaration then some (.ownFunction (t.text n))
    else if t.isListedUnder parent .importClause then some (.importedValue (t.text n))
    else t.operatorUsage? n
  | .exposedType =>
    if t.isListedUnder parent .moduleDeclaration then some (.ownType (t.text n))
    else if t.isListedUnder parent .importClause then some (.importedType (t.text n))
    else t.operatorUsage? n
  | .typeDeclaration | .typeAliasDeclaration =>
    if t.isDeclaredType n then some (.ownType (t.text n)) else t.operatorUsage? n
  | .unionVariant => some (.variant parent)
  | _ => t.operatorUsage? n

/-- The node whose use a node shows: a whole qualified name is used as its last
segment is. -/
def usedNode? (t : Tree) (n : Nat) : Option Nat :=
  match t.kind n with
  | .valueQid | .upperCaseQid => t.lastNamedChild? n
  | _ => some n

def usage? (t : Tree) (n : Nat) : Option Usage :=
  (t.usedNode? n).bind fun used => (t.parent? used).bind (t.usageUnder? used)

end Tree

end ElmScope
