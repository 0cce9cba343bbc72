import ElmScope.Completion.RecordTarget
import ElmScope.Completion.Request
import ElmScope.Module.Signature

/-! Completions of record fields. The type of a record comes from annotations: a
parameter has the matching segment of its function's annotation, and a named value
has the result of its own. A type that is a name is followed through type aliases
down to the fields. -/
namespace ElmScope

/-- How many type aliases are followed for one type. -/
def aliasReach : Nat := 64

namespace FileScope

/-- The type alias that a name means in a tree: its own one if the name has no
qualifier, else the one that this file imports. -/
def typeAlias? (s : FileScope) (d : Document) (name : String) : Option Site :=
  (if name.toList.contains '.' then none
    else (d.tree.findTypeAlias? name).map (Site.mk d)).or <|
  (s.imports.find? name .typeAlias).map (·.site)

def referredAlias? (s : FileScope) (type : Site) : Option Site :=
  (type.document.tree.childText? type.node .upperCaseQid).bind (s.typeAlias? type.document)

/-- The record type that a type comes down to, while no alias is followed twice and
few enough are followed. -/
def recordType? (s : FileScope) (followed : List Site) (type : Site) : Option Site :=
  match type.kind with
  | .recordType => some type
  | .typeExpression =>
    match _h : type.document.tree.firstNamedChild? type.node with
    | none => none
    | some child => s.recordType? followed ⟨type.document, child⟩
  | .typeRef =>
    match s.referredAlias? type with
    | none => none
    | some target =>
      if followed.any target.same || aliasReach ≤ followed.length then none
      else match target.document.tree.childOfKind? target.node .typeExpression with
        | none => none
        | some body => s.recordType? (followed ++ [target]) ⟨target.document, body⟩
  | _ => none
termination_by (aliasReach - followed.length, type.document.tree.size - type.node)
decreasing_by
  · have hMem : child ∈ type.document.tree.children type.node :=
      (List.mem_filter.mp (List.mem_of_mem_head? _h)).1
    have := Tree.children_bounds hMem
    exact Prod.Lex.right _ (by omega)
  · next hStop =>
    simp only [Bool.or_eq_true, decide_eq_true_eq, not_or, Nat.not_le] at hStop
    exact Prod.Lex.left _ _ (by simp only [List.length_append, List.length_singleton]; omega)

end FileScope

namespace Request

def site (r : Request) (n : Nat) : Site := ⟨r.scope.document, n⟩

def valueType? (r : Request) (name : String) : Option Nat :=
  match r.tree.findBinding? r.cursor name with
  | some binding =>
    if binding.kind = .parameter then r.tree.parameterType? binding.node
    else r.tree.resultType? binding.node
  | none => (r.tree.findFunction? name).bind r.tree.resultType?

/-- The value declaration around the cursor, or the last one begun before it. -/
def enclosingDeclaration? (r : Request) : Option Nat :=
  ((r.tree.ancestors r.cursor).find? fun n => r.tree.kind n = .valueDeclaration).or
    (r.tree.lastStarted? (r.tree.topLevelOfKind .valueDeclaration) r.position)

def fieldNamed? (record : Site) (name : String) : Option Nat :=
  let t := record.document.tree
  (t.childrenOfKind record.node .fieldType).find? fun field =>
    t.childText? field .lowerCaseIdentifier = some name

def targetType? (r : Request) : RecordTarget → Option Site
  | .value name => (r.valueType? name).bind fun type => r.scope.recordType? [] (r.site type)
  | .field target name =>
    (r.targetType? target).bind fun record =>
    (fieldNamed? record name).bind fun field =>
    (record.document.tree.childOfKind? field .typeExpression).bind fun type =>
    r.scope.recordType? [] ⟨record.document, type⟩
  | .literal =>
    (r.enclosingDeclaration?.bind r.tree.resultType?).bind fun type =>
      r.scope.recordType? [] (r.site type)

/-- A field of a record type, with its type as the detail. -/
def fieldCandidate? (t : Tree) (field : Nat) : Option Candidate :=
  (t.childText? field .lowerCaseIdentifier).map fun name =>
    { name, kind := .field, detail := t.childText? field .typeExpression }

def fieldCandidates (record : Site) : List Candidate :=
  let t := record.document.tree
  (t.childrenOfKind record.node .fieldType).filterMap (fieldCandidate? t)

/-- Where a field name is written, the fields of the record. -/
def recordFields? (r : Request) : Option (List Candidate) :=
  (r.tree.targetAt? r.position).map fun target =>
    ((r.targetType? target).map fieldCandidates).getD []

end Request

end ElmScope
