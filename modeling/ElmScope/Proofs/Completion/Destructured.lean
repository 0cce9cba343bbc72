import ElmScope.Proofs.Completion.NestedRecord
import ElmScope.Proofs.Completion.Parameter

/-! Variables bound inside a parameter's pattern. A variable that a pattern takes out of a record
or a tuple stands for a part of the parameter, but its type is looked up as that of the whole
parameter, however deep in the pattern it is. So is the type of every path of fields from it. -/
namespace ElmScope

namespace Request

def fieldRecord? (r : Request) (record : Site) (name : String) : Option Site :=
  (fieldNamed? record name).bind fun field =>
  (record.document.tree.childOfKind? field .typeExpression).bind fun type =>
  r.scope.recordType? [] ⟨record.document, type⟩

/-- The record type of a parameter: what its segment of the annotation comes down to. -/
def parameterRecord? (r : Request) (parameter : Nat) : Option Site :=
  (r.tree.parameterType? parameter).bind fun type => r.scope.recordType? [] (r.site type)

variable {r : Request} {name : String} {v : Nat}

/-- From the record of a name each field on a path leads to the record of that field. -/
theorem targetType?_nested (r : Request) (base : Option String) (fields : List String) :
    r.targetType? (.nested base fields) =
      (r.targetType? (.nested base [])).bind fun record => fields.foldlM r.fieldRecord? record := by
  induction fields using List.reverseRecOn with
  | nil => exact (Option.bind_fun_some _).symm
  | append_singleton fields field ih =>
      have hStep : r.targetType? (.nested base (fields ++ [field])) =
          (r.targetType? (.nested base fields)).bind (r.fieldRecord? · field) := by
        rw [RecordTarget.nested, List.foldl_concat, targetType?]
        rfl
      rw [hStep, ih, Option.bind_assoc]
      simp only [List.foldlM_append, List.foldlM_cons, List.foldlM_nil, bind_pure]
      rfl

/-- The record of a name that a pattern binds has the type looked up for the pattern variable. -/
theorem targetType?_of_findBinding?
    (hBinding : r.tree.findBinding? r.cursor name = some ⟨name, v, .parameter⟩) :
    r.targetType? (.nested (some name) []) = r.parameterRecord? v := by
  have hType : r.valueType? name = r.tree.parameterType? v := by
    rw [valueType?, hBinding]
    rfl
  rw [parameterRecord?, ← hType]
  rfl

end Request

/-- A variable bound at any depth inside a parameter has the type of the whole parameter, the
segment at the parameter's place. Where its fields are completed, or those of the record at the
end of a path from it, the search starts at the record type of the whole parameter. -/
theorem Request.targetType?_destructured (r : Request) (name : String)
    (v declaration left parameter : Nat)
    (hBinding : r.tree.findBinding? r.cursor name = some ⟨name, v, .parameter⟩)
    (hLies : r.tree.LiesIn v declaration left parameter) :
    (∀ type, r.tree.parameterType? v = some type ↔ ∃ place,
      (r.tree.namedBefore left parameter).length = place + 1 ∧
        (r.tree.typeSegments declaration)[place]? = some type) ∧
    ∀ fields,
      r.targetType? (.nested (some name) fields) = (r.parameterRecord? parameter).bind
        (fun record => fields.foldlM r.fieldRecord? record) ∧
      (r.tree.targetAt? r.position = some (.nested (some name) fields) →
        r.recordFields? = some ((((r.parameterRecord? parameter).bind fun record =>
          fields.foldlM r.fieldRecord? record).map fieldCandidates).getD [])) := by
  have hWhole := hLies.parameterType?_eq
  have hBase : r.targetType? (.nested (some name) []) = r.parameterRecord? parameter := by
    rw [targetType?_of_findBinding? hBinding, parameterRecord?, parameterRecord?, hWhole]
  have hTarget (fields : List String) : r.targetType? (.nested (some name) fields) =
      (r.parameterRecord? parameter).bind fun record => fields.foldlM r.fieldRecord? record := by
    rw [targetType?_nested, hBase]
  refine ⟨fun type => ?_, fun fields => ⟨hTarget fields, fun hAt => ?_⟩⟩
  · rw [hWhole]
    exact Tree.parameterType?_child_iff hLies.kind_declaration hLies.leftSide hLies.child
  · rw [recordFields?, hAt, Option.map_some, hTarget]

namespace Sample

def recordPattern (field : String) : List Event :=
  [.gap " ", .enter (.ofName "record_pattern"), .punctuation "\x7b"] ++ variablePattern field ++
    [.gap " ", .punctuation "\x7d", .leave]

/-- A file with a record type `R` of a field `x`, the annotation `f : R -> Int`, and the function
`f { x } = x.x`. -/
def destructured : Tree := .ofEvents <|
  [.enter .file] ++ aliasFor "R" (recordOf "x" (namedType "Int")) ++
    functionLines (functionType "R" "Int") (recordPattern "x") "x.x" ++ [.leave]

def documentDestructured : Document := ⟨"file", destructured, none, 0⟩

def destructuredWorkspace : Workspace := .ofChanges [.upsert "file" destructured none]

/-- Completion behind `x.` in the body. -/
def destructuredRequest : Request := ⟨destructuredWorkspace,
  destructuredWorkspace.fileScope documentDestructured, {}, .character '.', ⟨2, 12⟩⟩

end Sample

/-- The field `x` of the parameter is bound by a pattern inside the pattern of the whole, yet the
fields looked up for it are those of the whole. -/
theorem Request.targetType?_destructured_field :
    Sample.destructured.findBinding? Sample.destructuredRequest.cursor "x" =
        some ⟨"x", 30, .parameter⟩ ∧
      Sample.destructured.LiesIn 30 25 26 28 ∧
      Sample.destructured.parameterType? 30 = some 18 ∧
      Sample.destructuredRequest.targetType? (.value "x") =
        Sample.destructuredRequest.parameterRecord? 28 := by
  obtain ⟨hBinding, hNearest, hLeft, hChild, hAbove, hBefore, hSegment⟩ :
      Sample.destructured.findBinding? Sample.destructuredRequest.cursor "x" =
          some ⟨"x", 30, .parameter⟩ ∧
        (Sample.destructured.ancestors 30).find?
          (Sample.destructured.kind · = .valueDeclaration) = some 25 ∧
        Sample.destructured.childOfKind? 25 .functionDeclarationLeft = some 26 ∧
        28 ∈ Sample.destructured.namedChildren 26 ∧ 28 ∈ Sample.destructured.ancestors 30 ∧
        (Sample.destructured.namedBefore 26 28).length = 1 ∧
        (Sample.destructured.typeSegments 25)[0]? = some 18 := by decide +kernel
  have hLies : Sample.destructured.LiesIn 30 25 26 28 :=
    ⟨hNearest, hLeft, hChild, .inr hAbove⟩
  obtain ⟨hType, hTarget⟩ :=
    targetType?_destructured Sample.destructuredRequest "x" 30 25 26 28 hBinding hLies
  refine ⟨hBinding, hLies, (hType 18).mpr ⟨0, hBefore, hSegment⟩, ?_⟩
  exact (hTarget []).1.trans (Option.bind_fun_some _)

/-- The variable `x` is no parameter itself, but it has a type, and behind it the fields of the
record that it is a field of are offered. -/
theorem Request.recordFields?_destructured :
    Sample.destructured.kind 28 = .ofName "record_pattern" ∧
      Sample.destructured.kind 30 = .lowerPattern ∧
      30 ∈ Sample.destructured.descendants 28 ∧
      30 ∉ Sample.destructured.namedChildren 26 ∧
      Sample.destructured.parameterType? 30 = some 18 ∧
      Sample.destructuredRequest.parameterRecord? 28 = some ⟨Sample.documentDestructured, 6⟩ ∧
      (Sample.destructuredWorkspace.completions "file" ⟨2, 12⟩ (.character '.') {}).map (·.name) =
        ["x"] := by
  obtain ⟨hPattern, hVariable, hInside, hNoParameter, hType, hWhole⟩ :
      Sample.destructured.kind 28 = .ofName "record_pattern" ∧
        Sample.destructured.kind 30 = .lowerPattern ∧
        30 ∈ Sample.destructured.descendants 28 ∧
        30 ∉ Sample.destructured.namedChildren 26 ∧
        Sample.destructured.parameterType? 30 = some 18 ∧
        Sample.destructured.parameterType? 28 = some 18 := by decide +kernel
  obtain ⟨hRef, hName, hOwn, hBody, hChild, hRecord⟩ : Sample.destructured.kind 18 = .typeRef ∧
      Sample.destructured.childText? 18 .upperCaseQid = some "R" ∧
      Sample.destructured.findTypeAlias? "R" = some 1 ∧
      Sample.destructured.childOfKind? 1 .typeExpression = some 5 ∧
      Sample.destructured.firstNamedChild? 5 = some 6 ∧
      Sample.destructured.kind 6 = .recordType := by decide +kernel
  obtain ⟨hTarget, hValue, hImport, hExposing, hHeader, hFields⟩ :
      Sample.destructured.targetAt? ⟨2, 12⟩ = some (.value "x") ∧
        Sample.destructuredRequest.valueType? "x" = some 18 ∧
        Sample.destructuredRequest.importModule? = none ∧
        Sample.destructuredRequest.importExposing? = none ∧
        Sample.destructuredRequest.moduleExposing? = none ∧
        fieldCandidates ⟨Sample.documentDestructured, 6⟩ =
          [⟨"x", .field, none, some "Int", []⟩] := by decide +kernel
  have hFound : Sample.destructuredRequest.scope.recordType? []
      (Sample.destructuredRequest.site 18) = some ⟨Sample.documentDestructured, 6⟩ :=
    FileScope.recordType?_ownAlias hRef hName rfl hOwn hBody hChild hRecord
  have hWholeRecord : Sample.destructuredRequest.parameterRecord? 28 =
      some ⟨Sample.documentDestructured, 6⟩ := by
    rw [parameterRecord?]
    exact (congrArg (Option.bind · _) hWhole).trans hFound
  have hPart : Sample.destructuredRequest.targetType? (.value "x") =
      some ⟨Sample.documentDestructured, 6⟩ := by
    rw [targetType?, hValue, Option.bind_some, hFound]
  have hAnswer : Sample.destructuredWorkspace.completions "file" ⟨2, 12⟩ (.character '.') {} =
      Sample.destructuredRequest.answer := rfl
  refine ⟨hPattern, hVariable, hInside, hNoParameter, hType, hWholeRecord, ?_⟩
  rw [hAnswer, answer_of_targetType? hImport hExposing hHeader hTarget hPart, hFields]
  rfl

end ElmScope
