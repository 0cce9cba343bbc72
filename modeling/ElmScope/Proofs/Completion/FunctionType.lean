import ElmScope.Proofs.Completion.Context
import ElmScope.Proofs.Completion.TypeChain

/-! Function types in the search for a record type. The type of a parameter or of a result is a
segment of an annotation, but within the search a type expression is its first named child,
however many segments it has. A function type comes down to what its first segment comes down
to, wherever on the way to a record type it stands. -/
namespace ElmScope

/-- The type of functions: a type expression with more than one segment. -/
structure Site.IsFunctionType (t : Site) : Prop where
  kind : t.kind = .typeExpression
  segments : 2 ≤ (t.document.tree.arrowSegments t.node).length

/-- A first named child that separates no segments is the first segment. -/
theorem Tree.head?_arrowSegments {t : Tree} {n child : Nat} (h : t.firstNamedChild? n = some child)
    (hSegment : separatesSegments (t.kind child) = false) :
    (t.arrowSegments n).head? = some child := by
  obtain ⟨rest, hRest⟩ := List.head?_eq_some_iff.mp h
  rw [arrowSegments, hRest, List.filter_cons_of_pos (by rw [hSegment, Bool.not_false])]
  rfl

namespace TypeChain

variable {alias? : Site → Option Site} {type record : Site} {steps first : Nat}
  {followed : List Site} {others : List Nat}

/-- What separates segments leads to no record type. -/
theorem not_separates (h : TypeChain alias? type steps followed record)
    (hRecord : record.kind = .recordType) : Tree.separatesSegments type.kind = false := by
  cases h with
  | here => exact congrArg Tree.separatesSegments hRecord
  | segment hKind => exact congrArg Tree.separatesSegments hKind
  | through hKind => exact congrArg Tree.separatesSegments hKind

/-- A type expression leads to a record type by its first segment alone, and only if no comment is
before it. A comment would lead nowhere. -/
theorem iff_first (hKind : type.kind = .typeExpression) (hRecord : record.kind = .recordType)
    (hSegments : type.document.tree.arrowSegments type.node = first :: others) :
    (∃ steps, TypeChain alias? type steps followed record) ↔
      type.document.tree.firstNamedChild? type.node = some first ∧
        ∃ steps, TypeChain alias? ⟨type.document, first⟩ steps followed record := by
  constructor
  · rintro ⟨_, h⟩
    cases h with
    | here => exact nomatch hRecord.symm.trans hKind
    | through hOther => exact nomatch hKind.symm.trans hOther
    | @segment _ _ child _ _ _ hChild hRest =>
        have hFirst := Tree.head?_arrowSegments hChild (hRest.not_separates hRecord)
        rw [hSegments, List.head?_cons] at hFirst
        obtain rfl := Option.some.inj hFirst
        exact ⟨hChild, _, hRest⟩
  · rintro ⟨hChild, _, hRest⟩
    exact ⟨_, .segment hKind hChild hRest⟩

end TypeChain

/-- What a type comes down to that leads to a type expression, by the first segment of that. -/
theorem FileScope.recordType?_iff_first {w : Workspace} {d : Document} {type t record : Site}
    {steps first : Nat} {followed : List Site} {others : List Nat} (hw : w.RevisionsDistinct)
    (hType : type.IsStored w) (h : TypeChain (w.fileScope d).referredAlias? type steps followed t)
    (hKind : t.kind = .typeExpression)
    (hSegments : t.document.tree.arrowSegments t.node = first :: others) :
    (w.fileScope d).recordType? [] type = some record ↔
      t.document.tree.firstNamedChild? t.node = some first ∧ record.kind = .recordType ∧
        ∃ more rest, TypeChain (w.fileScope d).referredAlias? ⟨t.document, first⟩ more rest record ∧
          followed.length + rest.length ≤ aliasReach := by
  rw [recordType?_iff_of_chain hw hType h]
  constructor
  · rintro ⟨hRecord, more, rest, hRest, hFew⟩
    obtain ⟨hFirst, fewer, hInner⟩ :=
      (TypeChain.iff_first hKind hRecord hSegments).mp ⟨more, hRest⟩
    exact ⟨hFirst, hRecord, fewer, rest, hInner, hFew⟩
  · rintro ⟨hFirst, hRecord, more, rest, hRest, hFew⟩
    obtain ⟨steps, hOuter⟩ :=
      (TypeChain.iff_first hKind hRecord hSegments).mpr ⟨hFirst, more, hRest⟩
    exact ⟨hRecord, steps, rest, hOuter, hFew⟩

/-- A function type comes down to what its first segment comes down to, provided that no comment
is before it, and no other segment counts. The same is so of every type that leads to a function
type, through however many aliases. -/
theorem Workspace.recordType?_functionType (changes : List Change) (d : Document) (t : Site)
    (hStored : t.document ∈ (ofChanges changes).documents) (hFunction : t.IsFunctionType) :
    let s := (ofChanges changes).fileScope d
    ∃ first others, t.document.tree.arrowSegments t.node = first :: others ∧ others ≠ [] ∧
      (∀ record, s.recordType? [] t = some record ↔
        t.document.tree.firstNamedChild? t.node = some first ∧
          s.recordType? [] ⟨t.document, first⟩ = some record) ∧
      ∀ type steps followed, type.document ∈ (ofChanges changes).documents →
        TypeChain s.referredAlias? type steps followed t →
        ∀ record, s.recordType? [] type = some record ↔
          t.document.tree.firstNamedChild? t.node = some first ∧ record.kind = .recordType ∧
            ∃ more rest, TypeChain s.referredAlias? ⟨t.document, first⟩ more rest record ∧
              followed.length + rest.length ≤ aliasReach := by
  intro s
  have hw : (ofChanges changes).RevisionsDistinct := revisionsDistinct_ofChanges changes
  obtain ⟨first, others, hSegments⟩ :
      ∃ first others, t.document.tree.arrowSegments t.node = first :: others :=
    List.exists_cons_of_length_pos (Nat.lt_of_lt_of_le Nat.two_pos hFunction.segments)
  have hMore : others ≠ [] := by
    rintro rfl
    have hMany := hFunction.segments
    rw [hSegments, List.length_singleton] at hMany
    omega
  refine ⟨first, others, hSegments, hMore, fun record => ?_, ?_⟩
  · rw [FileScope.recordType?_iff_first hw hStored (.here t) hFunction.kind hSegments,
      FileScope.recordType?_eq_some_iff hw (Site.IsStored.at hStored first)]
    simp only [List.length_nil, Nat.zero_add]
  · intro type steps followed hType h record
    exact FileScope.recordType?_iff_first hw hType h hFunction.kind hSegments

namespace Sample

def functionType (argument result : String) : List Event :=
  namedType argument ++ [.gap " ", .token .arrow "->", .gap " "] ++ namedType result

/-- A file with a record type `R`, the function types `H` from it and `G` to it, and a function
that reads a field of an `H`. -/
def functions : Tree := .ofEvents <|
  [.enter .file] ++ aliasFor "R" (recordOf "x" (namedType "Int")) ++
    aliasFor "H" (functionType "R" "Int") ++ aliasFor "G" (functionType "Int" "R") ++
    accessLines "H" "m.x" ++ [.leave]

def documentFunctions : Document := ⟨"file", functions, none, 0⟩

def functionsWorkspace : Workspace := .ofChanges [.upsert "file" functions none]

def functionsScope : FileScope := functionsWorkspace.fileScope documentFunctions

/-- What `H` refers to is a function type. -/
theorem chain_function : TypeChain functionsScope.referredAlias? ⟨documentFunctions, 42⟩ 1
    [⟨documentFunctions, 15⟩] ⟨documentFunctions, 19⟩ := by
  obtain ⟨hKind, hName, hOwn, hBody⟩ : functions.kind 42 = .typeRef ∧
      functions.childText? 42 .upperCaseQid = some "H" ∧ functions.findTypeAlias? "H" = some 15 ∧
      functions.childOfKind? 15 .typeExpression = some 19 := by decide +kernel
  exact .through hKind (FileScope.referredAlias?_own hName rfl hOwn) hBody (.here _)

/-- The first segment of that is the record type `R`. -/
theorem chain_argument : TypeChain functionsScope.referredAlias? ⟨documentFunctions, 20⟩ 2
    [⟨documentFunctions, 1⟩] ⟨documentFunctions, 6⟩ := by
  obtain ⟨hKind, hName, hOwn, hBody, hExpression, hChild⟩ : functions.kind 20 = .typeRef ∧
      functions.childText? 20 .upperCaseQid = some "R" ∧ functions.findTypeAlias? "R" = some 1 ∧
      functions.childOfKind? 1 .typeExpression = some 5 ∧
      functions.kind 5 = .typeExpression ∧ functions.firstNamedChild? 5 = some 6 := by
    decide +kernel
  exact .through hKind (FileScope.referredAlias?_own hName rfl hOwn) hBody
    (.segment hExpression hChild (.here _))

theorem isFunctionType_functions : Site.IsFunctionType ⟨documentFunctions, 19⟩ ∧
    Site.IsFunctionType ⟨documentFunctions, 31⟩ := by
  obtain ⟨hKind, hMany, hOtherKind, hOtherMany⟩ : functions.kind 19 = .typeExpression ∧
      2 ≤ (functions.arrowSegments 19).length ∧ functions.kind 31 = .typeExpression ∧
      2 ≤ (functions.arrowSegments 31).length := by decide +kernel
  exact ⟨⟨hKind, hMany⟩, ⟨hOtherKind, hOtherMany⟩⟩

end Sample

/-- What `H` refers to comes down to the record type of its argument. What `G` is comes down to
nothing, although its result is a record. -/
theorem Workspace.recordType?_functionType_argument :
    Site.IsFunctionType ⟨Sample.documentFunctions, 19⟩ ∧
      Site.IsFunctionType ⟨Sample.documentFunctions, 31⟩ ∧
      Sample.functionsScope.recordType? [] ⟨Sample.documentFunctions, 42⟩ =
        some ⟨Sample.documentFunctions, 6⟩ ∧
      ∀ record, Sample.functionsScope.recordType? [] ⟨Sample.documentFunctions, 31⟩ ≠
        some record := by
  have hStored : Sample.documentFunctions ∈ Sample.functionsWorkspace.documents :=
    List.mem_singleton_self _
  obtain ⟨hSegments, hFirst, hRecord, hOther, hInt, hUnknown⟩ :
      Sample.functions.arrowSegments 19 = [20, 24] ∧
        Sample.functions.firstNamedChild? 19 = some 20 ∧
        Sample.functions.kind 6 = .recordType ∧
        Sample.functions.arrowSegments 31 = [32, 36] ∧
        Sample.functions.kind 32 = .typeRef ∧
        Sample.functionsScope.referredAlias? ⟨Sample.documentFunctions, 32⟩ = none := by
    decide +kernel
  obtain ⟨hArgument, hResult⟩ := Sample.isFunctionType_functions
  refine ⟨hArgument, hResult, ?_, fun record hFound => ?_⟩
  · obtain ⟨first, others, hAll, -, -, hLeads⟩ :=
      recordType?_functionType [.upsert "file" Sample.functions none] Sample.documentFunctions
        ⟨Sample.documentFunctions, 19⟩ hStored hArgument
    obtain rfl : first = 20 := (List.cons.inj (hAll.symm.trans hSegments)).1
    exact (hLeads _ _ _ hStored Sample.chain_function _).mpr
      ⟨hFirst, hRecord, _, _, Sample.chain_argument, by decide⟩
  · obtain ⟨first, others, hAll, -, hSelf, -⟩ :=
      recordType?_functionType [.upsert "file" Sample.functions none] Sample.documentFunctions
        ⟨Sample.documentFunctions, 31⟩ hStored hResult
    obtain rfl : first = 32 := (List.cons.inj (hAll.symm.trans hOther)).1
    have hInner := ((hSelf record).mp hFound).2
    obtain ⟨hKind, _, _, hChain, -⟩ := FileScope.chain_of_recordType? hInner (Nat.zero_le _)
    cases hChain with
    | here => exact nomatch hKind.symm.trans hInt
    | segment hExpression => exact nomatch hExpression.symm.trans hInt
    | through _ hAlias => exact nomatch hAlias.symm.trans hUnknown

/-- The fields of its argument are offered for a function. -/
theorem Workspace.recordType?_functionType_offered :
    Site.IsFunctionType ⟨Sample.documentFunctions, 19⟩ ∧
      TypeChain Sample.functionsScope.referredAlias? ⟨Sample.documentFunctions, 42⟩ 1
        [⟨Sample.documentFunctions, 15⟩] ⟨Sample.documentFunctions, 19⟩ ∧
      Sample.functionsScope.recordType? [] ⟨Sample.documentFunctions, 19⟩ =
        some ⟨Sample.documentFunctions, 6⟩ ∧
      (Sample.functionsWorkspace.completions "file" ⟨4, 8⟩ (.character '.') {}).map (·.name) =
        ["x"] := by
  have hw : Sample.functionsWorkspace.RevisionsDistinct := revisionsDistinct_ofChanges _
  have hType (n : Nat) : Site.IsStored Sample.functionsWorkspace ⟨Sample.documentFunctions, n⟩ :=
    List.mem_singleton_self _
  obtain ⟨hKind, hFirst, hRecord⟩ : Sample.functions.kind 19 = .typeExpression ∧
      Sample.functions.firstNamedChild? 19 = some 20 ∧ Sample.functions.kind 6 = .recordType := by
    decide +kernel
  have hBody : TypeChain Sample.functionsScope.referredAlias? ⟨Sample.documentFunctions, 19⟩ 3
      [⟨Sample.documentFunctions, 1⟩] ⟨Sample.documentFunctions, 6⟩ :=
    .segment hKind hFirst Sample.chain_argument
  have hFound {n steps : Nat} {followed : List Site}
      (h : TypeChain Sample.functionsScope.referredAlias? ⟨Sample.documentFunctions, n⟩ steps
        followed ⟨Sample.documentFunctions, 6⟩) (hFew : followed.length ≤ aliasReach) :
      Sample.functionsScope.recordType? [] ⟨Sample.documentFunctions, n⟩ =
        some ⟨Sample.documentFunctions, 6⟩ :=
    (FileScope.recordType?_eq_some_iff hw (hType n)).mpr ⟨hRecord, _, _, h, hFew⟩
  refine ⟨Sample.isFunctionType_functions.1, Sample.chain_function, hFound hBody (by decide), ?_⟩
  let r : Request :=
    ⟨Sample.functionsWorkspace, Sample.functionsScope, {}, .character '.', ⟨4, 8⟩⟩
  obtain ⟨hTarget, hValue, hImport, hExposing, hHeader, hFields⟩ :
      r.tree.targetAt? r.position = some (.value "m") ∧ r.valueType? "m" = some 42 ∧
        r.importModule? = none ∧ r.importExposing? = none ∧ r.moduleExposing? = none ∧
        Request.fieldCandidates ⟨Sample.documentFunctions, 6⟩ =
          [⟨"x", .field, none, some "Int", []⟩] := by decide +kernel
  have hRef : r.targetType? (.value "m") = some ⟨Sample.documentFunctions, 6⟩ := by
    rw [Request.targetType?, hValue, Option.bind_some]
    exact hFound (Sample.chain_function.trans hBody) (by decide)
  have hOffered := Request.recordFields?_of_targetType? (r := r) hTarget hRef
  rw [hFields] at hOffered
  have hAnswer : Sample.functionsWorkspace.completions "file" ⟨4, 8⟩ (.character '.') {} =
      r.answer := rfl
  rw [hAnswer, Request.answer_of_recordFields? hImport hExposing hHeader hOffered]
  rfl

end ElmScope
