import ElmScope.Proofs.Completion.FunctionType

/-! Parameters and the segments of annotations. A pattern has the type of the node of the left-hand
side in which it lies, and that node has the segment at its place. Places are counted among all
named nodes after the first, and comments are named nodes, so a parameter has its own segment
only as long as nothing but the name and other parameters stands before it. -/
namespace ElmScope

namespace Tree

def typeSegments (t : Tree) (declaration : Nat) : List Nat :=
  ((t.signature? declaration).bind t.annotatedSegments?).getD []

/-- A node is a named node of the left-hand side of the nearest declaration around it, or lies in
such a node. -/
structure LiesIn (t : Tree) (n declaration left parameter : Nat) : Prop where
  nearest : (t.ancestors n).find? (t.kind · = .valueDeclaration) = some declaration
  leftSide : t.childOfKind? declaration .functionDeclarationLeft = some left
  child : parameter ∈ t.namedChildren left
  within : parameter = n ∨ parameter ∈ t.ancestors n

def isComment (kind : Kind) : Bool :=
  match kind with
  | .lineComment | .blockComment => true
  | _ => false

/-- Whether a named node of a left-hand side is a parameter: it stands behind the name and is no
comment. -/
def isParameter (t : Tree) (name n : Nat) : Bool := decide (name < n) && !isComment (t.kind n)

def parameters (t : Tree) (left name : Nat) : List Nat :=
  (t.namedChildren left).filter (t.isParameter name)

def namedBefore (t : Tree) (left p : Nat) : List Nat := (t.namedChildren left).filter (· < p)

/-- The named nodes of a left-hand side before a parameter that are neither the name nor
parameters: comments, and whatever precedes the name. -/
def strays (t : Tree) (left name p : Nat) : List Nat :=
  (t.namedBefore left p).filter fun c => decide (c ≠ name) && !t.isParameter name c

/-- Where a search looks for one element, it stops at the place of that one. -/
theorem findIdx?_eq_some_iff_of_unique {α : Type} {l : List α} {q : α → Bool} {a : α} {i : Nat}
    (hNodup : l.Nodup) (h : ∀ b ∈ l, q b = true ↔ b = a) :
    l.findIdx? q = some i ↔ l[i]? = some a := by
  rw [List.findIdx?_eq_some_iff_getElem, List.getElem?_eq_some_iff]
  constructor
  · rintro ⟨hi, hq, -⟩
    exact ⟨hi, (h _ (List.getElem_mem hi)).mp hq⟩
  · rintro ⟨hi, rfl⟩
    refine ⟨hi, (h _ (List.getElem_mem hi)).mpr rfl, fun j hji hq => ?_⟩
    have hSame := (h _ (List.getElem_mem (Nat.lt_trans hji hi))).mp hq
    exact Nat.ne_of_lt hji ((hNodup.getElem_inj_iff).mp hSame)

variable {t : Tree} {n p i declaration left parameter name place type : Nat}

namespace LiesIn

/-- A named node of a left-hand side lies in itself. -/
theorem of_child (hKind : t.kind declaration = .valueDeclaration)
    (hLeft : t.childOfKind? declaration .functionDeclarationLeft = some left)
    (hChild : parameter ∈ t.namedChildren left) :
    t.LiesIn parameter declaration left parameter := by
  refine ⟨?_, hLeft, hChild, .inl rfl⟩
  obtain ⟨hUp, hLeftKind⟩ := parent?_of_childOfKind? hLeft
  have hParent := mem_children_iff.mp (mem_children_of_mem_namedChildren hChild)
  rw [ancestors_eq, hParent]
  simp only
  rw [ancestors_eq, hUp]
  simp [hLeftKind, hKind]

/-- The nearest declaration is a declaration. -/
theorem kind_declaration (h : t.LiesIn n declaration left parameter) :
    t.kind declaration = .valueDeclaration := by
  simpa using List.find?_some h.nearest

theorem self (h : t.LiesIn n declaration left parameter) :
    t.LiesIn parameter declaration left parameter :=
  of_child h.kind_declaration h.leftSide h.child

/-- Of the named nodes of the left-hand side the search stops at the one in which the node lies. -/
theorem findIdx?_iff (h : t.LiesIn n declaration left parameter) :
    ((t.namedChildren left).drop 1).findIdx?
        (fun c => c = n || (t.ancestors n).contains c) = some place ↔
      (t.namedChildren left)[place + 1]? = some parameter := by
  rw [findIdx?_eq_some_iff_of_unique (a := parameter), List.getElem?_drop, Nat.add_comm 1 place]
  · exact (t.namedChildren_nodup left).sublist (List.drop_sublist 1 _)
  · intro c hc
    have hChild := mem_children_of_mem_namedChildren (List.mem_of_mem_drop hc)
    simp only [Bool.or_eq_true, decide_eq_true_eq, List.contains_iff_mem]
    constructor
    · exact fun hcn => eq_of_above hChild (mem_children_of_mem_namedChildren h.child) hcn h.within
    · rintro rfl
      exact h.within

/-- Where a node lies there is only one place for it. -/
theorem unique {declaration' left' parameter' : Nat} (h : t.LiesIn n declaration left parameter)
    (h' : t.LiesIn n declaration' left' parameter') :
    declaration = declaration' ∧ left = left' ∧ parameter = parameter' := by
  obtain rfl := Option.some.inj (h.nearest.symm.trans h'.nearest)
  obtain rfl := Option.some.inj (h.leftSide.symm.trans h'.leftSide)
  exact ⟨rfl, rfl, eq_of_above (mem_children_of_mem_namedChildren h.child)
    (mem_children_of_mem_namedChildren h'.child) h.within h'.within⟩

end LiesIn

/-- A node has a type as part of a parameter when it lies in a named node of a left-hand side, not
the first one, and then it has the segment at the place of that node. -/
theorem parameterType?_eq_some_iff :
    t.parameterType? n = some type ↔ ∃ declaration left parameter place,
      t.LiesIn n declaration left parameter ∧
      (t.namedChildren left)[place + 1]? = some parameter ∧
      (t.typeSegments declaration)[place]? = some type := by
  have hSegments : ∀ {declaration place : Nat}, (t.typeSegments declaration)[place]? = some type ↔
      ∃ signature, t.signature? declaration = some signature ∧
        ∃ segments, t.annotatedSegments? signature = some segments ∧
          segments[place]? = some type := by
    intro declaration place
    rw [typeSegments]
    cases t.signature? declaration with
    | none => simp
    | some signature => cases hAll : t.annotatedSegments? signature <;> simp [hAll]
  unfold parameterType?
  simp only [bind, Option.bind_eq_some_iff, ← hSegments]
  constructor
  · rintro ⟨declaration, hNearest, left, hLeft, place, hPlace, hType⟩
    obtain ⟨hShort, hFound, -⟩ := List.findIdx?_eq_some_iff_getElem.mp hPlace
    have hAt : (t.namedChildren left)[place + 1]? = some ((t.namedChildren left).drop 1)[place] := by
      rw [Nat.add_comm, ← List.getElem?_drop, List.getElem?_eq_getElem hShort]
    refine ⟨declaration, left, _, place, ⟨hNearest, hLeft, List.mem_of_getElem? hAt, ?_⟩, hAt, hType⟩
    simpa only [Bool.or_eq_true, decide_eq_true_eq, List.contains_iff_mem] using hFound
  · rintro ⟨declaration, left, parameter, place, hLies, hAt, hType⟩
    exact ⟨declaration, hLies.nearest, left, hLies.leftSide, place, hLies.findIdx?_iff.mpr hAt, hType⟩

/-- Whatever lies in a parameter has the parameter's type. -/
theorem LiesIn.parameterType?_eq (h : t.LiesIn n declaration left parameter) :
    t.parameterType? n = t.parameterType? parameter := by
  apply Option.ext
  intro type
  simp only [parameterType?_eq_some_iff]
  constructor
  · rintro ⟨_, _, _, place, hLies, hAt, hType⟩
    obtain ⟨rfl, rfl, rfl⟩ := h.unique hLies
    exact ⟨_, _, _, place, h.self, hAt, hType⟩
  · rintro ⟨_, _, _, place, hLies, hAt, hType⟩
    obtain ⟨rfl, rfl, rfl⟩ := h.self.unique hLies
    exact ⟨_, _, _, place, h, hAt, hType⟩

theorem mem_parameters_iff :
    p ∈ t.parameters left name ↔ p ∈ t.namedChildren left ∧ t.isParameter name p = true := by
  rw [parameters, List.mem_filter]

theorem lt_of_isParameter (h : t.isParameter name p = true) : name < p := by
  simp only [isParameter, Bool.and_eq_true, decide_eq_true_eq] at h
  exact h.1

/-- The named nodes before a parameter are the parameters before it and the rest. -/
theorem length_namedBefore (hAt : (t.parameters left name)[i]? = some p) :
    (t.namedBefore left p).length =
      i + ((t.namedBefore left p).filter fun c => !t.isParameter name c).length := by
  have hSorted : (t.parameters left name).Pairwise (· < ·) := (t.namedChildren_sorted left).filter _
  have hCount : ((t.namedBefore left p).filter (t.isParameter name)).length = i := by
    have hSame : (t.namedBefore left p).filter (t.isParameter name) =
        (t.parameters left name).filter (· < p) := by
      rw [namedBefore, parameters, List.filter_comm]
    have hOwn := getElem?_length_filter_lt hSorted (List.mem_of_getElem? hAt)
    obtain ⟨hShort, -⟩ := List.getElem?_eq_some_iff.mp hOwn
    rw [hSame]
    exact (List.getElem?_inj hShort ((t.namedChildren_nodup left).filter _)).mp
      (hOwn.trans hAt.symm)
  rw [← hCount]
  exact List.length_eq_length_filter_add _

/-- Where the name is a named node, it is one of the rest, and the strays are the others. -/
theorem length_strays (hName : name ∈ t.namedChildren left) (hp : t.isParameter name p = true) :
    ((t.namedBefore left p).filter fun c => !t.isParameter name c).length =
      (t.strays left name p).length + 1 := by
  have hMem : name ∈ (t.namedBefore left p).filter fun c => !t.isParameter name c := by
    refine List.mem_filter.mpr ⟨List.mem_filter.mpr ⟨hName, ?_⟩, ?_⟩
    · simpa using lt_of_isParameter hp
    · simp [isParameter]
  have hNodup : ((t.namedBefore left p).filter fun c => !t.isParameter name c).Nodup :=
    ((t.namedChildren_nodup left).filter _).filter _
  have hErase : ((t.namedBefore left p).filter fun c => !t.isParameter name c).erase name =
      t.strays left name p := by
    rw [hNodup.erase_eq_filter, List.filter_filter, strays]
    simp only [ne_eq, decide_not]
    rfl
  rw [← hErase, List.length_erase_of_mem hMem, Nat.sub_add_cancel (List.length_pos_of_mem hMem)]

/-- No node is a segment of an annotation twice. -/
theorem nodup_typeSegments (t : Tree) (declaration : Nat) : (t.typeSegments declaration).Nodup := by
  rw [typeSegments]
  cases hAll : (t.signature? declaration).bind t.annotatedSegments? with
  | none => exact List.nodup_nil
  | some segments =>
      obtain ⟨signature, -, hSegments⟩ := Option.bind_eq_some_iff.mp hAll
      obtain ⟨expression, -, rfl⟩ := Option.map_eq_some_iff.mp hSegments
      exact (t.namedChildren_nodup expression).filter _

/-- A parameter has the segment at the place that it has among the named nodes. -/
theorem parameterType?_child_iff (hKind : t.kind declaration = .valueDeclaration)
    (hLeft : t.childOfKind? declaration .functionDeclarationLeft = some left)
    (hChild : p ∈ t.namedChildren left) :
    t.parameterType? p = some type ↔ ∃ place, (t.namedBefore left p).length = place + 1 ∧
      (t.typeSegments declaration)[place]? = some type := by
  have hLies := LiesIn.of_child hKind hLeft hChild
  have hOwn := getElem?_length_filter_lt (t.namedChildren_sorted left) hChild
  rw [parameterType?_eq_some_iff]
  constructor
  · rintro ⟨_, _, _, place, hOther, hAt, hType⟩
    obtain ⟨rfl, rfl, rfl⟩ := hLies.unique hOther
    obtain ⟨hShort, -⟩ := List.getElem?_eq_some_iff.mp hOwn
    have hPlace := (List.getElem?_inj hShort (t.namedChildren_nodup left)).mp (hOwn.trans hAt.symm)
    exact ⟨place, hPlace, hType⟩
  · rintro ⟨place, hPlace, hType⟩
    exact ⟨declaration, left, p, place, hLies, hPlace ▸ hOwn, hType⟩

end Tree

/-- The type of a parameter is counted out among all named nodes of the left-hand side. With the
name as a named node, the parameter at a place has the segment as many places further on as there
are strays before it. So it has its own segment only if there are none, or if neither it nor a
later one has a segment. -/
theorem Tree.parameterType?_parameter (t : Tree) (declaration left name i p : Nat)
    (hKind : t.kind declaration = .valueDeclaration)
    (hLeft : t.childOfKind? declaration .functionDeclarationLeft = some left)
    (hName : t.childOfKind? left .lowerCaseIdentifier = some name)
    (hAt : (t.parameters left name)[i]? = some p) :
    (∀ type, t.parameterType? p = some type ↔ ∃ place,
      (t.namedBefore left p).length = place + 1 ∧
        (t.typeSegments declaration)[place]? = some type) ∧
    (t.isNamed name = true →
      t.parameterType? p = (t.typeSegments declaration)[i + (t.strays left name p).length]? ∧
      (t.parameterType? p = (t.typeSegments declaration)[i]? ↔
        t.strays left name p = [] ∨ (t.typeSegments declaration).length ≤ i)) := by
  obtain ⟨hChild, hIs⟩ := mem_parameters_iff.mp (List.mem_of_getElem? hAt)
  refine ⟨fun _ => parameterType?_child_iff hKind hLeft hChild, fun hNamed => ?_⟩
  have hMem : name ∈ t.namedChildren left :=
    List.mem_filter.mpr ⟨mem_children_of_childOfKind? hName, hNamed⟩
  have hBefore : (t.namedBefore left p).length = i + (t.strays left name p).length + 1 := by
    rw [length_namedBefore hAt, length_strays hMem hIs, Nat.add_assoc]
  have hType : t.parameterType? p =
      (t.typeSegments declaration)[i + (t.strays left name p).length]? := by
    apply Option.ext
    intro type
    rw [parameterType?_child_iff hKind hLeft hChild]
    constructor
    · rintro ⟨place, hPlace, hSegment⟩
      obtain rfl := Nat.succ.inj (hBefore.symm.trans hPlace)
      exact hSegment
    · exact fun hSegment => ⟨_, hBefore, hSegment⟩
  refine ⟨hType, ?_⟩
  rw [hType]
  constructor
  · intro hSame
    by_cases hLong : (t.typeSegments declaration).length ≤ i
    · exact .inr hLong
    · have hStays := (List.getElem?_inj (Nat.lt_of_not_le hLong)
        (t.nodup_typeSegments declaration)).mp hSame.symm
      exact .inl (List.length_eq_zero_iff.mp (by omega))
  · rintro (hNone | hShort)
    · rw [hNone, List.length_nil, Nat.add_zero]
    · rw [List.getElem?_eq_none hShort, List.getElem?_eq_none (Nat.le_add_right_of_le hShort)]

/-- In the file of an alias for a record type the alias's name comes down to that type. -/
theorem FileScope.recordType?_ownAlias {s : FileScope} {type : Site} {name : String}
    {target body record : Nat} (hKind : type.kind = .typeRef)
    (hName : type.document.tree.childText? type.node .upperCaseQid = some name)
    (hBare : name.toList.contains '.' = false)
    (hOwn : type.document.tree.findTypeAlias? name = some target)
    (hBody : type.document.tree.childOfKind? target .typeExpression = some body)
    (hChild : type.document.tree.firstNamedChild? body = some record)
    (hRecord : type.document.tree.kind record = .recordType) :
    s.recordType? [] type = some ⟨type.document, record⟩ := by
  have hExpression : Site.kind ⟨type.document, body⟩ = .typeExpression :=
    (Tree.parent?_of_childOfKind? hBody).2
  rw [recordType?_through hKind (referredAlias?_own hName hBare hOwn) (by simp) (by decide) hBody,
    recordType?_segment _ hExpression hChild]
  exact recordType?_of_record _ hRecord

namespace Sample

/-- The lines `f : <type>` and `f<patterns> = <access>`. -/
def functionLines (type patterns : List Event) (access : String) : List Event :=
  [.enter .typeSignature, .token .lowerCaseIdentifier "f", .gap " : ", .enter .typeExpression] ++
    type ++ [.leave, .leave, .gap "\n", .enter .valueDeclaration, .enter .functionDeclarationLeft,
    .token .lowerCaseIdentifier "f"] ++ patterns ++ [.leave, .gap " = ", .gap access, .leave]

def variablePattern (name : String) : List Event :=
  [.gap " ", .enter .lowerPattern, .token .lowerCaseIdentifier name, .leave]

/-- A file with a record type `R` of a field `x`, the annotation `f : Int -> Int -> R`, and the
function `f n {- m -} m = m.x`. -/
def remark : Tree := .ofEvents <|
  [.enter .file] ++ aliasFor "R" (recordOf "x" (namedType "Int")) ++
    functionLines (namedType "Int" ++ [.gap " ", .token .arrow "->", .gap " "] ++
      functionType "Int" "R")
      (variablePattern "n" ++ [.gap " ", .token .blockComment "\x7b- m -\x7d"] ++
        variablePattern "m") "m.x" ++ [.leave]

def documentRemark : Document := ⟨"file", remark, none, 0⟩

def remarkWorkspace : Workspace := .ofChanges [.upsert "file" remark none]

end Sample

/-- Before `n` there is no stray, and before `m` there is one comment, so `n` has its own segment,
and `m` has `R`, the segment after its own. -/
theorem Tree.parameterType?_parameter_commented :
    (Sample.remark.parameters 30 31)[0]? = some 32 ∧
      (Sample.remark.parameters 30 31)[1]? = some 35 ∧
      Sample.remark.parameterType? 32 = (Sample.remark.typeSegments 29)[0]? ∧
      Sample.remark.parameterType? 35 = (Sample.remark.typeSegments 29)[2]? := by
  obtain ⟨hKind, hLeft, hName, hNamed, hFirst, hSecond, hNoStray, hStray⟩ :
      Sample.remark.kind 29 = .valueDeclaration ∧
        Sample.remark.childOfKind? 29 .functionDeclarationLeft = some 30 ∧
        Sample.remark.childOfKind? 30 .lowerCaseIdentifier = some 31 ∧
        Sample.remark.isNamed 31 = true ∧
        (Sample.remark.parameters 30 31)[0]? = some 32 ∧
        (Sample.remark.parameters 30 31)[1]? = some 35 ∧
        Sample.remark.strays 30 31 32 = [] ∧ Sample.remark.strays 30 31 35 = [34] := by
    decide +kernel
  have hOwn := (parameterType?_parameter _ 29 30 31 0 32 hKind hLeft hName hFirst).2 hNamed
  have hShifted := (parameterType?_parameter _ 29 30 31 1 35 hKind hLeft hName hSecond).2 hNamed
  rw [hStray, List.length_singleton] at hShifted
  exact ⟨hFirst, hSecond, hOwn.2.mpr (.inl hNoStray), hShifted.1⟩

/-- The segment of the variable `m` is an `Int`, but it has the type of the result, and the field
of that is offered for it. -/
theorem Tree.parameterType?_commented_offered :
    Sample.remark.kind 35 = .lowerPattern ∧
      (Sample.remark.parameters 30 31)[1]? = some 35 ∧
      (Sample.remark.typeSegments 29)[1]? = some 22 ∧
      Sample.remark.parameterType? 35 = some 26 ∧
      (Sample.remarkWorkspace.completions "file" ⟨2, 18⟩ (.character '.') {}).map (·.name) =
        ["x"] := by
  obtain ⟨hVariable, hAt, hSegment, hType, hRef, hName, hOwn, hBody, hChild, hRecord⟩ :
      Sample.remark.kind 35 = .lowerPattern ∧
        (Sample.remark.parameters 30 31)[1]? = some 35 ∧
        (Sample.remark.typeSegments 29)[1]? = some 22 ∧
        Sample.remark.parameterType? 35 = some 26 ∧ Sample.remark.kind 26 = .typeRef ∧
        Sample.remark.childText? 26 .upperCaseQid = some "R" ∧
        Sample.remark.findTypeAlias? "R" = some 1 ∧
        Sample.remark.childOfKind? 1 .typeExpression = some 5 ∧
        Sample.remark.firstNamedChild? 5 = some 6 ∧ Sample.remark.kind 6 = .recordType := by
    decide +kernel
  refine ⟨hVariable, hAt, hSegment, hType, ?_⟩
  let r : Request := ⟨Sample.remarkWorkspace,
    Sample.remarkWorkspace.fileScope Sample.documentRemark, {}, .character '.', ⟨2, 18⟩⟩
  obtain ⟨hTarget, hValue, hImport, hExposing, hHeader, hFields⟩ :
      r.tree.targetAt? r.position = some (.value "m") ∧ r.valueType? "m" = some 26 ∧
        r.importModule? = none ∧ r.importExposing? = none ∧ r.moduleExposing? = none ∧
        Request.fieldCandidates ⟨Sample.documentRemark, 6⟩ =
          [⟨"x", .field, none, some "Int", []⟩] := by decide +kernel
  have hFound : r.targetType? (.value "m") = some ⟨Sample.documentRemark, 6⟩ := by
    rw [Request.targetType?, hValue, Option.bind_some]
    exact FileScope.recordType?_ownAlias hRef hName rfl hOwn hBody hChild hRecord
  have hAnswer : Sample.remarkWorkspace.completions "file" ⟨2, 18⟩ (.character '.') {} =
      r.answer := rfl
  rw [hAnswer, Request.answer_of_targetType? hImport hExposing hHeader hTarget hFound, hFields]
  rfl

end ElmScope
