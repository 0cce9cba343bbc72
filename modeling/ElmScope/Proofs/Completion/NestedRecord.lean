import Mathlib.Data.List.Induction
import ElmScope.Completion.RecordTarget
import ElmScope.Proofs.Completion.Braces
import ElmScope.Proofs.Completion.LineShape

/-! Records that are written one in the other, each as the value of a field of the one
around it. The text before a cursor in the innermost and the tree in which they nest name
the same record: the field of a field down from what the outermost stands for. -/
namespace ElmScope

open Text

/-- The record below a path of fields: of a record that is updated, or of a literal. -/
def RecordTarget.nested (base : Option String) (fields : List String) : RecordTarget :=
  fields.foldl .field (base.elim .literal .value)

namespace LineShape

variable {before body name typed : List Char} {base : Option String} {fields : List String}

theorem isInside_of_isWordChar (h : ∀ c ∈ typed, isWordChar c = true) : Braces.IsInside typed := by
  intro c hc
  have hWord := fun x (hx : isWordChar x = false) => ne_of_isWordChar (h c hc) hx
  simp only [Braces.isInert, Bool.and_eq_true, decide_eq_true_eq]
  exact ⟨⟨⟨⟨hWord _ (by decide), hWord _ (by decide)⟩, hWord _ (by decide)⟩, hWord _ (by decide)⟩,
    hWord _ (by decide)⟩

theorem isSeparator_of_isWordChar (h : ∀ c ∈ typed, isWordChar c = true) :
    ∀ c ∈ typed, Braces.isSeparator c = false := by
  intro c hc
  rw [← Bool.not_eq_true]
  intro hSeparator
  simp only [Braces.isSeparator, Bool.or_eq_true, decide_eq_true_eq, or_assoc] at hSeparator
  rcases hSeparator with rfl | rfl | rfl | rfl | rfl | rfl | rfl | rfl <;>
    exact absurd (h _ hc) (by decide)

theorem isSeparator_of_mem_blank_cons (h : ∀ c ∈ typed, isWordChar c = true) :
    ∀ c ∈ ' ' :: typed, Braces.isSeparator c = false :=
  List.forall_mem_cons.mpr ⟨rfl, isSeparator_of_isWordChar h⟩

def IsTyped (typed : List Char) : Prop := typed = [] ∨ IsName typed

theorem IsTyped.isWordChar (h : IsTyped typed) : ∀ c ∈ typed, isWordChar c = true := by
  rcases h with rfl | h
  · simp
  · exact h.isWordChar

/-- A segment that is a blank and what is typed is one where a field's name is written. -/
theorem IsTyped.isAtFieldName (h : IsTyped typed)
    (hSegment : Braces.currentSegment body = ' ' :: typed) : isAtFieldName body = true := by
  have hWord := h.isWordChar
  have hTrim : trim (' ' :: typed) = typed := by
    rw [trim, List.dropWhile_cons_of_pos (by decide),
      dropWhile_isBlank_of_isWordChar fun c hc => hWord c (List.mem_of_head? hc),
      trimEnd_of_isWordChar fun c hc => hWord c (List.mem_of_getLast? hc)]
  have hNoEquals : '=' ∉ ' ' :: typed := by
    rw [List.mem_cons, not_or]
    exact ⟨by decide, fun hc => absurd (hWord _ hc) (by decide)⟩
  rw [LineShape.isAtFieldName]
  simp only [hSegment, hTrim]
  have hContains : (' ' :: typed).contains '=' = false := by simpa using hNoEquals
  rw [hContains]
  rcases h with rfl | hName
  · rfl
  · simp [hName.isValueName]

theorem IsTyped.isAtFieldName_alone (h : IsTyped typed) :
    LineShape.isAtFieldName (' ' :: typed) = true :=
  h.isAtFieldName (Braces.currentSegment_eq_self (isSeparator_of_mem_blank_cons h.isWordChar))

/-- Without a bar nothing is updated. -/
theorem IsTyped.updateBase?_eq_none (h : IsTyped typed) : updateBase? (' ' :: typed) = none := by
  have hWord := h.isWordChar
  rw [updateBase?, List.dropWhile_cons_of_pos (by decide),
    dropWhile_isBlank_of_isWordChar fun c hc => hWord c (List.mem_of_head? hc)]
  rcases h with rfl | hName
  · rfl
  · rw [hName.valueName?_self]
    rfl

/-- The base of an update is the name before the bar. -/
theorem IsName.updateBase? (h : IsName name) (rest : List Char) :
    updateBase? (' ' :: name ++ ' ' :: '|' :: rest) = some name := by
  have hHead : ∀ c ∈ (name ++ ' ' :: '|' :: rest).head?, Text.isWordChar c = true := by
    obtain ⟨first, more, rfl, hFirst, -⟩ := h
    intro c hc
    obtain rfl := Option.some.inj hc
    exact isWordChar_of_isLowerAscii hFirst
  have hBlank : ∀ c ∈ (' ' :: '|' :: rest).head?, Text.isWordChar c = false := by
    intro c hc
    obtain rfl := Option.some.inj hc
    decide
  have hName := h.valueName? hBlank
  rw [LineShape.updateBase?, List.cons_append, List.dropWhile_cons_of_pos (by decide),
    dropWhile_isBlank_of_isWordChar hHead, hName]
  rfl

/-- Behind an innermost brace only what is written there counts, unless another record is
around it: then the field before the brace says which. -/
theorem recordTarget?_brace {outer inner : List Char} {stack : List Nat}
    (hOpen : Braces.LeavesOpen outer stack) (hInner : Braces.IsInside inner)
    (hField : isAtFieldName (' ' :: inner) = true) :
    recordTarget? (outer ++ ['\x7b', ' '] ++ inner) =
      match updateBase? (' ' :: inner) with
      | some base => some (.value (.ofList base))
      | none =>
        if stack = [] then some .literal
        else (fieldBefore? (trimEnd outer)).bind fun field =>
          (recordTarget? field.1).map fun target => .field target (.ofList field.2) := by
  have hUnmatched := (hOpen.brace.append hInner).unmatched
  have hSplit : outer ++ ['\x7b', ' '] ++ inner = outer ++ ['\x7b'] ++ ' ' :: inner := by simp
  have hBody :
      dropBytes (byteLength outer + 1) (outer ++ ['\x7b', ' '] ++ inner) = ' ' :: inner := by
    rw [hSplit]
    exact byteLength_append outer ['\x7b'] ▸ dropBytes_byteLength _ _
  have hBefore : takeBytes (byteLength outer) (outer ++ ['\x7b', ' '] ++ inner) = outer := by
    rw [List.append_assoc, takeBytes_byteLength]
  rw [recordTarget?]
  simp only [hUnmatched, List.reverse_cons, List.getLast?_concat, hBody, hField]
  cases updateBase? (' ' :: inner) with
  | some base => rfl
  | none =>
      cases stack with
      | nil => rfl
      | cons brace more =>
          have hMany : ¬ ((brace :: more).reverse ++ [byteLength outer]).length ≤ 1 := by simp
          simp only [if_neg hMany, if_neg (List.cons_ne_nil brace more)]
          rw [hBefore]
          cases hField : fieldBefore? (trimEnd outer) with
          | none => rfl
          | some field => rfl

/-- Text before a record: it has no braces, no literals and no comments. -/
def IsPlain (before : List Char) : Prop :=
  (∀ c ∈ before, Braces.isInert c = true) ∧ ¬ ['-', '-'] <:+: before

/-- Text before a record leaves no brace open. -/
theorem IsPlain.leavesOpen (h : IsPlain before) : Braces.LeavesOpen before [] := by
  intro rest hRest
  rw [Braces.unmatchedFrom_append_of_isInert h.1 h.2 fun _ => hRest, Nat.zero_add]

/-- What precedes the names of fields in a record: the record that it updates, if any. -/
def updated (base : Option String) : List Char :=
  base.elim [] fun name => name.toList ++ [' ', '|', ' ']

/-- What precedes the innermost name of nested records: `{ base | ` or `{ `, and `field = { `
for every field on the way. -/
def openRecords (base : Option String) (fields : List String) : List Char :=
  ['\x7b', ' '] ++ updated base ++
    fields.flatMap fun field => field.toList ++ [' ', '=', ' ', '\x7b', ' ']

theorem openRecords_nil (base : Option String) :
    openRecords base [] = ['\x7b', ' '] ++ updated base :=
  List.append_nil _

/-- One more field on the way is one more brace. -/
theorem openRecords_concat (base : Option String) (fields : List String) (field : String) :
    openRecords base (fields ++ [field]) =
      openRecords base fields ++ (field.toList ++ [' ', '=', ' ']) ++ ['\x7b', ' '] := by
  simp [openRecords]

/-- A blank ends it, so a name that follows stands by itself. -/
theorem getLast?_openRecords (base : Option String) (fields : List String) :
    (openRecords base fields).getLast? = some ' ' := by
  induction fields using List.reverseRecOn with
  | nil => cases base <;> simp [openRecords, updated, List.getLast?_cons]
  | append_singleton fields field _ =>
      rw [openRecords_concat]
      simp

theorem isInside_updated (hBase : ∀ name ∈ base, IsName name.toList) :
    Braces.IsInside (updated base) := by
  cases base with
  | none => simp [updated, Braces.IsInside]
  | some name =>
      refine (isInside_of_isWordChar (hBase name rfl).isWordChar).append ?_
      simp [Braces.IsInside, Braces.isInert]

theorem isInside_field {field : String} (hField : IsName field.toList) :
    Braces.IsInside (field.toList ++ [' ', '=', ' ']) := by
  refine (isInside_of_isWordChar hField.isWordChar).append ?_
  simp [Braces.IsInside, Braces.isInert]

/-- The braces of nested records stay open, and there is one at least. -/
theorem exists_leavesOpen (hBefore : IsPlain before) (hBase : ∀ name ∈ base, IsName name.toList)
    (hFields : ∀ field ∈ fields, IsName field.toList) :
    ∃ stack, stack ≠ [] ∧ Braces.LeavesOpen (before ++ openRecords base fields) stack := by
  induction fields using List.reverseRecOn with
  | nil =>
      refine ⟨[byteLength before], List.cons_ne_nil _ _, ?_⟩
      rw [openRecords_nil, ← List.append_assoc]
      exact hBefore.leavesOpen.brace.append (isInside_updated hBase)
  | append_singleton fields field ih =>
      rw [List.forall_mem_append, List.forall_mem_singleton] at hFields
      obtain ⟨stack, -, hOpen⟩ := ih hFields.1
      have hField := (hOpen.append (isInside_field hFields.2)).brace
      rw [openRecords_concat, ← List.append_assoc, ← List.append_assoc]
      exact ⟨_, List.cons_ne_nil _ _, hField⟩

/-- The field whose value a record is stands before it, behind what opens the one around. -/
theorem fieldBefore?_openRecords {field : String} (hField : IsName field.toList) :
    fieldBefore?
        (trimEnd (before ++ openRecords base fields ++ (field.toList ++ [' ', '=', ' ']))) =
      some (before ++ openRecords base fields, field.toList) := by
  have hBlank : ∀ c ∈ (before ++ openRecords base fields).getLast?, isWordChar c = false := by
    rw [List.getLast?_append, getLast?_openRecords]
    rintro c ⟨⟩
    decide
  have hEnd : before ++ openRecords base fields ++ (field.toList ++ [' ', '=', ' ']) =
      before ++ openRecords base fields ++ field.toList ++ [' ', '='] ++ [' '] := by simp
  have hTrim : trimEnd (before ++ openRecords base fields ++ field.toList ++ [' ', '='] ++ [' ']) =
      before ++ openRecords base fields ++ field.toList ++ [' ', '='] := by
    refine dropTail_append (List.forall_mem_singleton.mpr rfl) ?_
    rw [List.getLast?_append]
    rintro c ⟨⟩
    decide
  rw [hEnd, hTrim, hField.fieldBefore? hBlank]

/-- In the outermost record the text before the cursor says whether a record is updated. -/
theorem recordTarget?_outermost (hBefore : IsPlain before)
    (hBase : ∀ name ∈ base, IsName name.toList) (hTyped : IsTyped typed) :
    recordTarget? (before ++ openRecords base [] ++ typed) = some (.nested base []) := by
  have hInside := (isInside_updated hBase).append (isInside_of_isWordChar hTyped.isWordChar)
  rw [openRecords_nil, ← List.append_assoc, List.append_assoc]
  cases base with
  | none =>
      refine (recordTarget?_brace hBefore.leavesOpen hInside hTyped.isAtFieldName_alone).trans ?_
      rw [updated, Option.elim_none, List.nil_append, hTyped.updateBase?_eq_none]
      rfl
  | some name =>
      have hName := hBase name rfl
      have hBody : ' ' :: (updated (some name) ++ typed) =
          ' ' :: name.toList ++ ' ' :: '|' :: ' ' :: typed := by simp [updated]
      have hSegment : Braces.currentSegment (' ' :: (updated (some name) ++ typed)) =
          ' ' :: typed := by
        rw [hBody]
        exact Braces.currentSegment_update (isSeparator_of_mem_blank_cons hName.isWordChar)
          (isSeparator_of_isWordChar hTyped.isWordChar)
      refine (recordTarget?_brace hBefore.leavesOpen hInside
        (hTyped.isAtFieldName hSegment)).trans ?_
      rw [hBody, hName.updateBase?]
      simp [RecordTarget.nested]

/-- Every record around adds the field that it is the value of. -/
theorem recordTarget?_openRecords (hBefore : IsPlain before)
    (hBase : ∀ name ∈ base, IsName name.toList) (hFields : ∀ field ∈ fields, IsName field.toList)
    (hTyped : IsTyped typed) :
    recordTarget? (before ++ openRecords base fields ++ typed) = some (.nested base fields) := by
  induction fields using List.reverseRecOn generalizing typed with
  | nil => exact recordTarget?_outermost hBefore hBase hTyped
  | append_singleton fields field ih =>
      rw [List.forall_mem_append, List.forall_mem_singleton] at hFields
      obtain ⟨hFields, hField⟩ := hFields
      obtain ⟨stack, hStack, hOpen⟩ := exists_leavesOpen hBefore hBase hFields
      have hOuter :
          recordTarget? (before ++ openRecords base fields) = some (.nested base fields) := by
        have hNothing := ih hFields (.inl rfl)
        rwa [List.append_nil] at hNothing
      rw [openRecords_concat, ← List.append_assoc, ← List.append_assoc,
        recordTarget?_brace (hOpen.append (isInside_field hField))
          (isInside_of_isWordChar hTyped.isWordChar) hTyped.isAtFieldName_alone,
        hTyped.updateBase?_eq_none, fieldBefore?_openRecords hField]
      simp [hStack, hOuter, RecordTarget.nested]

end LineShape

namespace Tree

variable {t : Tree} {base : Option String} {fields : List String} {record : Nat}

/-- A record expression is the innermost of nested ones: every other is the value of a field
of the one around it, and only the outermost may update a record. -/
inductive NestsAs (t : Tree) (base : Option String) : List String → Nat → Prop
  | outermost {record : Nat} (hKind : t.kind record = .recordExpr)
      (hBase : t.childText? record .recordBaseIdentifier = base)
      (hParent : base = none → ∀ parent ∈ t.parent? record, t.kind parent ≠ .field) :
      NestsAs t base [] record
  | inner {fields : List String} {outer field name record : Nat}
      (hOuter : NestsAs t base fields outer)
      (hField : t.kind field = .field) (hFieldOuter : t.parent? field = some outer)
      (hName : t.firstNamedChild? field = some name)
      (hKind : t.kind record = .recordExpr) (hParent : t.parent? record = some field)
      (hBase : t.childText? record .recordBaseIdentifier = none) :
      NestsAs t base (fields ++ [t.text name]) record

/-- Climbing from the innermost record collects the fields on the way. -/
theorem NestsAs.recordTarget? (h : t.NestsAs base fields record) :
    t.recordTarget? record = some (.nested base fields) := by
  induction h with
  | @outermost record hKind hBase hParent =>
      rw [Tree.recordTarget?, if_neg (not_not_intro hKind), hBase]
      cases base with
      | some name => rfl
      | none =>
          cases hAround : t.parent? record with
          | none => rfl
          | some parent => exact if_pos (hParent rfl parent hAround)
  | @inner fields outer field name record hOuter hField hFieldOuter hName hKind hParent hBase ih =>
      rw [Tree.recordTarget?, if_neg (not_not_intro hKind), hBase]
      simp only
      rw [hParent]
      simp only
      rw [if_neg (not_not_intro hField), hName, hFieldOuter]
      simp [ih, RecordTarget.nested]

end Tree

namespace Sample

/-- The file `x = { m | user = { name = { a = 1 } } }`. -/
def nestedUpdate : Tree := .ofEvents
  [.enter .file, .enter .valueDeclaration,
    .enter .functionDeclarationLeft, .token .lowerCaseIdentifier "x", .leave, .gap " ",
    .token (.other "eq") "=", .gap " ",
    .enter .recordExpr, .punctuation "\x7b", .gap " ",
    .enter .recordBaseIdentifier, .token .lowerCaseIdentifier "m", .leave, .gap " ",
    .punctuation "|", .gap " ",
    .enter .field, .token .lowerCaseIdentifier "user", .gap " ", .token (.other "eq") "=", .gap " ",
    .enter .recordExpr, .punctuation "\x7b", .gap " ",
    .enter .field, .token .lowerCaseIdentifier "name", .gap " ", .token (.other "eq") "=", .gap " ",
    .enter .recordExpr, .punctuation "\x7b", .gap " ",
    .enter .field, .token .lowerCaseIdentifier "a", .gap " ", .token (.other "eq") "=", .gap " 1",
    .leave, .gap " ", .punctuation "\x7d", .leave,
    .leave, .gap " ", .punctuation "\x7d", .leave,
    .leave, .gap " ", .punctuation "\x7d", .leave, .leave, .leave]

/-- Its innermost record is the value of `name`, around which the record of `user` is. -/
theorem nestsAs_nestedUpdate : nestedUpdate.NestsAs (some "m") ["user", "name"] 18 := by
  have hOutermost : nestedUpdate.NestsAs (some "m") [] 5 :=
    .outermost (by decide +kernel) (by decide +kernel) (by simp)
  have hMiddle : nestedUpdate.NestsAs (some "m") ["user"] 13 := by
    obtain ⟨hField, hOuter, hName, hText, hKind, hParent, hBase⟩ :
        nestedUpdate.kind 10 = .field ∧ nestedUpdate.parent? 10 = some 5 ∧
          nestedUpdate.firstNamedChild? 10 = some 11 ∧ nestedUpdate.text 11 = "user" ∧
          nestedUpdate.kind 13 = .recordExpr ∧ nestedUpdate.parent? 13 = some 10 ∧
          nestedUpdate.childText? 13 .recordBaseIdentifier = none := by decide +kernel
    exact hText ▸ hOutermost.inner hField hOuter hName hKind hParent hBase
  obtain ⟨hField, hOuter, hName, hText, hKind, hParent, hBase⟩ :
      nestedUpdate.kind 15 = .field ∧ nestedUpdate.parent? 15 = some 13 ∧
        nestedUpdate.firstNamedChild? 15 = some 16 ∧ nestedUpdate.text 16 = "name" ∧
        nestedUpdate.kind 18 = .recordExpr ∧ nestedUpdate.parent? 18 = some 15 ∧
        nestedUpdate.childText? 18 .recordBaseIdentifier = none := by decide +kernel
  exact hText ▸ hMiddle.inner hField hOuter hName hKind hParent hBase

end Sample

/-- The text before a cursor and the tree name the same record. Let records nest, each as the
value of a field of the one around it, with an update in the outermost at most. The text up to
the innermost field name, whatever plain text precedes it and however much of the name is
typed, gives the field of a field down from what the outermost stands for, and so does every
tree in which record expressions nest in this way. -/
theorem recordTarget?_nested {before typed : List Char} {base : Option String}
    {fields : List String} (hBefore : LineShape.IsPlain before)
    (hBase : ∀ name ∈ base, LineShape.IsName name.toList)
    (hFields : ∀ field ∈ fields, LineShape.IsName field.toList)
    (hTyped : LineShape.IsTyped typed) :
    LineShape.recordTarget? (before ++ LineShape.openRecords base fields ++ typed) =
        some (.nested base fields) ∧
      ∀ (t : Tree) (record : Nat), t.NestsAs base fields record →
        t.recordTarget? record = some (.nested base fields) :=
  ⟨LineShape.recordTarget?_openRecords hBefore hBase hFields hTyped,
    fun _ _ hNests => hNests.recordTarget?⟩

/-- Two fields below `m`, text and tree lead to the same record. -/
theorem recordTarget?_nested_update :
    LineShape.recordTarget? "x = \x7b m | user = \x7b name = \x7b a".toList =
        some (.field (.field (.value "m") "user") "name") ∧
      Sample.nestedUpdate.recordTarget? 18 =
        some (.field (.field (.value "m") "user") "name") := by
  have hBefore : LineShape.IsPlain ['x', ' ', '=', ' '] :=
    ⟨List.all_eq_true.mp (by decide), by decide⟩
  have hBase : ∀ name ∈ some "m", LineShape.IsName name.toList := by
    rintro name ⟨⟩
    exact ⟨'m', [], rfl, by decide, by simp⟩
  have hFields : ∀ field ∈ ["user", "name"], LineShape.IsName field.toList := by
    simp only [List.forall_mem_cons]
    exact ⟨⟨'u', ['s', 'e', 'r'], rfl, by decide, List.all_eq_true.mp (by decide)⟩,
      ⟨'n', ['a', 'm', 'e'], rfl, by decide, List.all_eq_true.mp (by decide)⟩, by simp⟩
  have hTyped : LineShape.IsTyped ['a'] := .inr ⟨'a', [], rfl, by decide, by simp⟩
  obtain ⟨hText, hTree⟩ := recordTarget?_nested hBefore hBase hFields hTyped
  exact ⟨hText, hTree _ _ Sample.nestsAs_nestedUpdate⟩

end ElmScope
