import ElmScope.Proofs.Syntax.TreeOrder
import ElmScope.Reference.Usage

/-! How names in declarations are used. An identifier is used as its parent says, and the
name of each form of declaration is used as a name being declared. -/
namespace ElmScope.Tree

variable {t : Tree} {n i block : Nat} {name : String} {usage : Usage}

/-- What is no qualified name is used as the node above it says. -/
theorem usage?_eq_usageUnder? {p : Nat} (hKind : t.kind n ≠ .valueQid ∧ t.kind n ≠ .upperCaseQid)
    (hParent : t.parent? n = some p) : t.usage? n = t.usageUnder? n p := by
  have hUsed : t.usedNode? n = some n := by
    unfold usedNode?
    split
    · next hValue => exact absurd hValue hKind.1
    · next hUpper => exact absurd hUpper hKind.2
    · rfl
  rw [usage?, hUsed, Option.bind_some, hParent, Option.bind_some]

/-- An identifier is used as its place in the declaration says. -/
theorem usage?_of_lowerChild (h : t.childOfKind? n .lowerCaseIdentifier = some i) :
    t.usage? i = t.usageUnder? i n := by
  obtain ⟨hParent, hKind⟩ := parent?_of_childOfKind? h
  exact usage?_eq_usageUnder? (by simp [hKind]) hParent

theorem usage?_of_upperChild (h : t.childOfKind? n .upperCaseIdentifier = some i) :
    t.usage? i = t.usageUnder? i n := by
  obtain ⟨hParent, hKind⟩ := parent?_of_childOfKind? h
  exact usage?_eq_usageUnder? (by simp [hKind]) hParent

theorem operatorUsage?_eq_none (h : t.kind n ≠ .operatorIdentifier) : t.operatorUsage? n = none :=
  if_neg h

/-- The name of a function is used as declared, in a `let` block if one is right above. -/
theorem usage?_functionName (hKind : t.kind n = .valueDeclaration)
    (hName : t.functionNameNode? n = some i) :
    t.usage? i = some (.declaredName (t.text i) ((t.parent? n).filter (t.kind · = .letInExpr))) := by
  rw [functionNameNode?, hKind] at hName
  obtain ⟨left, hLeft, hName⟩ := Option.bind_eq_some_iff.mp hName
  obtain ⟨hUp, hLeftKind⟩ := parent?_of_childOfKind? hLeft
  rw [usage?_of_lowerChild hName, usageUnder?, hLeftKind]
  simp only [hUp, Option.bind_some]

/-- The name of an annotation asks for a function of the file. -/
theorem usage?_signatureName (hKind : t.kind n = .typeSignature)
    (hName : t.functionNameNode? n = some i) : t.usage? i = some (.ownFunction (t.text i)) := by
  rw [functionNameNode?, hKind] at hName
  rw [usage?_of_lowerChild hName, usageUnder?, hKind]

/-- The name of a port has no use. -/
theorem usage?_portName (hKind : t.kind n = .portSignature)
    (hName : t.functionNameNode? n = some i) : t.usage? i = none := by
  rw [functionNameNode?, hKind] at hName
  rw [usage?_of_lowerChild hName, usageUnder?, hKind]
  exact operatorUsage?_eq_none (by simp [(parent?_of_childOfKind? hName).2])

/-- The name of a type or a type alias is used as a type of the file when it stands right
after its keyword, and otherwise it has no use. -/
theorem usage?_typeName
    (hKind : t.kind n = .typeDeclaration ∨ t.kind n = .typeAliasDeclaration)
    (hName : t.childOfKind? n .upperCaseIdentifier = some i) :
    t.usage? i = if t.isDeclaredType i then some (.ownType (t.text i)) else none := by
  have hNone : t.operatorUsage? i = none :=
    operatorUsage?_eq_none (by simp [(parent?_of_childOfKind? hName).2])
  rw [usage?_of_upperChild hName, usageUnder?]
  rcases hKind with hKind | hKind <;> simp only [hKind, hNone]

theorem usage?_variantName (hKind : t.kind n = .unionVariant)
    (hName : t.childOfKind? n .upperCaseIdentifier = some i) :
    t.usage? i = some (.variant n) := by
  rw [usage?_of_upperChild hName, usageUnder?, hKind]

theorem usage?_variableName (hKind : t.kind n = .lowerPattern)
    (hName : t.childOfKind? n .lowerCaseIdentifier = some i) :
    t.usage? i = some (.value (t.text i) (t.text n)) := by
  rw [usage?_of_lowerChild hName, usageUnder?, hKind]

/-- Every part of the name right after `import` is used as the whole name. -/
theorem usage?_moduleName {q : Nat} (hPart : (t.usedNode? n).bind t.parent? = some q)
    (hKind : t.kind q = .upperCaseQid) (hImport : t.precedingKind? q = some .importKeyword) :
    t.usage? n = some (.importedModule (t.text q)) := by
  obtain ⟨used, hUsed, hParent⟩ := Option.bind_eq_some_iff.mp hPart
  rw [usage?, hUsed, Option.bind_some, hParent, Option.bind_some, usageUnder?, hKind]
  simp only [hImport]

/-- A name that an import lists asks for what is imported. -/
theorem usage?_listedName {item clause : Nat} (hParent : t.parent? n = some item)
    (hName : t.kind n ≠ .valueQid ∧ t.kind n ≠ .upperCaseQid)
    (hList : (t.parent? item).bind t.parent? = some clause) (hClause : t.kind clause = .importClause) :
    (t.kind item = .exposedValue → t.usage? n = some (.importedValue (t.text n))) ∧
      (t.kind item = .exposedType → t.usage? n = some (.importedType (t.text n))) := by
  have hHeader : t.isListedUnder item .moduleDeclaration = false := by
    simp [isListedUnder, hList, hClause]
  have hImport : t.isListedUnder item .importClause = true := by
    simp [isListedUnder, hList, hClause]
  rw [usage?_eq_usageUnder? hName hParent]
  constructor <;>
  · intro hKind
    simp [usageUnder?, hKind, hHeader, hImport]

/-- What the header of a file lists is used as a declaration of the file. -/
theorem usage?_headerItem {item header : Nat} (hParent : t.parent? n = some item)
    (hName : t.kind n ≠ .valueQid ∧ t.kind n ≠ .upperCaseQid)
    (hList : (t.parent? item).bind t.parent? = some header)
    (hHeader : t.kind header = .moduleDeclaration) :
    (t.kind item = .exposedValue → t.usage? n = some (.ownFunction (t.text n))) ∧
      (t.kind item = .exposedType → t.usage? n = some (.ownType (t.text n))) := by
  have hUnder : t.isListedUnder item .moduleDeclaration = true := by
    simp [isListedUnder, hList, hHeader]
  rw [usage?_eq_usageUnder? hName hParent]
  constructor <;>
  · intro hKind
    simp [usageUnder?, hKind, hUnder]

theorem usage?_operatorItem {item : Nat} (hKind : t.kind item = .exposedOperator)
    (hName : t.childOfKind? item .operatorIdentifier = some n) :
    t.usage? n = some (.operator (t.text n)) := by
  obtain ⟨hParent, hOperator⟩ := parent?_of_childOfKind? hName
  rw [usage?_eq_usageUnder? (by simp [hOperator]) hParent]
  simp [usageUnder?, hKind, operatorUsage?, hOperator]

theorem operatorUsage?_ne_declaredName {block : Option Nat} :
    t.operatorUsage? n ≠ some (.declaredName name block) := by
  unfold operatorUsage?
  split <;> simp

/-- A name being declared carries along only `let` blocks. -/
theorem kind_of_declaredName (h : t.usage? n = some (.declaredName name (some block))) :
    t.kind block = .letInExpr := by
  obtain ⟨used, -, h⟩ := Option.bind_eq_some_iff.mp h
  obtain ⟨parent, -, h⟩ := Option.bind_eq_some_iff.mp h
  unfold usageUnder? segmentUsage at h
  split at h
  case h_5 =>
    obtain ⟨-, hBlock⟩ := Usage.declaredName.inj (Option.some.inj h)
    simpa using (Option.filter_eq_some_iff.mp hBlock).2
  all_goals
    repeat' split at h
    all_goals simp_all [operatorUsage?_ne_declaredName]

end ElmScope.Tree
