import Mathlib.Data.List.Nodup
import Mathlib.Data.List.Pairwise
import ElmScope.Proofs.Syntax.TreeOrder
import ElmScope.Module.Declaration

/-! What the searches of a file can find. Every declaration they give hangs below the
root, at the top level or as a variant of a type there, and has the form that its kind
of symbol asks for. -/
namespace ElmScope.Tree

variable {t : Tree} {m n : Nat} {name : String}

theorem mem_reachable_of_mem_topLevel (h : n ∈ t.topLevel) : n ∈ t.reachable := by
  obtain ⟨c, hc, h⟩ := List.mem_flatMap.mp h
  have hChild := mem_reachable_of_child root_mem_reachable hc
  split at h
  · exact mem_reachable_of_child hChild (List.mem_filter.mp h).1
  · obtain rfl := List.mem_singleton.mp h
    exact hChild

/-- What is at the top level stands directly under the root or under an error node. -/
theorem parent?_of_mem_topLevel (h : n ∈ t.topLevel) :
    ∃ p, t.parent? n = some p ∧ (p = root ∨ t.kind p = .error) := by
  obtain ⟨c, hc, h⟩ := List.mem_flatMap.mp h
  split at h
  · next hError =>
    exact ⟨c, mem_children_iff.mp (List.mem_filter.mp h).1, .inr (by simpa [isError] using hError)⟩
  · obtain rfl := List.mem_singleton.mp h
    exact ⟨root, mem_children_iff.mp hc, .inl rfl⟩

theorem ne_root_of_mem_topLevel (h : n ∈ t.topLevel) : n ≠ root := by
  obtain ⟨p, hParent, -⟩ := parent?_of_mem_topLevel h
  exact Nat.ne_of_gt (Nat.zero_lt_of_lt (parent?_lt hParent))

theorem lt_size_of_mem_topLevel (h : n ∈ t.topLevel) : n < t.size := by
  obtain ⟨p, hParent, -⟩ := parent?_of_mem_topLevel h
  exact (parent?_bounds hParent).2

/-- An error node directly under the root is not at the top level itself. -/
theorem isError_of_mem_topLevel (h : n ∈ t.topLevel) (hChild : n ∈ t.children root) :
    t.isError n = false := by
  obtain ⟨c, hc, h⟩ := List.mem_flatMap.mp h
  split at h
  · have hParent := mem_children_iff.mp (mem_children_of_mem_namedChildren h)
    obtain rfl := Option.some.inj (hParent.symm.trans (mem_children_iff.mp hChild))
    exact absurd (parent?_lt (mem_children_iff.mp hc)) (Nat.lt_irrefl _)
  · next hOther =>
    obtain rfl := List.mem_singleton.mp h
    simpa using hOther

/-- Above the top level there are the root and the error nodes directly under it. -/
theorem above_topLevel (hn : n ∈ t.topLevel) (h : m ∈ t.ancestors n) :
    m = root ∨ m ∈ t.children root ∧ t.isError m = true := by
  have hUnderRoot : ∀ c ∈ t.children root, m ∈ t.ancestors c → m = root := by
    intro c hc h
    obtain ⟨q, hq, hmq⟩ := mem_ancestors_iff.mp h
    obtain rfl := Option.some.inj ((mem_children_iff.mp hc).symm.trans hq)
    exact hmq.resolve_right fun hmq => Nat.not_lt_zero _ (lt_of_mem_ancestors hmq)
  obtain ⟨c, hc, hn⟩ := List.mem_flatMap.mp hn
  split at hn
  · next hError =>
    obtain ⟨q, hq, hmq⟩ := mem_ancestors_iff.mp h
    have hParent := mem_children_iff.mp (mem_children_of_mem_namedChildren hn)
    obtain rfl := Option.some.inj (hParent.symm.trans hq)
    rcases hmq with rfl | hmq
    · exact .inr ⟨hc, hError⟩
    · exact .inl (hUnderRoot c hc hmq)
  · obtain rfl := List.mem_singleton.mp hn
    exact .inl (hUnderRoot n hc h)

/-- Nodes at the top level are not above each other. -/
theorem not_above_of_mem_topLevel (hm : m ∈ t.topLevel) (hn : n ∈ t.topLevel) :
    m ∉ t.ancestors n := by
  intro h
  rcases above_topLevel hn h with hRoot | ⟨hChild, hError⟩
  · exact ne_root_of_mem_topLevel hm hRoot
  · rw [isError_of_mem_topLevel hm hChild] at hError
    cases hError

theorem topLevel_sorted (t : Tree) : t.topLevel.Pairwise (· < ·) := by
  apply pairwise_flatMap_children (fun n => n) _ _ _ (List.Sublist.refl _)
  · intro c _
    split
    · exact (t.children_sorted c).filter _
    · exact List.pairwise_singleton _ _
  · intro c _ n h
    split at h
    · exact .inr (mem_descendants_of_child (List.mem_filter.mp h).1)
    · exact .inl (List.mem_singleton.mp h)

theorem mem_topLevelOfKind_iff {kind : Kind} :
    n ∈ t.topLevelOfKind kind ↔ n ∈ t.topLevel ∧ t.kind n = kind := by
  simp only [topLevelOfKind, List.mem_filter, decide_eq_true_eq]

theorem mem_variants_iff {declaration : Nat} :
    n ∈ t.variants declaration ↔ n ∈ t.children declaration ∧ t.kind n = .unionVariant := by
  simp only [variants, childrenOfKind, List.mem_filter, decide_eq_true_eq]

/-- The form that a declaration of a kind of symbol has. Functions and operators are
value declarations or ports, and have a name. -/
def HasForm (t : Tree) (n : Nat) : SymbolKind → Prop
  | .function | .operator =>
    (t.kind n = .valueDeclaration ∨ t.kind n = .portSignature) ∧ (t.functionName? n).isSome
  | .parameter => t.kind n = .lowerPattern
  | .customType => t.kind n = .typeDeclaration
  | .typeAlias => t.kind n = .typeAliasDeclaration
  | .unionConstructor => t.kind n = .unionVariant
  | .moduleHeader => t.kind n = .moduleDeclaration

/-- A file declares a symbol of a kind at a node: the node has the form of the kind and
stands at the top level, or is a variant of a declaration there. -/
structure IsDeclared (t : Tree) (kind : SymbolKind) (n : Nat) : Prop where
  form : t.HasForm n kind
  place : ∃ declaration ∈ t.topLevel, n = declaration ∨ n ∈ t.variants declaration

theorem IsDeclared.mem_reachable {kind : SymbolKind} (h : t.IsDeclared kind n) :
    n ∈ t.reachable := by
  obtain ⟨declaration, hTop, rfl | hVariant⟩ := h.place
  · exact mem_reachable_of_mem_topLevel hTop
  · exact mem_reachable_of_child (mem_reachable_of_mem_topLevel hTop) (mem_variants_iff.mp hVariant).1

theorem IsDeclared.of_topLevel {kind : SymbolKind} (hTop : n ∈ t.topLevel)
    (hForm : t.HasForm n kind) : t.IsDeclared kind n :=
  ⟨hForm, n, hTop, .inl rfl⟩

theorem IsDeclared.of_variant {declaration : Nat} (hTop : declaration ∈ t.topLevel)
    (h : n ∈ t.variants declaration) : t.IsDeclared .unionConstructor n :=
  ⟨(mem_variants_iff.mp h).2, declaration, hTop, .inr h⟩

/-- Functions are declared at the top level only. -/
theorem IsDeclared.mem_topLevel (h : t.IsDeclared .function n) : n ∈ t.topLevel := by
  obtain ⟨declaration, hTop, rfl | hVariant⟩ := h.place
  · exact hTop
  · have hKind := (mem_variants_iff.mp hVariant).2
    rcases h.form.1 with hForm | hForm
    · exact nomatch hKind.symm.trans hForm
    · exact nomatch hKind.symm.trans hForm

/-- A function with a name is declared. -/
theorem isDeclared_of_mem_functions (h : n ∈ t.functions) (hName : t.functionName? n = some name) :
    t.IsDeclared .function n := by
  obtain ⟨hTop, hFunction⟩ := List.mem_filter.mp h
  refine .of_topLevel hTop ⟨?_, by simp [hName]⟩
  simp only [isFunction, Bool.or_eq_true, Bool.and_eq_true, decide_eq_true_eq] at hFunction
  exact hFunction.imp_left And.left

structure IsFirstFunction (t : Tree) (name : String) (n : Nat) : Prop where
  declared : n ∈ t.functions
  named : t.functionName? n = some name
  first : ∀ m ∈ t.functions, t.functionName? m = some name → n ≤ m

/-- A look-up finds the first function of a name. -/
theorem findFunction?_eq_some_iff :
    t.findFunction? name = some n ↔ t.IsFirstFunction name n := by
  have hSorted : t.functions.Pairwise (· < ·) := t.topLevel_sorted.filter _
  rw [findFunction?, find?_eq_some_iff_of_sorted (fun n => n) hSorted]
  simp only [decide_eq_true_eq]
  exact ⟨fun ⟨h, hName, hFirst⟩ => ⟨h, hName, hFirst⟩, fun ⟨h, hName, hFirst⟩ => ⟨h, hName, hFirst⟩⟩

theorem findFunction?_eq_none_iff :
    t.findFunction? name = none ↔ ∀ n ∈ t.functions, t.functionName? n ≠ some name := by
  simp only [findFunction?, List.find?_eq_none, decide_eq_true_eq, ne_eq]

theorem isDeclared_of_findFunction? (h : t.findFunction? name = some n) :
    t.IsDeclared .function n := by
  have hFirst := findFunction?_eq_some_iff.mp h
  exact isDeclared_of_mem_functions hFirst.declared hFirst.named

/-- The function behind an operator is declared as the operator. -/
theorem isDeclared_of_findOperator? (h : t.findOperator? name = some n) :
    t.IsDeclared .operator n := by
  obtain ⟨fixity, -, h⟩ := Option.bind_eq_some_iff.mp h
  obtain ⟨target, -, h⟩ := Option.bind_eq_some_iff.mp h
  have hDeclared := isDeclared_of_findFunction? h
  exact ⟨hDeclared.form, hDeclared.place⟩

theorem isDeclared_of_mem_typeDeclarations (h : n ∈ t.typeDeclarations) :
    t.IsDeclared .customType n := by
  obtain ⟨hTop, hKind⟩ := mem_topLevelOfKind_iff.mp h
  exact .of_topLevel hTop hKind

theorem isDeclared_of_mem_typeAliases (h : n ∈ t.typeAliases) : t.IsDeclared .typeAlias n := by
  obtain ⟨hTop, hKind⟩ := mem_topLevelOfKind_iff.mp h
  exact .of_topLevel hTop hKind

theorem isDeclared_of_findType? (h : t.findType? name = some n) : t.IsDeclared .customType n :=
  isDeclared_of_mem_typeDeclarations (List.mem_of_find?_eq_some h)

theorem isDeclared_of_findTypeAlias? (h : t.findTypeAlias? name = some n) :
    t.IsDeclared .typeAlias n :=
  isDeclared_of_mem_typeAliases (List.mem_of_find?_eq_some h)

theorem isDeclared_of_findConstructor? (h : t.findConstructor? name = some n) :
    t.IsDeclared .unionConstructor n := by
  obtain ⟨declaration, hType, hVariant⟩ := List.mem_flatMap.mp (List.mem_of_find?_eq_some h)
  exact .of_variant (mem_topLevelOfKind_iff.mp hType).1 hVariant

theorem isDeclared_of_header? (h : t.header? = some n) : t.IsDeclared .moduleHeader n := by
  obtain ⟨hTop, hKind⟩ := mem_topLevelOfKind_iff.mp (List.mem_of_mem_head? h)
  exact .of_topLevel hTop hKind

/-- A function directly inside a `let` block has the form of a function. -/
theorem hasForm_of_findLetFunction? {block : Nat} (h : t.findLetFunction? block name = some n) :
    n ∈ t.children block ∧ t.HasForm n .function := by
  have hName := List.find?_some h
  obtain ⟨hChild, hKind⟩ := List.mem_filter.mp (List.mem_of_find?_eq_some h)
  simp only [decide_eq_true_eq] at hName hKind
  exact ⟨hChild, .inl hKind, by simp [hName]⟩

/-- A block has a function of every name that is declared in it. -/
theorem exists_findLetFunction? {block : Nat} (hChild : n ∈ t.children block)
    (hKind : t.kind n = .valueDeclaration) (hName : t.functionName? n = some name) :
    ∃ m, t.findLetFunction? block name = some m := by
  have hMem : n ∈ t.childrenOfKind block .valueDeclaration :=
    List.mem_filter.mpr ⟨hChild, by simpa using hKind⟩
  exact Option.isSome_iff_exists.mp (List.find?_isSome.mpr ⟨n, hMem, by simpa using hName⟩)

section Distinct

/-! Where no name is given twice, a look-up of a name finds the one declaration that has it. -/

/-- Where no name is given twice, a name is of one node. -/
theorem eq_of_nodup_filterMap {f : Nat → Option String} {l : List Nat}
    (h : (l.filterMap f).Nodup) (hm : m ∈ l) (hn : n ∈ l) (hName : f m = some name)
    (hSame : f n = some name) : m = n := by
  by_contra hNe
  rw [List.Nodup, List.pairwise_filterMap] at h
  have hSymmetric : Std.Symm fun a b => ∀ x, f a = some x → ∀ y, f b = some y → x ≠ y :=
    ⟨fun _ _ hab x hx y hy => (hab y hy x hx).symm⟩
  exact h.forall hm hn hNe name hName name hSame rfl

/-- Where no name is given twice, a node is found under its name. -/
theorem find?_of_nodup_filterMap {f : Nat → Option String} {l : List Nat}
    (h : (l.filterMap f).Nodup) (hn : n ∈ l) (hName : f n = some name) :
    l.find? (fun m => f m = some name) = some n := by
  cases hFind : l.find? (fun m => f m = some name) with
  | none => exact absurd hName (by simpa using List.find?_eq_none.mp hFind n hn)
  | some m =>
      have hFound := List.find?_some hFind
      rw [eq_of_nodup_filterMap h (List.mem_of_find?_eq_some hFind) hn (by simpa using hFound) hName]

variable (hTypes : ((t.typeDeclarations ++ t.typeAliases).filterMap t.upperName?).Nodup)

include hTypes

theorem findType?_of_nodup (hn : n ∈ t.typeDeclarations) (hName : t.upperName? n = some name) :
    t.findType? name = some n := by
  rw [List.filterMap_append] at hTypes
  exact find?_of_nodup_filterMap (List.nodup_append.mp hTypes).1 hn hName

/-- Where no type and alias share a name, the name of an alias is that of no type. -/
theorem findTypeAlias?_of_nodup (hn : n ∈ t.typeAliases) (hName : t.upperName? n = some name) :
    t.findType? name = none ∧ t.findTypeAlias? name = some n := by
  rw [List.filterMap_append, List.nodup_append] at hTypes
  refine ⟨List.find?_eq_none.mpr fun m hm hmName => ?_,
    find?_of_nodup_filterMap hTypes.2.1 hn hName⟩
  have hmNamed : name ∈ t.typeDeclarations.filterMap t.upperName? :=
    List.mem_filterMap.mpr ⟨m, hm, by simpa using hmName⟩
  exact hTypes.2.2 name hmNamed name (List.mem_filterMap.mpr ⟨n, hn, hName⟩) rfl

end Distinct

end ElmScope.Tree
