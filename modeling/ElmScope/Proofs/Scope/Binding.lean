import ElmScope.Proofs.Syntax.TreeOrder
import ElmScope.Scope.Binding

/-! Which names a scope binds, said without lists: the four kinds of scope with the
places at which their variables stand. Looking a name up outward then finds the
binding that begins first in the nearest scope that binds the name. -/
namespace ElmScope.Tree

/-- A scope binds a name. A declaration binds the variables of its parameters, a `let`
block its functions and the variables of its destructurings, a `case` branch the
variables of its first pattern, and a lambda those of its patterns before the arrow. -/
inductive Binds (t : Tree) (scope : Nat) : Binding → Prop where
  | parameter {left v : Nat} (hScope : t.kind scope = .valueDeclaration)
      (hLeft : t.childOfKind? scope .functionDeclarationLeft = some left)
      (hBelow : v ∈ t.descendants left) (hKind : t.kind v = .lowerPattern) :
      Binds t scope ⟨t.text v, v, .parameter⟩
  | letFunction {declaration name : Nat} (hScope : t.kind scope = .letInExpr)
      (hChild : declaration ∈ t.children scope) (hKind : t.kind declaration = .valueDeclaration)
      (hName : t.functionNameNode? declaration = some name) :
      Binds t scope ⟨t.text name, declaration, .function⟩
  | letPattern {declaration pattern v : Nat} (hScope : t.kind scope = .letInExpr)
      (hChild : declaration ∈ t.children scope)
      (hDeclaration : t.kind declaration = .valueDeclaration)
      (hName : t.functionNameNode? declaration = none)
      (hPattern : t.childOfKind? declaration .pattern = some pattern)
      (hBelow : v ∈ t.descendants pattern) (hKind : t.kind v = .lowerPattern) :
      Binds t scope ⟨t.text v, v, .parameter⟩
  | branch {pattern v : Nat} (hScope : t.kind scope = .caseOfBranch)
      (hPattern : t.firstNamedChild? scope = some pattern)
      (hBelow : v ∈ t.descendants pattern) (hKind : t.kind v = .lowerPattern) :
      Binds t scope ⟨t.text v, v, .parameter⟩
  | lambda {v : Nat} (hScope : t.kind scope = .anonymousFunctionExpr)
      (hChild : v ∈ t.children scope)
      (hArrow : ∀ arrow ∈ t.children scope, t.kind arrow = .arrow → v < arrow)
      (hKind : t.kind v = .lowerPattern) : Binds t scope ⟨t.text v, v, .parameter⟩
  | lambdaPattern {pattern v : Nat} (hScope : t.kind scope = .anonymousFunctionExpr)
      (hChild : pattern ∈ t.children scope)
      (hArrow : ∀ arrow ∈ t.children scope, t.kind arrow = .arrow → pattern < arrow)
      (hPattern : t.kind pattern ≠ .lowerPattern)
      (hBelow : v ∈ t.descendants pattern) (hKind : t.kind v = .lowerPattern) :
      Binds t scope ⟨t.text v, v, .parameter⟩

variable {t : Tree} {n scope : Nat} {name : String} {b : Binding}

theorem mem_patternBindings_iff {pattern : Nat} :
    b ∈ t.patternBindings pattern ↔
      ∃ v ∈ t.descendants pattern, t.kind v = .lowerPattern ∧ b = ⟨t.text v, v, .parameter⟩ := by
  simp only [patternBindings, descendantsOfKind, List.mem_map, List.mem_filter, decide_eq_true_eq,
    variableBinding, and_assoc, @eq_comm _ b]

theorem mem_optionalBindings_iff {pattern? : Option Nat} :
    b ∈ (pattern?.map t.patternBindings).getD [] ↔
      ∃ pattern, pattern? = some pattern ∧ b ∈ t.patternBindings pattern := by
  cases pattern? <;> simp

/-- Before the arrow of a lambda stand the children that come before every arrow. -/
theorem mem_beforeArrow_iff {c : Nat} :
    c ∈ (t.children n).takeWhile (fun c => t.kind c ≠ .arrow) ↔
      c ∈ t.children n ∧ ∀ arrow ∈ t.children n, t.kind arrow = .arrow → c < arrow := by
  rw [mem_takeWhile_iff_of_sorted (t.children_sorted n)]
  simp only [ne_eq, decide_not, Bool.not_eq_false', decide_eq_true_eq]

theorem Binds.of_mem_letBindings {declaration : Nat} (hScope : t.kind scope = .letInExpr)
    (hChild : declaration ∈ t.children scope) (hKind : t.kind declaration = .valueDeclaration)
    (h : b ∈ t.letBindings declaration) : t.Binds scope b := by
  unfold letBindings at h
  split at h
  · next name hName =>
    obtain rfl := List.mem_singleton.mp h
    exact .letFunction hScope hChild hKind hName
  · next hName =>
    obtain ⟨pattern, hPattern, h⟩ := mem_optionalBindings_iff.mp h
    obtain ⟨v, hBelow, hv, rfl⟩ := mem_patternBindings_iff.mp h
    exact .letPattern hScope hChild hKind hName hPattern hBelow hv

theorem Binds.of_mem_lambdaBindings {child : Nat} (hScope : t.kind scope = .anonymousFunctionExpr)
    (hChild : child ∈ t.children scope)
    (hArrow : ∀ arrow ∈ t.children scope, t.kind arrow = .arrow → child < arrow)
    (h : b ∈ t.lambdaBindings child) : t.Binds scope b := by
  unfold lambdaBindings at h
  split at h
  · next hKind =>
    obtain rfl := List.mem_singleton.mp h
    exact .lambda hScope hChild hArrow hKind
  · next hKind =>
    obtain ⟨v, hBelow, hv, rfl⟩ := mem_patternBindings_iff.mp h
    exact .lambdaPattern hScope hChild hArrow hKind hBelow hv

/-- Whatever is listed for a scope is bound by it. -/
theorem Binds.of_mem_bindingsOf (h : b ∈ t.bindingsOf scope) : t.Binds scope b := by
  unfold bindingsOf at h
  split at h
  · next hScope =>
    obtain ⟨left, hLeft, h⟩ := mem_optionalBindings_iff.mp h
    obtain ⟨v, hBelow, hKind, rfl⟩ := mem_patternBindings_iff.mp h
    exact .parameter hScope hLeft hBelow hKind
  · next hScope =>
    obtain ⟨declaration, hDeclaration, h⟩ := List.mem_flatMap.mp h
    obtain ⟨hChild, hKind⟩ := List.mem_filter.mp hDeclaration
    exact .of_mem_letBindings hScope hChild (by simpa using hKind) h
  · next hScope =>
    obtain ⟨pattern, hPattern, h⟩ := mem_optionalBindings_iff.mp h
    obtain ⟨v, hBelow, hKind, rfl⟩ := mem_patternBindings_iff.mp h
    exact .branch hScope hPattern hBelow hKind
  · next hScope =>
    obtain ⟨child, hChild, h⟩ := List.mem_flatMap.mp h
    obtain ⟨hChild, hArrow⟩ := mem_beforeArrow_iff.mp hChild
    exact .of_mem_lambdaBindings hScope hChild hArrow h
  · exact absurd h List.not_mem_nil

/-- Whatever a scope binds is listed for it. -/
theorem Binds.mem_bindingsOf (h : t.Binds scope b) : b ∈ t.bindingsOf scope := by
  cases h with
  | parameter hScope hLeft hBelow hKind =>
      simp only [bindingsOf, hScope, hLeft]
      exact mem_patternBindings_iff.mpr ⟨_, hBelow, hKind, rfl⟩
  | letFunction hScope hChild hKind hName =>
      simp only [bindingsOf, hScope, childrenOfKind]
      refine List.mem_flatMap.mpr ⟨_, List.mem_filter.mpr ⟨hChild, by simpa using hKind⟩, ?_⟩
      simp only [letBindings, hName, List.mem_singleton]
  | letPattern hScope hChild hDeclaration hName hPattern hBelow hKind =>
      simp only [bindingsOf, hScope, childrenOfKind]
      refine List.mem_flatMap.mpr
        ⟨_, List.mem_filter.mpr ⟨hChild, by simpa using hDeclaration⟩, ?_⟩
      simp only [letBindings, hName, hPattern]
      exact mem_patternBindings_iff.mpr ⟨_, hBelow, hKind, rfl⟩
  | branch hScope hPattern hBelow hKind =>
      simp only [bindingsOf, hScope, hPattern]
      exact mem_patternBindings_iff.mpr ⟨_, hBelow, hKind, rfl⟩
  | lambda hScope hChild hArrow hKind =>
      simp only [bindingsOf, hScope]
      refine List.mem_flatMap.mpr ⟨_, mem_beforeArrow_iff.mpr ⟨hChild, hArrow⟩, ?_⟩
      simp only [lambdaBindings, if_pos hKind, variableBinding, List.mem_singleton]
  | lambdaPattern hScope hChild hArrow hPattern hBelow hKind =>
      simp only [bindingsOf, hScope]
      refine List.mem_flatMap.mpr ⟨_, mem_beforeArrow_iff.mpr ⟨hChild, hArrow⟩, ?_⟩
      simp only [lambdaBindings, if_neg hPattern]
      exact mem_patternBindings_iff.mpr ⟨_, hBelow, hKind, rfl⟩

/-- The list of a scope's bindings holds what the scope binds. -/
theorem mem_bindingsOf_iff : b ∈ t.bindingsOf scope ↔ t.Binds scope b :=
  ⟨Binds.of_mem_bindingsOf, Binds.mem_bindingsOf⟩

/-- What a scope binds stands inside it, as a variable or as a named declaration. -/
theorem Binds.below (h : t.Binds scope b) : b.node ∈ t.descendants scope := by
  have hThrough : ∀ {c v : Nat}, c ∈ t.children scope → v ∈ t.descendants c →
      v ∈ t.descendants scope :=
    fun hc hv => mem_descendants_iff.mpr ⟨_, hc, .inr hv⟩
  cases h with
  | parameter _ hLeft hBelow _ => exact hThrough (mem_children_of_childOfKind? hLeft) hBelow
  | letFunction _ hChild _ _ => exact mem_descendants_of_child hChild
  | letPattern _ hChild _ _ hPattern hBelow _ =>
      refine hThrough hChild (mem_descendants_iff.mpr ⟨_, ?_, .inr hBelow⟩)
      exact mem_children_of_childOfKind? hPattern
  | branch _ hPattern hBelow _ => exact hThrough (mem_children_of_firstNamedChild? hPattern) hBelow
  | lambda _ hChild _ _ => exact mem_descendants_of_child hChild
  | lambdaPattern _ hChild _ _ hBelow _ => exact hThrough hChild hBelow

theorem patternBindings_sorted (t : Tree) (pattern : Nat) :
    (t.patternBindings pattern).Pairwise (·.node < ·.node) :=
  List.pairwise_map.mpr ((t.descendants_sorted pattern).filter _)

theorem node_of_mem_patternBindings {pattern : Nat} (h : b ∈ t.patternBindings pattern) :
    b.node ∈ t.descendants pattern := by
  obtain ⟨v, hBelow, -, rfl⟩ := mem_patternBindings_iff.mp h
  exact hBelow

theorem optionalBindings_sorted (t : Tree) (pattern? : Option Nat) :
    ((pattern?.map t.patternBindings).getD []).Pairwise (·.node < ·.node) := by
  cases pattern? with
  | none => exact .nil
  | some pattern => exact t.patternBindings_sorted pattern

theorem letBindings_sorted (t : Tree) (declaration : Nat) :
    (t.letBindings declaration).Pairwise (·.node < ·.node) := by
  unfold letBindings
  split
  · exact List.pairwise_singleton _ _
  · exact t.optionalBindings_sorted _

theorem node_of_mem_letBindings {declaration : Nat} (h : b ∈ t.letBindings declaration) :
    b.node = declaration ∨ b.node ∈ t.descendants declaration := by
  unfold letBindings at h
  split at h
  · obtain rfl := List.mem_singleton.mp h
    exact .inl rfl
  · obtain ⟨pattern, hPattern, h⟩ := mem_optionalBindings_iff.mp h
    exact .inr (mem_descendants_iff.mpr ⟨pattern, mem_children_of_childOfKind? hPattern,
      .inr (node_of_mem_patternBindings h)⟩)

theorem lambdaBindings_sorted (t : Tree) (child : Nat) :
    (t.lambdaBindings child).Pairwise (·.node < ·.node) := by
  unfold lambdaBindings
  split
  · exact List.pairwise_singleton _ _
  · exact t.patternBindings_sorted child

theorem node_of_mem_lambdaBindings {child : Nat} (h : b ∈ t.lambdaBindings child) :
    b.node = child ∨ b.node ∈ t.descendants child := by
  unfold lambdaBindings at h
  split at h
  · obtain rfl := List.mem_singleton.mp h
    exact .inl rfl
  · exact .inr (node_of_mem_patternBindings h)

/-- A scope lists its bindings in the order in which they begin. -/
theorem bindingsOf_sorted (t : Tree) (scope : Nat) :
    (t.bindingsOf scope).Pairwise (·.node < ·.node) := by
  unfold bindingsOf
  split
  · exact t.optionalBindings_sorted _
  · exact pairwise_flatMap_children Binding.node _ (fun c _ => t.letBindings_sorted c)
      (fun _ _ _ => node_of_mem_letBindings) List.filter_sublist
  · exact t.optionalBindings_sorted _
  · exact pairwise_flatMap_children Binding.node _ (fun c _ => t.lambdaBindings_sorted c)
      (fun _ _ _ => node_of_mem_lambdaBindings) (List.takeWhile_sublist _)
  · exact .nil

structure IsFirstBinding (t : Tree) (scope : Nat) (name : String) (b : Binding) : Prop where
  binds : t.Binds scope b
  named : b.name = name
  first : ∀ c, t.Binds scope c → c.name = name → b.node ≤ c.node

/-- A search in a scope finds the binding that begins first. -/
theorem find?_bindingsOf_eq_some_iff :
    (t.bindingsOf scope).find? (·.name = name) = some b ↔ t.IsFirstBinding scope name b := by
  simp only [find?_eq_some_iff_of_sorted Binding.node (t.bindingsOf_sorted scope), mem_bindingsOf_iff,
    decide_eq_true_eq]
  exact ⟨fun ⟨hBinds, hName, hFirst⟩ => ⟨hBinds, hName, hFirst⟩,
    fun ⟨hBinds, hName, hFirst⟩ => ⟨hBinds, hName, hFirst⟩⟩

theorem find?_bindingsOf_eq_none_iff :
    (t.bindingsOf scope).find? (·.name = name) = none ↔ ∀ b, t.Binds scope b → b.name ≠ name := by
  simp only [List.find?_eq_none, mem_bindingsOf_iff, decide_eq_true_eq, ne_eq]

/-- Only scopes bind names. -/
theorem bindingsOf_eq_nil (h : isScope (t.kind scope) = false) : t.bindingsOf scope = [] := by
  unfold bindingsOf
  split <;> simp_all [isScope]

/-- Nodes can be searched for bindings as they are, without picking out the scopes. -/
theorem flatMap_bindingsOf_filter (t : Tree) (nodes : List Nat) :
    (nodes.filter fun s => isScope (t.kind s)).flatMap t.bindingsOf =
      nodes.flatMap t.bindingsOf := by
  induction nodes with
  | nil => rfl
  | cons s rest ih =>
      cases h : isScope (t.kind s) with
      | true => rw [List.filter_cons_of_pos (by simp [h]), List.flatMap_cons, List.flatMap_cons, ih]
      | false =>
          rw [List.filter_cons_of_neg (by simp [h]), List.flatMap_cons, ih, bindingsOf_eq_nil h,
            List.nil_append]

/-- The look-up of a name goes through all nodes outward within reach. -/
theorem findBinding?_eq_findSome? (t : Tree) (n : Nat) (name : String) :
    t.findBinding? n name =
      ((n :: t.ancestors n).take 512).findSome? fun s => (t.bindingsOf s).find? (·.name = name) := by
  rw [findBinding?, visibleBindings, enclosingScopes, flatMap_bindingsOf_filter, List.find?_flatMap,
    scopeReach]

/-- The binding that a name has at a node: the first one in the nearest scope, among
the first 512 nodes outward, that binds the name. -/
def IsNearestBinding (t : Tree) (n : Nat) (name : String) (b : Binding) : Prop :=
  ∃ inner scope outer, (n :: t.ancestors n).take 512 = inner ++ scope :: outer ∧
    (∀ s ∈ inner, ∀ c, t.Binds s c → c.name ≠ name) ∧ t.IsFirstBinding scope name b

/-- The binding that is found is the nearest. -/
theorem findBinding?_eq_some_iff :
    t.findBinding? n name = some b ↔ t.IsNearestBinding n name b := by
  rw [findBinding?_eq_findSome?, List.findSome?_eq_some_iff]
  simp only [find?_bindingsOf_eq_some_iff, find?_bindingsOf_eq_none_iff]
  constructor
  · rintro ⟨inner, scope, outer, hChain, hFirst, hInner⟩
    exact ⟨inner, scope, outer, hChain, hInner, hFirst⟩
  · rintro ⟨inner, scope, outer, hChain, hInner, hFirst⟩
    exact ⟨inner, scope, outer, hChain, hFirst, hInner⟩

/-- Some scope among the first 512 nodes outward from a node binds a name. -/
def IsBound (t : Tree) (n : Nat) (name : String) : Prop :=
  ∃ scope ∈ (n :: t.ancestors n).take 512, ∃ b, t.Binds scope b ∧ b.name = name

theorem findBinding?_eq_none_iff : t.findBinding? n name = none ↔ ¬ t.IsBound n name := by
  simp only [findBinding?_eq_findSome?, List.findSome?_eq_none_iff, find?_bindingsOf_eq_none_iff,
    IsBound, not_exists, not_and, ne_eq]

/-- A name that is bound has a nearest binding. -/
theorem IsBound.exists_nearest (h : t.IsBound n name) : ∃ b, t.IsNearestBinding n name b := by
  cases hFind : t.findBinding? n name with
  | none => exact absurd h (findBinding?_eq_none_iff.mp hFind)
  | some b => exact ⟨b, findBinding?_eq_some_iff.mp hFind⟩

theorem IsNearestBinding.exists_scope (h : t.IsNearestBinding n name b) :
    ∃ scope ∈ (n :: t.ancestors n).take 512, t.IsFirstBinding scope name b := by
  obtain ⟨inner, scope, outer, hChain, -, hFirst⟩ := h
  refine ⟨scope, ?_, hFirst⟩
  rw [hChain]
  exact List.mem_append_right _ List.mem_cons_self

end ElmScope.Tree
