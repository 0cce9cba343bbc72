import ElmScope.Diagnostic
import ElmScope.Proofs.Syntax.Span

/-! Diagnostics against the damage of a tree. Below the root every missing token is reported, and
every error inside no other, each once. An error that is not reported lies inside one that is, so
the diagnostics are empty exactly when nothing below the root is damaged. -/
namespace ElmScope

namespace Tree

variable {t : Tree} {a n o : Nat}

/-- A node is damage of its own: a missing token, or an error inside no other error. -/
def IsDamage (t : Tree) (n : Nat) : Prop :=
  t.isMissing n = true ∨ t.isError n = true ∧ ∀ a ∈ t.ancestors n, t.isError a = false

/-- What is reported about a damaged node. A missing token is reported as missing, also where it
is of the kind of errors. -/
def report (t : Tree) (n : Nat) : Diagnostic where
  range := t.range n
  message :=
    if t.isMissing n then "Missing \"" ++ (t.kind n).name ++ "\""
    else "Unexpected syntax: \"" ++
      .ofList (Diagnostic.excerpt (Text.trim (t.text n).toList)) ++ "\""

/-- A node is the outermost error around another, or is that other itself. -/
structure IsOutermostAround (t : Tree) (n o : Nat) : Prop where
  around : o = n ∨ o ∈ t.ancestors n
  error : t.isError o = true
  outermost : ∀ a ∈ t.ancestors o, t.isError a = false

theorem isOutermostError_iff :
    t.isOutermostError n = true ↔
      t.isError n = true ∧ ∀ a ∈ t.ancestors n, t.isError a = false := by
  simp only [isOutermostError, Bool.and_eq_true, Bool.not_eq_true', List.any_eq_false,
    Bool.not_eq_true]

/-- Damage is what the program reports. -/
theorem isDamage_iff : t.IsDamage n ↔ (t.isMissing n || t.isOutermostError n) = true := by
  rw [IsDamage, Bool.or_eq_true, isOutermostError_iff]

/-- What there is to say about a node is its report, if the node is damage of its own. -/
theorem damage?_map (t : Tree) (n : Nat) :
    ((t.damage? n).map fun message => ⟨t.range n, message⟩) =
      if t.isMissing n || t.isOutermostError n then some (t.report n) else none := by
  unfold damage? report
  cases hMissing : t.isMissing n with
  | true => simp
  | false => cases t.isOutermostError n <;> simp

theorem diagnostics_eq_map (t : Tree) :
    t.diagnostics =
      (t.reachable.filter fun n => t.isMissing n || t.isOutermostError n).map t.report := by
  rw [diagnostics, ← List.filterMap_eq_filter, List.map_filterMap]
  congr 1
  funext n
  rw [damage?_map, Option.guard]
  split <;> rfl

theorem mem_diagnostics_of_isDamage (hn : n ∈ t.reachable) (h : t.IsDamage n) :
    t.report n ∈ t.diagnostics := by
  rw [diagnostics_eq_map]
  exact List.mem_map_of_mem (List.mem_filter.mpr ⟨hn, isDamage_iff.mp h⟩)

/-- Of two nodes around a third one, itself included, one is around the other. -/
theorem comparable_of_around (ha : a = n ∨ a ∈ t.ancestors n) (ho : o = n ∨ o ∈ t.ancestors n) :
    a = o ∨ a ∈ t.ancestors o ∨ o ∈ t.ancestors a := by
  induction n using t.upInduction with
  | above n ih =>
      rcases ha with rfl | ha
      · exact ho.imp Eq.symm .inr
      rcases ho with rfl | ho
      · exact .inr (.inl ha)
      · obtain ⟨p, hParent, ha⟩ := mem_ancestors_iff.mp ha
        obtain ⟨q, hSame, ho⟩ := mem_ancestors_iff.mp ho
        obtain rfl := Option.some.inj (hParent.symm.trans hSame)
        exact ih p hParent ha ho

/-- Every error has an outermost error around it, or is one. What is outermost around an error
further out is outermost around the node too. -/
theorem exists_isOutermostAround (h : t.isError n = true) : ∃ o, t.IsOutermostAround n o := by
  induction n using Nat.strongRecOn with
  | ind n ih =>
      by_cases hInner : ∃ a ∈ t.ancestors n, t.isError a = true
      · obtain ⟨a, ha, hError⟩ := hInner
        obtain ⟨o, hAround, hOuter, hOutermost⟩ := ih a (lt_of_mem_ancestors ha) hError
        refine ⟨o, .inr ?_, hOuter, hOutermost⟩
        rcases hAround with rfl | hAround
        · exact ha
        · exact ancestors_trans hAround ha
      · refine ⟨n, .inl rfl, h, fun a ha => ?_⟩
        by_contra hError
        exact hInner ⟨a, ha, by simpa using hError⟩

/-- Around a node one error is the outermost. -/
theorem IsOutermostAround.unique (h : t.IsOutermostAround n o) (h' : t.IsOutermostAround n a) :
    a = o := by
  rcases comparable_of_around h'.around h.around with hSame | hInner | hOuter
  · exact hSame
  · cases h'.error.symm.trans (h.outermost a hInner)
  · cases h.error.symm.trans (h'.outermost o hOuter)

/-- The places of a node lie between those of every node above it. -/
theorem places_of_mem_ancestors (h : a ∈ t.ancestors n) :
    t.start a ≤ t.start n ∧ t.stop n ≤ t.stop a := by
  induction n using t.upInduction with
  | above n ih =>
      obtain ⟨p, hParent, hAbove⟩ := mem_ancestors_iff.mp h
      obtain ⟨hStart, hStop⟩ := places_of_parent? hParent
      rcases hAbove with rfl | hAbove
      · exact ⟨hStart, hStop⟩
      · obtain ⟨hOuterStart, hOuterStop⟩ := ih p hParent hAbove
        exact ⟨Position.le_trans hOuterStart hStart, Position.le_trans hStop hOuterStop⟩

/-- The outermost error covers what is inside it. -/
theorem IsOutermostAround.places (h : t.IsOutermostAround n o) :
    t.start o ≤ t.start n ∧ t.stop n ≤ t.stop o := by
  rcases h.around with rfl | hAbove
  · exact ⟨Position.le_refl _, Position.le_refl _⟩
  · exact places_of_mem_ancestors hAbove

/-- The outermost error around a node below the root is below the root too, and is reported. -/
theorem IsOutermostAround.mem_diagnostics (h : t.IsOutermostAround n o) (hn : n ∈ t.reachable) :
    t.report o ∈ t.diagnostics := by
  have ho : o ∈ t.reachable := by
    rcases h.around with rfl | hAbove
    · exact hn
    · exact mem_reachable_of_ancestor hn hAbove
  exact mem_diagnostics_of_isDamage ho (.inr ⟨h.error, h.outermost⟩)

/-- Nothing is reported exactly when nothing is an error or missing. -/
theorem diagnostics_eq_nil_iff :
    t.diagnostics = [] ↔ ∀ n ∈ t.reachable, t.isError n = false ∧ t.isMissing n = false := by
  constructor
  · intro h n hn
    constructor
    · by_contra hError
      obtain ⟨o, ho⟩ := exists_isOutermostAround (by simpa using hError)
      exact List.not_mem_nil (h ▸ ho.mem_diagnostics hn)
    · by_contra hMissing
      have hDamage : t.IsDamage n := .inl (by simpa using hMissing)
      exact List.not_mem_nil (h ▸ mem_diagnostics_of_isDamage hn hDamage)
  · intro h
    rw [diagnostics_eq_map, List.map_eq_nil_iff, List.filter_eq_nil_iff]
    intro n hn
    rw [← isDamage_iff]
    rintro (hMissing | ⟨hError, -⟩)
    · cases hMissing.symm.trans (h n hn).2
    · cases hError.symm.trans (h n hn).1

/-- Where only the root is without a parent, every node is below it. -/
theorem mem_reachable_of_single_root (hRoot : ∀ n < t.size, t.parent? n = none → n = root)
    (hn : n < t.size) : n ∈ t.reachable := by
  induction n using t.upInduction with
  | above n ih =>
      cases hParent : t.parent? n with
      | none => exact hRoot n hn hParent ▸ root_mem_reachable
      | some p =>
          have hp := ih p hParent (Nat.lt_trans (parent?_lt hParent) hn)
          exact mem_reachable_of_child hp (mem_children_iff.mpr hParent)

theorem hasError_eq_false_iff :
    t.hasError = false ↔ ∀ n < t.size, t.isError n = false ∧ t.isMissing n = false := by
  have hNode (n : Nat) (h : n < t.size) : t.node n = t.nodes[n] := by
    rw [node, Array.getElem?_eq_getElem h, Option.getD_some]
  simp only [hasError, Array.any_eq_false, Bool.or_eq_true, decide_eq_true_eq, not_or,
    Bool.not_eq_true]
  constructor
  · intro h n hn
    rw [isError, kind, isMissing, hNode n hn]
    exact ⟨decide_eq_false (h n hn).1, (h n hn).2⟩
  · intro h n hn
    have hSound := h n hn
    rw [isError, kind, isMissing, hNode n hn] at hSound
    exact ⟨of_decide_eq_false hSound.1, hSound.2⟩

/-- The diagnostics of a tree cover exactly its damage. Below the root, in the order of a walk,
every missing token and every error inside no other has one report, and no other node has any.
Every error there lies in the range that is reported for the one outermost error around it. The
diagnostics are empty exactly when no node below the root is an error or missing, and where the
whole tree is below the root, exactly when it has no such node at all. -/
theorem diagnostics_damage (t : Tree) :
    (∃ damaged : List Nat, damaged.Sublist t.reachable ∧ damaged.Pairwise (· < ·) ∧
      (∀ n, n ∈ damaged ↔ n ∈ t.reachable ∧ t.IsDamage n) ∧
      t.diagnostics = damaged.map t.report) ∧
    (∀ n ∈ t.reachable, t.isError n = true → ∃ o, t.IsOutermostAround n o ∧
      (∀ other, t.IsOutermostAround n other → other = o) ∧
      t.report o ∈ t.diagnostics ∧
      (t.report o).range.start ≤ t.start n ∧ t.stop n ≤ (t.report o).range.stop) ∧
    (t.diagnostics = [] ↔ ∀ n ∈ t.reachable, t.isError n = false ∧ t.isMissing n = false) ∧
    ((∀ n < t.size, t.parent? n = none → n = root) →
      (t.diagnostics = [] ↔ t.hasError = false)) := by
  refine ⟨?_, fun n hn hError => ?_, diagnostics_eq_nil_iff, fun hRoot => ?_⟩
  · refine ⟨_, List.filter_sublist, t.reachable_sorted.filter _, fun n => ?_, t.diagnostics_eq_map⟩
    rw [List.mem_filter, isDamage_iff]
  · obtain ⟨o, ho⟩ := exists_isOutermostAround hError
    exact ⟨o, ho, fun other hOther => ho.unique hOther, ho.mem_diagnostics hn, ho.places⟩
  · rw [diagnostics_eq_nil_iff, hasError_eq_false_iff]
    constructor
    · exact fun h n hn => h n (mem_reachable_of_single_root hRoot hn)
    · exact fun h n hn => h n (lt_size_of_mem_reachable hn)

/-- An error that begins outside of the root is in the tree, but is not reported. -/
example :
    let t := ofEvents [.enter .file, .leave, .enter .error, .leave]
    t.diagnostics = [] ∧ t.hasError = true := by decide +kernel

end Tree

namespace Sample

/-- A file with unexpected text, in which more of it misses a token, and a declaration that misses
its value. -/
def nestedErrors : Tree := .ofEvents
  [.enter .file,
    .enter .error, .gap "(", .enter .error, .gap ")", .missing .lowerCaseIdentifier, .leave, .leave,
    .gap "\n",
    .enter .valueDeclaration, .token .lowerCaseIdentifier "x", .gap " = ", .missing .valueExpr,
    .leave, .leave]

end Sample

/-- The inner error is covered by the report of the outer one, and every node is below the root. -/
theorem Tree.diagnostics_damage_nested :
    Sample.nestedErrors.IsOutermostAround 2 1 ∧
      Sample.nestedErrors.report 1 ∈ Sample.nestedErrors.diagnostics ∧
      (Sample.nestedErrors.report 1).range.start ≤ Sample.nestedErrors.start 2 ∧
      Sample.nestedErrors.stop 2 ≤ (Sample.nestedErrors.report 1).range.stop ∧
      (Sample.nestedErrors.diagnostics = [] ↔ Sample.nestedErrors.hasError = false) := by
  obtain ⟨-, hCover, -, hWhole⟩ := diagnostics_damage Sample.nestedErrors
  obtain ⟨hBelow, hError, hAbove, hOuter, hOutermost, hRoot⟩ :
      2 ∈ Sample.nestedErrors.reachable ∧ Sample.nestedErrors.isError 2 = true ∧
        1 ∈ Sample.nestedErrors.ancestors 2 ∧ Sample.nestedErrors.isError 1 = true ∧
        (∀ a ∈ Sample.nestedErrors.ancestors 1, Sample.nestedErrors.isError a = false) ∧
        ∀ n < Sample.nestedErrors.size, Sample.nestedErrors.parent? n = none → n = root := by
    decide +kernel
  have hAround : Sample.nestedErrors.IsOutermostAround 2 1 := ⟨.inr hAbove, hOuter, hOutermost⟩
  obtain ⟨o, -, hUnique, hReport, hStart, hStop⟩ := hCover 2 hBelow hError
  obtain rfl := hUnique 1 hAround
  exact ⟨hAround, hReport, hStart, hStop, hWhole hRoot⟩

end ElmScope
