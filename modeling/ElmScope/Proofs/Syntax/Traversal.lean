import Mathlib.Logic.Relation
import ElmScope.Proofs.Syntax.Adjacent

/-! Walks over a tree, step by step. A walk down takes the first of the nodes that wait and puts its
children in its place, and a walk up goes from parent to parent. Both end, and what they pass is
told by the parents alone. The nodes below a node have the indices right behind its own, since a
node is open while those below it begin. -/
namespace ElmScope

namespace Tree

/-- The nodes that a walk down visits while some nodes wait. The first of them is visited, and its
children wait in its place. -/
inductive Visits (t : Tree) : List Nat → List Nat → Prop where
  | done : Visits t [] []
  | visit {n : Nat} {waiting visited : List Nat}
      (rest : Visits t (t.children n ++ waiting) visited) : Visits t (n :: waiting) (n :: visited)

/-- The nodes that a walk up from a node passes, up to one without a parent. -/
inductive Climbs (t : Tree) : Nat → List Nat → Prop where
  | done {n : Nat} (h : t.parent? n = none) : Climbs t n []
  | climb {n p : Nat} {passed : List Nat} (h : t.parent? n = some p) (rest : Climbs t p passed) :
      Climbs t n (p :: passed)

/-- A node is below another when one parent after the other leads up to it. -/
def IsBelow (t : Tree) (m n : Nat) : Prop :=
  Relation.TransGen (fun child parent => t.parent? child = some parent) m n

/-- A node comes before another when it is above it, or when they are in the subtrees of two
children of one node, of which its own comes first. -/
inductive Precedes (t : Tree) : Nat → Nat → Prop where
  | above {m n : Nat} (h : t.IsBelow n m) : Precedes t m n
  | beside {p c d m n : Nat} (h : [c, d].Sublist (t.children p)) (hm : m = c ∨ t.IsBelow m c)
      (hn : n = d ∨ t.IsBelow n d) : Precedes t m n

/-- Two children of a node, in this order, with no named one between them. -/
def IsNearestNamed (t : Tree) (m n : Nat) : Prop :=
  ∃ p before between after, t.children p = before ++ m :: (between ++ n :: after) ∧
    ∀ k ∈ between, t.isNamed k = false

variable {t : Tree} {k m n p : Nat} {waiting visited passed : List Nat}

/-- What a walk down passes is each waiting node with all below it, in order. -/
theorem Visits.eq (h : t.Visits waiting visited) :
    visited = waiting.flatMap fun n => n :: t.descendants n := by
  induction h with
  | done => rfl
  | @visit n waiting visited rest ih =>
      rw [ih, List.flatMap_append, ← descendants_eq, List.flatMap_cons, List.cons_append]

/-- A walk down visits the waiting nodes, each before all that is below it. Every step leaves one
node less to visit. -/
theorem visits_flatMap (t : Tree) (waiting : List Nat) :
    t.Visits waiting (waiting.flatMap fun n => n :: t.descendants n) := by
  induction hLength : (waiting.flatMap fun n => n :: t.descendants n).length using Nat.strongRecOn
    generalizing waiting with
  | ind length ih =>
      cases waiting with
      | nil => exact .done
      | cons n waiting =>
          have hRest : ((n :: waiting).flatMap fun n => n :: t.descendants n) =
              n :: ((t.children n ++ waiting).flatMap fun n => n :: t.descendants n) := by
            rw [List.flatMap_append, ← descendants_eq, List.flatMap_cons, List.cons_append]
          rw [hRest] at hLength ⊢
          refine .visit (ih _ ?_ _ rfl)
          rw [← hLength, List.length_cons]
          exact Nat.lt_succ_self _

/-- A walk down from the children of a node ends, and has visited the nodes below it. -/
theorem visits_children_iff : t.Visits (t.children n) visited ↔ visited = t.descendants n := by
  constructor
  · intro h
    rw [h.eq, ← descendants_eq]
  · rintro rfl
    rw [descendants_eq]
    exact t.visits_flatMap (t.children n)

/-- A walk up ends, and has passed the nodes above its start. -/
theorem climbs_iff : t.Climbs n passed ↔ passed = t.ancestors n := by
  constructor
  · intro h
    induction h with
    | done h => rw [ancestors_eq, h]
    | climb h rest ih => rw [ancestors_eq, h, ih]
  · rintro rfl
    induction n using t.upInduction with
    | above n ih =>
        rw [ancestors_eq]
        cases hParent : t.parent? n with
        | none => exact .done hParent
        | some p => exact .climb hParent (ih p hParent)

/-- What is below a node by its children is below it by their parents. -/
theorem isBelow_iff : t.IsBelow m n ↔ m ∈ t.descendants n := by
  rw [mem_descendants_iff_mem_ancestors]
  constructor
  · intro h
    induction h with
    | single h => exact mem_ancestors_iff.mpr ⟨_, h, .inl rfl⟩
    | tail _ h ih => exact ancestors_trans (mem_ancestors_iff.mpr ⟨_, h, .inl rfl⟩) ih
  · intro h
    induction m using t.upInduction with
    | above m ih =>
        obtain ⟨p, hParent, hAbove⟩ := mem_ancestors_iff.mp h
        rcases hAbove with rfl | hAbove
        · exact .single hParent
        · exact .head hParent (ih p hParent hAbove)

/-- What comes before a node has the smaller index. -/
theorem Precedes.lt (h : t.Precedes m n) : m < n := by
  cases h with
  | above h => exact lt_of_mem_descendants (isBelow_iff.mp h)
  | @beside p c d _ _ h hm hn =>
      have hOrder : c < d := List.pairwise_iff_forall_sublist.mp (t.children_sorted p) h
      have hc : t.parent? c = some p := mem_children_iff.mp (h.subset (by simp))
      have hd : t.parent? d = some p := mem_children_iff.mp (h.subset (by simp))
      have hBefore := lt_of_mem_subtree hc hd hOrder (hm.imp_right isBelow_iff.mp)
      rcases hn with rfl | hn
      · exact hBefore
      · exact Nat.lt_trans hBefore (lt_of_mem_descendants (isBelow_iff.mp hn))

/-- The nodes below a node are listed in the order of a walk. -/
theorem descendants_precedes (t : Tree) (n : Nat) : (t.descendants n).Pairwise t.Precedes := by
  induction n using t.downInduction with
  | below n ih =>
      rw [descendants_eq]
      refine List.pairwise_flatMap.mpr ⟨fun c hChild => ?_, ?_⟩
      · exact List.pairwise_cons.mpr ⟨fun m hm => .above (isBelow_iff.mpr hm), ih c hChild⟩
      · refine List.pairwise_iff_forall_sublist.mpr fun {c d} hOrder a ha b hb => ?_
        exact .beside hOrder ((List.mem_cons.mp ha).imp_right isBelow_iff.mpr)
          ((List.mem_cons.mp hb).imp_right isBelow_iff.mpr)

/-- Whatever begins between a node and one below it is below it too. By induction on both the lower
node and the one between, of which either can be replaced by its parent. -/
theorem mem_descendants_of_between (h : m ∈ t.descendants n) (hAfter : n < k) (hBefore : k ≤ m) :
    k ∈ t.descendants n := by
  induction hSum : k + m using Nat.strongRecOn generalizing k m with
  | ind sum ih =>
      obtain ⟨p, hParent, hAbove⟩ :=
        mem_ancestors_iff.mp (mem_descendants_iff_mem_ancestors.mp h)
      have hpm := parent?_lt hParent
      rcases Nat.lt_or_ge p k with hInside | hOutside
      · obtain ⟨q, hq, hpq⟩ := le_parent?_of_between hParent hInside hBefore
        have hqk := parent?_lt hq
        have hChild := mem_children_iff.mpr hq
        rcases Nat.lt_or_eq_of_le hpq with hLater | rfl
        · have hnp : n ≤ p := by
            rcases hAbove with rfl | hAbove
            · exact Nat.le_refl n
            · exact Nat.le_of_lt (lt_of_mem_ancestors hAbove)
          exact descendants_trans hChild (ih (q + m) (by omega) h (by omega) (by omega) rfl)
        · rcases hAbove with rfl | hAbove
          · exact mem_descendants_of_child hChild
          · exact descendants_trans hChild (mem_descendants_iff_mem_ancestors.mpr hAbove)
      · rcases hAbove with rfl | hAbove
        · omega
        · exact ih (k + p) (by omega) (mem_descendants_iff_mem_ancestors.mpr hAbove) hAfter hOutside
            rfl

/-- An increasing list that has all numbers between a bound and each of its elements is a run of
numbers behind the bound. -/
theorem eq_range'_of_sorted {l : List Nat} (hSorted : l.Pairwise (· < ·)) (hAfter : ∀ m ∈ l, n < m)
    (hAll : ∀ m ∈ l, ∀ k, n < k → k ≤ m → k ∈ l) : l = List.range' (n + 1) l.length := by
  induction l generalizing n with
  | nil => rfl
  | cons first rest ih =>
      obtain ⟨hFirst, hRest⟩ := List.pairwise_cons.mp hSorted
      have hBound := hAfter first List.mem_cons_self
      obtain rfl : first = n + 1 := by
        have hNext := hAll first List.mem_cons_self (n + 1) (Nat.lt_succ_self n) hBound
        rcases List.mem_cons.mp hNext with hSame | hLater
        · exact hSame.symm
        · have := hFirst (n + 1) hLater
          omega
      have hInside : ∀ m ∈ rest, ∀ k, n + 1 < k → k ≤ m → k ∈ rest := by
        intro m hm k hk hkm
        have hMem := hAll m (List.mem_cons_of_mem _ hm) k (by omega) hkm
        exact (List.mem_cons.mp hMem).resolve_left (by omega)
      rw [List.length_cons, List.range'_succ, ← ih hRest hFirst hInside]

/-- The nodes below a node are those whose indices come right behind its own. -/
theorem descendants_eq_range' (t : Tree) (n : Nat) :
    t.descendants n = List.range' (n + 1) (t.descendants n).length :=
  eq_range'_of_sorted (t.descendants_sorted n) (fun _ h => lt_of_mem_descendants h)
    fun _ hm _ => mem_descendants_of_between hm

/-- The nodes above a node are passed nearest first: each is below all that follow. -/
theorem ancestors_pairwise_below (t : Tree) (n : Nat) :
    (t.ancestors n).Pairwise fun a b => a ∈ t.descendants b := by
  induction n using t.upInduction with
  | above n ih =>
      rw [ancestors_eq]
      cases hParent : t.parent? n with
      | none => exact .nil
      | some p =>
          refine List.pairwise_cons.mpr ⟨fun a ha => ?_, ih p hParent⟩
          exact mem_descendants_iff_mem_ancestors.mpr ha

/-! Siblings. -/

/-- A node without siblings has none on either side, and any other makes up the children of a node
together with those before and after it. -/
theorem siblings_cases (t : Tree) (n : Nat) :
    (t.siblingsBefore n = [] ∧ t.siblingsAfter n = []) ∨
      ∃ p, t.children p = t.siblingsBefore n ++ n :: t.siblingsAfter n := by
  cases hParent : t.parent? n with
  | none =>
      refine .inl ?_
      rw [siblingsBefore, siblingsAfter, hParent]
      exact ⟨rfl, rfl⟩
  | some p =>
      obtain ⟨before, after, hChildren⟩ := List.append_of_mem (mem_children_iff.mpr hParent)
      obtain ⟨hBefore, hAfter⟩ := siblings_of_children hChildren
      exact .inr ⟨p, by rw [hBefore, hAfter, hChildren]⟩

/-- The next sibling stands right behind a node among the children of their parent. -/
theorem nextSibling?_eq_some_iff :
    t.nextSibling? n = some m ↔ ∃ p before after, t.children p = before ++ n :: m :: after := by
  constructor
  · intro h
    obtain ⟨after, hAfter⟩ := List.head?_eq_some_iff.mp h
    rcases t.siblings_cases n with ⟨-, hNone⟩ | ⟨p, hChildren⟩
    · exact absurd (hNone.symm.trans hAfter) (List.cons_ne_nil _ _).symm
    · exact ⟨p, _, after, hAfter ▸ hChildren⟩
  · rintro ⟨p, before, after, hChildren⟩
    rw [nextSibling?, (siblings_of_children hChildren).2, List.head?_cons]

theorem prevSibling?_eq_some_iff :
    t.prevSibling? m = some n ↔ ∃ p before after, t.children p = before ++ n :: m :: after := by
  constructor
  · intro h
    obtain ⟨before, hBefore⟩ := List.getLast?_eq_some_iff.mp h
    rcases t.siblings_cases m with ⟨hNone, -⟩ | ⟨p, hChildren⟩
    · exact absurd (hNone.symm.trans hBefore) (by simp)
    · exact ⟨p, before, _, by rw [hChildren, hBefore, List.append_assoc, List.singleton_append]⟩
  · rintro ⟨p, before, after, hChildren⟩
    rw [List.append_cons] at hChildren
    rw [prevSibling?, (siblings_of_children hChildren).1, List.getLast?_concat]

/-- The next named sibling is the nearest named one behind a node. -/
theorem nextNamedSibling?_eq_some_iff :
    t.nextNamedSibling? n = some m ↔ t.isNamed m = true ∧ t.IsNearestNamed n m := by
  constructor
  · intro h
    obtain ⟨hNamed, between, after, hAfter, hBetween⟩ := List.find?_eq_some_iff_append.mp h
    rcases t.siblings_cases n with ⟨-, hNone⟩ | ⟨p, hChildren⟩
    · exact absurd (hNone.symm.trans hAfter) (by simp)
    · exact ⟨hNamed, p, _, between, after, hAfter ▸ hChildren,
        fun k hk => by simpa using hBetween k hk⟩
  · rintro ⟨hNamed, p, before, between, after, hChildren, hBetween⟩
    rw [nextNamedSibling?, (siblings_of_children hChildren).2]
    exact List.find?_eq_some_iff_append.mpr
      ⟨hNamed, between, after, rfl, fun k hk => by simp [hBetween k hk]⟩

theorem prevNamedSibling?_eq_some_iff :
    t.prevNamedSibling? n = some m ↔ t.isNamed m = true ∧ t.IsNearestNamed m n := by
  constructor
  · intro h
    obtain ⟨hNamed, between, before, hReversed, hBetween⟩ := List.find?_eq_some_iff_append.mp h
    have hBefore : t.siblingsBefore n = before.reverse ++ m :: between.reverse := by
      rw [← List.reverse_reverse (t.siblingsBefore n), hReversed]
      simp
    rcases t.siblings_cases n with ⟨hNone, -⟩ | ⟨p, hChildren⟩
    · exact absurd (hNone.symm.trans hBefore) (by simp)
    · refine ⟨hNamed, p, before.reverse, between.reverse, t.siblingsAfter n, ?_, fun k hk => ?_⟩
      · rw [hChildren, hBefore, List.append_assoc, List.cons_append]
      · simpa using hBetween k (List.mem_reverse.mp hk)
  · rintro ⟨hNamed, p, before, between, after, hChildren, hBetween⟩
    have hSplit : t.children p = (before ++ m :: between) ++ n :: after := by
      rw [hChildren, List.append_assoc, List.cons_append]
    rw [prevNamedSibling?, (siblings_of_children hSplit).1]
    refine List.find?_eq_some_iff_append.mpr
      ⟨hNamed, between.reverse, before.reverse, by simp, fun k hk => ?_⟩
    simp [hBetween k (List.mem_reverse.mp hk)]

/-- There is no next named sibling if all that follows in the parent is unnamed. -/
theorem nextNamedSibling?_eq_none_iff : t.nextNamedSibling? n = none ↔
    ∀ p before after, t.children p = before ++ n :: after → ∀ k ∈ after, t.isNamed k = false := by
  rw [nextNamedSibling?, List.find?_eq_none]
  constructor
  · intro h p before after hChildren k hk
    rw [(siblings_of_children hChildren).2] at h
    simpa using h k hk
  · intro h k hk
    rcases t.siblings_cases n with ⟨-, hNone⟩ | ⟨p, hChildren⟩
    · exact absurd (hNone ▸ hk) List.not_mem_nil
    · simp [h p _ _ hChildren k hk]

theorem prevNamedSibling?_eq_none_iff : t.prevNamedSibling? n = none ↔
    ∀ p before after, t.children p = before ++ n :: after → ∀ k ∈ before, t.isNamed k = false := by
  rw [prevNamedSibling?, List.find?_eq_none]
  constructor
  · intro h p before after hChildren k hk
    rw [(siblings_of_children hChildren).1] at h
    simpa using h k (List.mem_reverse.mpr hk)
  · intro h k hk
    rcases t.siblings_cases n with ⟨hNone, -⟩ | ⟨p, hChildren⟩
    · exact absurd (hNone ▸ List.mem_reverse.mp hk) List.not_mem_nil
    · simp [h p _ _ hChildren k (List.mem_reverse.mp hk)]

/-- Walks from a node are exact. The walk down ends; it visits what is below the node, each node
once and before all that come after it, and their indices are the run behind the index of the node.
The walk up ends; it passes the nodes that the node is below, each before those that it is below.
The siblings before and after lead back to the node, and the nearest named sibling of either side
is found, unless the side has none. -/
theorem walks_exact (t : Tree) (n : Nat) :
    ((∀ visited, t.Visits (t.children n) visited ↔ visited = t.descendants n) ∧
      (∀ m, m ∈ t.descendants n ↔ t.IsBelow m n) ∧
      (t.descendants n).Pairwise t.Precedes ∧ (∀ a b, t.Precedes a b → ¬ t.Precedes b a) ∧
      t.descendants n = List.range' (n + 1) (t.descendants n).length) ∧
    ((∀ passed, t.Climbs n passed ↔ passed = t.ancestors n) ∧
      (∀ a, a ∈ t.ancestors n ↔ n ∈ t.descendants a) ∧
      (t.ancestors n).Pairwise fun a b => a ∈ t.descendants b) ∧
    (∀ m, t.nextSibling? n = some m ↔ t.prevSibling? m = some n) ∧
    ((∀ m, t.nextNamedSibling? n = some m ↔ t.isNamed m = true ∧ t.IsNearestNamed n m) ∧
      (t.nextNamedSibling? n = none ↔ ∀ p before after,
        t.children p = before ++ n :: after → ∀ k ∈ after, t.isNamed k = false)) ∧
    (∀ m, t.prevNamedSibling? n = some m ↔ t.isNamed m = true ∧ t.IsNearestNamed m n) ∧
    (t.prevNamedSibling? n = none ↔ ∀ p before after,
      t.children p = before ++ n :: after → ∀ k ∈ before, t.isNamed k = false) := by
  refine ⟨⟨fun _ => visits_children_iff, fun _ => isBelow_iff.symm, t.descendants_precedes n,
      fun a b hab hba => Nat.lt_asymm hab.lt hba.lt, t.descendants_eq_range' n⟩,
    ⟨fun _ => climbs_iff, fun _ => mem_descendants_iff_mem_ancestors.symm,
      t.ancestors_pairwise_below n⟩, fun m => ?_,
    ⟨fun _ => nextNamedSibling?_eq_some_iff, nextNamedSibling?_eq_none_iff⟩,
    fun _ => prevNamedSibling?_eq_some_iff, prevNamedSibling?_eq_none_iff⟩
  exact nextSibling?_eq_some_iff.trans prevSibling?_eq_some_iff.symm

/-- A tree in which two nodes begin behind the end of the root. -/
def Sample.secondRoot : Tree :=
  ofEvents [.enter .file, .enter .error, .missing .lowerCaseIdentifier, .leave, .punctuation "=",
    .token .lowerCaseIdentifier "x", .leave, .enter .error, .missing .lowerCaseIdentifier]

/-- What begins behind the end of the root is not below it, and the run of indices stops before. -/
theorem walks_exact_secondRoot :
    Sample.secondRoot.size = 7 ∧
      (∀ visited, Sample.secondRoot.Visits (Sample.secondRoot.children root) visited ↔
        visited = [1, 2, 3, 4]) ∧
      (∀ m, Sample.secondRoot.IsBelow m root ↔ m ∈ [1, 2, 3, 4]) ∧
      (∀ passed, Sample.secondRoot.Climbs 2 passed ↔ passed = [1, 0]) ∧
      Sample.secondRoot.prevSibling? 3 = some 1 ∧ Sample.secondRoot.IsNearestNamed 1 4 := by
  have hBelow : Sample.secondRoot.descendants root = [1, 2, 3, 4] := by decide +kernel
  have hAbove : Sample.secondRoot.ancestors 2 = [1, 0] := by decide +kernel
  obtain ⟨⟨hVisits, hMem, -⟩, -, -⟩ := walks_exact Sample.secondRoot root
  obtain ⟨-, ⟨hClimbs, -⟩, -⟩ := walks_exact Sample.secondRoot 2
  obtain ⟨-, -, hNext, -⟩ := walks_exact Sample.secondRoot 1
  obtain ⟨-, -, -, -, hPrevNamed, -⟩ := walks_exact Sample.secondRoot 4
  refine ⟨by decide +kernel, fun visited => hBelow ▸ hVisits visited,
    fun m => hBelow ▸ (hMem m).symm, fun passed => hAbove ▸ hClimbs passed,
    (hNext 3).mp (by decide +kernel), ((hPrevNamed 1).mp (by decide +kernel)).2⟩

end Tree

end ElmScope
