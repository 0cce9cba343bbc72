import ElmScope.Proofs.Syntax.Nesting
import ElmScope.Syntax.Walk

/-! Walking up and walking down agree. A node is below another exactly when that one
is above it, and the nodes below a node are listed in the order in which they begin,
each once. What hangs below the root is closed under both directions. -/
namespace ElmScope.Tree

section Sorted

/-! Searches in a list that is sorted by a position: what is found first is what has
the least position. -/

/-- What a search passes before it stops, in an increasing list, is what is less than
everything at which it would stop. -/
theorem mem_takeWhile_iff_of_sorted {p : Nat → Bool} {cs : List Nat}
    (hSorted : cs.Pairwise (· < ·)) {c : Nat} :
    c ∈ cs.takeWhile p ↔ c ∈ cs ∧ ∀ d ∈ cs, p d = false → c < d := by
  induction cs with
  | nil => simp
  | cons first rest ih =>
      obtain ⟨hFirst, hRest⟩ := List.pairwise_cons.mp hSorted
      cases hp : p first with
      | false =>
          rw [List.takeWhile_cons_of_neg (by simp [hp])]
          refine ⟨fun h => absurd h List.not_mem_nil, ?_⟩
          rintro ⟨hc, hBefore⟩
          have hLt := hBefore first List.mem_cons_self hp
          rcases List.mem_cons.mp hc with rfl | hc
          · omega
          · have := hFirst c hc
            omega
      | true =>
          rw [List.takeWhile_cons_of_pos hp, List.mem_cons, ih hRest]
          constructor
          · rintro (rfl | ⟨hc, hBefore⟩)
            · refine ⟨List.mem_cons_self, ?_⟩
              intro d hd hpd
              rcases List.mem_cons.mp hd with rfl | hd
              · simp [hp] at hpd
              · exact hFirst d hd
            · refine ⟨List.mem_cons_of_mem _ hc, ?_⟩
              intro d hd hpd
              rcases List.mem_cons.mp hd with rfl | hd
              · simp [hp] at hpd
              · exact hBefore d hd hpd
          · rintro ⟨hc, hBefore⟩
            rcases List.mem_cons.mp hc with rfl | hc
            · exact .inl rfl
            · exact .inr ⟨hc, fun d hd => hBefore d (List.mem_cons_of_mem _ hd)⟩

/-- A search finds the element of the least position among those it looks for. -/
theorem find?_eq_some_iff_of_sorted {α : Type} (position : α → Nat) {p : α → Bool} {l : List α}
    (hSorted : l.Pairwise fun a b => position a < position b) {a : α} :
    l.find? p = some a ↔ a ∈ l ∧ p a = true ∧ ∀ b ∈ l, p b = true → position a ≤ position b := by
  have hOthers : ∀ found, l.find? p = some found → ∀ b ∈ l, p b = true →
      b = found ∨ position found < position b := by
    intro found hFound b hb hp
    obtain ⟨-, before, after, hList, hBefore⟩ := List.find?_eq_some_iff_append.mp hFound
    rw [hList] at hb hSorted
    rcases List.mem_append.mp hb with hb | hb
    · exact absurd hp (by simpa using hBefore b hb)
    · rcases List.mem_cons.mp hb with hEq | hb
      · exact .inl hEq
      · exact .inr (List.rel_of_pairwise_cons (List.pairwise_append.mp hSorted).2.1 hb)
  constructor
  · intro h
    refine ⟨List.mem_of_find?_eq_some h, List.find?_some h, fun b hb hp => ?_⟩
    rcases hOthers a h b hb hp with rfl | hLt
    · exact Nat.le_refl _
    · exact Nat.le_of_lt hLt
  · rintro ⟨ha, hp, hFirst⟩
    cases hFind : l.find? p with
    | none => exact absurd hp (List.find?_eq_none.mp hFind a ha)
    | some found =>
        rcases hOthers found hFind a ha hp with rfl | hLt
        · rfl
        · have := hFirst found (List.mem_of_find?_eq_some hFind) (List.find?_some hFind)
          omega

/-- The place of an element of an increasing list is the number of those below it. -/
theorem getElem?_length_filter_lt {l : List Nat} {a : Nat} (hSorted : l.Pairwise (· < ·))
    (h : a ∈ l) : l[(l.filter (· < a)).length]? = some a := by
  obtain ⟨before, after, rfl⟩ := List.append_of_mem h
  obtain ⟨-, hAfter, hBefore⟩ := List.pairwise_append.mp hSorted
  have hBelow : before.filter (· < a) = before :=
    List.filter_eq_self.mpr fun b hb => by simpa using hBefore b hb a List.mem_cons_self
  have hAbove : (a :: after).filter (· < a) = [] := by
    refine List.filter_eq_nil_iff.mpr fun b hb => ?_
    rcases List.mem_cons.mp hb with rfl | hb
    · simp
    · simpa using Nat.le_of_lt (List.rel_of_pairwise_cons hAfter hb)
  rw [List.filter_append, hBelow, hAbove, List.append_nil, List.getElem?_append_right (Nat.le_refl _),
    Nat.sub_self]
  rfl

end Sorted

variable {t : Tree} {a c m n p : Nat}

/-- What a tree does not have is of no kind of the grammar. -/
theorem lt_size_of_kind {kind : Kind} (h : t.kind n = kind) (hKind : kind ≠ .other "") :
    n < t.size := by
  refine Nat.lt_of_not_le fun hOutside => hKind (h.symm.trans ?_)
  rw [Tree.kind, node, Array.getElem?_eq_none hOutside]
  rfl

theorem mem_children_of_childOfKind? {kind : Kind} {c : Nat}
    (h : t.childOfKind? n kind = some c) : c ∈ t.children n :=
  List.mem_of_find?_eq_some h

theorem parent?_of_childOfKind? {kind : Kind} {c : Nat} (h : t.childOfKind? n kind = some c) :
    t.parent? c = some n ∧ t.kind c = kind :=
  ⟨mem_children_iff.mp (mem_children_of_childOfKind? h), by simpa using List.find?_some h⟩

theorem mem_children_of_mem_namedChildren (h : c ∈ t.namedChildren n) : c ∈ t.children n :=
  (List.mem_filter.mp h).1

theorem mem_children_of_firstNamedChild? {c : Nat} (h : t.firstNamedChild? n = some c) :
    c ∈ t.children n :=
  mem_children_of_mem_namedChildren (List.mem_of_mem_head? h)

/-- Above a node are its parent and what is above this. -/
theorem mem_ancestors_iff :
    a ∈ t.ancestors n ↔ ∃ p, t.parent? n = some p ∧ (a = p ∨ a ∈ t.ancestors p) := by
  rw [ancestors_eq]
  cases t.parent? n <;> simp

/-- Below a node are its children and what is below these. -/
theorem mem_descendants_iff :
    m ∈ t.descendants n ↔ ∃ c ∈ t.children n, m = c ∨ m ∈ t.descendants c := by
  rw [descendants_eq]
  simp only [List.mem_flatMap, List.mem_cons]

theorem mem_descendants_of_child (h : c ∈ t.children n) : c ∈ t.descendants n :=
  mem_descendants_iff.mpr ⟨c, h, .inl rfl⟩

/-- What holds of a node whenever it holds of its parent holds of all nodes. -/
theorem upInduction (t : Tree) {motive : Nat → Prop}
    (above : ∀ n, (∀ p, t.parent? n = some p → motive p) → motive n) (n : Nat) : motive n := by
  induction n using Nat.strongRecOn with
  | ind n ih => exact above n fun p hParent => ih p (parent?_lt hParent)

/-- What holds of a node whenever it holds of its children holds of all nodes. -/
theorem downInduction (t : Tree) {motive : Nat → Prop}
    (below : ∀ n, (∀ c ∈ t.children n, motive c) → motive n) (n : Nat) : motive n := by
  induction hSize : t.size - n using Nat.strongRecOn generalizing n with
  | ind k ih =>
      apply below
      intro c hChild
      have hBounds := children_bounds hChild
      exact ih (t.size - c) (by omega) c rfl

theorem ancestors_trans (hUp : a ∈ t.ancestors m) (h : m ∈ t.ancestors n) : a ∈ t.ancestors n := by
  induction n using t.upInduction with
  | above n ih =>
      obtain ⟨p, hParent, hm⟩ := mem_ancestors_iff.mp h
      refine mem_ancestors_iff.mpr ⟨p, hParent, .inr ?_⟩
      rcases hm with rfl | hm
      · exact hUp
      · exact ih p hParent hm

theorem descendants_trans (hDown : c ∈ t.children m) (h : m ∈ t.descendants n) :
    c ∈ t.descendants n := by
  induction n using t.downInduction with
  | below n ih =>
      obtain ⟨d, hChild, hm⟩ := mem_descendants_iff.mp h
      refine mem_descendants_iff.mpr ⟨d, hChild, .inr ?_⟩
      rcases hm with rfl | hm
      · exact mem_descendants_of_child hDown
      · exact ih d hChild hm

/-- A node is below another exactly when that one is above it. -/
theorem mem_descendants_iff_mem_ancestors : m ∈ t.descendants n ↔ n ∈ t.ancestors m := by
  constructor
  · intro h
    induction n using t.downInduction with
    | below n ih =>
        obtain ⟨c, hChild, hm⟩ := mem_descendants_iff.mp h
        have hAbove : n ∈ t.ancestors c :=
          mem_ancestors_iff.mpr ⟨n, mem_children_iff.mp hChild, .inl rfl⟩
        rcases hm with rfl | hm
        · exact hAbove
        · exact ancestors_trans hAbove (ih c hChild hm)
  · intro h
    induction m using t.upInduction with
    | above m ih =>
        obtain ⟨p, hParent, hn⟩ := mem_ancestors_iff.mp h
        have hChild := mem_children_iff.mpr hParent
        rcases hn with rfl | hn
        · exact mem_descendants_of_child hChild
        · exact descendants_trans hChild (ih p hParent hn)

/-- A node begins after all nodes above it. -/
theorem lt_of_mem_ancestors (h : a ∈ t.ancestors n) : a < n := by
  induction n using t.upInduction with
  | above n ih =>
      obtain ⟨p, hParent, ha⟩ := mem_ancestors_iff.mp h
      have hLt := parent?_lt hParent
      rcases ha with rfl | ha
      · exact hLt
      · exact Nat.lt_trans (ih p hParent ha) hLt

/-- The nodes outward from a node are listed in the order opposite to that in which they
begin. -/
theorem outward_sorted (t : Tree) (n : Nat) : (n :: t.ancestors n).Pairwise (· > ·) := by
  induction n using t.upInduction with
  | above n ih =>
      refine List.pairwise_cons.mpr ⟨fun a ha => lt_of_mem_ancestors ha, ?_⟩
      rw [ancestors_eq]
      cases hParent : t.parent? n with
      | none => exact .nil
      | some p => exact ih p hParent

/-- A node begins before all nodes below it. -/
theorem lt_of_mem_descendants (h : m ∈ t.descendants n) : n < m :=
  lt_of_mem_ancestors (mem_descendants_iff_mem_ancestors.mp h)

/-- A node and all below it begin before the next child of the same parent. That child would
otherwise lie between a node and its parent, and so be inside the first. -/
theorem lt_of_mem_subtree {next : Nat} (hc : t.parent? c = some p) (hNext : t.parent? next = some p)
    (hLt : c < next) (hm : m = c ∨ m ∈ t.descendants c) : m < next := by
  rcases hm with rfl | hm
  · exact hLt
  rw [mem_descendants_iff_mem_ancestors] at hm
  induction m using t.upInduction with
  | above m ih =>
      obtain ⟨q, hParent, hAbove⟩ := mem_ancestors_iff.mp hm
      have hq : c ≤ q ∧ q < next := by
        rcases hAbove with rfl | hAbove
        · exact ⟨Nat.le_refl _, hLt⟩
        · exact ⟨Nat.le_of_lt (lt_of_mem_ancestors hAbove), ih q hParent hAbove⟩
      by_cases hBefore : m < next
      · exact hBefore
      · obtain ⟨r, hr, hle⟩ := le_parent?_of_between hParent hq.2 (Nat.le_of_not_lt hBefore)
        obtain rfl : p = r := Option.some.inj (hNext.symm.trans hr)
        have := parent?_lt hc
        omega

/-- Of the children of a node only one can be a given node or be above it. -/
theorem eq_of_above {d : Nat} (hc : c ∈ t.children p) (hd : d ∈ t.children p)
    (hcn : c = n ∨ c ∈ t.ancestors n) (hdn : d = n ∨ d ∈ t.ancestors n) : c = d := by
  have hApart : ∀ {a b : Nat}, a ∈ t.children p → b ∈ t.children p →
      (a = n ∨ a ∈ t.ancestors n) → (b = n ∨ b ∈ t.ancestors n) → ¬ a < b := by
    intro a b ha hb haBelow hbBelow hLt
    have hBefore : n < b := by
      refine lt_of_mem_subtree (mem_children_iff.mp ha) (mem_children_iff.mp hb) hLt ?_
      exact haBelow.imp Eq.symm mem_descendants_iff_mem_ancestors.mpr
    rcases hbBelow with rfl | hbBelow
    · exact Nat.lt_irrefl _ hBefore
    · exact Nat.lt_asymm hBefore (lt_of_mem_ancestors hbBelow)
  exact Nat.le_antisymm (Nat.le_of_not_lt (hApart hd hc hdn hcn))
    (Nat.le_of_not_lt (hApart hc hd hcn hdn))

theorem namedChildren_sorted (t : Tree) (n : Nat) : (t.namedChildren n).Pairwise (· < ·) :=
  (t.children_sorted n).filter _

theorem namedChildren_nodup (t : Tree) (n : Nat) : (t.namedChildren n).Nodup :=
  (t.namedChildren_sorted n).imp Nat.ne_of_lt

/-- A list of nodes made of parts of the subtrees of a node's children, in order, is
itself in order when each part is. -/
theorem pairwise_flatMap_children {β : Type} (position : β → Nat) (f : Nat → List β)
    (hSorted : ∀ c ∈ t.children n, (f c).Pairwise fun a b => position a < position b)
    (hInside : ∀ c ∈ t.children n, ∀ b ∈ f c, position b = c ∨ position b ∈ t.descendants c)
    {cs : List Nat} (hSub : cs.Sublist (t.children n)) :
    (cs.flatMap f).Pairwise fun a b => position a < position b := by
  refine List.pairwise_flatMap.mpr ⟨fun c hc => hSorted c (hSub.subset hc), ?_⟩
  refine ((t.children_sorted n).sublist hSub).imp_of_mem ?_
  intro c next hc hNext hLt a ha b hb
  have hcn := hSub.subset hc
  have hNextn := hSub.subset hNext
  have hBefore := lt_of_mem_subtree (mem_children_iff.mp hcn) (mem_children_iff.mp hNextn) hLt
    (hInside c hcn a ha)
  rcases hInside next hNextn b hb with hEq | hBelow
  · omega
  · have := lt_of_mem_descendants hBelow
    omega

/-- The nodes below a node are listed in the order in which they begin. -/
theorem descendants_sorted (t : Tree) (n : Nat) : (t.descendants n).Pairwise (· < ·) := by
  induction n using t.downInduction with
  | below n ih =>
      rw [descendants_eq]
      refine pairwise_flatMap_children (fun m => m) _ ?_ ?_ (List.Sublist.refl _)
      · intro c hChild
        exact List.pairwise_cons.mpr ⟨fun m hm => lt_of_mem_descendants hm, ih c hChild⟩
      · intro c _ m hm
        exact List.mem_cons.mp hm

/-- A node hangs in the tree if the root is above it. -/
theorem mem_reachable_iff : n ∈ t.reachable ↔ n = root ∨ root ∈ t.ancestors n := by
  rw [reachable, List.mem_cons, mem_descendants_iff_mem_ancestors]

theorem root_mem_reachable : root ∈ t.reachable := List.mem_cons_self

/-- The nodes that hang in a tree are listed in the order in which they begin. -/
theorem reachable_sorted (t : Tree) : t.reachable.Pairwise (· < ·) :=
  List.pairwise_cons.mpr ⟨fun _ h => lt_of_mem_descendants h, t.descendants_sorted root⟩

theorem lt_size_of_mem_reachable (h : n ∈ t.reachable) : n < t.size := by
  rcases mem_reachable_iff.mp h with rfl | hBelow
  · exact t.size_pos
  · obtain ⟨p, hParent, -⟩ := mem_ancestors_iff.mp hBelow
    exact (parent?_bounds hParent).2

theorem mem_reachable_of_child (hp : p ∈ t.reachable) (hc : c ∈ t.children p) :
    c ∈ t.reachable := by
  refine mem_reachable_iff.mpr (.inr (mem_ancestors_iff.mpr ⟨p, mem_children_iff.mp hc, ?_⟩))
  exact (mem_reachable_iff.mp hp).imp_left Eq.symm

theorem mem_reachable_of_parent (hn : n ∈ t.reachable) (hParent : t.parent? n = some p) :
    p ∈ t.reachable := by
  rcases mem_reachable_iff.mp hn with rfl | hn
  · exact absurd (parent?_lt hParent) (Nat.not_lt_zero _)
  · obtain ⟨q, hq, hRoot⟩ := mem_ancestors_iff.mp hn
    obtain rfl : p = q := Option.some.inj (hParent.symm.trans hq)
    exact mem_reachable_iff.mpr (hRoot.imp_left Eq.symm)

theorem mem_reachable_of_descendant (hn : n ∈ t.reachable) (hm : m ∈ t.descendants n) :
    m ∈ t.reachable := by
  have hAbove := mem_descendants_iff_mem_ancestors.mp hm
  rcases mem_reachable_iff.mp hn with rfl | hn
  · exact mem_reachable_iff.mpr (.inr hAbove)
  · exact mem_reachable_iff.mpr (.inr (ancestors_trans hn hAbove))

theorem mem_reachable_of_ancestor (hn : n ∈ t.reachable) (ha : a ∈ t.ancestors n) :
    a ∈ t.reachable := by
  induction n using t.upInduction with
  | above n ih =>
      obtain ⟨p, hParent, hAbove⟩ := mem_ancestors_iff.mp ha
      have hp := mem_reachable_of_parent hn hParent
      rcases hAbove with rfl | hAbove
      · exact hp
      · exact ih p hParent hp hAbove

end ElmScope.Tree
