import ElmScope.Proofs.Syntax.Cover
import ElmScope.Proofs.Syntax.TreeOrder
import ElmScope.Proofs.Text.Place

/-! Nodes over a stretch of text. Places are ordered as bytes are, so the places of nodes
nest as the nodes do and siblings do not overlap. The nodes that span a stretch therefore lie
on one way down from the root, and entering the first spanning child misses none of them. -/
namespace ElmScope

namespace Tree

open Text

variable {t : Tree} {stretch : Range} {c d m n p : Nat}

/-- A node begins at the place of its first byte. -/
theorem start_eq (t : Tree) (n : Nat) :
    t.start n = positionAt t.source.toList (t.startByte n) := by
  obtain ⟨events, rfl⟩ := t.exists_eq_ofEvents
  rw [start, range, startByte, node_ofEvents]
  cases (Builder.ofEvents events).drafts[n]? with
  | none => simp [Node.absent, positionAt]
  | some draft => rfl

/-- A node ends at the place behind its last byte. -/
theorem stop_eq (t : Tree) (n : Nat) : t.stop n = positionAt t.source.toList (t.endByte n) := by
  obtain ⟨events, rfl⟩ := t.exists_eq_ofEvents
  rw [stop, range, endByte, node_ofEvents]
  cases (Builder.ofEvents events).drafts[n]? with
  | none => simp [Node.absent, positionAt]
  | some draft => rfl

/-- A node ends before a later one begins, unless it is above that one. By induction: the parent of
the later node begins after the earlier one too, or else the earlier one is inside this parent. -/
theorem endByte_le_startByte_of_not_above (hn : n ∈ t.reachable) (hLt : m < n)
    (hAbove : m ∉ t.ancestors n) : t.endByte m ≤ t.startByte n := by
  induction hSum : m + n using Nat.strongRecOn generalizing m n with
  | ind k ih =>
      have hRoot : root ∈ t.ancestors n :=
        (mem_reachable_iff.mp hn).resolve_left (Nat.ne_of_gt (Nat.zero_lt_of_lt hLt))
      obtain ⟨q, hq, -⟩ := mem_ancestors_iff.mp hRoot
      have hqn := parent?_lt hq
      rcases Nat.lt_trichotomy m q with hBefore | rfl | hInside
      · have hNotAbove : m ∉ t.ancestors q := fun h =>
          hAbove (mem_ancestors_iff.mpr ⟨q, hq, .inr h⟩)
        have hParent := ih (m + q) (by omega) (mem_reachable_of_parent hn hq) hBefore hNotAbove rfl
        exact Nat.le_trans hParent (inside_of_parent? hq).1
      · exact absurd (mem_ancestors_iff.mpr ⟨m, hq, .inl rfl⟩) hAbove
      · obtain ⟨r, hr, hqr⟩ := le_parent?_of_between hq hInside (Nat.le_of_lt hLt)
        rcases Nat.lt_or_eq_of_le hqr with hDeeper | rfl
        · have hrm := parent?_lt hr
          have hNotAbove : r ∉ t.ancestors n := by
            intro h
            obtain ⟨p, hp, hrp⟩ := mem_ancestors_iff.mp h
            obtain rfl := Option.some.inj (hq.symm.trans hp)
            rcases hrp with rfl | hrp
            · exact Nat.lt_irrefl _ hDeeper
            · exact Nat.lt_asymm hDeeper (lt_of_mem_ancestors hrp)
          have hParent := ih (r + n) (by omega) hn (Nat.lt_trans hrm hLt) hNotAbove rfl
          exact Nat.le_trans (inside_of_parent? hr).2 hParent
        · exact endByte_le_startByte hr hq hLt

/-- The places of a node lie between those of its parent. -/
theorem places_of_parent? (h : t.parent? c = some p) :
    t.start p ≤ t.start c ∧ t.stop c ≤ t.stop p := by
  obtain ⟨hStart, hStop⟩ := inside_of_parent? h
  simp only [start_eq, stop_eq]
  exact ⟨positionAt_mono _ hStart, positionAt_mono _ hStop⟩

/-- A node ends no later than a later one of the same parent begins. -/
theorem stop_le_start (hc : t.parent? c = some p) (hd : t.parent? d = some p) (hLt : c < d) :
    t.stop c ≤ t.start d := by
  rw [start_eq, stop_eq]
  exact positionAt_mono _ (endByte_le_startByte hc hd hLt)

theorem spans_iff : t.spans stretch n = true ↔
    t.start n ≤ stretch.start ∧ stretch.stop ≤ t.stop n ∧ stretch.start < t.stop n := by
  simp only [spans, Bool.and_eq_true, decide_eq_true_eq]
  exact ⟨fun ⟨⟨hStop, hLt⟩, hStart⟩ => ⟨hStart, hStop, hLt⟩,
    fun ⟨hStart, hStop, hLt⟩ => ⟨⟨hStop, hLt⟩, hStart⟩⟩

/-- What a node spans, its parent spans. -/
theorem spans_of_parent? (hParent : t.parent? c = some p) (h : t.spans stretch c = true) :
    t.spans stretch p = true := by
  obtain ⟨hStart, hStop⟩ := places_of_parent? hParent
  obtain ⟨hBefore, hAfter, hLt⟩ := spans_iff.mp h
  refine spans_iff.mpr
    ⟨Position.le_trans hStart hBefore, Position.le_trans hAfter hStop, ?_⟩
  simp only [Position.lt_def, Position.le_def] at hLt hStop ⊢
  omega

/-- What a node spans, every node above it spans. -/
theorem spans_of_mem_descendants (hm : m ∈ t.descendants n) (h : t.spans stretch m = true) :
    t.spans stretch n = true := by
  rw [mem_descendants_iff_mem_ancestors] at hm
  induction m using t.upInduction with
  | above m ih =>
      obtain ⟨p, hParent, hAbove⟩ := mem_ancestors_iff.mp hm
      have hp := spans_of_parent? hParent h
      rcases hAbove with rfl | hAbove
      · exact hp
      · exact ih p hParent hAbove hp

/-- Of the children of a node one at most spans a stretch: the end of an earlier one is no
later than the beginning of a later one. -/
theorem eq_of_spans (hc : c ∈ t.children p) (hd : d ∈ t.children p)
    (hcSpans : t.spans stretch c = true) (hdSpans : t.spans stretch d = true) : c = d := by
  have hApart : ∀ {a b : Nat}, t.parent? a = some p → t.parent? b = some p → a < b →
      t.spans stretch a = true → ¬ t.spans stretch b = true := by
    intro a b ha hb hLt haSpans hbSpans
    have hOrder := stop_le_start ha hb hLt
    obtain ⟨-, -, hEnd⟩ := spans_iff.mp haSpans
    obtain ⟨hBegin, -⟩ := spans_iff.mp hbSpans
    simp only [Position.lt_def, Position.le_def] at hOrder hEnd hBegin
    omega
  have hcParent := mem_children_iff.mp hc
  have hdParent := mem_children_iff.mp hd
  rcases Nat.lt_trichotomy c d with hLt | hEq | hLt
  · exact absurd hdSpans (hApart hcParent hdParent hLt hcSpans)
  · exact hEq
  · exact absurd hcSpans (hApart hdParent hcParent hLt hdSpans)

/-- A spanning node below another is the spanning child of that one or below it. -/
theorem mem_subtree_of_spans (hc : c ∈ t.children n) (hcSpans : t.spans stretch c = true)
    (hm : m ∈ t.descendants n) (h : t.spans stretch m = true) :
    m = c ∨ m ∈ t.descendants c := by
  obtain ⟨d, hd, hBelow⟩ := mem_descendants_iff.mp hm
  have hdSpans : t.spans stretch d = true := by
    rcases hBelow with rfl | hBelow
    · exact h
    · exact spans_of_mem_descendants hBelow h
  exact eq_of_spans hc hd hcSpans hdSpans ▸ hBelow

/-- Of two spanning nodes below a node one is above the other. -/
theorem comparable_of_spans (hm : m ∈ t.descendants p) (hn : n ∈ t.descendants p)
    (hmSpans : t.spans stretch m = true) (hnSpans : t.spans stretch n = true) :
    m = n ∨ m ∈ t.ancestors n ∨ n ∈ t.ancestors m := by
  simp only [← mem_descendants_iff_mem_ancestors]
  induction p using t.downInduction with
  | below p ih =>
      obtain ⟨c, hc, hmBelow⟩ := mem_descendants_iff.mp hm
      have hcSpans : t.spans stretch c = true := by
        rcases hmBelow with rfl | hmBelow
        · exact hmSpans
        · exact spans_of_mem_descendants hmBelow hmSpans
      have hnBelow := mem_subtree_of_spans hc hcSpans hn hnSpans
      rcases hmBelow with rfl | hmBelow
      · rcases hnBelow with rfl | hnBelow
        · exact .inl rfl
        · exact .inr (.inl hnBelow)
      · rcases hnBelow with rfl | hnBelow
        · exact .inr (.inr hmBelow)
        · exact ih c hc hmBelow hnBelow

/-- The way down keeps the last named node that it passes. What it has kept so far stays when
no named node below spans the stretch, and else it ends with the deepest of these. -/
theorem descend_cases (t : Tree) (stretch : Range) (n best : Nat) :
    (t.descend stretch n best = best ∧
      ∀ m ∈ t.descendants n, t.spans stretch m = true → t.isNamed m = false) ∨
    (t.descend stretch n best ∈ t.descendants n ∧
      t.spans stretch (t.descend stretch n best) = true ∧
      t.isNamed (t.descend stretch n best) = true ∧
      ∀ m ∈ t.descendants n, t.spans stretch m = true → t.isNamed m = true →
        m = t.descend stretch n best ∨ m ∈ t.ancestors (t.descend stretch n best)) := by
  induction n using t.downInduction generalizing best with
  | below n ih =>
      rw [descend]
      split
      · next hNone =>
        refine .inl ⟨rfl, fun m hm hSpans => ?_⟩
        obtain ⟨c, hc, hBelow⟩ := mem_descendants_iff.mp hm
        refine absurd ?_ (List.find?_eq_none.mp hNone c hc)
        rcases hBelow with rfl | hBelow
        · exact hSpans
        · exact spans_of_mem_descendants hBelow hSpans
      · next c hFound =>
        have hc := List.mem_of_find?_eq_some hFound
        have hcSpans := List.find?_some hFound
        -- No spanning node is lost: all of them are in the subtree of the child that is entered.
        rcases ih c hc (if t.isNamed c then c else best) with ⟨hKept, hBelow⟩ | hDeeper
        · rw [hKept]
          cases hNamed : t.isNamed c with
          | false =>
              refine .inl ⟨rfl, fun m hm hSpans => ?_⟩
              rcases mem_subtree_of_spans hc hcSpans hm hSpans with rfl | hm
              · exact hNamed
              · exact hBelow m hm hSpans
          | true =>
              refine .inr ⟨mem_descendants_of_child hc, hcSpans, hNamed, fun m hm hSpans h => ?_⟩
              rcases mem_subtree_of_spans hc hcSpans hm hSpans with rfl | hm
              · exact .inl rfl
              · exact absurd (hBelow m hm hSpans) (by simp [h])
        · obtain ⟨hMem, hSpans, hNamed, hAll⟩ := hDeeper
          refine .inr ⟨mem_descendants_iff.mpr ⟨c, hc, .inr hMem⟩, hSpans, hNamed, ?_⟩
          intro m hm hmSpans hmNamed
          rcases mem_subtree_of_spans hc hcSpans hm hmSpans with rfl | hm
          · exact .inr (mem_descendants_iff_mem_ancestors.mp hMem)
          · exact hAll m hm hmSpans hmNamed

/-- The deepest node lies on one way down with every node that spans the stretch. -/
theorem deepestOver_comparable (hn : n ∈ t.descendants root) (hSpans : t.spans stretch n = true) :
    t.deepestOver stretch = n ∨ t.deepestOver stretch ∈ t.ancestors n ∨
      n ∈ t.ancestors (t.deepestOver stretch) := by
  rcases t.descend_cases stretch root root with ⟨hRoot, -⟩ | ⟨hMem, hDeepest, -⟩
  · refine .inr (.inl ?_)
    rw [deepestOver, hRoot]
    exact mem_descendants_iff_mem_ancestors.mp hn
  · exact comparable_of_spans hMem hn hDeepest hSpans

/-- A node is above the deepest one when a named node below it spans the stretch. -/
theorem mem_ancestors_deepestOver_iff (hn : n ∈ t.descendants root) :
    n ∈ t.ancestors (t.deepestOver stretch) ↔
      ∃ m ∈ t.descendants n, t.isNamed m = true ∧ t.spans stretch m = true := by
  have hAboveAll := mem_descendants_iff_mem_ancestors.mp hn
  rcases t.descend_cases stretch root root with
    ⟨hRoot, hUnnamed⟩ | ⟨hMem, hDeepest, hNamed, hAll⟩
  · rw [deepestOver, hRoot]
    constructor
    · exact fun h => absurd (lt_of_mem_ancestors h) (Nat.not_lt_zero n)
    · rintro ⟨m, hm, hNamed, hSpans⟩
      have hBelow := ancestors_trans hAboveAll (mem_descendants_iff_mem_ancestors.mp hm)
      have hNot := hUnnamed m (mem_descendants_iff_mem_ancestors.mpr hBelow) hSpans
      exact absurd hNamed (by simp [hNot])
  · constructor
    · intro h
      exact ⟨_, mem_descendants_iff_mem_ancestors.mpr h, hNamed, hDeepest⟩
    · rintro ⟨m, hm, hmNamed, hmSpans⟩
      have hm := mem_descendants_iff_mem_ancestors.mp hm
      have hBelow := mem_descendants_iff_mem_ancestors.mpr (ancestors_trans hAboveAll hm)
      rcases hAll m hBelow hmSpans hmNamed with rfl | hAbove
      · exact hm
      · exact ancestors_trans hm hAbove

/-- A node other than the root, reached from it, over a stretch of text: it starts no later,
ends no earlier, and ends strictly after the beginning of the stretch. -/
structure IsOver (t : Tree) (stretch : Range) (n : Nat) : Prop where
  reached : n ∈ t.reachable
  ne_root : n ≠ root
  start_le : t.start n ≤ stretch.start
  le_stop : stretch.stop ≤ t.stop n
  lt_stop : stretch.start < t.stop n

/-- The nodes over a stretch are those below the root that span it. -/
theorem isOver_iff :
    t.IsOver stretch n ↔ n ∈ t.descendants root ∧ t.spans stretch n = true := by
  constructor
  · intro h
    exact ⟨(List.mem_cons.mp h.reached).resolve_left h.ne_root,
      spans_iff.mpr ⟨h.start_le, h.le_stop, h.lt_stop⟩⟩
  · rintro ⟨hBelow, hSpans⟩
    obtain ⟨hStart, hStop, hLt⟩ := spans_iff.mp hSpans
    exact ⟨List.mem_cons_of_mem _ hBelow, Nat.ne_of_gt (lt_of_mem_descendants hBelow), hStart,
      hStop, hLt⟩

/-- The nodes over a stretch of text lie one above the other, no two of them are children of
one node, and the look-up finds the deepest named one among them, or the root when none is
named. The two ends of the stretch may be any places, also out of order. -/
theorem deepestOver_isDeepest (t : Tree) (stretch : Range) :
    (∀ m n, t.IsOver stretch m → t.IsOver stretch n →
      m = n ∨ m ∈ t.ancestors n ∨ n ∈ t.ancestors m) ∧
    (∀ p c d, c ∈ t.children p → d ∈ t.children p → t.IsOver stretch c → t.IsOver stretch d →
      c = d) ∧
    (∀ n, t.IsOver stretch n → t.isNamed n = true →
      t.IsOver stretch (t.deepestOver stretch) ∧ t.isNamed (t.deepestOver stretch) = true ∧
      (n = t.deepestOver stretch ∨ n ∈ t.ancestors (t.deepestOver stretch))) ∧
    ((∀ n, t.IsOver stretch n → t.isNamed n = false) → t.deepestOver stretch = root) := by
  simp only [isOver_iff]
  refine ⟨fun m n hm hn => comparable_of_spans hm.1 hn.1 hm.2 hn.2,
    fun p c d hc hd hcOver hdOver => eq_of_spans hc hd hcOver.2 hdOver.2, ?_⟩
  rcases t.descend_cases stretch root root with ⟨hRoot, hUnnamed⟩ | ⟨hMem, hSpans, hNamed, hAll⟩
  · refine ⟨fun n hn h => ?_, fun _ => hRoot⟩
    exact absurd (hUnnamed n hn.1 hn.2) (by simp [h])
  · refine ⟨fun n hn h => ⟨⟨hMem, hSpans⟩, hNamed, hAll n hn.1 hn.2 h⟩, fun hNone => ?_⟩
    exact absurd (hNone _ ⟨hMem, hSpans⟩) (by simp [hNamed])

end Tree

namespace Sample

/-- The file `x = y` with a token missing behind `y`. -/
def trailing : Tree := .ofEvents
  [.enter .file, .token .lowerCaseIdentifier "x", .gap " ", .punctuation "=", .gap " ",
    .enter .valueExpr, .token .lowerCaseIdentifier "y", .missing .lowerCaseIdentifier, .leave,
    .leave]

end Sample

/-- From the place of `y` back to the beginning of the file: the name is found, and not the
node of no width behind it. -/
theorem Tree.deepestOver_isDeepest_backward :
    let stretch : Range := ⟨⟨0, 4⟩, .origin⟩
    Sample.trailing.IsOver stretch 4 ∧ Sample.trailing.isNamed 4 = true ∧
      Sample.trailing.deepestOver stretch = 4 ∧
      (∀ n, Sample.trailing.IsOver stretch n → n = 4 ∨ n ∈ Sample.trailing.ancestors 4 ∨
        4 ∈ Sample.trailing.ancestors n) ∧
      Sample.trailing.deepestOver (.empty ⟨0, 3⟩) = root := by
  intro stretch
  have hOver : Sample.trailing.IsOver stretch 4 := isOver_iff.mpr (by decide +kernel)
  have hNamed : Sample.trailing.isNamed 4 = true := by decide +kernel
  obtain ⟨hComparable, -, hDeepest, -⟩ := deepestOver_isDeepest Sample.trailing stretch
  obtain ⟨-, -, hFound | hAbove⟩ := hDeepest 4 hOver hNamed
  · refine ⟨hOver, hNamed, hFound.symm, fun n hn => hComparable n 4 hn hOver, ?_⟩
    obtain ⟨-, -, -, hNone⟩ := deepestOver_isDeepest Sample.trailing (.empty ⟨0, 3⟩)
    have hBlank : ∀ n ∈ Sample.trailing.descendants root,
        ¬ Sample.trailing.spans (.empty ⟨0, 3⟩) n = true := by decide +kernel
    exact hNone fun n hn => absurd (isOver_iff.mp hn).2 (hBlank n (isOver_iff.mp hn).1)
  · exact absurd hAbove (by decide +kernel)

end ElmScope
