import ElmScope.Syntax.Tree

/-! Nodes nest. Every sequence of events leaves drafts in which a node begun before
its predecessor's end lies inside it, so the nodes between a node and its parent are
all inside that parent. The order of the indices is the order of a walk. -/
namespace ElmScope

namespace Builder

/-- What holds of a builder after any events: the open nodes are listed innermost
first, whatever began after an open node is inside it, and whatever began between a
node and its parent is inside that parent. -/
structure Nested (b : Builder) : Prop where
  opened_sorted : b.opened.Pairwise (· > ·)
  inside_opened : ∀ o ∈ b.opened, ∀ n, o < n → n < b.drafts.size →
    ∃ q, b.parent? n = some q ∧ o ≤ q
  inside_parent : ∀ p m n, b.parent? m = some p → p < n → n ≤ m →
    ∃ q, b.parent? n = some q ∧ p ≤ q

theorem nested_start : start.Nested :=
  ⟨.nil, by simp [start], by simp [start, parent?]⟩

theorem Nested.append {b : Builder} (h : b.Nested) (text : String) : (b.append text).Nested :=
  ⟨h.opened_sorted, h.inside_opened, h.inside_parent⟩

theorem Nested.leave {b : Builder} (h : b.Nested) : b.leave.Nested := by
  refine ⟨h.opened_sorted.tail, ?_, ?_⟩
  · intro o ho n hon hn
    rw [parent?_leave]
    exact h.inside_opened o (List.mem_of_mem_tail ho) n hon (b.size_leave ▸ hn)
  · intro p m n hm hpn hnm
    rw [parent?_leave] at hm ⊢
    exact h.inside_parent p m n hm hpn hnm

/-- A node that begins goes into the innermost open one, which is the greatest, and so into every
open one. -/
theorem Nested.enter {b : Builder} (h : b.Nested) (kind : Kind) (isNamed isMissing : Bool) :
    (b.enter kind isNamed isMissing).Nested := by
  have hInner : ∀ o ∈ b.opened, ∃ q, b.opened.head? = some q ∧ o ≤ q := by
    intro o ho
    cases hOpened : b.opened with
    | nil => simp [hOpened] at ho
    | cons inner outer =>
        refine ⟨inner, rfl, ?_⟩
        rw [hOpened] at ho
        rcases List.mem_cons.mp ho with rfl | ho
        · exact Nat.le_refl _
        · have hSorted := h.opened_sorted
          rw [hOpened] at hSorted
          exact Nat.le_of_lt (List.rel_of_pairwise_cons hSorted ho)
  refine ⟨List.pairwise_cons.mpr ⟨b.opened_lt, h.opened_sorted⟩, ?_, ?_⟩
  · intro o ho n hon hn
    have hn : n < b.drafts.size + 1 := by simpa [Builder.enter] using hn
    rw [parent?_enter]
    rcases List.mem_cons.mp ho with rfl | ho
    · omega
    · split
      · exact hInner o ho
      · exact h.inside_opened o ho n hon (by omega)
  · intro p m n hm hpn hnm
    rw [parent?_enter] at hm ⊢
    split at hm
    · next hNew =>
      have hp : p ∈ b.opened := List.mem_of_mem_head? hm
      split
      · exact hInner p hp
      · exact h.inside_opened p hp n hpn (by omega)
    · next hOld =>
      have hBounds := parent?_bounds hm
      rw [if_neg (by omega)]
      exact h.inside_parent p m n hm hpn hnm

/-- One event keeps the nesting. -/
theorem Nested.step {b : Builder} (h : b.Nested) (event : Event) : (b.step event).Nested :=
  step_induction (fun _ kind isNamed isMissing h => h.enter kind isNamed isMissing)
    (fun _ h => h.leave) (fun _ text h => h.append text) h event

/-- Nodes are nested after any events. -/
theorem Nested.run {b : Builder} (h : b.Nested) (events : List Event) :
    (events.foldl Builder.step b).Nested :=
  run_induction (fun _ kind isNamed isMissing h => h.enter kind isNamed isMissing)
    (fun _ h => h.leave) (fun _ text h => h.append text) h events

theorem nested_wholeFile (source : String) : (wholeFile source).Nested := by
  refine ⟨.nil, fun o ho => absurd ho List.not_mem_nil, fun p m n hm => ?_⟩
  cases m <;> cases hm

/-- Every sequence of events leaves nested drafts. -/
theorem nested_ofEvents (events : List Event) : (ofEvents events).Nested :=
  finish_induction (fun _ h => h.leave) nested_wholeFile (nested_start.run events)

end Builder

/-- The nodes between a node and its parent are inside that parent. -/
theorem Tree.le_parent?_of_between {t : Tree} {p m n : Nat} (hParent : t.parent? m = some p)
    (hAfter : p < n) (hBefore : n ≤ m) : ∃ q, t.parent? n = some q ∧ p ≤ q := by
  obtain ⟨events, rfl⟩ := t.exists_eq_ofEvents
  rw [parent?_ofEvents] at hParent ⊢
  exact (Builder.nested_ofEvents events).inside_parent p m n hParent hAfter hBefore

/-- The children of a node are listed in the order in which they begin. -/
theorem Tree.children_sorted (t : Tree) (n : Nat) : (t.children n).Pairwise (· < ·) := by
  obtain ⟨events, rfl⟩ := t.exists_eq_ofEvents
  rw [children_ofEvents]
  exact (Builder.linked_ofEvents events).children_sorted n

end ElmScope
