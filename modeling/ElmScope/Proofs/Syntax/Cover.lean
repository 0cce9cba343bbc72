import ElmScope.Proofs.Syntax.Nesting

/-! The byte ranges of nodes nest as the nodes do. While a builder runs, a node that has
ended lies inside its parent's range as soon as the parent has ended too, and before every
later node with the same parent. Once all nodes have ended this holds of the whole tree. -/
namespace ElmScope

namespace Builder

variable {b : Builder} {n inner : Nat} {outer : List Nat}

def startOf (b : Builder) (n : Nat) : Nat := (b.drafts[n]?.map Draft.startByte).getD 0

/-- The byte offset at which a draft ends, and its beginning while it is open. -/
def endOf (b : Builder) (n : Nat) : Nat := (b.drafts[n]?.map Draft.endByte).getD 0

theorem startOf_enter (b : Builder) (kind : Kind) (isNamed isMissing : Bool) (n : Nat) :
    (b.enter kind isNamed isMissing).startOf n =
      if n = b.drafts.size then b.here else b.startOf n := by
  rw [startOf, map_drafts_enter (fun _ _ => rfl), startOf]
  split <;> rfl

theorem endOf_enter (b : Builder) (kind : Kind) (isNamed isMissing : Bool) (n : Nat) :
    (b.enter kind isNamed isMissing).endOf n =
      if n = b.drafts.size then b.here else b.endOf n := by
  rw [endOf, map_drafts_enter (fun _ _ => rfl), endOf]
  split <;> rfl

@[simp] theorem here_leave (b : Builder) : b.leave.here = b.here := rfl

@[simp] theorem startOf_leave (b : Builder) (n : Nat) : b.leave.startOf n = b.startOf n := by
  rw [startOf, map_drafts_leave (fun _ _ => rfl), startOf]

/-- Only the innermost open node gets another end. -/
theorem endOf_leave (h : b.opened = inner :: outer) (n : Nat) :
    b.leave.endOf n = if n = inner then b.here else b.endOf n := by
  have hInner := b.opened_lt inner (by simp [h])
  simp only [endOf, leave, getElem?_changeInnermost, h, List.head?_cons, Option.some.injEq]
  by_cases hn : n = inner
  · rw [if_pos hn.symm, if_pos hn, hn, Array.getElem?_eq_getElem hInner]
    rfl
  · rw [if_neg (Ne.symm hn), if_neg hn]

/-- When nothing is open, nothing ends. -/
theorem leave_of_opened_nil (h : b.opened = []) : b.leave = b := by
  obtain ⟨source, drafts, opened, _, _⟩ := b
  obtain rfl : opened = [] := h
  rfl

/-- What holds of the byte ranges after any events. A node whose parent has ended lies
inside it, and nodes with one parent follow each other. -/
structure Ranged (b : Builder) : Prop where
  parent_opened : ∀ n ∈ b.opened, ∀ p, b.parent? n = some p → p ∈ b.opened
  start_le_end : ∀ n, b.startOf n ≤ b.endOf n
  end_le_here : ∀ n, b.endOf n ≤ b.here
  start_inside : ∀ n p, b.parent? n = some p → b.startOf p ≤ b.startOf n
  end_inside : ∀ n p, b.parent? n = some p → p ∉ b.opened → b.endOf n ≤ b.endOf p
  apart : ∀ m n, m < n → n < b.drafts.size → b.parent? m = b.parent? n → b.endOf m ≤ b.startOf n

theorem ranged_start : start.Ranged := by
  constructor <;> simp [start, parent?, startOf, endOf]

theorem Ranged.append (h : b.Ranged) (text : String) : (b.append text).Ranged := by
  refine ⟨h.parent_opened, h.start_le_end, fun n => ?_, h.start_inside, h.end_inside, h.apart⟩
  have hEnd := h.end_le_here n
  simp only [here, Builder.append, String.utf8ByteSize_append] at hEnd ⊢
  exact Nat.le_trans hEnd (Nat.le_add_right _ _)

/-- A node begins at the end of the source, behind all nodes that have ended. -/
theorem Ranged.enter (h : b.Ranged) (kind : Kind) (isNamed isMissing : Bool) :
    (b.enter kind isNamed isMissing).Ranged := by
  have hOpened : (b.enter kind isNamed isMissing).opened = b.drafts.size :: b.opened := rfl
  constructor
  case parent_opened =>
    intro n hn p hp
    rw [hOpened] at hn ⊢
    rw [parent?_enter] at hp
    refine List.mem_cons_of_mem _ ?_
    split at hp
    · exact List.mem_of_mem_head? hp
    · next hOld => exact h.parent_opened n ((List.mem_cons.mp hn).resolve_left hOld) p hp
  case start_le_end =>
    intro n
    rw [startOf_enter, endOf_enter]
    split
    · exact Nat.le_refl _
    · exact h.start_le_end n
  case end_le_here =>
    intro n
    rw [endOf_enter]
    split
    · exact Nat.le_refl _
    · exact h.end_le_here n
  case start_inside =>
    intro n p hp
    have hBefore := (parent?_bounds hp).1
    simp only [parent?_enter, startOf_enter] at hp ⊢
    split at hp
    · next hNew =>
      rw [if_neg (by omega), if_pos hNew]
      exact Nat.le_trans (h.start_le_end p) (h.end_le_here p)
    · next hOld =>
      have hLt := (parent?_bounds hp).2
      rw [if_neg (by omega), if_neg hOld]
      exact h.start_inside n p hp
  case end_inside =>
    intro n p hp hClosed
    rw [hOpened, List.mem_cons, not_or] at hClosed
    rw [parent?_enter] at hp
    split at hp
    · exact absurd (List.mem_of_mem_head? hp) hClosed.2
    · next hOld =>
      rw [endOf_enter, endOf_enter, if_neg hOld, if_neg hClosed.1]
      exact h.end_inside n p hp hClosed.2
  case apart =>
    intro m n hmn hn hSame
    have hn : n < b.drafts.size + 1 := by simpa [Builder.enter] using hn
    rw [endOf_enter, startOf_enter, if_neg (by omega)]
    split
    · exact h.end_le_here m
    · next hOld =>
      rw [parent?_enter, parent?_enter, if_neg (by omega), if_neg hOld] at hSame
      exact h.apart m n hmn (by omega) hSame

/-- The innermost open node ends behind everything inside it. What began after it is inside it, and
its own parent began before it, so no range that has ended is moved. -/
theorem Ranged.leave (h : b.Ranged) (hNested : b.Nested) : b.leave.Ranged := by
  cases hInner : b.opened with
  | nil => rwa [leave_of_opened_nil hInner]
  | cons inner outer =>
      have hMem : inner ∈ b.opened := by simp [hInner]
      have hOuter := opened_leave hInner
      constructor
      case parent_opened =>
        intro n hn p hp
        rw [hOuter] at hn ⊢
        rw [parent?_leave] at hp
        have hpOpened := h.parent_opened n (by simp [hInner, hn]) p hp
        have hSorted := hNested.opened_sorted
        rw [hInner] at hpOpened hSorted
        have hBefore := (parent?_bounds hp).1
        have hOutside := List.rel_of_pairwise_cons hSorted hn
        exact (List.mem_cons.mp hpOpened).resolve_left (by omega)
      case start_le_end =>
        intro n
        rw [startOf_leave, endOf_leave hInner]
        split
        · exact Nat.le_trans (h.start_le_end n) (h.end_le_here n)
        · exact h.start_le_end n
      case end_le_here =>
        intro n
        rw [endOf_leave hInner, here_leave]
        split
        · exact Nat.le_refl _
        · exact h.end_le_here n
      case start_inside =>
        intro n p hp
        rw [parent?_leave] at hp
        rw [startOf_leave, startOf_leave]
        exact h.start_inside n p hp
      case end_inside =>
        intro n p hp hClosed
        rw [parent?_leave] at hp
        rw [hOuter] at hClosed
        rw [endOf_leave hInner, endOf_leave hInner]
        by_cases hpInner : p = inner
        · rw [if_pos hpInner]
          split
          · exact Nat.le_refl _
          · exact h.end_le_here n
        · have hpClosed : p ∉ b.opened := by simp [hInner, hpInner, hClosed]
          have hnClosed : n ≠ inner := by
            rintro rfl
            exact hpClosed (h.parent_opened n hMem p hp)
          rw [if_neg hnClosed, if_neg hpInner]
          exact h.end_inside n p hp hpClosed
      case apart =>
        intro m n hmn hn hSame
        rw [size_leave] at hn
        rw [parent?_leave, parent?_leave] at hSame
        rw [endOf_leave hInner, startOf_leave]
        have hmInner : m ≠ inner := by
          rintro rfl
          obtain ⟨q, hq, hle⟩ := hNested.inside_opened m hMem n hmn hn
          have := (parent?_bounds (hSame.trans hq)).1
          omega
        rw [if_neg hmInner]
        exact h.apart m n hmn hn hSame

/-- Events keep the byte ranges nested, since the nodes nest. -/
theorem Ranged.run (h : b.Ranged) (hNested : b.Nested) (events : List Event) :
    (events.foldl Builder.step b).Ranged :=
  (run_induction (motive := fun b => b.Ranged ∧ b.Nested)
    (fun _ kind isNamed isMissing h =>
      ⟨h.1.enter kind isNamed isMissing, h.2.enter kind isNamed isMissing⟩)
    (fun _ h => ⟨h.1.leave h.2, h.2.leave⟩) (fun _ text h => ⟨h.1.append text, h.2.append text⟩)
    ⟨h, hNested⟩ events).1

/-- At the end no node is open. -/
theorem opened_closeAll (b : Builder) : b.closeAll.opened = [] := by
  induction hOpened : b.opened generalizing b with
  | nil => rwa [closeAll_of_opened_nil hOpened]
  | cons inner outer ih =>
      rw [closeAll_of_opened_cons hOpened]
      exact ih b.leave (opened_leave hOpened)

theorem size_closeAll (b : Builder) : b.closeAll.drafts.size = b.drafts.size :=
  closeAll_induction (motive := fun c => c.drafts.size = b.drafts.size)
    (fun c hc => (size_leave c).trans hc) rfl

/-- A builder with nodes is finished when they have ended. -/
theorem finish_of_size_pos (h : 0 < b.drafts.size) : b.finish = b.closeAll := by
  have hDrafts : b.closeAll.drafts.isEmpty = false := by
    rw [Array.isEmpty_eq_false_iff, ← Array.size_pos_iff, size_closeAll]
    exact h
  exact if_neg (by simpa using hDrafts)

/-- A source without nodes becomes one file node over the whole of it. -/
theorem finish_of_size_eq_zero (h : b.drafts.size = 0) : b.finish = wholeFile b.source := by
  have hOpened : b.opened = [] := by
    rw [List.eq_nil_iff_forall_not_mem]
    intro n hn
    have := b.opened_lt n hn
    omega
  have hDrafts : b.drafts.isEmpty = true := by
    rw [Array.isEmpty_iff, ← Array.size_eq_zero_iff, h]
  simp only [finish, closeAll_of_opened_nil hOpened, hDrafts, if_true]

theorem source_finish (b : Builder) : b.finish.source = b.source := by
  have hClosed : b.closeAll.source = b.source :=
    closeAll_induction (motive := fun c => c.source = b.source) (fun _ hc => hc) rfl
  simp only [finish]
  split
  · exact hClosed
  · exact hClosed

theorem opened_finish (b : Builder) : b.finish.opened = [] := by
  simp only [finish]
  split
  · rfl
  · exact opened_closeAll b

theorem ranged_wholeFile (source : String) : (wholeFile source).Ranged := by
  constructor
  case parent_opened => exact fun n hn => absurd hn List.not_mem_nil
  case apart =>
    intro m n hmn hn
    simp only [wholeFile, List.size_toArray, List.length_singleton] at hn
    omega
  all_goals
    intro n
    cases n <;> simp [startOf, endOf, parent?, wholeFile, here]

/-- Every sequence of events leaves nested byte ranges. -/
theorem ranged_ofEvents (events : List Event) : (ofEvents events).Ranged :=
  (finish_induction (motive := fun b => b.Ranged ∧ b.Nested)
    (fun _ h => ⟨h.1.leave h.2, h.2.leave⟩)
    (fun source => ⟨ranged_wholeFile source, nested_wholeFile source⟩)
    ⟨ranged_start.run nested_start events, nested_start.run events⟩).1

end Builder

namespace Tree

variable {t : Tree} {n p c next i : Nat}

theorem startByte_ofEvents (events : List Event) (n : Nat) :
    (ofEvents events).startByte n = (Builder.ofEvents events).startOf n := by
  rw [startByte, node_ofEvents, Builder.startOf]
  cases (Builder.ofEvents events).drafts[n]? <;> rfl

theorem endByte_ofEvents (events : List Event) (n : Nat) :
    (ofEvents events).endByte n = (Builder.ofEvents events).endOf n := by
  rw [endByte, node_ofEvents, Builder.endOf]
  cases (Builder.ofEvents events).drafts[n]? <;> rfl

/-- A node lies inside its parent. -/
theorem inside_of_parent? (h : t.parent? c = some p) :
    t.startByte p ≤ t.startByte c ∧ t.endByte c ≤ t.endByte p := by
  obtain ⟨events, rfl⟩ := t.exists_eq_ofEvents
  have hRanged := Builder.ranged_ofEvents events
  rw [parent?_ofEvents] at h
  simp only [startByte_ofEvents, endByte_ofEvents]
  refine ⟨hRanged.start_inside c p h, hRanged.end_inside c p h ?_⟩
  rw [Builder.ofEvents, Builder.opened_finish]
  exact List.not_mem_nil

/-- A node ends before a later node of the same parent begins. -/
theorem endByte_le_startByte (hc : t.parent? c = some p) (hNext : t.parent? next = some p)
    (hLt : c < next) : t.endByte c ≤ t.startByte next := by
  have hSize := (parent?_bounds hNext).2
  obtain ⟨events, rfl⟩ := t.exists_eq_ofEvents
  rw [parent?_ofEvents] at hc hNext
  rw [startByte_ofEvents, endByte_ofEvents]
  refine (Builder.ranged_ofEvents events).apart c next hLt ?_ (hc.trans hNext.symm)
  rwa [size_ofEvents] at hSize

/-- A node stands among the children of its parent at its own index, and nowhere else. -/
theorem getElem?_children_iff :
    (t.children p)[i]? = some c ↔ t.parent? c = some p ∧ (t.node c).index = i := by
  obtain ⟨events, rfl⟩ := t.exists_eq_ofEvents
  rw [children_ofEvents, parent?_ofEvents, index_ofEvents, Array.getElem?_toList]
  exact (Builder.linked_ofEvents events).child_iff p i c

end Tree

end ElmScope
