import ElmScope.Proofs.Syntax.Description
import ElmScope.Proofs.Text.Place

/-! Nodes side by side. The siblings of a node are what comes before and after it among the
children of its parent, and the source from one node to another is made of the texts of the nodes
in between when each begins where the one before ends. -/
namespace ElmScope.Tree

open Text

variable {t : Tree} {n p next stop : Nat} {before after : List Nat}

/-- No node begins inside a character. -/
theorem isBoundary_startByte (h : n < t.size) :
    IsBoundary t.source.toList (t.startByte n) := by
  obtain ⟨before, inside, after, hCovers⟩ := exists_covers h
  refine ⟨before, ?_, hCovers.startByte.symm⟩
  rw [hCovers.source, List.append_assoc]
  exact List.prefix_append _ _

theorem isBoundary_endByte (h : n < t.size) : IsBoundary t.source.toList (t.endByte n) := by
  obtain ⟨before, inside, after, hCovers⟩ := exists_covers h
  refine ⟨before ++ inside, ?_, hCovers.endByte.symm⟩
  rw [hCovers.source]
  exact List.prefix_append _ _

theorem startByte_le_endByte (h : n < t.size) : t.startByte n ≤ t.endByte n := by
  obtain ⟨before, inside, after, hCovers⟩ := exists_covers h
  rw [hCovers.startByte, hCovers.endByte, byteLength_append]
  exact Nat.le_add_right _ _

def sourceBetween (t : Tree) (start stop : Nat) : String :=
  .ofList (slice start stop t.source.toList)

theorem sourceBetween_self (t : Tree) (offset : Nat) : t.sourceBetween offset offset = "" := by
  rw [sourceBetween, slice, Nat.sub_self, takeBytes_zero]

/-- The text of a node is the source from its beginning to its end. -/
theorem text_eq_sourceBetween (h : n < t.size) :
    t.text n = t.sourceBetween (t.startByte n) (t.endByte n) := by
  obtain ⟨before, inside, after, hCovers⟩ := exists_covers h
  rw [sourceBetween, hCovers.text, hCovers.startByte, hCovers.endByte, hCovers.source,
    slice_byteLength]

/-- Stretches of the source that meet make up one. -/
theorem sourceBetween_append {i j k : Nat} (hi : IsBoundary t.source.toList i)
    (hj : IsBoundary t.source.toList j) (hij : i ≤ j) (hjk : j ≤ k) :
    t.sourceBetween i j ++ t.sourceBetween j k = t.sourceBetween i k := by
  rw [sourceBetween, sourceBetween, ← String.ofList_append, slice_append_slice hi hj hij hjk]
  rfl

def IsAdjacent (t : Tree) (n next : Nat) : Prop := t.endByte n = t.startByte next

instance (t : Tree) (n next : Nat) : Decidable (t.IsAdjacent n next) :=
  inferInstanceAs (Decidable (t.endByte n = t.startByte next))

/-- The source from a node on is the text of the node, and the source from the adjacent node on. -/
theorem sourceBetween_of_isAdjacent (h : t.IsAdjacent n next) (hn : n < t.size)
    (hStop : t.startByte next ≤ stop) : t.startByte n ≤ stop ∧
      t.sourceBetween (t.startByte n) stop =
        t.text n ++ t.sourceBetween (t.startByte next) stop := by
  have hInside := startByte_le_endByte hn
  have hEnd : t.endByte n ≤ stop := (show t.endByte n = t.startByte next from h).trans_le hStop
  refine ⟨Nat.le_trans hInside hEnd, ?_⟩
  rw [text_eq_sourceBetween hn, ← show t.endByte n = t.startByte next from h,
    sourceBetween_append (isBoundary_startByte hn) (isBoundary_endByte hn) hInside hEnd]

/-- A node among the children of its parent has those before and after it for siblings. -/
theorem siblings_of_children (h : t.children p = before ++ n :: after) :
    t.siblingsBefore n = before ∧ t.siblingsAfter n = after := by
  have hAt : (t.children p)[before.length]? = some n := by
    rw [h, List.getElem?_append_right (Nat.le_refl _), Nat.sub_self, List.getElem?_cons_zero]
  obtain ⟨hParent, hIndex⟩ := getElem?_children_iff.mp hAt
  rw [siblingsBefore, siblingsAfter, hParent]
  simp only [hIndex, h]
  refine ⟨List.take_left, ?_⟩
  rw [List.append_cons]
  exact List.drop_left' List.length_append

end ElmScope.Tree
