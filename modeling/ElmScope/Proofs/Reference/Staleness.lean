import ElmScope.Proofs.Reference.LexicalScope
import ElmScope.Proofs.Reference.Lookup
import ElmScope.Proofs.Workspace.History

/-! Nodes that are kept while a workspace goes on changing. A document is gone for good
with the first change to its file, since what is stored later has a later revision, and
no other change touches it. Queries change nothing, so a run is given by its changes. -/
namespace ElmScope.Workspace

variable {w : Workspace} {uri : String} {d e : Document}

/-- What a change leaves under its own uri is newer than all that was stored before. -/
theorem clock_le_of_get?_apply {change : Change}
    (h : (w.apply change).get? change.uri = some e) : w.clock ≤ e.revision := by
  cases change with
  | upsert uri tree moduleName =>
      have hSelf := get?_upsert_self w uri tree moduleName
      rw [Option.some.inj (h.symm.trans hSelf)]
  | remove uri => exact nomatch h.symm.trans (get?_remove_self w uri)

/-- A run that does not change a file leaves its document. -/
theorem get?_run_of_untouched (changes : List Change)
    (h : ∀ change ∈ changes, change.uri ≠ uri) :
    (changes.foldl apply w).get? uri = w.get? uri := by
  induction changes generalizing w with
  | nil => rfl
  | cons change rest ih =>
      rw [List.foldl_cons, ih fun later hLater => h later (List.mem_cons_of_mem _ hLater)]
      exact get?_apply_of_ne (h change List.mem_cons_self)

/-- A run that changes a file leaves nothing of the document it had: a document too old to have
been stored after the change would have been left by it. -/
theorem not_mem_run_of_touched {changes : List Change} (hd : w.get? uri = some d)
    (hTouched : ∃ change ∈ changes, change.uri = uri) :
    d ∉ (changes.foldl apply w).documents := by
  obtain ⟨change, hChange, rfl⟩ := hTouched
  obtain ⟨before, after, rfl⟩ := List.append_of_mem hChange
  obtain ⟨hStored, hUri⟩ := get?_eq_some_iff.mp hd
  have hOld := w.revision_lt d hStored
  have hClock := clock_foldl_apply w before
  intro hLater
  rw [List.foldl_append, List.foldl_cons] at hLater
  have hClockStep := clock_le_apply (before.foldl apply w) change
  have hLeft := mem_documents_of_run after hLater (by omega)
  have hNewer := clock_le_of_get?_apply (get?_eq_some_iff.mpr ⟨hLeft, hUri⟩)
  omega

/-- A node that was kept from a moment of a history refers to nothing once its file was
stored again or forgotten, also when the same tree is back. Until then it refers to what
the name means in the workspace of the later moment, whatever else has changed. -/
theorem definition?_kept (before after : List Change) (n : Nat)
    (hd : (ofChanges before).get? uri = some d) :
    ((∃ change ∈ after, change.uri = uri) →
      (ofChanges (before ++ after)).definition? uri ⟨d, n⟩ = none) ∧
    ((∀ change ∈ after, change.uri ≠ uri) →
      (ofChanges (before ++ after)).get? uri = some d ∧
      (ofChanges (before ++ after)).definition? uri ⟨d, n⟩ =
        ((ofChanges (before ++ after)).fileScope d).definition? n) := by
  have hRun : ofChanges (before ++ after) = after.foldl apply (ofChanges before) :=
    List.foldl_append
  constructor
  · intro hTouched
    have hGone := not_mem_run_of_touched hd hTouched
    rw [definition?, Option.bind_eq_none_iff]
    intro e he
    obtain ⟨hStored, -⟩ := get?_eq_some_iff.mp he
    refine if_neg fun hSame => hGone ?_
    have hKept := eq_of_revision_eq (get?_eq_some_iff.mp hd).1 hStored hSame
    exact hKept ▸ hRun ▸ hStored
  · intro hUntouched
    have hFile : (ofChanges (before ++ after)).get? uri = some d := by
      rw [hRun, get?_run_of_untouched after hUntouched, hd]
    exact ⟨hFile, definition?_of_get? hFile⟩

/-- A file whose tree is stored a second time, and another that comes in between. -/
theorem definition?_kept_stored_again :
    let store := Change.upsert "file" Sample.shadowing none
    let other := Change.upsert "other" Sample.shadowing none
    let node : Site := ⟨Sample.documentShadowing, 12⟩
    (ofChanges [store]).get? "file" = some Sample.documentShadowing ∧
      (ofChanges ([store] ++ [other])).definition? "file" node =
        some ⟨⟨Sample.documentShadowing, 7⟩, .parameter⟩ ∧
      ((ofChanges ([store] ++ [other, store])).get? "file").map (·.tree) =
        some Sample.shadowing ∧
      (ofChanges ([store] ++ [other, store])).definition? "file" node = none := by
  intro store other node
  have hd : (ofChanges [store]).get? "file" = some Sample.documentShadowing := by decide +kernel
  have hOther : ∀ change ∈ [other], change.uri ≠ "file" := by
    intro change hChange
    obtain rfl := List.mem_singleton.mp hChange
    decide
  refine ⟨hd, ?_, by decide +kernel, ?_⟩
  · exact ((definition?_kept _ _ _ hd).2 hOther).2.trans (by decide +kernel)
  · exact (definition?_kept _ _ _ hd).1 ⟨store, by simp, rfl⟩

end ElmScope.Workspace
