import Mathlib.Data.List.Find
import ElmScope.Workspace

/-! Workspaces as they come about: by storing and forgetting files, in any order. A
document keeps its revision for as long as it is stored, and no revision is given
twice, so a revision names one document over a whole history. -/
namespace ElmScope

inductive Change where
  | upsert (uri : String) (tree : Tree) (moduleName : Option String)
  | remove (uri : String)

namespace Change

def uri : Change → String
  | upsert uri _ _ => uri
  | remove uri => uri

/-- The module name under which a change stores its file. -/
def moduleName? : Change → Option String
  | upsert _ _ moduleName => moduleName
  | remove _ => none

def stores : Change → Bool
  | upsert _ _ _ => true
  | remove _ => false

@[simp] theorem uri_upsert (name : String) (tree : Tree) (moduleName : Option String) :
    (upsert name tree moduleName).uri = name := rfl

@[simp] theorem uri_remove (name : String) : (remove name).uri = name := rfl

end Change

namespace Workspace

def apply (w : Workspace) : Change → Workspace
  | .upsert uri tree moduleName => w.upsert uri tree moduleName
  | .remove uri => w.remove uri

def ofChanges (changes : List Change) : Workspace := changes.foldl apply empty

variable {w : Workspace} {uri name : String} {d e : Document}

/-- Documents are found under their own uri and under no other. -/
theorem get?_eq_some_iff : w.get? uri = some d ↔ d ∈ w.documents ∧ d.uri = uri := by
  constructor
  · intro h
    exact ⟨List.mem_of_find?_eq_some h, by simpa using List.find?_some h⟩
  · rintro ⟨hd, rfl⟩
    cases h : w.get? d.uri with
    | none => exact absurd (List.find?_eq_none.mp h d hd) (by simp)
    | some e =>
        have hUri : e.uri = d.uri := by simpa using List.find?_some h
        obtain ⟨i, hi, rfl⟩ := List.getElem_of_mem hd
        obtain ⟨j, hj, rfl⟩ := List.getElem_of_mem (List.mem_of_find?_eq_some h)
        have hSorted := List.pairwise_iff_getElem.mp w.sorted
        rcases Nat.lt_trichotomy i j with hLt | rfl | hLt
        · exact absurd (hUri ▸ hSorted i j hi hj hLt) (String.lt_irrefl _)
        · rfl
        · exact absurd (hUri ▸ hSorted j i hj hi hLt) (String.lt_irrefl _)

theorem findModule?_mem (h : w.findModule? name = some d) :
    d ∈ w.documents ∧ d.moduleName = some name :=
  ⟨List.mem_of_find?_eq_some h, by simpa using List.find?_some h⟩

/-- What imports find is stored under its own uri. -/
theorem get?_of_findModule? (h : w.findModule? name = some d) : w.get? d.uri = some d :=
  get?_eq_some_iff.mpr ⟨(findModule?_mem h).1, rfl⟩

/-- After one change a document is an old one or was stored just now. -/
theorem mem_documents_apply {change : Change} (h : e ∈ (w.apply change).documents) :
    e ∈ w.documents ∨ ∃ uri tree moduleName,
      change = .upsert uri tree moduleName ∧ e = ⟨uri, tree, moduleName, w.clock⟩ := by
  cases change with
  | upsert uri tree moduleName =>
      rcases mem_of_mem_place h with rfl | h
      · exact .inr ⟨uri, tree, moduleName, rfl, rfl⟩
      · exact .inl h
  | remove uri => exact .inl (List.mem_filter.mp h).1

theorem clock_le_apply (w : Workspace) (change : Change) : w.clock ≤ (w.apply change).clock := by
  cases change with
  | upsert uri tree moduleName => exact Nat.le_succ _
  | remove uri => exact Nat.le_refl _

/-- The clock counts the documents that were stored. -/
theorem clock_foldl_apply (w : Workspace) (changes : List Change) :
    (changes.foldl apply w).clock = w.clock + changes.countP Change.stores := by
  induction changes generalizing w with
  | nil => rfl
  | cons change rest ih =>
      rw [List.foldl_cons, ih, List.countP_cons]
      cases change with
      | upsert uri tree moduleName =>
          simp only [apply, upsert, Change.stores, if_true]
          omega
      | remove uri => simp [apply, remove, Change.stores]

/-- The clock counts the documents that were stored. -/
theorem clock_ofChanges (changes : List Change) :
    (ofChanges changes).clock = changes.countP Change.stores :=
  (clock_foldl_apply empty changes).trans (Nat.zero_add _)

theorem ofChanges_concat (changes : List Change) (change : Change) :
    ofChanges (changes ++ [change]) = (ofChanges changes).apply change := by
  rw [ofChanges, List.foldl_append]
  rfl

/-- A document whose revision was given before a run was stored before it. -/
theorem mem_documents_of_run (changes : List Change)
    (h : e ∈ (changes.foldl apply w).documents) (hOld : e.revision < w.clock) :
    e ∈ w.documents := by
  induction changes generalizing w with
  | nil => exact h
  | cons change rest ih =>
      -- The rest of the run did not store it, and neither did this change: the revision that
      -- the change gives is the clock's, and the document has an older one.
      have hLater := ih h (Nat.lt_of_lt_of_le hOld (clock_le_apply w change))
      rcases mem_documents_apply hLater with h | ⟨uri, tree, moduleName, -, rfl⟩
      · exact h
      · exact absurd hOld (Nat.lt_irrefl _)

/-- A change of one file leaves every other alone. -/
theorem get?_apply_of_ne {change : Change} (h : change.uri ≠ uri) :
    (w.apply change).get? uri = w.get? uri := by
  cases change with
  | upsert other tree moduleName => exact get?_upsert_of_ne w h tree moduleName
  | remove other => exact get?_remove_of_ne w h

/-- What a change leaves under its own uri has the change's module name. -/
theorem moduleName_of_get?_apply {change : Change}
    (h : (w.apply change).get? change.uri = some e) : e.moduleName = change.moduleName? := by
  cases change with
  | upsert other tree moduleName =>
      have hSelf := get?_upsert_self w other tree moduleName
      rw [Option.some.inj (h.symm.trans hSelf)]
      rfl
  | remove other => exact nomatch h.symm.trans (get?_remove_self w other)

/-- A search is not changed by a document that it passes by, nor by the loss of one. -/
theorem find?_place_of_not {p : Document → Bool} {documents : List Document} (hNew : p d = false)
    (hOld : ∀ e ∈ documents, e.uri = d.uri → p e = false) :
    (place d documents).find? p = documents.find? p := by
  induction documents with
  | nil => simp [place, hNew]
  | cons first rest ih =>
      have hRest := ih fun e he => hOld e (List.mem_cons_of_mem _ he)
      rw [place]
      split
      · simp [hNew]
      · split
        · next hSame => simp [hNew, hOld first List.mem_cons_self hSame.symm]
        · rw [List.find?_cons, List.find?_cons, hRest]

/-- A module name is looked up as before when neither the document that a change removes
nor the one that it stores has that name. -/
theorem findModule?_apply {change : Change}
    (hOld : ∀ e, w.get? change.uri = some e → e.moduleName ≠ some name)
    (hNew : change.moduleName? ≠ some name) :
    (w.apply change).findModule? name = w.findModule? name := by
  have hReplaced : ∀ e ∈ w.documents, e.uri = change.uri → e.moduleName ≠ some name :=
    fun e he hUri => hOld e (get?_eq_some_iff.mpr ⟨he, hUri⟩)
  cases change with
  | upsert other tree moduleName =>
      apply find?_place_of_not
      · simpa [Change.moduleName?] using hNew
      · intro e he hUri
        simpa using hReplaced e he hUri
  | remove other =>
      simp only [findModule?, apply, remove, List.find?_filter]
      apply List.find?_congr
      intro e he
      by_cases hUri : e.uri = other
      · simp [hUri, hReplaced e he hUri]
      · simp [hUri]

def RevisionsDistinct (w : Workspace) : Prop :=
  ∀ d ∈ w.documents, ∀ e ∈ w.documents, d.revision = e.revision → d = e

theorem RevisionsDistinct.apply (h : w.RevisionsDistinct) (change : Change) :
    (w.apply change).RevisionsDistinct := by
  intro d hd e he hSame
  rcases mem_documents_apply hd with hd | ⟨uri, tree, moduleName, rfl, rfl⟩
  · rcases mem_documents_apply he with he | ⟨_, _, _, -, rfl⟩
    · exact h d hd e he hSame
    · exact absurd (w.revision_lt d hd) (Nat.not_lt.mpr (Nat.le_of_eq hSame.symm))
  · rcases mem_documents_apply he with he | ⟨_, _, _, hChange, rfl⟩
    · exact absurd (w.revision_lt e he) (Nat.not_lt.mpr (Nat.le_of_eq hSame))
    · cases hChange
      rfl

theorem RevisionsDistinct.run (h : w.RevisionsDistinct) (changes : List Change) :
    (changes.foldl Workspace.apply w).RevisionsDistinct := by
  induction changes generalizing w with
  | nil => exact h
  | cons change rest ih => exact ih (h.apply change)

theorem revisionsDistinct_ofChanges (changes : List Change) :
    (ofChanges changes).RevisionsDistinct :=
  RevisionsDistinct.run (fun _ hd => absurd hd List.not_mem_nil) changes

/-- A revision names one document over a whole history: what has the revision of an
earlier document later on is that document. -/
theorem eq_of_revision_eq {before after : List Change} (hd : d ∈ (ofChanges before).documents)
    (he : e ∈ (ofChanges (before ++ after)).documents) (hSame : e.revision = d.revision) :
    e = d := by
  have hOld := (ofChanges before).revision_lt d hd
  rw [ofChanges, List.foldl_append] at he
  have hEarlier : e ∈ (ofChanges before).documents := mem_documents_of_run after he (hSame ▸ hOld)
  exact revisionsDistinct_ofChanges before e hEarlier d hd hSame

end Workspace

end ElmScope
