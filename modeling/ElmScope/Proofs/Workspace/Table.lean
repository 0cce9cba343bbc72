import Mathlib.Data.List.Destutter
import Mathlib.Data.List.MinMax
import Mathlib.Data.List.Sort
import Mathlib.Data.String.Basic
import ElmScope.Proofs.Workspace.History

/-! Tables that keep a document for each uri and are walked in no order of their own:
every change may leave the documents in any order. What is asked of a table is found
by one walk. Whatever the walks are, a table answers as the workspace of its history. -/
namespace ElmScope

namespace Workspace

/-- What a change answers: forgetting a file gives the document it had. -/
def answer? (w : Workspace) : Change → Option Document
  | .upsert _ _ _ => none
  | .remove uri => w.get? uri

def answers (w : Workspace) : List Change → List (Option Document)
  | [] => []
  | change :: rest => w.answer? change :: (w.apply change).answers rest

theorem answers_append (w : Workspace) (changes later : List Change) :
    w.answers (changes ++ later) = w.answers changes ++ (changes.foldl apply w).answers later := by
  induction changes generalizing w with
  | nil => rfl
  | cons change rest ih => simp [answers, ih]

end Workspace

/-- The documents of a table, as they are walked. -/
abbrev Table := List Document

namespace Table

def get? (table : Table) (uri : String) : Option Document := table.find? (·.uri = uri)

def byUri (table : Table) : List Document := table.mergeSort (·.uri ≤ ·.uri)

def findModule? (table : Table) (name : String) : Option Document :=
  (table.filter (·.moduleName = some name)).argmin (·.uri)

def moduleNames (table : Table) : List String :=
  ((table.filterMap (·.moduleName)).mergeSort (· ≤ ·)).destutter (· ≠ ·)

/-- A change to a table and its answer. Afterwards the table may be walked in any order. -/
inductive Step (revision : Nat) : Table → Change → Option Document → Table → Prop where
  | store {old new : Table} {uri : String} {tree : Tree} {moduleName : Option String}
      (walk : new.Perm (⟨uri, tree, moduleName, revision⟩ :: old.filter (·.uri ≠ uri))) :
      Step revision old (.upsert uri tree moduleName) none new
  | forget {old new : Table} {d : Document} (walk : old.Perm (d :: new)) :
      Step revision old (.remove d.uri) (some d) new
  | miss {old new : Table} {uri : String} (unknown : ∀ d ∈ old, d.uri ≠ uri)
      (walk : new.Perm old) : Step revision old (.remove uri) none new

/-- A table after a history of changes, with their answers. A stored document has as its
revision the number of documents stored before it. -/
inductive Run : List Change → List (Option Document) → Table → Prop where
  | start : Run [] [] []
  | step {changes : List Change} {answers : List (Option Document)} {old new : Table}
      {change : Change} {answer : Option Document} (prior : Run changes answers old)
      (last : Step (changes.countP Change.stores) old change answer new) :
      Run (changes ++ [change]) (answers ++ [answer]) new

/-- What is asked of a table has the answers of a workspace. -/
structure Answers (table : Table) (w : Workspace) : Prop where
  get?_eq : ∀ uri, table.get? uri = w.get? uri
  byUri_eq : table.byUri = w.documents
  size_eq : table.length = w.size
  findModule?_eq : ∀ name, table.findModule? name = w.findModule? name
  moduleNames_eq : table.moduleNames = w.moduleNames

end Table

namespace Workspace

variable {w : Workspace} {d : Document} {uri name : String}

/-- A document is stored exactly when its own uri gives it. -/
theorem mem_documents_iff : d ∈ w.documents ↔ w.get? d.uri = some d :=
  ⟨fun h => get?_eq_some_iff.mpr ⟨h, rfl⟩, fun h => (get?_eq_some_iff.mp h).1⟩

/-- No two documents of a workspace have one uri. -/
theorem nodup_uris (w : Workspace) : (w.documents.map (·.uri)).Nodup :=
  List.pairwise_map.mpr (w.sorted.imp fun h => ne_of_lt h)

/-- All documents of the other uris and one more have nothing twice. -/
theorem nodup_cons_others (w : Workspace) (d : Document) :
    (d :: w.documents.filter (·.uri ≠ d.uri)).Nodup := by
  refine List.nodup_cons.mpr ⟨by simp, (w.nodup_uris.of_map _).filter _⟩

/-- Storing a document leaves the documents of the other uris. -/
theorem documents_upsert_perm (w : Workspace) (uri : String) (tree : Tree)
    (moduleName : Option String) :
    (w.upsert uri tree moduleName).documents.Perm
      (⟨uri, tree, moduleName, w.clock⟩ :: w.documents.filter (·.uri ≠ uri)) := by
  rw [List.perm_ext_iff_of_nodup ((nodup_uris _).of_map _) (nodup_cons_others w ⟨uri, _, _, _⟩)]
  intro e
  rw [mem_documents_iff, List.mem_cons, List.mem_filter]
  by_cases hUri : e.uri = uri
  · rw [hUri, get?_upsert_self]
    simp [eq_comm]
  · have hNew : e ≠ ⟨uri, tree, moduleName, w.clock⟩ := fun h => hUri (h ▸ rfl)
    rw [get?_upsert_of_ne w (Ne.symm hUri), ← mem_documents_iff]
    simp [hUri, hNew]

/-- A stored document is one of its uri, and all others are of other uris. -/
theorem documents_perm_of_get? (h : w.get? uri = some d) :
    w.documents.Perm (d :: w.documents.filter (·.uri ≠ uri)) := by
  obtain ⟨hMem, rfl⟩ := get?_eq_some_iff.mp h
  rw [List.perm_ext_iff_of_nodup (w.nodup_uris.of_map _) (w.nodup_cons_others d)]
  intro e
  rw [List.mem_cons, List.mem_filter]
  by_cases hUri : e.uri = d.uri
  · rw [mem_documents_iff, hUri, h]
    simp [eq_comm]
  · have hNew : e ≠ d := fun h => hUri (h ▸ rfl)
    simp [hUri, hNew]

/-- Without a document under the uri there is nothing to forget. -/
theorem documents_remove_of_get? (h : w.get? uri = none) :
    (w.remove uri).documents = w.documents :=
  List.filter_eq_self.mpr fun d hd => by simpa using List.find?_eq_none.mp h d hd

theorem mem_placeName {other : String} {names : List String} :
    name ∈ placeName other names ↔ name = other ∨ name ∈ names := by
  induction names with
  | nil => simp [placeName]
  | cons first rest ih =>
      rw [placeName]
      split
      · rw [List.mem_cons]
      · split
        · next hSame => simp [hSame]
        · simp only [List.mem_cons, ih]
          tauto

/-- A name is put where the list stays increasing. -/
theorem placeName_sorted {names : List String} (h : names.Pairwise (· < ·)) :
    (placeName name names).Pairwise (· < ·) := by
  induction names with
  | nil => simp [placeName]
  | cons first rest ih =>
      obtain ⟨hFirst, hRest⟩ := List.pairwise_cons.mp h
      rw [placeName]
      split
      · next hLt =>
        refine List.pairwise_cons.mpr ⟨fun other hOther => ?_, h⟩
        rcases List.mem_cons.mp hOther with rfl | hOther
        · exact hLt
        · exact lt_trans hLt (hFirst other hOther)
      · split
        · exact h
        · next hNotLt hNe =>
          refine List.pairwise_cons.mpr ⟨fun other hOther => ?_, ih hRest⟩
          rcases mem_placeName.mp hOther with rfl | hOther
          · exact lt_of_le_of_ne (not_lt.mp hNotLt) (Ne.symm hNe)
          · exact hFirst other hOther

/-- The module names increase strictly, so none is there twice. -/
theorem moduleNames_sorted (w : Workspace) : w.moduleNames.Pairwise (· < ·) := by
  unfold moduleNames
  induction w.documents.filterMap (·.moduleName) with
  | nil => exact .nil
  | cons first rest ih => exact placeName_sorted ih

/-- The module names are those of the stored documents. -/
theorem mem_moduleNames_iff :
    name ∈ w.moduleNames ↔ ∃ d ∈ w.documents, d.moduleName = some name := by
  rw [← List.mem_filterMap, moduleNames]
  induction w.documents.filterMap (·.moduleName) with
  | nil => rfl
  | cons first rest ih => rw [List.foldr_cons, mem_placeName, ih, List.mem_cons]

end Workspace

namespace Table

variable {table : Table} {w : Workspace}

/-- However a table is walked, a uri has the document that is stored under it. -/
theorem get?_eq (h : table.Perm w.documents) (uri : String) : table.get? uri = w.get? uri := by
  have hFound : ∀ d, table.get? uri = some d → w.get? uri = some d := fun d hd =>
    Workspace.get?_eq_some_iff.mpr
      ⟨h.mem_iff.mp (List.mem_of_find?_eq_some hd), by simpa using List.find?_some hd⟩
  cases hd : table.get? uri with
  | some d => exact (hFound d hd).symm
  | none =>
      cases he : w.get? uri with
      | none => rfl
      | some e =>
          obtain ⟨hMem, hUri⟩ := Workspace.get?_eq_some_iff.mp he
          exact absurd hUri (by simpa using List.find?_eq_none.mp hd e (h.mem_iff.mpr hMem))

/-- Sorted by their uris, the documents are in the order of the workspace. Two documents with one
uri are the same, so the order is antisymmetric on them. -/
theorem byUri_eq (h : table.Perm w.documents) : table.byUri = w.documents := by
  have hPerm : table.byUri.Perm w.documents := (List.mergeSort_perm _ _).trans h
  have hSorted : table.byUri.Pairwise fun a b => a.uri ≤ b.uri := by
    have hLe : table.byUri.Pairwise fun a b => decide (a.uri ≤ b.uri) = true :=
      List.pairwise_mergeSort (fun a b c => by simpa using le_trans)
        (fun a b => by simpa using le_total a.uri b.uri) table
    exact hLe.imp fun h => by simpa using h
  refine hPerm.eq_of_pairwise (fun a b ha hb hab hba => ?_) hSorted
    (w.sorted.imp fun hLt => le_of_lt hLt)
  have hA := Workspace.get?_eq_some_iff.mpr ⟨hPerm.mem_iff.mp ha, le_antisymm hab hba⟩
  have hB := Workspace.get?_eq_some_iff.mpr ⟨hb, rfl⟩
  exact Option.some.inj (hA.symm.trans hB)

/-- The least of the documents that pass a test is the first of them in the order of uris. -/
theorem argmin_filter_eq (h : table.Perm w.documents) (p : Document → Bool) :
    (table.filter p).argmin (·.uri) = w.documents.find? p := by
  cases hd : (table.filter p).argmin (·.uri) with
  | none =>
      refine (List.find?_eq_none.mpr fun e he hp => ?_).symm
      have hNone := List.argmin_eq_none.mp hd
      exact List.not_mem_nil (hNone ▸ List.mem_filter.mpr ⟨h.mem_iff.mpr he, hp⟩)
  | some d =>
      obtain ⟨hMem, hp⟩ := List.mem_filter.mp (List.argmin_mem hd)
      obtain ⟨before, after, hSplit⟩ := List.append_of_mem (h.mem_iff.mp hMem)
      refine (List.find?_eq_some_iff_append.mpr ⟨hp, before, after, hSplit, fun e he => ?_⟩).symm
      have hLt : e.uri < d.uri :=
        (List.pairwise_append.mp (hSplit ▸ w.sorted)).2.2 e he d List.mem_cons_self
      have hMemE : e ∈ table := h.mem_iff.mpr (hSplit ▸ List.mem_append_left _ he)
      by_contra hpe
      have hLe := List.le_of_mem_argmin (List.mem_filter.mpr ⟨hMemE, by simpa using hpe⟩) hd
      exact absurd hLt (not_lt.mpr hLe)

theorem moduleNames_eq (h : table.Perm w.documents) : table.moduleNames = w.moduleNames := by
  have hSorted := List.pairwise_mergeSort' (· ≤ ·) (table.filterMap (·.moduleName))
  rw [moduleNames, hSorted.destutter_eq_dedup]
  refine List.Pairwise.eq_of_mem_iff (r := (· < ·)) ?_ w.moduleNames_sorted fun name => ?_
  · have hNodup := List.nodup_dedup ((table.filterMap (·.moduleName)).mergeSort (· ≤ ·))
    exact ((hSorted.sublist (List.dedup_sublist _)).and hNodup).imp fun ⟨hLe, hNe⟩ =>
      lt_of_le_of_ne hLe hNe
  · rw [List.mem_dedup, List.mem_mergeSort, Workspace.mem_moduleNames_iff, List.mem_filterMap]
    simp only [h.mem_iff]

/-- A table that holds the documents of a workspace answers as it does. -/
theorem answers_of_perm (h : table.Perm w.documents) : table.Answers w where
  get?_eq := get?_eq h
  byUri_eq := byUri_eq h
  size_eq := h.length_eq
  findModule?_eq _ := argmin_filter_eq h _
  moduleNames_eq := moduleNames_eq h

/-- A change keeps a table and a workspace alike, and has the same answer in both. -/
theorem Step.sound {old new : Table} {change : Change} {answer : Option Document}
    (hStep : Step w.clock old change answer new) (h : old.Perm w.documents) :
    answer = w.answer? change ∧ new.Perm (w.apply change).documents := by
  cases hStep with
  | store walk =>
      refine ⟨rfl, walk.trans ?_⟩
      exact ((h.filter _).cons _).trans (w.documents_upsert_perm _ _ _).symm
  | @forget _ d walk =>
      have hDocuments := h.symm.trans walk
      have hStored : w.get? d.uri = some d :=
        Workspace.mem_documents_iff.mp (hDocuments.mem_iff.mpr List.mem_cons_self)
      refine ⟨hStored.symm, ?_⟩
      exact (hDocuments.symm.trans (Workspace.documents_perm_of_get? hStored)).cons_inv
  | @miss _ uri unknown walk =>
      have hNone : w.get? uri = none :=
        List.find?_eq_none.mpr fun d hd => by simpa using unknown d (h.mem_iff.mpr hd)
      refine ⟨hNone.symm, walk.trans (h.trans (.of_eq ?_))⟩
      exact (Workspace.documents_remove_of_get? hNone).symm

/-- A change leads to a table in any order. -/
theorem exists_step {new : Table} {change : Change}
    (h : new.Perm (w.apply change).documents) :
    ∃ answer, Step w.clock w.documents change answer new := by
  cases change with
  | upsert uri tree moduleName =>
      exact ⟨none, .store (h.trans (w.documents_upsert_perm uri tree moduleName))⟩
  | remove uri =>
      cases hStored : w.get? uri with
      | none =>
          refine ⟨none, .miss (fun d hd => by simpa using List.find?_eq_none.mp hStored d hd) ?_⟩
          exact h.trans (.of_eq (Workspace.documents_remove_of_get? hStored))
      | some d =>
          obtain ⟨-, rfl⟩ := Workspace.get?_eq_some_iff.mp hStored
          refine ⟨some d, .forget ?_⟩
          exact (Workspace.documents_perm_of_get? hStored).trans (h.symm.cons d)

/-- Over a whole history a table holds the documents of the workspace. -/
theorem Run.sound {changes : List Change} {answers : List (Option Document)}
    (run : Run changes answers table) :
    answers = Workspace.empty.answers changes ∧
      table.Perm (Workspace.ofChanges changes).documents := by
  induction run with
  | start => exact ⟨rfl, .refl _⟩
  | @step changes answers old new change answer prior last ih =>
      obtain ⟨hAnswers, hWalk⟩ := ih
      rw [← Workspace.clock_ofChanges] at last
      obtain ⟨hAnswer, hNext⟩ := last.sound hWalk
      rw [hAnswers, hAnswer, Workspace.answers_append, Workspace.ofChanges_concat]
      exact ⟨rfl, hNext⟩

/-- The tables of a history are its documents in all their orders. -/
theorem exists_run_iff {changes : List Change} :
    (∃ answers, Run changes answers table) ↔
      table.Perm (Workspace.ofChanges changes).documents := by
  refine ⟨fun ⟨_, run⟩ => run.sound.2, fun h => ?_⟩
  induction changes using List.reverseRecOn generalizing table with
  | nil =>
      obtain rfl : table = [] := List.perm_nil.mp h
      exact ⟨[], .start⟩
  | append_singleton changes change ih =>
      obtain ⟨answers, prior⟩ := ih (.refl (Workspace.ofChanges changes).documents)
      rw [Workspace.ofChanges_concat] at h
      obtain ⟨answer, last⟩ := exists_step h
      rw [Workspace.clock_ofChanges] at last
      exact ⟨answers ++ [answer], .step prior last⟩

end Table

end ElmScope
