import Mathlib.Data.Finset.Card
import ElmScope.Proofs.Workspace.Table

/-! What a history of changes leaves of each file. The last change to a file decides,
so a file knows nothing of the changes to others, and changes to different files may
change places. Main statement: the answers of a workspace, told from its history. -/
namespace ElmScope

/-- What a document holds, whatever its revision is. -/
def Document.content (d : Document) : String × Tree × Option String :=
  (d.uri, d.tree, d.moduleName)

/-- Histories with the same changes to each file, in the same order. Changes to different
files may be in another. -/
def Reordered (a b : List Change) : Prop :=
  ∀ uri, a.filter (·.uri = uri) = b.filter (·.uri = uri)

namespace Workspace

variable {w w' : Workspace} {uri : String} {d : Document}

/-- A history stores a document under a uri and changes the file no more. The revision is
the number of documents stored before. -/
def IsLastStored (changes : List Change) (uri : String) (d : Document) : Prop :=
  ∃ before tree moduleName after,
    changes = before ++ .upsert uri tree moduleName :: after ∧
    d = ⟨uri, tree, moduleName, before.countP Change.stores⟩ ∧
    ∀ change ∈ after, change.uri ≠ uri

/-- The answers of a run that are to changes of one file, in their order. -/
def answersTo (w : Workspace) (uri : String) (changes : List Change) : List (Option Document) :=
  ((changes.zip (w.answers changes)).filter (·.1.uri = uri)).map (·.2)

/-- Two workspaces give the same answers, up to the revisions of their documents. -/
structure SameAnswers (w w' : Workspace) : Prop where
  get?_eq : ∀ uri, (w.get? uri).map Document.content = (w'.get? uri).map Document.content
  documents_eq : w.documents.map Document.content = w'.documents.map Document.content
  size_eq : w.size = w'.size
  findModule?_eq : ∀ name,
    (w.findModule? name).map Document.content = (w'.findModule? name).map Document.content
  moduleNames_eq : w.moduleNames = w'.moduleNames

/-- The last change decides when it is about the file, and otherwise what precedes it. -/
theorem isLastStored_concat {changes : List Change} {change : Change} :
    IsLastStored (changes ++ [change]) uri d ↔
      (∃ tree moduleName, change = .upsert uri tree moduleName ∧
        d = ⟨uri, tree, moduleName, changes.countP Change.stores⟩) ∨
      change.uri ≠ uri ∧ IsLastStored changes uri d := by
  constructor
  · rintro ⟨before, tree, moduleName, after, hSplit, rfl, hAfter⟩
    rcases List.eq_nil_or_concat' after with rfl | ⟨init, last, rfl⟩
    · obtain ⟨rfl, hLast⟩ := List.append_inj' hSplit rfl
      exact .inl ⟨tree, moduleName, List.singleton_inj.mp hLast, rfl⟩
    · rw [← List.cons_append, ← List.append_assoc] at hSplit
      obtain ⟨rfl, hLast⟩ := List.append_inj' hSplit rfl
      obtain rfl := List.singleton_inj.mp hLast
      exact .inr ⟨hAfter _ (by simp), before, tree, moduleName, init, rfl, rfl,
        fun later hLater => hAfter later (List.mem_append_left _ hLater)⟩
  · rintro (⟨tree, moduleName, rfl, rfl⟩ |
      ⟨hOther, before, tree, moduleName, after, rfl, rfl, hAfter⟩)
    · exact ⟨changes, tree, moduleName, [], rfl, rfl, fun _ h => absurd h List.not_mem_nil⟩
    · refine ⟨before, tree, moduleName, after ++ [change], by simp, rfl, fun later hLater => ?_⟩
      rcases List.mem_append.mp hLater with h | h
      · exact hAfter later h
      · exact List.mem_singleton.mp h ▸ hOther

/-- A uri has the document last stored under it, until the file is forgotten. -/
theorem get?_ofChanges_iff (changes : List Change) :
    (ofChanges changes).get? uri = some d ↔ IsLastStored changes uri d := by
  induction changes using List.reverseRecOn generalizing d with
  | nil =>
      refine iff_of_false (fun h => nomatch h) ?_
      rintro ⟨before, tree, moduleName, after, h, -⟩
      exact List.append_ne_nil_of_right_ne_nil before (List.cons_ne_nil _ _) h.symm
  | append_singleton changes change ih =>
      rw [isLastStored_concat, ofChanges_concat]
      by_cases hUri : change.uri = uri
      · subst hUri
        cases change with
        | upsert uri tree moduleName =>
            rw [apply, Change.uri_upsert, get?_upsert_self, clock_ofChanges]
            simp [eq_comm]
        | remove uri =>
            rw [apply, Change.uri_remove, get?_remove_self]
            simp
      · rw [get?_apply_of_ne hUri, ih]
        refine ⟨fun h => .inr ⟨hUri, h⟩, ?_⟩
        rintro (⟨tree, moduleName, rfl, -⟩ | ⟨-, h⟩)
        · exact absurd rfl hUri
        · exact h

/-- A file that is stored was changed. -/
theorem mem_uris_of_get? {changes : List Change} (h : (ofChanges changes).get? uri = some d) :
    uri ∈ changes.map Change.uri := by
  obtain ⟨before, tree, moduleName, after, rfl, -⟩ := (get?_ofChanges_iff changes).mp h
  simp

/-- There are as many documents as there are uris that have one. -/
theorem size_eq_card (changes : List Change) :
    (ofChanges changes).size =
      ((changes.map Change.uri).toFinset.filter
        fun uri => ((ofChanges changes).get? uri).isSome).card := by
  rw [size, ← List.length_map (·.uri), ← List.toFinset_card_of_nodup (nodup_uris _)]
  congr 1
  ext uri
  simp only [List.mem_toFinset, Finset.mem_filter, List.mem_map (f := fun d : Document => d.uri)]
  constructor
  · rintro ⟨d, hd, rfl⟩
    have hStored := mem_documents_iff.mp hd
    exact ⟨mem_uris_of_get? hStored, hStored ▸ rfl⟩
  · rintro ⟨-, hSome⟩
    obtain ⟨d, hd⟩ := Option.isSome_iff_exists.mp hSome
    exact ⟨d, get?_eq_some_iff.mp hd⟩

theorem size_eq_zero_iff : w.size = 0 ↔ ∀ uri, w.get? uri = none := by
  rw [size, List.length_eq_zero_iff, List.eq_nil_iff_forall_not_mem]
  constructor
  · intro hEmpty uri
    exact List.find?_eq_none.mpr fun d hd => absurd hd (hEmpty d)
  · intro hNone d hd
    exact nomatch (hNone d.uri).symm.trans (mem_documents_iff.mp hd)

def AlikeAt (uri : String) (w w' : Workspace) : Prop :=
  (w.get? uri).map Document.content = (w'.get? uri).map Document.content

/-- The same change keeps two workspaces alike at a file. -/
theorem AlikeAt.apply (h : AlikeAt uri w w') (change : Change) :
    AlikeAt uri (w.apply change) (w'.apply change) := by
  by_cases hUri : change.uri = uri
  · subst hUri
    cases change with
    | upsert uri tree moduleName =>
        simp [AlikeAt, Workspace.apply, get?_upsert_self, Document.content]
    | remove uri => simp [AlikeAt, Workspace.apply, get?_remove_self]
  · rwa [AlikeAt, get?_apply_of_ne hUri, get?_apply_of_ne hUri]

/-- A file becomes what its own changes make of it. -/
theorem AlikeAt.own (h : AlikeAt uri w w') (changes : List Change) :
    AlikeAt uri (changes.foldl Workspace.apply w)
      ((changes.filter (·.uri = uri)).foldl Workspace.apply w') := by
  induction changes generalizing w w' with
  | nil => exact h
  | cons change rest ih =>
      by_cases hUri : change.uri = uri
      · rw [List.filter_cons_of_pos (by simpa using hUri)]
        exact ih (h.apply change)
      · rw [List.filter_cons_of_neg (by simpa using hUri)]
        refine ih ?_
        rwa [AlikeAt, get?_apply_of_ne hUri]

/-- The answers to a file's own changes do not depend on the changes to others. -/
theorem AlikeAt.answersTo_eq (h : AlikeAt uri w w') (changes : List Change) :
    (w.answersTo uri changes).map (·.map Document.content) =
      (w'.answersTo uri (changes.filter (·.uri = uri))).map (·.map Document.content) := by
  induction changes generalizing w w' with
  | nil => rfl
  | cons change rest ih =>
      by_cases hUri : change.uri = uri
      · have hAnswer : (w.answer? change).map Document.content =
            (w'.answer? change).map Document.content := by
          cases change with
          | upsert _ _ _ => rfl
          | remove other =>
              obtain rfl : other = uri := hUri
              exact h
        have hRest := ih (h.apply change)
        simp only [answersTo] at hRest ⊢
        simp [answers, hUri, hAnswer, hRest]
      · have hSame : AlikeAt uri (w.apply change) w' := by rwa [AlikeAt, get?_apply_of_ne hUri]
        have hRest := ih hSame
        simp only [answersTo] at hRest ⊢
        simp [answers, hUri, hRest]

/-- The order of the uris is the only one in which the files can stand. -/
theorem content_documents_eq (h : ∀ uri, AlikeAt uri w w') :
    w.documents.map Document.content = w'.documents.map Document.content := by
  have hMem : ∀ (w : Workspace) content, content ∈ w.documents.map Document.content ↔
      (w.get? content.1).map Document.content = some content := by
    intro w content
    rw [List.mem_map, Option.map_eq_some_iff]
    constructor
    · rintro ⟨d, hd, rfl⟩
      exact ⟨d, mem_documents_iff.mp hd, rfl⟩
    · rintro ⟨d, hd, hContent⟩
      exact ⟨d, (get?_eq_some_iff.mp hd).1, hContent⟩
  have hSorted : ∀ w : Workspace,
      (w.documents.map Document.content).Pairwise (InvImage (· < ·) Prod.fst) := fun w =>
    List.pairwise_map.mpr w.sorted
  have : Std.Irrefl (InvImage (· < ·) (Prod.fst : String × Tree × Option String → String)) :=
    ⟨fun _ => lt_irrefl _⟩
  have : Std.Antisymm (InvImage (· < ·) (Prod.fst : String × Tree × Option String → String)) :=
    ⟨fun _ _ hab hba => absurd hab (lt_asymm hba)⟩
  refine (hSorted w).eq_of_mem_iff (hSorted w') fun content => ?_
  rw [hMem, hMem, h content.1]

/-- All answers come from what the documents hold in their order. -/
theorem sameAnswers_of_content_eq
    (h : w.documents.map Document.content = w'.documents.map Document.content) :
    SameAnswers w w' := by
  have hFind : ∀ (w : Workspace) (p : String × Tree × Option String → Bool),
      (w.documents.find? (p ∘ Document.content)).map Document.content =
        (w.documents.map Document.content).find? p := fun w p => (List.find?_map ..).symm
  refine ⟨fun uri => ?_, h, by simpa [size] using congrArg List.length h, fun name => ?_, ?_⟩
  · have hOf := fun w : Workspace => hFind w fun content => content.1 = uri
    exact (hOf w).trans (h ▸ (hOf w').symm)
  · have hOf := fun w : Workspace => hFind w fun content => content.2.2 = some name
    exact (hOf w).trans (h ▸ (hOf w').symm)
  · have hNames : ∀ w : Workspace, w.moduleNames =
        ((w.documents.map Document.content).filterMap (·.2.2)).foldr placeName [] := by
      intro w
      rw [List.filterMap_map]
      rfl
    rw [hNames, hNames, h]

/-- Changes to different files may change places. -/
theorem sameAnswers_of_reordered {a b : List Change} (h : Reordered a b) :
    SameAnswers (ofChanges a) (ofChanges b) := by
  apply sameAnswers_of_content_eq
  apply content_documents_eq
  intro uri
  have hEmpty : AlikeAt uri empty empty := rfl
  exact (hEmpty.own a).trans (h uri ▸ (hEmpty.own b).symm)

/-- For each file, reordered histories answer the same. -/
theorem answersTo_of_reordered {a b : List Change} (h : Reordered a b) (uri : String) :
    (empty.answersTo uri a).map (·.map Document.content) =
      (empty.answersTo uri b).map (·.map Document.content) := by
  have hEmpty : AlikeAt uri empty empty := rfl
  exact (hEmpty.answersTo_eq a).trans (h uri ▸ (hEmpty.answersTo_eq b).symm)

/-- The answers of a workspace after a history. A uri has the document that was last stored
under it and not forgotten since, and the documents, their number and their module names
list just these. A table that keeps them in any order answers the same, also to the changes
on the way, and what it forgets is what it had. Changes to different files may change
places. -/
theorem ofChanges_answers (changes : List Change) :
    (∀ uri d, (ofChanges changes).get? uri = some d ↔ IsLastStored changes uri d) ∧
    ((ofChanges changes).documents.Pairwise (fun a b => a.uri < b.uri) ∧
      ∀ d, d ∈ (ofChanges changes).documents ↔ (ofChanges changes).get? d.uri = some d) ∧
    ((ofChanges changes).size =
        ((changes.map Change.uri).toFinset.filter
          fun uri => ((ofChanges changes).get? uri).isSome).card ∧
      ((ofChanges changes).size = 0 ↔ ∀ uri, (ofChanges changes).get? uri = none)) ∧
    ((ofChanges changes).moduleNames.Pairwise (· < ·) ∧
      ∀ name, name ∈ (ofChanges changes).moduleNames ↔
        ∃ uri d, (ofChanges changes).get? uri = some d ∧ d.moduleName = some name) ∧
    (∀ table : Table, (∃ answers, Table.Run changes answers table) ↔
      table.Perm (ofChanges changes).documents) ∧
    (∀ answers (table : Table), Table.Run changes answers table →
      answers = empty.answers changes ∧ table.Answers (ofChanges changes) ∧
      (∀ name, table.findModule? name = table.byUri.find? (·.moduleName = some name)) ∧
      ∀ uri answer (later : Table),
        Table.Step (changes.countP Change.stores) table (.remove uri) answer later →
        answer = table.get? uri ∧ later.get? uri = none ∧
          ∀ other, other ≠ uri → later.get? other = table.get? other) ∧
    ∀ other, Reordered changes other →
      SameAnswers (ofChanges changes) (ofChanges other) ∧
      ∀ uri, (empty.answersTo uri changes).map (·.map Document.content) =
        (empty.answersTo uri other).map (·.map Document.content) := by
  refine ⟨fun _ _ => get?_ofChanges_iff changes,
    ⟨(ofChanges changes).sorted, fun _ => mem_documents_iff⟩,
    ⟨size_eq_card changes, size_eq_zero_iff⟩, ⟨moduleNames_sorted _, fun name => ?_⟩,
    fun _ => Table.exists_run_iff, fun answers table run => ?_, fun other hReordered => ?_⟩
  · rw [mem_moduleNames_iff]
    constructor
    · rintro ⟨d, hd, hName⟩
      exact ⟨d.uri, d, mem_documents_iff.mp hd, hName⟩
    · rintro ⟨uri, d, hd, hName⟩
      exact ⟨d, (get?_eq_some_iff.mp hd).1, hName⟩
  · obtain ⟨hAnswers, hWalk⟩ := run.sound
    refine ⟨hAnswers, Table.answers_of_perm hWalk, fun name => ?_, fun uri answer later hStep => ?_⟩
    · rw [Table.byUri_eq hWalk]
      exact Table.argmin_filter_eq hWalk _
    · rw [← clock_ofChanges] at hStep
      obtain ⟨hAnswer, hLater⟩ := hStep.sound hWalk
      simp only [Table.get?_eq hWalk, Table.get?_eq hLater]
      exact ⟨hAnswer, get?_remove_self _ uri, fun other hOther =>
        get?_remove_of_ne _ (Ne.symm hOther)⟩
  · exact ⟨sameAnswers_of_reordered hReordered, answersTo_of_reordered hReordered⟩

/-- Two files of one module name: in a table that is walked in another order than that of
the uris the file of the least uri is found, and so it is when the files are stored in the
other order and the first is forgotten. -/
theorem ofChanges_answers_claimed_twice :
    let blank : Tree := .ofEvents []
    let stored := [Change.upsert "z" blank (some "Dup"), .upsert "a" blank (some "Dup")]
    let other := [Change.upsert "a" blank (some "Dup"), .upsert "z" blank (some "Dup")]
    let walk : Table := [⟨"z", blank, some "Dup", 0⟩, ⟨"a", blank, some "Dup", 1⟩]
    Table.Run stored [none, none] walk ∧
      walk.findModule? "Dup" = some ⟨"a", blank, some "Dup", 1⟩ ∧
      Reordered (stored ++ [.remove "z"]) (other ++ [.remove "z"]) ∧
      (ofChanges (stored ++ [.remove "z"])).documents.map Document.content =
        (ofChanges (other ++ [.remove "z"])).documents.map Document.content := by
  intro blank stored other walk
  have hRun : Table.Run stored [none, none] walk :=
    .step (.step .start (.store (.refl _))) (.store (.swap _ _ _))
  have hReordered : Reordered (stored ++ [.remove "z"]) (other ++ [.remove "z"]) := by
    intro uri
    by_cases hA : "a" = uri
    · subst hA
      rfl
    · simp [stored, other, List.filter_cons, hA]
  have hFirst : (ofChanges stored).findModule? "Dup" = some ⟨"a", blank, some "Dup", 1⟩ := by
    decide +kernel
  have hAnswers := ((ofChanges_answers stored).2.2.2.2.2.1 _ walk hRun).2.1
  have hSame := ((ofChanges_answers _).2.2.2.2.2.2 _ hReordered).1
  exact ⟨hRun, (hAnswers.findModule?_eq "Dup").trans hFirst, hReordered, hSame.documents_eq⟩

end Workspace

end ElmScope
