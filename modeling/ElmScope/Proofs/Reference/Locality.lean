import ElmScope.Proofs.Workspace.History
import ElmScope.Proofs.Scope.Offer
import ElmScope.Reference.Definition

/-! What names mean in a file depends on the file and on the modules that its own import
clauses name. Of all else in the workspace nothing is read, also not the imports of an
imported module. -/
namespace ElmScope

def Tree.importedModules (t : Tree) : List String := t.importClauses.filterMap t.importedModule?

/-- Two workspaces look the same from a file: both hold the same document under its uri and
find the same documents for the modules that it imports. -/
structure SameView (w w' : Workspace) (uri : String) : Prop where
  file : w'.get? uri = w.get? uri
  modules : ∀ d, w.get? uri = some d → ∀ name ∈ d.tree.importedModules,
    w'.findModule? name = w.findModule? name

/-- A change is foreign to a file: it is about another file, and the file imports neither the
module that this one was stored as nor the one that it is stored as now. -/
structure IsForeign (w : Workspace) (uri : String) (change : Change) : Prop where
  elsewhere : change.uri ≠ uri
  before : ∀ d e, w.get? uri = some d → w.get? change.uri = some e →
    ∀ name ∈ d.tree.importedModules, e.moduleName ≠ some name
  after : ∀ d, w.get? uri = some d →
    ∀ name ∈ d.tree.importedModules, change.moduleName? ≠ some name

section Index

variable {w w' : Workspace} {t : Tree} {clause : Nat}

theorem Tree.mem_importedModules {name : String} (hClause : clause ∈ t.importClauses)
    (hName : t.importedModule? clause = some name) : name ∈ t.importedModules :=
  List.mem_filterMap.mpr ⟨clause, hClause, hName⟩

/-- A clause offers the same wherever its module is the same. -/
theorem importOffers_congr
    (h : ∀ name, t.importedModule? clause = some name → w'.findModule? name = w.findModule? name) :
    importOffers w' t clause = importOffers w t clause := by
  have hModule : Imported.ofClause? w' t clause = Imported.ofClause? w t clause := by
    unfold Imported.ofClause?
    cases hName : t.importedModule? clause with
    | none => rfl
    | some name => rw [Option.bind_some, Option.bind_some, h name hName]
  rw [importOffers, importOffers, hModule]

theorem ImportIndex.ofTree_congr
    (h : ∀ name ∈ t.importedModules, w'.findModule? name = w.findModule? name) :
    ImportIndex.ofTree w' t = ImportIndex.ofTree w t := by
  rw [ofTree, ofTree, List.flatMap_def, List.flatMap_def]
  congr 2
  apply List.map_congr_left
  intro clause hClause
  apply importOffers_congr
  intro name hName
  exact h name (Tree.mem_importedModules hClause hName)

end Index

namespace SameView

variable {w w' w'' : Workspace} {uri : String} {d : Document}

theorem refl (w : Workspace) (uri : String) : SameView w w uri := ⟨rfl, fun _ _ _ _ => rfl⟩

theorem trans (h : SameView w w' uri) (h' : SameView w' w'' uri) : SameView w w'' uri := by
  refine ⟨h'.file.trans h.file, fun d hFile name hName => ?_⟩
  exact (h'.modules d (h.file.trans hFile) name hName).trans (h.modules d hFile name hName)

theorem ofTree_eq (h : SameView w w' uri) (hFile : w.get? uri = some d) :
    ImportIndex.ofTree w' d.tree = ImportIndex.ofTree w d.tree :=
  ImportIndex.ofTree_congr (h.modules d hFile)

/-- Where two workspaces look the same, imports bring the same. -/
theorem importIndex_eq (h : SameView w w' uri) : w'.importIndex uri = w.importIndex uri := by
  rw [Workspace.importIndex, Workspace.importIndex, h.file]
  cases hFile : w.get? uri with
  | none => rfl
  | some d => exact h.ofTree_eq hFile

/-- Where two workspaces look the same, names mean the same. -/
theorem definition?_eq (h : SameView w w' uri) (s : Site) :
    w'.definition? uri s = w.definition? uri s := by
  rw [Workspace.definition?, Workspace.definition?, h.file]
  cases hFile : w.get? uri with
  | none => rfl
  | some d =>
      have hScope : w'.fileScope d = w.fileScope d := by
        rw [Workspace.fileScope, Workspace.fileScope, h.ofTree_eq hFile]
      rw [Option.bind_some, Option.bind_some, hScope]

end SameView

namespace IsForeign

variable {w : Workspace} {uri : String} {change later : Change}

/-- From a file a foreign change is not seen. -/
theorem sameView (h : IsForeign w uri change) : SameView w (w.apply change) uri := by
  refine ⟨Workspace.get?_apply_of_ne h.elsewhere, fun d hFile name hName => ?_⟩
  apply Workspace.findModule?_apply
  · exact fun e hOld => h.before d e hFile hOld name hName
  · exact h.after d hFile name hName

/-- What was foreign to a file stays so after a foreign change, also when both are about
the same other file. -/
theorem step (h : IsForeign w uri change) (hLater : IsForeign w uri later) :
    IsForeign (w.apply change) uri later := by
  have hFile := Workspace.get?_apply_of_ne (w := w) h.elsewhere
  refine ⟨hLater.elsewhere, ?_, fun d hd => hLater.after d (hFile.symm.trans hd)⟩
  intro d e hd he name hName
  have hd := hFile.symm.trans hd
  by_cases hSame : change.uri = later.uri
  · rw [Workspace.moduleName_of_get?_apply (hSame ▸ he)]
    exact h.after d hd name hName
  · exact hLater.before d e hd ((Workspace.get?_apply_of_ne hSame).symm.trans he) name hName

/-- A whole run of foreign changes is not seen from the file. -/
theorem run (changes : List Change) (h : ∀ change ∈ changes, IsForeign w uri change) :
    SameView w (changes.foldl Workspace.apply w) uri := by
  induction changes generalizing w with
  | nil => exact .refl w uri
  | cons change rest ih =>
      have hFirst := h change List.mem_cons_self
      apply hFirst.sameView.trans
      exact ih fun later hLater => hFirst.step (h later (List.mem_cons_of_mem _ hLater))

end IsForeign

namespace Sample

/-- The file `module B exposing (..)`, `import C exposing (..)`, `f = 1`. -/
def middle : Tree := .ofEvents
  [.enter .file,
    .enter .moduleDeclaration, .token .moduleKeyword "module", .gap " ",
    .enter .upperCaseQid, .token .upperCaseIdentifier "B", .leave, .gap " ",
    .enter .exposingList, .punctuation "exposing", .gap " ", .punctuation "(",
    .token .doubleDot "..", .punctuation ")", .leave, .leave, .gap "\n",
    .enter .importClause, .token .importKeyword "import", .gap " ",
    .enter .upperCaseQid, .token .upperCaseIdentifier "C", .leave, .gap " ",
    .enter .exposingList, .punctuation "exposing", .gap " ", .punctuation "(",
    .token .doubleDot "..", .punctuation ")", .leave, .leave, .gap "\n",
    .enter .valueDeclaration, .enter .functionDeclarationLeft,
    .token .lowerCaseIdentifier "f", .leave, .gap " = 1", .leave, .leave]

def chain : Workspace :=
  ((Workspace.empty.upsert "main" main none).upsert "b" middle (some "B")).upsert "c"
    (library "C") (some "C")

end Sample

namespace Workspace

/-- What a file imports and what its names mean is the same in all workspaces that look the
same from the file. In particular no run of changes to other files matters, as long as none
of them is stored, before or after, as a module that the file itself imports. -/
theorem definition?_local (w : Workspace) (uri : String) :
    (∀ w', SameView w w' uri → w'.importIndex uri = w.importIndex uri ∧
      ∀ s, w'.definition? uri s = w.definition? uri s) ∧
    (∀ changes : List Change, (∀ change ∈ changes, IsForeign w uri change) →
      (changes.foldl apply w).importIndex uri = w.importIndex uri ∧
        ∀ s, (changes.foldl apply w).definition? uri s = w.definition? uri s) := by
  refine ⟨fun w' h => ⟨h.importIndex_eq, h.definition?_eq⟩, fun changes hForeign => ?_⟩
  have h := IsForeign.run changes hForeign
  exact ⟨h.importIndex_eq, h.definition?_eq⟩

/-- The file `main` imports `B`, which imports `C`; forgetting `C` changes no answer in `main`. -/
theorem definition?_local_indirect_import :
    Sample.middle.importedModules = ["C"] ∧
    (Sample.chain.definition? "main" ⟨⟨"main", Sample.main, none, 0⟩, 27⟩).isSome ∧
    let later := Sample.chain.remove "c"
    later.importIndex "main" = Sample.chain.importIndex "main" ∧
      ∀ s, later.definition? "main" s = Sample.chain.definition? "main" s := by
  have hMain : Sample.chain.get? "main" = some ⟨"main", Sample.main, none, 0⟩ := by decide +kernel
  have hC : Sample.chain.get? "c" = some ⟨"c", Sample.library "C", some "C", 2⟩ := by
    decide +kernel
  have hNames : Sample.main.importedModules = ["A", "B"] := by decide +kernel
  refine ⟨by decide +kernel, by decide +kernel, ?_⟩
  apply (definition?_local Sample.chain "main").2 [.remove "c"]
  intro change hChange
  obtain rfl := List.mem_singleton.mp hChange
  refine ⟨by decide, ?_, fun _ _ _ _ hC' => nomatch hC'⟩
  intro d e hd he name hName
  obtain rfl := Option.some.inj (hMain.symm.trans hd)
  obtain rfl := Option.some.inj (hC.symm.trans he)
  rw [hNames] at hName
  rintro hC'
  obtain rfl := Option.some.inj hC'
  exact absurd hName (by decide)

end Workspace

end ElmScope
