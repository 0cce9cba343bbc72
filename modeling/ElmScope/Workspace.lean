import ElmScope.Module.Declaration

/-! The files of a workspace. Each is stored under its uri, and storing a file
again replaces it. Every stored document gets a revision of its own, so two
documents hold one and the same tree exactly when their revisions agree: a tree
with equal content that is stored later is another tree. -/
namespace ElmScope

/-- A stored file with the module name under which imports find it. -/
structure Document where
  uri : String
  tree : Tree
  moduleName : Option String
  revision : Nat
deriving DecidableEq

/-- The stored files in the order of their uris. -/
structure Workspace where
  documents : List Document := []
  /-- The revision of the next stored document. -/
  clock : Nat := 0
  sorted : documents.Pairwise fun a b => a.uri < b.uri := by simp
  revision_lt : ∀ d ∈ documents, d.revision < clock := by simp

namespace Workspace

def empty : Workspace := {}

/-- A document is put at the place of its uri, where it replaces another of that
uri. -/
def place (d : Document) : List Document → List Document
  | [] => [d]
  | e :: rest =>
    if d.uri < e.uri then d :: e :: rest
    else if d.uri = e.uri then d :: rest
    else e :: place d rest

theorem mem_of_mem_place {d e : Document} {documents : List Document}
    (h : e ∈ place d documents) : e = d ∨ e ∈ documents := by
  induction documents with
  | nil => exact .inl (by simpa [place] using h)
  | cons first rest ih =>
    rw [place] at h
    split at h
    · simpa using h
    · split at h
      · rcases List.mem_cons.mp h with h | h
        · exact .inl h
        · exact .inr (List.mem_cons_of_mem _ h)
      · rcases List.mem_cons.mp h with rfl | h
        · exact .inr List.mem_cons_self
        · exact (ih h).imp_right (List.mem_cons_of_mem _)

/-- The place of a document keeps the uris in order. -/
theorem place_sorted {d : Document} {documents : List Document}
    (h : documents.Pairwise fun a b => a.uri < b.uri) :
    (place d documents).Pairwise fun a b => a.uri < b.uri := by
  induction documents with
  | nil => simp [place]
  | cons first rest ih =>
    obtain ⟨hFirst, hRest⟩ := List.pairwise_cons.mp h
    rw [place]
    split
    · next hlt =>
      refine List.pairwise_cons.mpr ⟨fun e he => ?_, h⟩
      rcases List.mem_cons.mp he with rfl | he
      · exact hlt
      · exact String.lt_trans hlt (hFirst e he)
    · next hlt =>
      split
      · next heq => exact List.pairwise_cons.mpr ⟨fun e he => heq ▸ hFirst e he, hRest⟩
      · next hne =>
        refine List.pairwise_cons.mpr ⟨fun e he => ?_, ih hRest⟩
        rcases mem_of_mem_place he with rfl | he
        · exact Decidable.byContradiction fun hgt =>
            hne (String.le_antisymm (String.not_lt.mp hgt) (String.not_lt.mp hlt))
        · exact hFirst e he

def upsert (w : Workspace) (uri : String) (tree : Tree) (moduleName : Option String) :
    Workspace where
  documents := place ⟨uri, tree, moduleName, w.clock⟩ w.documents
  clock := w.clock + 1
  sorted := place_sorted w.sorted
  revision_lt := by
    intro d hd
    rcases mem_of_mem_place hd with rfl | hd
    · exact Nat.lt_succ_self _
    · exact Nat.lt_succ_of_lt (w.revision_lt d hd)

def remove (w : Workspace) (uri : String) : Workspace where
  documents := w.documents.filter (·.uri ≠ uri)
  clock := w.clock
  sorted := w.sorted.filter _
  revision_lt := fun d hd => w.revision_lt d (List.mem_filter.mp hd).1

def get? (w : Workspace) (uri : String) : Option Document := w.documents.find? (·.uri = uri)

def size (w : Workspace) : Nat := w.documents.length

/-- A document that was put in is found under its uri. -/
theorem find?_place_self (d : Document) (documents : List Document) :
    (place d documents).find? (·.uri = d.uri) = some d := by
  induction documents with
  | nil => simp [place]
  | cons first rest ih =>
    rw [place]
    split
    · simp
    · split
      · simp
      · next hne => simp [ih, Ne.symm hne]

/-- A document that is put in hides no other uri. -/
theorem find?_place_of_ne {d : Document} {uri : String} (h : d.uri ≠ uri)
    (documents : List Document) :
    (place d documents).find? (·.uri = uri) = documents.find? (·.uri = uri) := by
  induction documents with
  | nil => simp [place, h]
  | cons first rest ih =>
    rw [place]
    split
    · simp [h]
    · split
      · next heq => simp [h, ← heq]
      · simp [List.find?_cons, ih]

/-- A stored document is found under its uri. -/
theorem get?_upsert_self (w : Workspace) (uri : String) (tree : Tree)
    (moduleName : Option String) :
    (w.upsert uri tree moduleName).get? uri = some ⟨uri, tree, moduleName, w.clock⟩ :=
  find?_place_self ⟨uri, tree, moduleName, w.clock⟩ w.documents

/-- Storing a document does not touch the others. -/
theorem get?_upsert_of_ne (w : Workspace) {uri other : String} (h : uri ≠ other) (tree : Tree)
    (moduleName : Option String) :
    (w.upsert uri tree moduleName).get? other = w.get? other :=
  find?_place_of_ne h _

/-- A forgotten document is not found. -/
theorem get?_remove_self (w : Workspace) (uri : String) : (w.remove uri).get? uri = none := by
  simp [get?, remove]

/-- Forgetting a document does not touch the others. -/
theorem get?_remove_of_ne (w : Workspace) {uri other : String} (h : uri ≠ other) :
    (w.remove uri).get? other = w.get? other := by
  simp only [get?, remove, List.find?_filter]
  congr 1
  funext d
  by_cases hd : d.uri = other
  · simp [hd, Ne.symm h]
  · simp [hd]

/-- The document that an import of a module means: of those stored with the
module's name, the one with the least uri. -/
def findModule? (w : Workspace) (name : String) : Option Document :=
  w.documents.find? (·.moduleName = some name)

def placeName (name : String) : List String → List String
  | [] => [name]
  | other :: rest =>
    if name < other then name :: other :: rest
    else if name = other then other :: rest
    else other :: placeName name rest

/-- The module names of all files, increasing and without repetition. -/
def moduleNames (w : Workspace) : List String :=
  (w.documents.filterMap (·.moduleName)).foldr placeName []

end Workspace

structure Site where
  document : Document
  node : Nat
deriving DecidableEq

namespace Site

/-- Two sites are the same when they name the same node of the same tree. -/
def same (a b : Site) : Bool := a.document.revision = b.document.revision && a.node = b.node

def kind (s : Site) : Kind := s.document.tree.kind s.node

def range (s : Site) : Range := s.document.tree.range s.node

end Site

end ElmScope
