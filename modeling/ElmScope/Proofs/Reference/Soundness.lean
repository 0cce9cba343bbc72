import ElmScope.Proofs.Reference.Lookup

/-! What a look-up hands back is alive. Whatever was stored and forgotten before, the
tree of an answer is the one stored under the answer's uri, its node hangs below the root,
and the node has the form that the answer's kind asks for. Only a file's own header is
answered by the node above its name, whatever that node is. -/
namespace ElmScope

/-- A definition stands in a document: its node hangs below the root and has the form of
its kind. -/
structure Definition.StandsIn (r : Definition) (d : Document) : Prop where
  document : r.site.document = d
  reachable : r.site.node ∈ d.tree.reachable
  form : d.tree.HasForm r.site.node r.kind

/-- A node is the name in a file's own header, below a declaration. -/
def Tree.IsHeaderName (t : Tree) (n declaration : Nat) : Prop :=
  ∃ used qualified, t.usedNode? n = some used ∧ t.parent? used = some qualified ∧
    t.kind qualified = .upperCaseQid ∧ t.precedingKind? qualified = some .moduleKeyword ∧
    t.parent? qualified = some declaration

/-- A definition has the form that its kind asks for, or answers the name in the file's own
header. -/
def Definition.Answers (r : Definition) (s : Site) : Prop :=
  match s.document.tree.usage? s.node with
  | some (.moduleHeader _) =>
    r.kind = .moduleHeader ∧ r.site.document = s.document ∧
      s.document.tree.IsHeaderName s.node r.site.node
  | _ => r.site.document.tree.HasForm r.site.node r.kind

namespace Tree

variable {t : Tree} {n parent scope : Nat} {usage : Usage} {b : Binding}

/-- Where the nodes stand that a use carries along, seen from the node above the name. -/
def CarriesNear (t : Tree) (parent : Nat) : Usage → Prop
  | .moduleHeader declaration =>
    t.kind parent = .upperCaseQid ∧ t.precedingKind? parent = some .moduleKeyword ∧
      t.parent? parent = some declaration
  | .declaredName _ block =>
    ∀ b, block = some b → ∃ p, t.parent? parent = some p ∧ t.parent? p = some b
  | .variant node => node = parent ∧ t.kind parent = .unionVariant
  | _ => True

theorem carriesNear_of_operatorUsage? (h : t.operatorUsage? n = some usage) :
    t.CarriesNear parent usage := by
  unfold operatorUsage? at h
  split at h
  · cases h
    trivial
  · exact nomatch h

theorem carriesNear_segmentUsage {whole : Usage} (h : t.CarriesNear parent whole) :
    t.CarriesNear parent (t.segmentUsage n parent whole) := by
  unfold segmentUsage
  split
  · trivial
  · exact h

/-- What a use carries along stands at the name or above it. -/
theorem carriesNear_of_usageUnder? (h : t.usageUnder? n parent = some usage) :
    t.CarriesNear parent usage := by
  unfold usageUnder? at h
  split at h
  · next hKind =>
    split at h
    · next hModule =>
      obtain ⟨declaration, hDeclaration, rfl⟩ := Option.map_eq_some_iff.mp h
      exact ⟨hKind, hModule, hDeclaration⟩
    · cases h
      trivial
    · cases h
      exact carriesNear_segmentUsage trivial
  · cases h
    exact carriesNear_segmentUsage trivial
  · cases h
    trivial
  · cases h
    trivial
  · cases h
    intro b hBlock
    obtain ⟨hParent, -⟩ := Option.filter_eq_some_iff.mp hBlock
    exact Option.bind_eq_some_iff.mp hParent
  · cases h
    trivial
  · split at h
    · cases h
      trivial
    · split at h
      · cases h
        trivial
      · exact carriesNear_of_operatorUsage? h
  · split at h
    · cases h
      trivial
    · split at h
      · cases h
        trivial
      · exact carriesNear_of_operatorUsage? h
  · split at h
    · cases h
      trivial
    · exact carriesNear_of_operatorUsage? h
  · split at h
    · cases h
      trivial
    · exact carriesNear_of_operatorUsage? h
  · next hKind =>
    cases h
    exact ⟨rfl, hKind⟩
  · exact carriesNear_of_operatorUsage? h

/-- A node is used as one that hangs below the root like itself. -/
theorem mem_reachable_of_usedNode? {used : Nat} (hn : n ∈ t.reachable)
    (h : t.usedNode? n = some used) : used ∈ t.reachable := by
  have hLast : t.lastNamedChild? n = some used → used ∈ t.reachable := fun hChild =>
    mem_reachable_of_child hn (List.mem_filter.mp (List.mem_of_getLast? hChild)).1
  unfold usedNode? at h
  split at h
  · exact hLast h
  · exact hLast h
  · cases h
    exact hn

/-- The use of a node is read off the node above the name, and so are the nodes that the
use carries along. -/
theorem usage?_place (h : t.usage? n = some usage) :
    ∃ used parent, t.usedNode? n = some used ∧ t.parent? used = some parent ∧
      t.CarriesNear parent usage := by
  obtain ⟨used, hUsed, h⟩ := Option.bind_eq_some_iff.mp h
  obtain ⟨parent, hParent, h⟩ := Option.bind_eq_some_iff.mp h
  exact ⟨used, parent, hUsed, hParent, carriesNear_of_usageUnder? h⟩

/-- What a scope binds has the form of a parameter or of a function. -/
theorem Binds.hasForm (h : t.Binds scope b) : t.HasForm b.node b.kind := by
  cases h with
  | letFunction _ _ hKind hName => exact ⟨.inl hKind, by simp [functionName?, hName]⟩
  | parameter _ _ _ hKind => exact hKind
  | letPattern _ _ _ _ _ _ hKind => exact hKind
  | branch _ _ _ hKind => exact hKind
  | lambda _ _ _ hKind => exact hKind
  | lambdaPattern _ _ _ _ _ hKind => exact hKind

/-- The binding of a name at a node hangs below the root if the node does. -/
theorem IsNearestBinding.mem_reachable {name : String} (h : t.IsNearestBinding n name b)
    (hn : n ∈ t.reachable) : b.node ∈ t.reachable := by
  obtain ⟨scope, hReach, hFirst⟩ := h.exists_scope
  have hScope : scope ∈ t.reachable := by
    rcases List.mem_cons.mp (List.mem_of_mem_take hReach) with rfl | hAbove
    · exact hn
    · exact mem_reachable_of_ancestor hn hAbove
  exact mem_reachable_of_descendant hScope hFirst.binds.below

end Tree

namespace FileScope

variable {s : FileScope} {n declaration : Nat} {usage : Usage} {r : Definition}

/-- What a file supplies of its own stands in the file, its header apart. The block of a declared
name stands two levels above the name, so it is reached where the name is. -/
theorem Supplies.standsIn (h : s.Supplies n usage r) (hn : n ∈ s.tree.reachable)
    (hUse : s.tree.usage? n = some usage)
    (hHeader : ∀ declaration, usage ≠ .moduleHeader declaration) : r.StandsIn s.document := by
  obtain ⟨used, parent, hUsed, hParent, hNear⟩ := Tree.usage?_place hUse
  have hAbove : parent ∈ s.tree.reachable :=
    Tree.mem_reachable_of_parent (Tree.mem_reachable_of_usedNode? hn hUsed) hParent
  cases h with
  | header => exact absurd rfl (hHeader _)
  | letFunction hFind =>
      obtain ⟨p, hp, hBlock⟩ := hNear _ rfl
      obtain ⟨hChild, hForm⟩ := Tree.hasForm_of_findLetFunction? hFind
      have hReach := Tree.mem_reachable_of_parent (Tree.mem_reachable_of_parent hAbove hp) hBlock
      exact ⟨rfl, Tree.mem_reachable_of_child hReach hChild, hForm⟩
  | variant =>
      obtain ⟨rfl, hKind⟩ := hNear
      exact ⟨rfl, hAbove, hKind⟩
  | bound hNearest =>
      obtain ⟨scope, -, hFirst⟩ := hNearest.exists_scope
      exact ⟨rfl, hNearest.mem_reachable hn, hFirst.binds.hasForm⟩
  | declared hDeclared => exact ⟨rfl, hDeclared.mem_reachable, hDeclared.form⟩

/-- A file's own header is answered by the node above the name. -/
theorem lookup?_moduleHeader (hn : n ∈ s.tree.reachable)
    (hUse : s.tree.usage? n = some (.moduleHeader declaration))
    (h : s.lookup? n (.moduleHeader declaration) = some r) :
    r = s.own .moduleHeader declaration ∧ s.tree.IsHeaderName n declaration ∧
      declaration ∈ s.tree.reachable := by
  obtain ⟨used, parent, hUsed, hParent, hKind, hModule, hDeclaration⟩ := Tree.usage?_place hUse
  have hAbove : parent ∈ s.tree.reachable :=
    Tree.mem_reachable_of_parent (Tree.mem_reachable_of_usedNode? hn hUsed) hParent
  refine ⟨(Option.some.inj h).symm, ?_, Tree.mem_reachable_of_parent hAbove hDeclaration⟩
  exact ⟨used, parent, hUsed, hParent, hKind, hModule, hDeclaration⟩

end FileScope

namespace Workspace

variable {w : Workspace} {uri : String} {d : Document} {n : Nat} {r : Definition}

/-- An answer in a stored file points into a stored file and has the right form. The header's own
name is the one use whose answer can have any form. -/
theorem definition?_of_stored (hGet : w.get? d.uri = some d) (hn : n ∈ d.tree.reachable)
    (h : (w.fileScope d).definition? n = some r) :
    w.get? r.site.document.uri = some r.site.document ∧
      r.site.node ∈ r.site.document.tree.reachable ∧ r.Answers ⟨d, n⟩ := by
  obtain ⟨usage, hUse, h⟩ := Option.bind_eq_some_iff.mp h
  have hUse : d.tree.usage? n = some usage := hUse
  by_cases hHeader : ∃ declaration, usage = .moduleHeader declaration
  · obtain ⟨declaration, rfl⟩ := hHeader
    obtain ⟨rfl, hName, hReach⟩ := FileScope.lookup?_moduleHeader (s := w.fileScope d) hn hUse h
    refine ⟨hGet, hReach, ?_⟩
    simp only [Definition.Answers, hUse]
    exact ⟨rfl, rfl, hName⟩
  · have hLive : w.get? r.site.document.uri = some r.site.document ∧
        r.site.node ∈ r.site.document.tree.reachable ∧
        r.site.document.tree.HasForm r.site.node r.kind := by
      rcases FileScope.lookup?_cases h with hOwn | ⟨-, name, -, hImported⟩
      · have hStands := (FileScope.supplies_of_ownLookup? hOwn).standsIn hn hUse
          fun declaration hModule => hHeader ⟨declaration, hModule⟩
        rw [hStands.document]
        exact ⟨hGet, hStands.reachable, hStands.form⟩
      · obtain ⟨hStored, hDeclared⟩ := (comesThrough_of_imported? hImported).isDeclared
        exact ⟨hStored, hDeclared.mem_reachable, hDeclared.form⟩
    refine ⟨hLive.1, hLive.2.1, ?_⟩
    unfold Definition.Answers
    split
    · next declaration hModule =>
      exact absurd ⟨declaration, Option.some.inj (hUse.symm.trans hModule)⟩ hHeader
    · exact hLive.2.2

/-- What is found for a node that was reachable in some earlier document, after any further
changes: a reachable node of a document that is stored now, of the form that the kind of the answer
asks for. A node kept from an earlier tree is refused, so the answer is about the tree that is
stored now. -/
theorem definition?_sound (before after : List Change) (uri : String) (s : Site)
    (r : Definition) (hStored : s.document ∈ (ofChanges before).documents)
    (hNode : s.node ∈ s.document.tree.reachable)
    (h : (ofChanges (before ++ after)).definition? uri s = some r) :
    (ofChanges (before ++ after)).get? r.site.document.uri = some r.site.document ∧
      r.site.node ∈ r.site.document.tree.reachable ∧ r.Answers s := by
  obtain ⟨d, hGet, hSame, hFound⟩ := definition?_eq_some_iff.mp h
  obtain ⟨hd, rfl⟩ := get?_eq_some_iff.mp hGet
  obtain rfl : d = s.document := eq_of_revision_eq hStored hd hSame
  exact definition?_of_stored hGet hNode hFound

/-- After a later change of `B` the `f` of `main` is found in the new revision. -/
theorem definition?_sound_import :
    (ofChanges ([.upsert "b" (Sample.library "B") none, .upsert "main" Sample.main none] ++
      [.upsert "b" (Sample.library "B") (some "B"), .remove "a"])).get? "b" =
      some ⟨"b", Sample.library "B", some "B", 2⟩ ∧
    10 ∈ (Sample.library "B").reachable ∧
    Definition.Answers ⟨⟨⟨"b", Sample.library "B", some "B", 2⟩, 10⟩, .function⟩
      ⟨⟨"main", Sample.main, none, 1⟩, 27⟩ :=
  definition?_sound [.upsert "b" (Sample.library "B") none, .upsert "main" Sample.main none]
    [.upsert "b" (Sample.library "B") (some "B"), .remove "a"] "main"
    ⟨⟨"main", Sample.main, none, 1⟩, 27⟩
    ⟨⟨⟨"b", Sample.library "B", some "B", 2⟩, 10⟩, .function⟩
    (by decide +kernel) (by decide +kernel) (by decide +kernel)

end Workspace

end ElmScope
