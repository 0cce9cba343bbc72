import ElmScope.Proofs.Reference.Lookup
import ElmScope.Proofs.Reference.Usage

/-! A name that stands alone means the nearest binding around it. Neither the top level of the
file nor its imports are asked while a scope within reach binds the name, and a variable is never
reached from outside its scope. Where more than the name stands in the node above it, scopes are
not asked at all, and the whole text is looked up as a function. -/
namespace ElmScope

namespace Tree

/-- A node is the name of a value that is used: the last segment in a value, or the name in a
variable pattern or before a record update. -/
structure IsValueName (t : Tree) (x holder : Nat) : Prop where
  below : t.parent? x = some holder
  isName : t.kind x ≠ .valueQid ∧ t.kind x ≠ .upperCaseQid
  inValue : t.kind holder = .valueQid ∧ t.isQualifier x = false ∨
    t.kind holder = .lowerPattern ∨ t.kind holder = .recordBaseIdentifier

variable {t : Tree} {x holder scope : Nat}

/-- The name of a value is used under its own text and the text of the node above. -/
theorem IsValueName.usage? (h : t.IsValueName x holder) :
    t.usage? x = some (.value (t.text x) (t.text holder)) := by
  rw [usage?_eq_usageUnder? h.isName h.below, usageUnder?]
  rcases h.inValue with ⟨hHolder, hLast⟩ | hHolder | hHolder
  · simp only [hHolder, segmentUsage, hLast, Bool.false_eq_true, if_false]
  · rw [hHolder]
  · rw [hHolder]

/-- A scope within reach of a node is the node or stands above it. -/
theorem mem_subtree_of_reach (h : scope ∈ (x :: t.ancestors x).take 512) :
    x = scope ∨ x ∈ t.descendants scope := by
  rcases List.mem_cons.mp (List.mem_of_mem_take h) with rfl | hAbove
  · exact .inl rfl
  · exact .inr (mem_descendants_iff_mem_ancestors.mpr hAbove)

end Tree

namespace Sample

/-- The file `f x = \x -> x`. -/
def shadowing : Tree := .ofEvents
  [.enter .file, .enter .valueDeclaration, .enter .functionDeclarationLeft,
    .token .lowerCaseIdentifier "f", .gap " ",
    .enter .lowerPattern, .token .lowerCaseIdentifier "x", .leave, .leave, .gap " = ",
    .enter .anonymousFunctionExpr, .gap "\\",
    .enter .lowerPattern, .token .lowerCaseIdentifier "x", .leave, .gap " ",
    .token .arrow "->", .gap " ", .enter .valueExpr, .enter .valueQid,
    .token .lowerCaseIdentifier "x", .leave, .leave, .leave, .leave, .leave]

def documentShadowing : Document := ⟨"file", shadowing, none, 0⟩

/-- The file `\x -> x`, in which the value begins with the space before its name. -/
def spaced : Tree := .ofEvents
  [.enter .file, .enter .anonymousFunctionExpr, .gap "\\",
    .enter .lowerPattern, .token .lowerCaseIdentifier "x", .leave, .gap " ",
    .token .arrow "->", .enter .valueExpr, .enter .valueQid, .gap " ",
    .token .lowerCaseIdentifier "x", .leave, .leave, .leave, .leave]

def documentSpaced : Document := ⟨"file", spaced, none, 0⟩

end Sample

namespace Workspace

variable {w : Workspace} {uri name : String} {d : Document} {x holder : Nat} {r : Definition}

/-- The places at which the name of a value is looked up, in order. -/
theorem definition?_of_isValueName (hFile : w.get? uri = some d)
    (hName : d.tree.IsValueName x holder) :
    w.definition? uri ⟨d, x⟩ =
      (if d.tree.text x = d.tree.text holder then (w.fileScope d).bound? x (d.tree.text x)
        else none).or
        (((w.fileScope d).ownFunction? (d.tree.text holder)).or
          ((w.fileScope d).imported? (d.tree.text holder) .function)) := by
  have hUse : (w.fileScope d).tree.usage? x = _ := hName.usage?
  rw [definition?, hFile, Option.bind_some, if_pos rfl, FileScope.definition?, hUse,
    Option.bind_some, FileScope.lookup?]

/-- A name that stands alone means its nearest binding. -/
theorem definition?_of_nearest {b : Binding} (hFile : w.get? uri = some d)
    (hName : d.tree.IsValueName x holder) (hAlone : d.tree.text holder = d.tree.text x)
    (hNearest : d.tree.IsNearestBinding x (d.tree.text x) b) :
    w.definition? uri ⟨d, x⟩ = some ⟨⟨d, b.node⟩, b.kind⟩ := by
  have hFind : (w.fileScope d).tree.findBinding? x (d.tree.text x) = some b :=
    Tree.findBinding?_eq_some_iff.mpr hNearest
  rw [definition?_of_isValueName hFile hName, if_pos hAlone.symm, FileScope.bound?, hFind]
  rfl

/-- Unless the name stands alone and is bound within reach, it is looked up at the top level and,
failing that, in the imports. -/
theorem definition?_of_unbound (hFile : w.get? uri = some d)
    (hName : d.tree.IsValueName x holder)
    (hUnbound : d.tree.text holder = d.tree.text x → ¬ d.tree.IsBound x (d.tree.text x)) :
    w.definition? uri ⟨d, x⟩ = ((w.fileScope d).ownFunction? (d.tree.text holder)).or
      ((w.fileScope d).imported? (d.tree.text holder) .function) := by
  rw [definition?_of_isValueName hFile hName]
  split
  · next hAlone =>
    have hFind : (w.fileScope d).tree.findBinding? x (d.tree.text x) = none :=
      Tree.findBinding?_eq_none_iff.mpr (hUnbound hAlone.symm)
    rw [FileScope.bound?, hFind]
    rfl
  · rfl

/-- What a name means beyond all scopes stands at the top level of some file. -/
theorem mem_topLevel_of_unbound
    (h : ((w.fileScope d).ownFunction? name).or ((w.fileScope d).imported? name .function) =
      some r) : r.kind = .function ∧ r.site.node ∈ r.site.document.tree.topLevel := by
  rcases Option.or_eq_some_iff.mp h with h | ⟨-, h⟩
  · obtain ⟨n, hFind, rfl⟩ := Option.map_eq_some_iff.mp h
    exact ⟨rfl, (Tree.isDeclared_of_findFunction? hFind).mem_topLevel⟩
  · have hKind := FileScope.imported?_kind h
    have hDeclared := (comesThrough_of_imported? h).isDeclared.2
    rw [hKind] at hDeclared
    exact ⟨hKind, hDeclared.mem_topLevel⟩

/-- What the name of a value in a stored file means. If the name is all that stands in the node
above it and a scope within reach binds it, it is the first binding of the name in the nearest such
scope. A variable, and whatever else does not stand at a top level, is an answer only inside the
scope that binds it. In every other case it is the file's first function of the name that the text
of the node above it is, and only without one an imported function. Functions found beyond all
scopes stand at the top level of their own file, so what does not stand there was bound. -/
theorem definition?_lexical (w : Workspace) (uri : String) (d : Document) (x holder : Nat)
    (hFile : w.get? uri = some d) (hName : d.tree.IsValueName x holder) :
    (d.tree.text holder = d.tree.text x → d.tree.IsBound x (d.tree.text x) →
      ∃ b, d.tree.IsNearestBinding x (d.tree.text x) b ∧
        w.definition? uri ⟨d, x⟩ = some ⟨⟨d, b.node⟩, b.kind⟩) ∧
    (∀ r, w.definition? uri ⟨d, x⟩ = some r →
      r.kind = .parameter ∨ r.site.node ∉ r.site.document.tree.topLevel →
      r.site.document = d ∧ ∃ scope ∈ (x :: d.tree.ancestors x).take 512,
        (x = scope ∨ x ∈ d.tree.descendants scope) ∧
        d.tree.Binds scope ⟨d.tree.text x, r.site.node, r.kind⟩) ∧
    ((d.tree.text holder = d.tree.text x → ¬ d.tree.IsBound x (d.tree.text x)) →
      (∀ n, d.tree.IsFirstFunction (d.tree.text holder) n →
        w.definition? uri ⟨d, x⟩ = some ⟨⟨d, n⟩, .function⟩) ∧
      ((∀ n ∈ d.tree.functions, d.tree.functionName? n ≠ some (d.tree.text holder)) →
        w.definition? uri ⟨d, x⟩ =
          ((w.importIndex uri).find? (d.tree.text holder) .function).map fun entry =>
            ⟨entry.site, .function⟩)) := by
  refine ⟨?_, ?_, ?_⟩
  · intro hAlone hBound
    obtain ⟨b, hNearest⟩ := hBound.exists_nearest
    exact ⟨b, hNearest, definition?_of_nearest hFile hName hAlone hNearest⟩
  · intro r hAnswer hLocal
    by_cases hScoped : d.tree.text holder = d.tree.text x ∧ d.tree.IsBound x (d.tree.text x)
    · obtain ⟨b, hNearest⟩ := hScoped.2.exists_nearest
      rw [definition?_of_nearest hFile hName hScoped.1 hNearest] at hAnswer
      cases hAnswer
      obtain ⟨scope, hReach, hFirst⟩ := hNearest.exists_scope
      refine ⟨rfl, scope, hReach, Tree.mem_subtree_of_reach hReach, ?_⟩
      rw [← hFirst.named]
      exact hFirst.binds
    · rw [definition?_of_unbound hFile hName (not_and.mp hScoped)] at hAnswer
      obtain ⟨hKind, hTop⟩ := mem_topLevel_of_unbound hAnswer
      rcases hLocal with hParameter | hInside
      · exact nomatch hKind.symm.trans hParameter
      · exact absurd hTop hInside
  · intro hUnbound
    rw [definition?_of_unbound hFile hName hUnbound]
    constructor
    · intro n hFirst
      have hFind : (w.fileScope d).tree.findFunction? (d.tree.text holder) = some n :=
        Tree.findFunction?_eq_some_iff.mpr hFirst
      rw [FileScope.ownFunction?, hFind]
      rfl
    · intro hNone
      have hFind : (w.fileScope d).tree.findFunction? (d.tree.text holder) = none :=
        Tree.findFunction?_eq_none_iff.mpr hNone
      rw [FileScope.ownFunction?, hFind, importIndex, hFile]
      rfl

/-- The `x` of `f x = \x -> x` is the variable of the lambda, not the parameter. -/
theorem definition?_lexical_lambda :
    ∃ b, Sample.shadowing.IsNearestBinding 12 (Sample.shadowing.text 12) b ∧ b.node = 7 ∧
      (empty.upsert "file" Sample.shadowing none).definition? "file"
        ⟨Sample.documentShadowing, 12⟩ = some ⟨⟨Sample.documentShadowing, b.node⟩, b.kind⟩ := by
  have hFile : (empty.upsert "file" Sample.shadowing none).get? "file" =
      some Sample.documentShadowing := by decide +kernel
  have hName : Sample.shadowing.IsValueName 12 11 :=
    ⟨by decide +kernel, by decide +kernel, by decide +kernel⟩
  have hBinds : Sample.shadowing.Binds 6 ⟨"x", 7, .parameter⟩ :=
    Tree.mem_bindingsOf_iff.mp (by decide +kernel)
  have hFound : (empty.upsert "file" Sample.shadowing none).definition? "file"
      ⟨Sample.documentShadowing, 12⟩ = some ⟨⟨Sample.documentShadowing, 7⟩, .parameter⟩ := by
    decide +kernel
  obtain ⟨hLexical, -, -⟩ := definition?_lexical (empty.upsert "file" Sample.shadowing none)
    "file" Sample.documentShadowing 12 11 hFile hName
  obtain ⟨b, hNearest, hAnswer⟩ := hLexical (by decide +kernel)
    ⟨6, by decide +kernel, ⟨"x", 7, .parameter⟩, hBinds, by decide +kernel⟩
  have hSite := Option.some.inj (hAnswer.symm.trans hFound)
  exact ⟨b, hNearest, congrArg (fun r => r.site.node) hSite, hAnswer⟩

/-- The lambda around it binds the only name in a value, but a space in the value keeps it from
standing alone, and nothing is found. -/
theorem definition?_lexical_padded :
    let w := empty.upsert "file" Sample.spaced none
    w.get? "file" = some Sample.documentSpaced ∧
      (Sample.spaced.kind 6 = .valueQid ∧ Sample.spaced.children 6 = [7] ∧
        Sample.spaced.kind 7 = .lowerCaseIdentifier) ∧
      Sample.spaced.IsBound 7 (Sample.spaced.text 7) ∧
      w.definition? "file" ⟨Sample.documentSpaced, 7⟩ = none := by
  have hBinds : Sample.spaced.Binds 1 ⟨"x", 2, .parameter⟩ :=
    Tree.mem_bindingsOf_iff.mp (by decide +kernel)
  exact ⟨by decide +kernel, by decide +kernel,
    ⟨1, by decide +kernel, _, hBinds, by decide +kernel⟩, by decide +kernel⟩

end Workspace

end ElmScope
