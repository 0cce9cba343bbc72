import ElmScope.Module.Signature
import ElmScope.Proofs.Reference.Lookup
import ElmScope.Proofs.Reference.Usage

/-! The name in an annotation. It is looked up among the functions at the top level, wherever the
annotation stands, while the name of the declaration that it annotates is looked up in the `let`
block around the declaration first. So the two lead to one place outside of `let` blocks, and
inside of a block they never do. -/
namespace ElmScope

namespace Tree

variable {t : Tree} {m block declaration signature : Nat} {name : String}

/-- The annotation of a declaration is an annotation of the declaration's name. -/
theorem of_signature? (h : t.signature? declaration = some signature) :
    t.kind signature = .typeSignature ∧
      t.functionName? signature = t.functionName? declaration := by
  obtain ⟨name, hName, hFind⟩ := Option.bind_eq_some_iff.mp h
  have hFound := List.find?_some hFind
  simp only [Bool.and_eq_true, decide_eq_true_eq] at hFound
  exact ⟨hFound.1, hFound.2.trans hName.symm⟩

/-- A `let` block below the root has no function of the top level. -/
theorem findFunction?_ne_findLetFunction? (hBlock : t.kind block = .letInExpr)
    (hInner : block ≠ root) (hLet : t.findLetFunction? block name = some m) :
    t.findFunction? name ≠ some m := by
  intro hOwn
  have hUp := mem_children_iff.mp (hasForm_of_findLetFunction? hLet).1
  obtain ⟨p, hParent, hTop⟩ :=
    parent?_of_mem_topLevel (isDeclared_of_findFunction? hOwn).mem_topLevel
  obtain rfl := Option.some.inj (hUp.symm.trans hParent)
  rcases hTop with rfl | hError
  · exact hInner rfl
  · cases hBlock.symm.trans hError

end Tree

namespace FileScope

variable {s : FileScope} {n i declaration signature j block : Nat}

/-- The name in an annotation leads to the function of the top level. -/
theorem definition?_signature (hSignature : s.tree.signature? declaration = some signature)
    (hName : s.tree.functionNameNode? declaration = some i)
    (hSignatureName : s.tree.functionNameNode? signature = some j) :
    s.definition? j = s.ownFunction? (s.tree.text i) := by
  obtain ⟨hKind, hSame⟩ := Tree.of_signature? hSignature
  rw [Tree.functionName?, Tree.functionName?, hName, hSignatureName] at hSame
  have hText : s.tree.text j = s.tree.text i := Option.some.inj hSame
  rw [definition?, Tree.usage?_signatureName hKind hSignatureName, hText]
  rfl

/-- The name of a declaration outside of `let` blocks leads to the function of the top level. -/
theorem definition?_outerName (hKind : s.tree.kind n = .valueDeclaration)
    (hName : s.tree.functionNameNode? n = some i)
    (hOuter : ∀ p ∈ s.tree.parent? n, s.tree.kind p ≠ .letInExpr) :
    s.definition? i = s.ownFunction? (s.tree.text i) := by
  have hNoBlock : (s.tree.parent? n).filter (s.tree.kind · = .letInExpr) = none :=
    Option.filter_eq_none_iff.mpr fun p hp => by simpa using hOuter p hp
  rw [definition?, Tree.usage?_functionName hKind hName, hNoBlock]
  rfl

/-- The name of a declaration in a `let` block leads to the first one of the name there. -/
theorem definition?_letName (hKind : s.tree.kind n = .valueDeclaration)
    (hName : s.tree.functionNameNode? n = some i) (hParent : s.tree.parent? n = some block)
    (hBlock : s.tree.kind block = .letInExpr) :
    ∃ m, s.tree.findLetFunction? block (s.tree.text i) = some m ∧
      s.definition? i = some (s.own .function m) := by
  have hNamed : s.tree.functionName? n = some (s.tree.text i) := by
    rw [Tree.functionName?, hName, Option.map_some]
  obtain ⟨m, hFind⟩ :=
    Tree.exists_findLetFunction? (Tree.mem_children_iff.mpr hParent) hKind hNamed
  refine ⟨m, hFind, ?_⟩
  rw [definition?, Tree.usage?_functionName hKind hName, hParent,
    Option.filter_some_pos (by simpa using hBlock), Option.bind_some, lookup?, Option.bind_some,
    hFind]
  rfl

end FileScope

/-- The name in an annotation leads to the function of the top level that has it, if any. Outside
of `let` blocks the name of the declaration leads there too. In a block below the root it leads to
a declaration of the block, where the name in the annotation never leads. -/
theorem Workspace.definition?_signatureName (w : Workspace) (uri : String) (d : Document)
    (declaration signature i j : Nat) (hFile : w.get? uri = some d)
    (hKind : d.tree.kind declaration = .valueDeclaration)
    (hSignature : d.tree.signature? declaration = some signature)
    (hName : d.tree.functionNameNode? declaration = some i)
    (hSignatureName : d.tree.functionNameNode? signature = some j) :
    w.definition? uri ⟨d, j⟩ =
      (d.tree.findFunction? (d.tree.text i)).map (fun n => ⟨⟨d, n⟩, .function⟩) ∧
    ((∀ p ∈ d.tree.parent? declaration, d.tree.kind p ≠ .letInExpr) →
      w.definition? uri ⟨d, j⟩ = w.definition? uri ⟨d, i⟩) ∧
    ∀ block, d.tree.parent? declaration = some block → d.tree.kind block = .letInExpr →
      ∃ m, d.tree.findLetFunction? block (d.tree.text i) = some m ∧
        w.definition? uri ⟨d, i⟩ = some ⟨⟨d, m⟩, .function⟩ ∧
        (block ≠ Tree.root → w.definition? uri ⟨d, j⟩ ≠ w.definition? uri ⟨d, i⟩) := by
  have hAnnotated : w.definition? uri ⟨d, j⟩ =
      (d.tree.findFunction? (d.tree.text i)).map fun n => ⟨⟨d, n⟩, .function⟩ := by
    rw [definition?_of_get? hFile]
    exact FileScope.definition?_signature (s := w.fileScope d) hSignature hName hSignatureName
  refine ⟨hAnnotated, fun hOuter => ?_, fun block hParent hBlock => ?_⟩
  · rw [hAnnotated, definition?_of_get? hFile]
    exact (FileScope.definition?_outerName (s := w.fileScope d) hKind hName hOuter).symm
  · obtain ⟨m, hFind, hInner⟩ :=
      FileScope.definition?_letName (s := w.fileScope d) hKind hName hParent hBlock
    rw [← definition?_of_get? hFile] at hInner
    refine ⟨m, hFind, hInner, fun hBelow hSame => ?_⟩
    rw [hAnnotated, hInner] at hSame
    obtain ⟨n, hOwn, hNode⟩ := Option.map_eq_some_iff.mp hSame
    obtain rfl : n = m := congrArg (fun r => r.site.node) hNode
    exact Tree.findFunction?_ne_findLetFunction? hBlock hBelow hFind hOwn

namespace Sample

/-- A file with a function `f` and a function `g`, in which a `let` block has an annotated
function `f` of its own. -/
def annotatedLet : Tree := .ofEvents
  [.enter .file,
    .enter .valueDeclaration, .enter .functionDeclarationLeft, .token .lowerCaseIdentifier "f",
    .leave, .gap " = 1", .leave, .gap "\n",
    .enter .valueDeclaration, .enter .functionDeclarationLeft, .token .lowerCaseIdentifier "g",
    .leave, .gap " = ", .enter .letInExpr, .gap "let ",
    .enter .typeSignature, .token .lowerCaseIdentifier "f", .gap " : Int", .leave, .gap "\n        ",
    .enter .valueDeclaration, .enter .functionDeclarationLeft, .token .lowerCaseIdentifier "f",
    .leave, .gap " = 2", .leave, .gap "\n    in f", .leave, .leave, .leave]

def documentAnnotatedLet : Document := ⟨"file", annotatedLet, none, 0⟩

def annotatedLetWorkspace : Workspace := .ofChanges [.upsert "file" annotatedLet none]

end Sample

/-- In the block the declaration of `f` leads to itself, and its annotation leads elsewhere. -/
theorem Workspace.definition?_signatureName_block :
    Sample.annotatedLet.signature? 10 = some 8 ∧
      Sample.annotatedLetWorkspace.definition? "file" ⟨Sample.documentAnnotatedLet, 12⟩ =
        some ⟨⟨Sample.documentAnnotatedLet, 10⟩, .function⟩ ∧
      Sample.annotatedLetWorkspace.definition? "file" ⟨Sample.documentAnnotatedLet, 9⟩ ≠
        Sample.annotatedLetWorkspace.definition? "file" ⟨Sample.documentAnnotatedLet, 12⟩ := by
  obtain ⟨hKind, hSignature, hName, hSignatureName, hParent, hBlock, hFind⟩ :
      Sample.annotatedLet.kind 10 = .valueDeclaration ∧
        Sample.annotatedLet.signature? 10 = some 8 ∧
        Sample.annotatedLet.functionNameNode? 10 = some 12 ∧
        Sample.annotatedLet.functionNameNode? 8 = some 9 ∧
        Sample.annotatedLet.parent? 10 = some 7 ∧ Sample.annotatedLet.kind 7 = .letInExpr ∧
        Sample.annotatedLet.findLetFunction? 7 (Sample.annotatedLet.text 12) = some 10 := by
    decide +kernel
  obtain ⟨-, -, hLet⟩ := definition?_signatureName Sample.annotatedLetWorkspace "file"
    Sample.documentAnnotatedLet 10 8 12 9 rfl hKind hSignature hName hSignatureName
  obtain ⟨m, hOther, hInner, hApart⟩ := hLet 7 hParent hBlock
  obtain rfl : 10 = m := Option.some.inj (hFind.symm.trans hOther)
  exact ⟨hSignature, hInner, hApart (by decide)⟩

/-- The annotation in the block leads to the function of the same name at the top level. -/
theorem Workspace.definition?_signatureName_outer :
    Sample.annotatedLet.signature? 10 = some 8 ∧ Sample.annotatedLet.parent? 10 = some 7 ∧
      Sample.annotatedLet.kind 7 = .letInExpr ∧
      Sample.annotatedLetWorkspace.definition? "file" ⟨Sample.documentAnnotatedLet, 9⟩ =
        some ⟨⟨Sample.documentAnnotatedLet, 1⟩, .function⟩ ∧
      Sample.annotatedLetWorkspace.definition? "file" ⟨Sample.documentAnnotatedLet, 12⟩ =
        some ⟨⟨Sample.documentAnnotatedLet, 10⟩, .function⟩ := by
  decide +kernel

end ElmScope
