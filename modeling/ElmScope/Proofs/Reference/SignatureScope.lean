import ElmScope.Hover
import ElmScope.Proofs.Completion.Parameter
import ElmScope.Proofs.Reference.DeclarationName
import ElmScope.Proofs.Reference.SignatureName

/-! The scope of an annotation. Where the annotation of a declaration is looked for is judged by
the node right above the declaration. At the top level and directly inside a `let` block that is
the scope of the declaration. Elsewhere inside a block, as under an error node, the annotation
comes from the top level. No name leads to such a declaration, but completions see it. -/
namespace ElmScope

namespace Tree

def nearestLet? (t : Tree) (n : Nat) : Option Nat :=
  (t.ancestors n).find? (t.kind · = .letInExpr)

/-- A declaration and an annotation share a scope: one `let` block is the nearest around both, or
none is around either and both are at the top level. -/
inductive SharesScope (t : Tree) (declaration signature : Nat) : Prop where
  | block {block : Nat} (hDeclaration : t.nearestLet? declaration = some block)
      (hSignature : t.nearestLet? signature = some block) : SharesScope t declaration signature
  | topLevel (hDeclaration : t.nearestLet? declaration = none)
      (hSignature : t.nearestLet? signature = none) (hDeclarationTop : declaration ∈ t.topLevel)
      (hSignatureTop : signature ∈ t.topLevel) : SharesScope t declaration signature

/-- A node stands directly in a scope: at the top level, or right under a `let` block. -/
def StandsInScope (t : Tree) (n : Nat) : Prop :=
  n ∈ t.topLevel ∨ ∃ block, t.parent? n = some block ∧ t.kind block = .letInExpr

variable {t : Tree} {n block declaration signature : Nat} {kind : SymbolKind}

theorem nearestLet?_of_parent? (hParent : t.parent? n = some block)
    (hBlock : t.kind block = .letInExpr) : t.nearestLet? n = some block := by
  rw [nearestLet?, ancestors_eq, hParent]
  exact List.find?_cons_of_pos (by simpa using hBlock)

/-- The only `let` block that can be around the top level is the root. -/
theorem nearestLet?_of_mem_topLevel (h : n ∈ t.topLevel) :
    t.nearestLet? n = if t.kind root = .letInExpr then some root else none := by
  have hOnly : ∀ m ∈ t.ancestors n, t.kind m = .letInExpr → m = root := by
    intro m hm hKind
    refine (above_topLevel h hm).resolve_right fun ⟨_, hError⟩ => ?_
    simp [isError, hKind] at hError
  have hAbove : root ∈ t.ancestors n :=
    (mem_reachable_iff.mp (mem_reachable_of_mem_topLevel h)).resolve_left
      (ne_root_of_mem_topLevel h)
  split
  · next hRoot =>
    have hSome : (t.nearestLet? n).isSome :=
      List.find?_isSome.mpr ⟨root, hAbove, by simpa using hRoot⟩
    obtain ⟨m, hFound⟩ := Option.isSome_iff_exists.mp hSome
    have hLet : t.kind m = .letInExpr := by simpa using List.find?_some hFound
    exact hOnly m (List.mem_of_find?_eq_some hFound) hLet ▸ hFound
  · next hRoot =>
    refine List.find?_eq_none.mpr fun m hm hKind => hRoot ?_
    have hLet : t.kind m = .letInExpr := by simpa using hKind
    exact hOnly m hm hLet ▸ hLet

/-- The annotation of a declaration directly inside a `let` block stands there too. -/
theorem parent?_of_signature? (h : t.signature? declaration = some signature)
    (hParent : t.parent? declaration = some block) (hBlock : t.kind block = .letInExpr) :
    t.parent? signature = some block := by
  obtain ⟨name, -, hFind⟩ := Option.bind_eq_some_iff.mp h
  have hMem := List.mem_of_find?_eq_some hFind
  rw [signatureScope, hParent] at hMem
  exact mem_children_iff.mp (by simpa only [if_pos hBlock] using hMem)

/-- The annotation of any other declaration stands at the top level. -/
theorem mem_topLevel_of_signature? (h : t.signature? declaration = some signature)
    (hOuter : ∀ p, t.parent? declaration = some p → t.kind p ≠ .letInExpr) :
    signature ∈ t.topLevel := by
  obtain ⟨name, -, hFind⟩ := Option.bind_eq_some_iff.mp h
  have hMem := List.mem_of_find?_eq_some hFind
  rw [signatureScope] at hMem
  split at hMem
  · next p hParent => simpa only [if_neg (hOuter p hParent)] using hMem
  · exact hMem

/-- A declaration that stands directly in a scope shares it with its annotation. -/
theorem StandsInScope.sharesScope (hStands : t.StandsInScope declaration)
    (h : t.signature? declaration = some signature) : t.SharesScope declaration signature := by
  by_cases hLet : ∃ block, t.parent? declaration = some block ∧ t.kind block = .letInExpr
  · obtain ⟨block, hParent, hBlock⟩ := hLet
    exact .block (nearestLet?_of_parent? hParent hBlock)
      (nearestLet?_of_parent? (parent?_of_signature? h hParent hBlock) hBlock)
  · have hTop := hStands.resolve_right hLet
    have hSignature := mem_topLevel_of_signature? h fun p hp hKind => hLet ⟨p, hp, hKind⟩
    have hAround := nearestLet?_of_mem_topLevel hTop
    have hSame : t.nearestLet? signature = t.nearestLet? declaration :=
      (nearestLet?_of_mem_topLevel hSignature).trans hAround.symm
    split at hAround
    · exact .block hAround (hSame.trans hAround)
    · exact .topLevel hAround (hSame.trans hAround) hTop hSignature

/-- Under a root that is a `let` block, everything that has no block in between shares its scope. -/
theorem sharesScope_of_root (h : t.signature? declaration = some signature)
    (hRoot : t.nearestLet? declaration = some root) : t.SharesScope declaration signature := by
  by_cases hStands : t.StandsInScope declaration
  · exact hStands.sharesScope h
  · have hTop := mem_topLevel_of_signature? h fun p hp hKind => hStands (.inr ⟨p, hp, hKind⟩)
    have hLet : t.kind root = .letInExpr := by simpa using List.find?_some hRoot
    exact .block hRoot ((nearestLet?_of_mem_topLevel hTop).trans (if_pos hLet))

/-- A declaration shares its scope with its annotation in no other place. The annotation is at the
top level then, and only the root can be the nearest block around that. -/
theorem SharesScope.standsInScope (hShares : t.SharesScope declaration signature)
    (h : t.signature? declaration = some signature) :
    t.StandsInScope declaration ∨ t.nearestLet? declaration = some root := by
  by_cases hLet : ∃ block, t.parent? declaration = some block ∧ t.kind block = .letInExpr
  · exact .inl (.inr hLet)
  · have hTop := mem_topLevel_of_signature? h fun p hp hKind => hLet ⟨p, hp, hKind⟩
    have hAround := nearestLet?_of_mem_topLevel hTop
    cases hShares with
    | block hDeclaration hSignature =>
        rw [hSignature] at hAround
        split at hAround
        · exact .inr (hDeclaration.trans hAround)
        · exact absurd hAround (by simp)
    | topLevel _ _ hDeclarationTop _ => exact .inl (.inl hDeclarationTop)

/-- A name leads to functions that stand directly in a scope. -/
theorem IsTarget.standsInScope (h : t.IsTarget n kind) (hName : (t.functionName? n).isSome) :
    t.StandsInScope n := by
  have hNameless {k : Kind} (hKind : t.kind n = k)
      (hNone : k = .unionVariant ∨ k = .lowerPattern) : False := by
    rcases hNone with rfl | rfl <;> simp [functionName?, functionNameNode?, hKind] at hName
  cases h with
  | declared hDeclared =>
      obtain ⟨owner, hTop, rfl | hVariant⟩ := hDeclared.place
      · exact .inl hTop
      · exact (hNameless (mem_variants_iff.mp hVariant).2 (.inl rfl)).elim
  | letFunction hBlock hChild _ => exact .inr ⟨_, mem_children_iff.mp hChild, hBlock⟩
  | variant hKind => exact (hNameless hKind (.inl rfl)).elim
  | pattern hKind => exact (hNameless hKind (.inr rfl)).elim

/-- A declaration has an annotation of its name, at the top level unless the declaration is
directly inside a `let` block. The two share a scope exactly when the declaration stands directly
in one, or has no `let` block around it below the root while the root is one. Whatever a name
leads to, its header apart, shares its scope with its annotation. -/
theorem signature?_sharesScope_iff (t : Tree) (declaration signature : Nat)
    (h : t.signature? declaration = some signature) :
    (t.kind signature = .typeSignature ∧
      t.functionName? signature = t.functionName? declaration) ∧
    ((∀ p, t.parent? declaration = some p → t.kind p ≠ .letInExpr) → signature ∈ t.topLevel) ∧
    (t.SharesScope declaration signature ↔
      t.StandsInScope declaration ∨ t.nearestLet? declaration = some root) ∧
    ∀ (w : Workspace) (uri : String) (s : Site) (r : Definition), w.definition? uri s = some r →
      r.kind ≠ .moduleHeader → r.site.document.tree = t → r.site.node = declaration →
      t.SharesScope declaration signature := by
  refine ⟨of_signature? h, mem_topLevel_of_signature? h,
    ⟨fun hShares => hShares.standsInScope h, fun hStands => ?_⟩,
    fun w uri s r hFound hKind hTree hNode => ?_⟩
  · rcases hStands with hStands | hRoot
    · exact hStands.sharesScope h
    · exact sharesScope_of_root h hRoot
  · subst hTree hNode
    obtain ⟨-, hTarget⟩ := Workspace.isTarget_of_definition? hFound hKind
    obtain ⟨name, hName, -⟩ := Option.bind_eq_some_iff.mp h
    exact (hTarget.standsInScope (Option.isSome_of_mem hName)).sharesScope h

/-- The function in the `let` block and its annotation share the block, and so they do for the
name of the function. -/
theorem signature?_sharesScope_iff_block :
    Sample.annotatedLet.signature? 10 = some 8 ∧ Sample.annotatedLet.parent? 10 = some 7 ∧
      Sample.annotatedLetWorkspace.definition? "file" ⟨Sample.documentAnnotatedLet, 12⟩ =
        some ⟨⟨Sample.documentAnnotatedLet, 10⟩, .function⟩ ∧
      Sample.annotatedLet.SharesScope 10 8 := by
  obtain ⟨hSignature, hParent, hFound⟩ :
      Sample.annotatedLet.signature? 10 = some 8 ∧ Sample.annotatedLet.parent? 10 = some 7 ∧
      Sample.annotatedLetWorkspace.definition? "file" ⟨Sample.documentAnnotatedLet, 12⟩ =
        some ⟨⟨Sample.documentAnnotatedLet, 10⟩, .function⟩ := by decide +kernel
  obtain ⟨-, -, -, hReferred⟩ := signature?_sharesScope_iff Sample.annotatedLet 10 8 hSignature
  exact ⟨hSignature, hParent, hFound, hReferred _ _ _ _ hFound (by decide) rfl rfl⟩

end Tree

namespace Sample

/-- A file with a record type `R` of a field `x`, the annotation `f : R -> Int` without its
function, and a function `g` in which a `let` block has lost its own function `f n = n.x` to an
error node. -/
def recovered : Tree := .ofEvents <|
  [.enter .file] ++ aliasFor "R" (recordOf "x" (namedType "Int")) ++
    [.enter .typeSignature, .token .lowerCaseIdentifier "f", .gap " : ", .enter .typeExpression] ++
    functionType "R" "Int" ++
    [.leave, .leave, .gap "\n", .enter .valueDeclaration, .enter .functionDeclarationLeft,
      .token .lowerCaseIdentifier "g", .leave, .gap " = ", .enter .letInExpr, .punctuation "let",
      .gap " ", .enter .error, .enter .valueDeclaration, .enter .functionDeclarationLeft,
      .token .lowerCaseIdentifier "f"] ++ variablePattern "n" ++
    [.leave, .gap " = n.x", .leave, .leave, .gap " in 1", .leave, .leave, .leave]

def documentRecovered : Document := ⟨"file", recovered, none, 0⟩

def recoveredWorkspace : Workspace := .ofChanges [.upsert "file" recovered none]

def recoveredRequest : Request := ⟨recoveredWorkspace,
  recoveredWorkspace.fileScope documentRecovered, {}, .character '.', ⟨2, 16⟩⟩

end Sample

/-- The lost function has the annotation of the top level, though a `let` block is around the one
and not the other. Its hint shows the annotation, and behind its parameter the fields of the
record in the annotation are offered. -/
theorem Tree.signature?_recovered :
    Sample.recovered.kind 31 = .valueDeclaration ∧
      Sample.recovered.signature? 31 = some 15 ∧
      Sample.recovered.nearestLet? 31 = some 28 ∧ Sample.recovered.nearestLet? 15 = none ∧
      ¬ Sample.recovered.SharesScope 31 15 ∧
      Sample.recovered.hint? 31 = some "```elm\nf : R -> Int\n```" ∧
      (Sample.recoveredWorkspace.completions "file" ⟨2, 16⟩ (.character '.') {}).map (·.name) =
        ["x"] := by
  obtain ⟨hKind, hSignature, hInside, hOutside, hHint⟩ :
      Sample.recovered.kind 31 = .valueDeclaration ∧
        Sample.recovered.signature? 31 = some 15 ∧
        Sample.recovered.nearestLet? 31 = some 28 ∧ Sample.recovered.nearestLet? 15 = none ∧
        Sample.recovered.hint? 31 = some "```elm\nf : R -> Int\n```" := by decide +kernel
  refine ⟨hKind, hSignature, hInside, hOutside, ?_, hHint, ?_⟩
  · intro hShares
    cases hShares with
    | block _ hOther => exact absurd (hOutside.symm.trans hOther) (by simp)
    | topLevel hNone _ _ _ => exact absurd (hInside.symm.trans hNone) (by simp)
  · obtain ⟨hRef, hName, hOwn, hBody, hChild, hRecord⟩ :
        Sample.recovered.kind 18 = .typeRef ∧
        Sample.recovered.childText? 18 .upperCaseQid = some "R" ∧
        Sample.recovered.findTypeAlias? "R" = some 1 ∧
        Sample.recovered.childOfKind? 1 .typeExpression = some 5 ∧
        Sample.recovered.firstNamedChild? 5 = some 6 ∧
        Sample.recovered.kind 6 = .recordType := by decide +kernel
    obtain ⟨hTarget, hValue, hImport, hExposing, hHeader, hFields⟩ :
        Sample.recovered.targetAt? ⟨2, 16⟩ = some (.value "n") ∧
        Sample.recoveredRequest.valueType? "n" = some 18 ∧
        Sample.recoveredRequest.importModule? = none ∧
        Sample.recoveredRequest.importExposing? = none ∧
        Sample.recoveredRequest.moduleExposing? = none ∧
        Request.fieldCandidates ⟨Sample.documentRecovered, 6⟩ =
          [⟨"x", .field, none, some "Int", []⟩] := by decide +kernel
    have hFound : Sample.recoveredRequest.targetType? (.value "n") =
        some ⟨Sample.documentRecovered, 6⟩ := by
      rw [Request.targetType?, hValue, Option.bind_some]
      exact FileScope.recordType?_ownAlias hRef hName rfl hOwn hBody hChild hRecord
    have hAnswer : Sample.recoveredWorkspace.completions "file" ⟨2, 16⟩ (.character '.') {} =
        Sample.recoveredRequest.answer := rfl
    rw [hAnswer, Request.answer_of_targetType? hImport hExposing hHeader hTarget hFound, hFields]
    rfl

end ElmScope
