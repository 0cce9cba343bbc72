import ElmScope.Hover
import ElmScope.Proofs.Reference.Soundness
import ElmScope.Proofs.Syntax.Span
import ElmScope.Proofs.Text.Tail

/-! What hovers show. Each form of declaration that a look-up can answer with has a text by which
it is shown, whatever else its file has lost, so a name with a declaration has a hover. The one
reference without a form is the name in a file's own header. -/
namespace ElmScope

open Text

namespace Tree

/-- The texts by which a declaration can be shown: a value has its annotation, or its left-hand
side when it has none, and every other declaration has all of its text. -/
inductive IsShownBy (t : Tree) (n : Nat) : String → Prop where
  | signature {signature : Nat} (hKind : t.kind n = .valueDeclaration)
      (hSignature : t.signature? n = some signature) : IsShownBy t n (t.text signature)
  | leftSide {left : Nat} (hKind : t.kind n = .valueDeclaration) (hBare : t.signature? n = none)
      (hLeft : left ∈ t.childrenOfKind n .functionDeclarationLeft) : IsShownBy t n (t.text left)
  | whole (hKind : t.kind n ≠ .valueDeclaration) : IsShownBy t n (t.text n)

variable {t : Tree} {n : Nat} {kind : SymbolKind}

/-- A value declaration with a name has a left-hand side, in which the name stands. -/
theorem exists_leftSide (hKind : t.kind n = .valueDeclaration)
    (hName : (t.functionName? n).isSome) :
    ∃ left, t.childOfKind? n .functionDeclarationLeft = some left := by
  rw [functionName?, Option.isSome_map, functionNameNode?, hKind] at hName
  exact Option.isSome_iff_exists.mp (Option.isSome_of_isSome_bind hName)

/-- A named value declaration has a heading: its annotation, or the left-hand side with the name. -/
theorem exists_heading?_value (hKind : t.kind n = .valueDeclaration)
    (hName : (t.functionName? n).isSome) :
    ∃ shown, t.IsShownBy n shown ∧ t.heading? n = some shown := by
  rw [heading?, hKind]
  cases hSignature : t.signature? n with
  | some signature => exact ⟨_, .signature hKind hSignature, rfl⟩
  | none =>
      obtain ⟨left, hLeft⟩ := exists_leftSide hKind hName
      have hOf := List.find?_some hLeft
      have hChild := List.mem_of_find?_eq_some hLeft
      refine ⟨_, .leftSide hKind hSignature (List.mem_filter.mpr ⟨hChild, hOf⟩), ?_⟩
      rw [childText?, hLeft, Option.map_some]

/-- A declaration of any other form that can be shown has all of its text for a heading. -/
theorem exists_heading?_whole {form : Kind} (hForm : t.kind n = form)
    (hShown : form ∈ [.portSignature, .typeDeclaration, .typeAliasDeclaration, .unionVariant,
      .moduleDeclaration]) :
    ∃ shown, t.IsShownBy n shown ∧ t.heading? n = some shown := by
  refine ⟨t.text n, .whole fun hValue => ?_, ?_⟩
  · rw [← hForm, hValue] at hShown
    exact absurd hShown (by decide)
  · rw [heading?, hForm]
    simp only [List.mem_cons, List.not_mem_nil, or_false] at hShown
    rcases hShown with rfl | rfl | rfl | rfl | rfl <;> rfl

/-- Whatever has the form of a kind of symbol other than a parameter has a heading. -/
theorem HasForm.exists_heading? (h : t.HasForm n kind) (hKind : kind ≠ .parameter) :
    ∃ shown, t.IsShownBy n shown ∧ t.heading? n = some shown := by
  have hFunction (hForm : (t.kind n = .valueDeclaration ∨ t.kind n = .portSignature) ∧
      (t.functionName? n).isSome) : ∃ shown, t.IsShownBy n shown ∧ t.heading? n = some shown := by
    obtain ⟨hValue | hPort, hName⟩ := hForm
    · exact exists_heading?_value hValue hName
    · exact exists_heading?_whole hPort (by decide)
  cases kind with
  | function => exact hFunction h
  | operator => exact hFunction h
  | parameter => exact absurd rfl hKind
  | customType => exact exists_heading?_whole h (by decide)
  | typeAlias => exact exists_heading?_whole h (by decide)
  | unionConstructor => exact exists_heading?_whole h (by decide)
  | moduleHeader => exact exists_heading?_whole h (by decide)

theorem deepestAt_mem_reachable (t : Tree) (p : Position) : t.deepestAt p ∈ t.reachable := by
  rcases t.descend_cases (.empty p) root root with ⟨hRoot, -⟩ | ⟨hBelow, -⟩
  · rw [deepestAt, deepestOver, hRoot]
    exact root_mem_reachable
  · exact List.mem_cons_of_mem _ hBelow

end Tree

/-- A Markdown text shows a text as a block of code, up to white space at the end of the text.
More may follow the block. -/
def ShowsAsCode (shown markdown : String) : Prop :=
  ∃ body blanks rest, shown.toList = body ++ blanks ∧ (∀ c ∈ blanks, isBlank c = true) ∧
    (∀ c ∈ body.getLast?, isBlank c = false) ∧
    markdown = "```elm\n" ++ .ofList body ++ "\n```" ++ rest

/-- A declaration that has a heading is described, with the heading as code. -/
theorem Tree.hint?_of_heading? {t : Tree} {n : Nat} {shown : String}
    (h : t.heading? n = some shown) :
    ∃ markdown, t.hint? n = some markdown ∧ ShowsAsCode shown markdown := by
  rw [hint?, h]
  refine ⟨_, rfl, trimEnd shown.toList, takeTail isBlank shown.toList, _, ?_, ?_, ?_, rfl⟩
  · exact (dropTail_append_takeTail isBlank shown.toList).symm
  · exact fun _ => of_mem_takeTail
  · exact fun _ => getLast?_dropTail

namespace Workspace

variable {w : Workspace} {uri : String} {p : Position} {r : Definition}

/-- The reference at a place has the form of its kind, unless it is a header of the file itself. -/
theorem hasForm_of_definitionAt? (h : w.definitionAt? uri p = some r)
    (hHeader : r.kind = .moduleHeader → r.site.document.uri = uri →
      r.site.document.tree.kind r.site.node = .moduleDeclaration) :
    r.site.document.tree.HasForm r.site.node r.kind := by
  obtain ⟨d, hFile, hFound⟩ := Option.bind_eq_some_iff.mp h
  rw [definition?_of_get? hFile] at hFound
  obtain ⟨-, rfl⟩ := get?_eq_some_iff.mp hFile
  obtain ⟨-, -, hAnswers⟩ :=
    definition?_of_stored hFile (d.tree.deepestAt_mem_reachable p) hFound
  unfold Definition.Answers at hAnswers
  split at hAnswers
  · obtain ⟨hKind, hDocument, -⟩ := hAnswers
    rw [hKind]
    exact hHeader hKind (congrArg Document.uri hDocument)
  · exact hAnswers

/-- Hovers answer where definitions do. A parameter is said to be one, and any other declaration
is shown by its text. A reference to a header in the file itself counts when it leads to a module
declaration. -/
theorem hover?_answers (w : Workspace) (uri : String) (p : Position) (settings : Settings)
    (hOn : settings.hover = true) :
    (∀ r, w.definitionAt? uri p = some r →
      (r.kind = .moduleHeader → r.site.document.uri = uri →
        r.site.document.tree.kind r.site.node = .moduleDeclaration) →
      (r.kind = .parameter → w.hover? uri p settings = some "Local parameter") ∧
      (r.kind ≠ .parameter → ∃ shown markdown,
        r.site.document.tree.IsShownBy r.site.node shown ∧
        w.hover? uri p settings = some markdown ∧ ShowsAsCode shown markdown)) ∧
    (w.definitionAt? uri p = none → w.hover? uri p settings = none) := by
  have hHover : w.hover? uri p settings = (w.definitionAt? uri p).bind (·.hint?) := if_pos hOn
  rw [hHover]
  refine ⟨fun r hFound hHeader => ?_, fun hNone => by rw [hNone, Option.bind_none]⟩
  rw [hFound, Option.bind_some]
  constructor
  · exact fun hParameter => if_pos hParameter
  · intro hOther
    obtain ⟨shown, hShown, hHeading⟩ :=
      (hasForm_of_definitionAt? hFound hHeader).exists_heading? hOther
    obtain ⟨markdown, hHint, hCode⟩ := Tree.hint?_of_heading? hHeading
    exact ⟨shown, markdown, hShown, (if_neg hOther).trans hHint, hCode⟩

/-- The imported function `f` is shown by its left-hand side, its argument `x` as a parameter, and
there is nothing to show on the `=`. -/
theorem hover?_answers_imported :
    (∃ markdown, Sample.workspace.hover? "main" ⟨2, 6⟩ {} = some markdown ∧
      ShowsAsCode "f" markdown) ∧
    Sample.workspace.hover? "main" ⟨2, 8⟩ {} = some "Local parameter" ∧
    Sample.workspace.hover? "main" ⟨2, 4⟩ {} = none := by
  have hFunction : Sample.workspace.definitionAt? "main" ⟨2, 6⟩ =
      some ⟨⟨Sample.documentB, 10⟩, .function⟩ := by decide +kernel
  have hParameter : Sample.workspace.definitionAt? "main" ⟨2, 8⟩ =
      some ⟨⟨Sample.documentMain, 23⟩, .parameter⟩ := by decide +kernel
  have hNone : Sample.workspace.definitionAt? "main" ⟨2, 4⟩ = none := by decide +kernel
  refine ⟨?_, ?_, (hover?_answers _ _ _ {} rfl).2 hNone⟩
  · obtain ⟨shown, markdown, hShown, hHover, hCode⟩ :=
      ((hover?_answers _ _ _ {} rfl).1 _ hFunction (by simp)).2 (by simp)
    obtain rfl : shown = "f" := by
      have hBare : (Sample.library "B").signature? 10 = none := by decide +kernel
      cases hShown with
      | signature _ hSignature => exact absurd (hBare.symm.trans hSignature) (by simp)
      | leftSide _ _ hLeft =>
          obtain ⟨hOnly, hText⟩ :
              (Sample.library "B").childrenOfKind 10 .functionDeclarationLeft = [11] ∧
                (Sample.library "B").text 11 = "f" := by decide +kernel
          obtain rfl := List.mem_singleton.mp (hOnly ▸ hLeft)
          exact hText
      | whole hKind => exact absurd (by decide +kernel) hKind
    exact ⟨markdown, hHover, hCode⟩
  · exact ((hover?_answers _ _ _ {} rfl).1 _ hParameter (by simp)).1 rfl

end Workspace

end ElmScope
