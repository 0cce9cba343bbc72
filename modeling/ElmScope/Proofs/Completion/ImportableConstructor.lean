import ElmScope.Proofs.Completion.Expression
import ElmScope.Proofs.Module.Surface

/-! Which candidate imports a name that one other file shows. The names of symbols and those of
their constructors compete for it, and the first symbol of the file that gives the name wins: a
type in its own name, and with its constructors in theirs. So a constructor is offered unless a
type or an alias of its own name comes first. -/
namespace ElmScope

/-- A shown symbol gives a name for import, as its own or as that of a constructor. Operators
give none. -/
def ExposedSymbol.Gives (symbol : ExposedSymbol) (name : String) : Prop :=
  symbol.kind ≠ .operator ∧ (symbol.name = name ∨ ∃ c ∈ symbol.bare, c.name = name)

instance (symbol : ExposedSymbol) (name : String) : Decidable (symbol.Gives name) :=
  inferInstanceAs (Decidable (_ ∧ _))

def Request.given (r : Request) (moduleName name : String) (symbol : ExposedSymbol) : Candidate :=
  if symbol.name = name then r.importable moduleName symbol.kind.toSymbolKind name name
  else r.importable moduleName .unionConstructor name (symbol.name ++ "(..)")

theorem TextEdit.insertion_inj {p : Position} {a b : String}
    (h : insertion p a = insertion p b) : a = b :=
  congrArg TextEdit.newText h

/-- Edits that import different items are different. -/
theorem Tree.importEdit_injective (t : Tree) (moduleName : String) :
    Function.Injective (t.importEdit moduleName) := by
  intro a b h
  unfold importEdit at h
  split at h
  · unfold extendImport at h
    split at h
    · simpa using TextEdit.insertion_inj h
    · simpa using TextEdit.insertion_inj h
  · simpa using TextEdit.insertion_inj h

/-- A first value is that of the first element that has one. -/
theorem findSome?_eq_map_find? {α β : Type} {l : List α} {f : α → Option β} {g : α → β}
    {p : α → Bool} (h : ∀ a ∈ l, f a = if p a then some (g a) else none) :
    l.findSome? f = (l.find? p).map g := by
  induction l with
  | nil => rfl
  | cons a rest ih =>
      have hRest := ih fun b hb => h b (List.mem_cons_of_mem _ hb)
      rw [List.findSome?_cons, List.find?_cons, h a List.mem_cons_self, hRest]
      cases p a with
      | true => rfl
      | false => rfl

namespace Request

variable {r : Request} {visible : List String} {moduleName name item : String}
  {symbol first : ExposedSymbol} {s : Surface} {d source : Document}

theorem name_given : (r.given moduleName name symbol).name = name := by
  unfold given
  split
  · rfl
  · rfl

/-- The candidate for a name imports a type with its constructors just when the name is not the
symbol's own and the type is. -/
theorem given_eq_constructor_iff :
    r.given moduleName name symbol =
        r.importable moduleName .unionConstructor name (item ++ "(..)") ↔
      symbol.name ≠ name ∧ symbol.name = item := by
  unfold given
  split
  · next hOwn =>
    refine ⟨fun h => ?_, fun h => absurd hOwn h.1⟩
    have hKind : symbol.kind.toSymbolKind = .unionConstructor :=
      CandidateKind.symbol.inj (congrArg Candidate.kind h)
    generalize symbol.kind = kind at hKind
    cases kind <;> cases hKind
  · next hOther =>
    refine ⟨fun h => ⟨hOther, ?_⟩, fun h => by rw [h.2]⟩
    have hEdits : [r.tree.importEdit moduleName (symbol.name ++ "(..)")] =
        [r.tree.importEdit moduleName (item ++ "(..)")] := congrArg Candidate.edits h
    simpa using r.tree.importEdit_injective moduleName (List.singleton_inj.mp hEdits)

/-- Of the constructors that a symbol offers for import, what comes first under a name that is
not visible. -/
theorem find?_importableConstructors (hHidden : name ∉ visible) :
    (((symbol.bare.filter fun c => !visible.contains c.name).map fun c =>
        r.importable moduleName .unionConstructor c.name item).find? (·.name = name)) =
      if ∃ c ∈ symbol.bare, c.name = name then
        some (r.importable moduleName .unionConstructor name item) else none := by
  split
  · next hBare =>
    obtain ⟨c, hc, rfl⟩ := hBare
    have hMem : c ∈ symbol.bare.filter fun c => !visible.contains c.name :=
      List.mem_filter.mpr ⟨hc, by simpa using hHidden⟩
    refine find?_eq_some_of_unique (List.mem_map.mpr ⟨c, hMem, rfl⟩) (decide_eq_true rfl) ?_
    intro offered hOffered hName
    obtain ⟨other, -, rfl⟩ := List.mem_map.mp hOffered
    have hName : other.name = c.name := of_decide_eq_true hName
    rw [hName]
  · next hNone =>
    rw [List.find?_eq_none]
    intro offered hOffered hName
    obtain ⟨other, hOther, rfl⟩ := List.mem_map.mp hOffered
    exact hNone ⟨other, (List.mem_filter.mp hOther).1, of_decide_eq_true hName⟩

/-- Of what a symbol offers for import, what comes first under a name that is not visible. -/
theorem find?_importableOf (hKind : symbol.kind ≠ .operator) (hHidden : name ∉ visible) :
    (r.importableOf visible true moduleName symbol).find? (·.name = name) =
      if symbol.Gives name then some (r.given moduleName name symbol) else none := by
  rw [importableOf, List.find?_append, if_pos rfl, find?_importableConstructors hHidden]
  by_cases hOwn : symbol.name = name
  · subst hOwn
    have hGives : symbol.Gives symbol.name := ⟨hKind, .inl rfl⟩
    simp [hHidden, hGives, given, importable]
  · have hPlain : (if visible.contains symbol.name then []
        else [r.importable moduleName symbol.kind.toSymbolKind symbol.name symbol.name]).find?
          (·.name = name) = none := by
      split
      · rfl
      · simpa [importable] using hOwn
    have hGives : symbol.Gives name ↔ ∃ c ∈ symbol.bare, c.name = name := by
      simp [ExposedSymbol.Gives, hKind, hOwn]
    simp only [hPlain, Option.none_or, hGives, given, if_neg hOwn]

/-- Of what a module has for import, the first symbol that gives a name gives the candidate. -/
theorem find?_flatMap_importableOf (exposed : List ExposedSymbol) (hHidden : name ∉ visible) :
    ((exposed.filter fun symbol => true && symbol.kind ≠ .operator).flatMap
        (r.importableOf visible true moduleName)).find? (·.name = name) =
      (exposed.find? (·.Gives name)).map (r.given moduleName name) := by
  rw [List.find?_flatMap, findSome?_eq_map_find? (p := fun symbol => symbol.Gives name)
    (g := r.given moduleName name), List.find?_filter]
  · congr 2
    funext symbol
    exact decide_eq_decide.mpr (by simpa using fun h : symbol.Gives name => h.1)
  · intro symbol hSymbol
    have hKind := (List.mem_filter.mp hSymbol).2
    simpa using find?_importableOf (by simpa using hKind) hHidden

/-- A name that only one other file gives is imported from it. -/
theorem find?_autoImports (hStored : source ∈ r.workspace.documents)
    (hOther : source.uri ≠ r.scope.document.uri) (hSurface : source.tree.surface? = some s)
    (hFirst : s.exposed.find? (·.Gives name) = some first) (hHidden : name ∉ visible)
    (hOnly : ∀ d ∈ r.workspace.documents, d.uri ≠ r.scope.document.uri → d ≠ source →
      ∀ surface, d.tree.surface? = some surface →
        ∀ symbol ∈ surface.exposed, ¬ symbol.Gives name) :
    (r.autoImports visible (fun _ => true) true).find? (·.name = name) =
      some (r.given s.moduleName name first) := by
  have hMem : source ∈ r.workspace.documents.filter (·.uri ≠ r.scope.document.uri) :=
    List.mem_filter.mpr ⟨hStored, by simpa using hOther⟩
  rw [autoImports, List.find?_flatMap, findSome?_eq_map_find? (p := fun d => d = source)
    (g := fun _ => r.given s.moduleName name first)]
  · rw [find?_eq_some_of_unique hMem (by simp) (by simp), Option.map_some]
  · intro d hd
    obtain ⟨hDocument, hUri⟩ := List.mem_filter.mp hd
    by_cases hSame : d = source
    · subst hSame
      simp only [hSurface, decide_true, if_true]
      rw [find?_flatMap_importableOf _ hHidden, hFirst, Option.map_some]
    · rw [if_neg (by simpa using hSame)]
      split
      · rfl
      · next surface hExposed =>
        have hNone := hOnly d hDocument (by simpa using hUri) hSame surface hExposed
        rw [find?_flatMap_importableOf _ hHidden, List.find?_eq_none.mpr (by simpa using hNone),
          Option.map_none]

/-- What is kept under a name that is not visible and that one other file gives. -/
theorem mem_firstOfName_values_iff {k : Candidate} (hAuto : r.settings.autoImportCompletions = true)
    (hImport : (r.autoImports (r.visibleValues.map (·.name)) (fun _ => true) true).find?
      (·.name = name) = some (r.given moduleName name first))
    (hHidden : name ∉ r.visibleValues.map (·.name)) :
    k ∈ firstOfName r.values ∧ k.name = name ↔ k = r.given moduleName name first := by
  have hNone : r.visibleValues.find? (·.name = name) = none := by
    rw [List.find?_eq_none]
    intro visible hVisible hName
    exact hHidden (List.mem_map.mpr ⟨visible, hVisible, of_decide_eq_true hName⟩)
  have hFind : r.values.find? (·.name = name) = some (r.given moduleName name first) := by
    rw [values, withAutoImports, if_pos hAuto, List.find?_append, hNone, Option.none_or, hImport]
  constructor
  · rintro ⟨hKept, rfl⟩
    exact Option.some.inj ((mem_firstOfName_iff.mp hKept).symm.trans hFind)
  · rintro rfl
    refine ⟨mem_firstOfName_iff.mpr ?_, name_given⟩
    rw [name_given]
    exact hFind

end Request

namespace Sample

/-- The file `module A exposing (..)`, `type Id = Id Int`. -/
def wrapped : Tree := .ofEvents
  [.enter .file,
    .enter .moduleDeclaration, .token .moduleKeyword "module", .gap " ",
    .enter .upperCaseQid, .token .upperCaseIdentifier "A", .leave, .gap " ",
    .enter .exposingList, .punctuation "exposing", .gap " ", .punctuation "(",
    .token .doubleDot "..", .punctuation ")", .leave, .leave, .gap "\n",
    .enter .typeDeclaration, .token .typeKeyword "type", .gap " ",
    .token .upperCaseIdentifier "Id", .gap " = ",
    .enter .unionVariant, .token .upperCaseIdentifier "Id", .gap " ",
    .enter .upperCaseQid, .token .upperCaseIdentifier "Int", .leave, .leave, .leave, .gap "\n",
    .leave]

/-- The file `g x = x`. -/
def identity : Tree := .ofEvents
  [.enter .file,
    .enter .valueDeclaration, .enter .functionDeclarationLeft,
    .token .lowerCaseIdentifier "g", .gap " ",
    .enter .lowerPattern, .token .lowerCaseIdentifier "x", .leave, .leave, .gap " = ",
    .enter .valueExpr, .enter .valueQid, .token .lowerCaseIdentifier "x", .leave, .leave,
    .leave, .leave]

def wrappedWorkspace : Workspace :=
  (Workspace.empty.upsert "a" wrapped (some "A")).upsert "user" identity none

/-- Completion behind the last name of `identity`. -/
def identityRequest : Request :=
  ⟨wrappedWorkspace, wrappedWorkspace.fileScope ⟨"user", identity, none, 1⟩, {}, .invoked, ⟨0, 7⟩⟩

def wrappedType : ExposedSymbol := ⟨"Id", 10, .customType, some [⟨"Id", 13, true⟩]⟩

def typedType : ExposedSymbol := ⟨"T", 10, .customType, some [⟨"K", 13, true⟩]⟩

end Sample

namespace Workspace

/-- A name that is not visible in an expression and that one other file gives is offered once,
as what the first symbol that gives it has under the name. So a constructor is offered with the
edit that imports its type with the constructors, unless a type or an alias of the constructor's
name comes before it. -/
theorem completions_importable (w : Workspace) (uri : String) (d : Document) (p : Position)
    (trigger : Trigger) (settings : Settings) (source : Document) (s : Surface)
    (type : ExposedSymbol) (c : ExposedConstructor) (hGet : w.get? uri = some d)
    (hExpression : (Request.mk w (w.fileScope d) settings trigger p).IsExpression)
    (hAuto : settings.autoImportCompletions = true)
    (hLimit : (firstOfName (Request.mk w (w.fileScope d) settings trigger p).candidates).length ≤
      settings.completionLimit)
    (hStored : source ∈ w.documents) (hOther : source.uri ≠ uri)
    (hSurface : source.tree.surface? = some s) (hShown : type ∈ s.exposed)
    (hBare : c ∈ type.bare)
    (hOnly : ∀ e ∈ w.documents, e.uri ≠ uri → e ≠ source → ∀ surface,
      e.tree.surface? = some surface → ∀ symbol ∈ surface.exposed, ¬ symbol.Gives c.name)
    (hHidden : c.name ∉
      (Request.mk w (w.fileScope d) settings trigger p).visibleValues.map (·.name)) :
    let r := Request.mk w (w.fileScope d) settings trigger p
    let offered := w.completions uri p trigger settings
    ∃ first, s.exposed.find? (·.Gives c.name) = some first ∧
      (∀ k, k ∈ offered ∧ k.name = c.name ↔ k = r.given s.moduleName c.name first) ∧
      (r.importable s.moduleName .unionConstructor c.name (type.name ++ "(..)") ∈ offered ↔
        first.name ≠ c.name ∧ first.name = type.name) := by
  intro r offered
  have hUri : d.uri = uri := by simpa using List.find?_some hGet
  have hOffered : offered = firstOfName r.values := by
    change w.completions uri p trigger settings = _
    rw [completions, hGet, ← Request.candidates_of_isExpression hExpression]
    exact List.take_of_length_le hLimit
  have hKind : type.kind = .customType :=
    Tree.kind_of_mem_listed hSurface hShown (List.mem_filter.mp hBare).1
  obtain ⟨first, hFirst⟩ := exists_find?_of_mem (p := (·.Gives c.name)) hShown
    (decide_eq_true ⟨by rw [hKind]; decide, .inr ⟨c, hBare, rfl⟩⟩)
  have hImport : (r.autoImports (r.visibleValues.map (·.name)) (fun _ => true) true).find?
      (·.name = c.name) = some (r.given s.moduleName c.name first) :=
    Request.find?_autoImports hStored (hUri ▸ hOther) hSurface hFirst hHidden (hUri ▸ hOnly)
  have hMem : ∀ k, k ∈ offered ∧ k.name = c.name ↔ k = r.given s.moduleName c.name first :=
    fun k => hOffered ▸ Request.mem_firstOfName_values_iff hAuto hImport hHidden
  refine ⟨first, hFirst, hMem, ?_⟩
  have hConstructor : r.given s.moduleName c.name first =
      r.importable s.moduleName .unionConstructor c.name (type.name ++ "(..)") ↔
        first.name ≠ c.name ∧ first.name = type.name := Request.given_eq_constructor_iff
  rw [← hConstructor, eq_comm, ← hMem]
  exact (and_iff_left rfl).symm

/-- After two files have been stored one after the other, nothing else is stored. -/
theorem mem_documents_upsert_upsert {u v : String} {a b : Tree} {m n : Option String} {e : Document}
    (h : e ∈ ((empty.upsert u a m).upsert v b n).documents) :
    e = ⟨v, b, n, 1⟩ ∨ e = ⟨u, a, m, 0⟩ := by
  rcases mem_of_mem_place h with rfl | h
  · exact .inl rfl
  · exact .inr ((mem_of_mem_place h).resolve_right List.not_mem_nil)

/-- The type `T` takes its constructor `K` in. -/
theorem completions_importable_constructor :
    Sample.request.importable "A" .unionConstructor "K" "T(..)" ∈
      Sample.typedWorkspace.completions "user" ⟨1, 7⟩ .invoked {} := by
  have hOnly : ∀ e ∈ Sample.typedWorkspace.documents, e.uri ≠ "user" →
      e ≠ ⟨"a", Sample.typed, some "A", 0⟩ → ∀ surface, e.tree.surface? = some surface →
        ∀ symbol ∈ surface.exposed, ¬ symbol.Gives "K" := by
    intro e he hUri hOther
    rcases mem_documents_upsert_upsert he with rfl | rfl
    · exact absurd rfl hUri
    · exact absurd rfl hOther
  obtain ⟨first, hFirst, -, hOffered⟩ := completions_importable Sample.typedWorkspace "user"
    Sample.documentUser ⟨1, 7⟩ .invoked {} ⟨"a", Sample.typed, some "A", 0⟩
    ⟨"A", [Tree.plainSymbol "f" .function 15, Sample.typedType]⟩ Sample.typedType ⟨"K", 13, true⟩
    rfl Sample.isExpression_request rfl (by decide +kernel) (.head _) (by decide)
    (by decide +kernel) (by decide) (by decide) hOnly (by decide +kernel)
  have hType : some Sample.typedType = some first := hFirst ▸ by decide
  exact hOffered.mpr (Option.some.inj hType ▸ by decide)

/-- The type `Id` comes before its constructor `Id`, and its candidate imports the type alone. -/
theorem completions_importable_type_first :
    (Sample.identityRequest.IsExpression ∧
      (firstOfName Sample.identityRequest.candidates).length ≤ 100 ∧
      (∃ s, Sample.wrapped.surface? = some s ∧ Sample.wrappedType ∈ s.exposed ∧
        ⟨"Id", 13, true⟩ ∈ Sample.wrappedType.bare) ∧
      (∀ e ∈ Sample.wrappedWorkspace.documents, e.uri = "user" ∨ e.tree = Sample.wrapped) ∧
      "Id" ∉ Sample.identityRequest.visibleValues.map (·.name)) ∧
    ∀ k ∈ Sample.wrappedWorkspace.completions "user" ⟨0, 7⟩ .invoked {},
      k.edits ≠ [Sample.identity.importEdit "A" "Id(..)"] := by
  have hExpression : Sample.identityRequest.IsExpression :=
    ⟨by decide +kernel, by decide +kernel, by decide +kernel, by decide +kernel,
      by decide +kernel, by decide +kernel, by decide +kernel, by decide +kernel⟩
  refine ⟨⟨hExpression, by decide +kernel, ?_, fun e he => ?_, by decide +kernel⟩,
    by decide +kernel⟩
  · exact ⟨⟨"A", [Sample.wrappedType]⟩, by decide +kernel, by decide, by decide⟩
  · rcases mem_documents_upsert_upsert he with rfl | rfl
    · exact .inl rfl
    · exact .inr rfl

end Workspace

end ElmScope
