import ElmScope.Proofs.Completion.AutoImport

/-! What is offered in an expression agrees with what a value there means. A name that a scope
binds is offered as that binding, else a function of the file as a function, and else an
imported function is offered too. All that is visible comes before all that could be imported,
so a limit takes no visible name away in favour of another. -/
namespace ElmScope

/-- Of the contexts of a cursor only that of an expression fits. -/
structure Request.IsExpression (r : Request) : Prop where
  importModule : r.importModule? = none
  importExposing : r.importExposing? = none
  moduleExposing : r.moduleExposing? = none
  recordFields : r.recordFields? = none
  qualified : r.qualified? = none
  trigger : r.trigger ≠ .character '.'
  typeName : r.typeName? = none
  topLevelName : r.topLevelName? = none

/-- Candidates agree with what a name at the cursor means as a value: a binding of a scope, else
a function of the file, else an imported one, which is offered under its qualified name only if
the settings ask for that. -/
structure Request.Agrees (r : Request) (offered : List Candidate) (name : String) : Prop where
  bound : ∀ b, r.tree.findBinding? r.cursor name = some b →
    Candidate.ofSymbol b.kind name ∈ offered
  own : r.tree.findBinding? r.cursor name = none → ∀ n, r.tree.findFunction? name = some n →
    Candidate.ofSymbol .function name ∈ offered
  imported : r.tree.findBinding? r.cursor name = none → r.tree.findFunction? name = none →
    (r.scope.imports.find? name .function).isSome →
    r.settings.qualifiedCompletions = true ∨ '.' ∉ name.toList →
    ∃ c ∈ offered, c.name = name ∧ c.edits = []

namespace Tree

/-- Among the candidates for bindings the nearest one of a name comes first. -/
theorem find?_bindingCandidates {t : Tree} {n : Nat} {name : String} :
    ((t.visibleBindings n).map fun b => Candidate.ofSymbol b.kind b.name).find? (·.name = name) =
      (t.findBinding? n name).map fun b => Candidate.ofSymbol b.kind b.name := by
  rw [List.find?_map]
  rfl

theorem find?_functionCandidates {t : Tree} {name : String} {n : Nat}
    (h : t.findFunction? name = some n) :
    t.functionCandidates.find? (·.name = name) = some (Candidate.ofSymbol .function name) := by
  refine find?_map_ofSymbol .function (List.mem_filterMap.mpr ⟨n, ?_, ?_⟩)
  · exact List.mem_of_find?_eq_some h
  · simpa using List.find?_some h

end Tree

namespace Request

variable {r : Request} {name : String}

/-- Where no other context fits, the values are offered. -/
theorem candidates_of_isExpression (h : r.IsExpression) : r.candidates = r.values := by
  simp only [candidates, h.importModule, h.importExposing, h.moduleExposing, h.recordFields,
    h.qualified, if_neg h.trigger, h.typeName, h.topLevelName, Option.or_none, Option.getD_none]

/-- What is kept for an expression: what is visible, and then what could be imported. -/
theorem exists_firstOfName_values (r : Request) :
    ∃ importable, firstOfName r.values = firstOfName r.visibleValues ++ importable ∧
      ∀ c ∈ importable, c.edits ≠ [] := by
  rw [values, withAutoImports]
  split
  · refine ⟨_, firstOfName_append _ _, fun c hc => ?_⟩
    have hMem := (firstOfName_sublist _).subset (List.mem_filter.mp hc).1
    obtain ⟨d, surface, item, kind, node, hSuggests, -⟩ := suggests_of_mem_autoImports hMem
    rw [hSuggests.candidate]
    exact List.cons_ne_nil _ _
  · exact ⟨[], (List.append_nil _).symm, fun _ hc => absurd hc List.not_mem_nil⟩

/-- A bound name is offered for its nearest binding. -/
theorem mem_firstOfName_visible {b : Binding} (h : r.tree.findBinding? r.cursor name = some b) :
    Candidate.ofSymbol b.kind name ∈ firstOfName r.visibleValues := by
  have hName : b.name = name := by simpa using List.find?_some h
  rw [mem_firstOfName_iff, visibleValues]
  simp only [List.append_assoc, List.find?_append]
  rw [Candidate.ofSymbol, Tree.find?_bindingCandidates, h, Option.map_some, Option.some_or, hName]
  rfl

/-- A function is offered unless a scope binds its name. -/
theorem function_mem_firstOfName_visible {n : Nat}
    (hFree : r.tree.findBinding? r.cursor name = none) (h : r.tree.findFunction? name = some n) :
    Candidate.ofSymbol .function name ∈ firstOfName r.visibleValues := by
  rw [mem_firstOfName_iff, visibleValues]
  simp only [List.append_assoc, List.find?_append]
  rw [Candidate.ofSymbol, Tree.find?_bindingCandidates, hFree, Option.map_none, Option.none_or,
    Tree.find?_functionCandidates h, Option.some_or]
  rfl

/-- An imported name of a value is visible, unless it is qualified and qualified names are not
wanted. -/
theorem importCandidate_mem_visibleValues {kind : SymbolKind} {entry : ImportEntry}
    (h : r.scope.imports.find? name kind = some entry) (hKind : isValueKind kind = true)
    (hPlain : r.settings.qualifiedCompletions = true ∨ '.' ∉ name.toList) :
    importCandidate entry ∈ r.visibleValues ∧ entry.name = name ∧ entry.kind = kind := by
  have hKey := List.find?_some h
  simp only [Bool.and_eq_true, decide_eq_true_eq] at hKey
  obtain ⟨rfl, rfl⟩ := hKey
  refine ⟨List.mem_append_right _ (List.mem_map_of_mem (List.mem_filter.mpr ⟨?_, ?_⟩)), rfl, rfl⟩
  · exact List.mem_of_find?_eq_some h
  · rcases hPlain with hWanted | hPlain
    · simp [offersImport, hKind, hWanted]
    · simp [offersImport, hKind, hPlain]

theorem noEdits_firstOfName_visible (r : Request) : NoEdits (firstOfName r.visibleValues) :=
  fun c hc => r.noEdits_visibleValues c ((firstOfName_sublist _).subset hc)

/-- What the cursor sees agrees with what a name means there. -/
theorem agrees_visible (r : Request) (name : String) :
    r.Agrees (firstOfName r.visibleValues) name := by
  refine ⟨fun b => mem_firstOfName_visible,
    fun hFree n => function_mem_firstOfName_visible hFree, fun _ _ hImported hPlain => ?_⟩
  obtain ⟨entry, hEntry⟩ := Option.isSome_iff_exists.mp hImported
  obtain ⟨hMem, hName, -⟩ := importCandidate_mem_visibleValues hEntry rfl hPlain
  obtain ⟨kept, hKept, hSame⟩ := exists_mem_firstOfName hMem
  exact ⟨kept, hKept, hSame.trans hName, r.noEdits_firstOfName_visible kept hKept⟩

/-- Candidates that come later hide none that agrees. -/
theorem Agrees.append {offered : List Candidate} (h : r.Agrees offered name)
    (others : List Candidate) : r.Agrees (offered ++ others) name := by
  refine ⟨fun b hb => List.mem_append_left _ (h.bound b hb),
    fun hFree n hn => List.mem_append_left _ (h.own hFree n hn), ?_⟩
  intro hFree hForeign hImported hPlain
  obtain ⟨c, hc, hKept⟩ := h.imported hFree hForeign hImported hPlain
  exact ⟨c, List.mem_append_left _ hc, hKept⟩

/-- Whatever the name of a value at the cursor refers to is offered without an edit. -/
theorem Agrees.exists_of_lookup? {offered : List Candidate} {found : Definition}
    (h : r.Agrees offered name) (hFound : r.scope.lookup? r.cursor (.value name name) = some found)
    (hPlain : r.settings.qualifiedCompletions = true ∨ '.' ∉ name.toList) :
    ∃ c ∈ offered, c.name = name ∧ c.edits = [] := by
  rw [FileScope.lookup?, if_pos rfl] at hFound
  rcases Option.or_eq_some_iff.mp hFound with hBound | ⟨hFree, hFound⟩
  · obtain ⟨b, hb, -⟩ := Option.map_eq_some_iff.mp hBound
    exact ⟨_, h.bound b hb, rfl, rfl⟩
  have hFree := Option.map_eq_none_iff.mp hFree
  rcases Option.or_eq_some_iff.mp hFound with hOwn | ⟨hForeign, hImported⟩
  · obtain ⟨n, hn, -⟩ := Option.map_eq_some_iff.mp hOwn
    exact ⟨_, h.own hFree n hn, rfl, rfl⟩
  · obtain ⟨entry, hEntry, -⟩ := Option.map_eq_some_iff.mp hImported
    refine h.imported hFree (Option.map_eq_none_iff.mp hForeign) ?_ hPlain
    exact Option.isSome_of_eq_some hEntry

end Request

namespace Sample

/-- The file `module A exposing (..)`, `type T = K`, `f = 1`. -/
def typed : Tree := .ofEvents
  [.enter .file,
    .enter .moduleDeclaration, .token .moduleKeyword "module", .gap " ",
    .enter .upperCaseQid, .token .upperCaseIdentifier "A", .leave, .gap " ",
    .enter .exposingList, .punctuation "exposing", .gap " ", .punctuation "(",
    .token .doubleDot "..", .punctuation ")", .leave, .leave, .gap "\n",
    .enter .typeDeclaration, .token .typeKeyword "type", .gap " ",
    .token .upperCaseIdentifier "T", .gap " = ",
    .enter .unionVariant, .token .upperCaseIdentifier "K", .leave, .leave, .gap "\n",
    .enter .valueDeclaration, .enter .functionDeclarationLeft,
    .token .lowerCaseIdentifier "f", .leave, .gap " = 1", .leave, .leave]

/-- The file `import A exposing (T)`, `g x = x`. -/
def user : Tree := .ofEvents
  [.enter .file,
    .enter .importClause, .token .importKeyword "import", .gap " ",
    .enter .upperCaseQid, .token .upperCaseIdentifier "A", .leave, .gap " ",
    .enter .exposingList, .punctuation "exposing", .gap " ", .punctuation "(",
    .enter .exposedType, .token .upperCaseIdentifier "T", .leave,
    .punctuation ")", .leave, .leave, .gap "\n",
    .enter .valueDeclaration, .enter .functionDeclarationLeft,
    .token .lowerCaseIdentifier "g", .gap " ",
    .enter .lowerPattern, .token .lowerCaseIdentifier "x", .leave, .leave, .gap " = ",
    .enter .valueExpr, .enter .valueQid, .token .lowerCaseIdentifier "x", .leave, .leave,
    .leave, .leave]

def documentUser : Document := ⟨"user", user, none, 1⟩

def typedWorkspace : Workspace :=
  (Workspace.empty.upsert "a" typed (some "A")).upsert "user" user none

/-- Completion behind the last name of `user`. -/
def request : Request :=
  ⟨typedWorkspace, typedWorkspace.fileScope documentUser, {}, .invoked, ⟨1, 7⟩⟩

theorem isExpression_request : request.IsExpression :=
  ⟨by decide +kernel, by decide +kernel, by decide +kernel, by decide +kernel,
    by decide +kernel, by decide +kernel, by decide +kernel, by decide +kernel⟩

end Sample

namespace Workspace

/-- In an expression the candidates agree with the look-up of values. Each name is offered once,
whatever a name refers to is offered as it is, and what could be imported comes last, so that no
limit prefers it. -/
theorem completions_expression (w : Workspace) (uri : String) (d : Document) (p : Position)
    (trigger : Trigger) (settings : Settings) (hGet : w.get? uri = some d)
    (hExpression : (Request.mk w (w.fileScope d) settings trigger p).IsExpression) :
    let r := Request.mk w (w.fileScope d) settings trigger p
    let offered := firstOfName r.candidates
    (offered.map (·.name)).Nodup ∧
      w.completions uri p trigger settings = offered.take settings.completionLimit ∧
      (∀ name, r.Agrees offered name) ∧
      (∀ name found, r.scope.lookup? r.cursor (.value name name) = some found →
        settings.qualifiedCompletions = true ∨ '.' ∉ name.toList →
        ∃ c ∈ offered, c.name = name ∧ c.edits = []) ∧
      (∃ visible importable, offered = visible ++ importable ∧ NoEdits visible ∧
        ∀ c ∈ importable, c.edits ≠ []) ∧
      ∀ limit, ∀ c ∈ offered.take limit, c.edits ≠ [] →
        ∀ other ∈ offered, other.edits = [] → other ∈ offered.take limit := by
  intro r offered
  obtain ⟨importable, hOffered, hEdits⟩ := r.exists_firstOfName_values
  have hOffered : offered = firstOfName r.visibleValues ++ importable := by
    rw [← hOffered, ← Request.candidates_of_isExpression hExpression]
  have hNoEdits := r.noEdits_firstOfName_visible
  have hAgrees : ∀ name, r.Agrees offered name := by
    intro name
    rw [hOffered]
    exact (r.agrees_visible name).append importable
  refine ⟨nodup_firstOfName _, ?_, hAgrees, ?_, ⟨_, _, hOffered, hNoEdits, hEdits⟩, ?_⟩
  · rw [completions, hGet]
    rfl
  · exact fun name _ hFound => (hAgrees name).exists_of_lookup? hFound
  · intro limit c hc hEdit other hOther hPlain
    rw [hOffered] at hc hOther ⊢
    have hVisible : other ∈ firstOfName r.visibleValues :=
      (List.mem_append.mp hOther).resolve_right fun h => hEdits other h hPlain
    exact mem_take_append hc (fun h => hEdit (hNoEdits c h)) hVisible

/-- Behind the `x` of `user` the parameter is offered, and the function of `A` under its qualified
name. -/
theorem completions_expression_parameter :
    Candidate.ofSymbol .parameter "x" ∈ firstOfName Sample.request.candidates ∧
      (∃ c ∈ firstOfName Sample.request.candidates, c.name = "A.f" ∧ c.edits = []) ∧
      Sample.typedWorkspace.completions "user" ⟨1, 7⟩ .invoked {} =
        (firstOfName Sample.request.candidates).take 100 := by
  obtain ⟨-, hAnswer, hNames, -⟩ := completions_expression Sample.typedWorkspace "user"
    Sample.documentUser ⟨1, 7⟩ .invoked {} (by decide +kernel) Sample.isExpression_request
  have hFree : Sample.user.findBinding? Sample.request.cursor "A.f" = none := by decide +kernel
  exact ⟨(hNames "x").bound ⟨"x", 14, .parameter⟩ (by decide +kernel),
    (hNames "A.f").imported hFree (by decide +kernel) (by decide +kernel) (.inl rfl), hAnswer⟩

end Workspace

end ElmScope
