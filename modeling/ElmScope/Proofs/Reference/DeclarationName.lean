import ElmScope.Proofs.Reference.LexicalScope
import ElmScope.Proofs.Reference.Soundness
import ElmScope.Proofs.Reference.Usage

/-! Looking up the name of a declaration that a look-up has found. When no name is given
twice, the name of a function or of a variant leads back to its declaration, the name of a
type or an alias does so right after its keyword, and the name of a variable does so
wherever its own scope is the nearest one around it that binds the name to another node. The
name of a port, and that of a type which a comment parts from its keyword, lead nowhere. -/
namespace ElmScope

namespace Tree

/-- No name is given twice: not to two functions of a file, to two types or type aliases, to
two constructors, nor by one scope. -/
structure NamesDistinct (t : Tree) : Prop where
  functions : (t.functions.filterMap t.functionName?).Nodup
  types : ((t.typeDeclarations ++ t.typeAliases).filterMap t.upperName?).Nodup
  constructors : ((t.typeDeclarations.flatMap t.variants).filterMap t.upperName?).Nodup
  scopes : ∀ scope, ((t.bindingsOf scope).map (·.name)).Nodup

/-- The identifier of a declaration: of a function, a port, a type, an alias, a variant or a
variable. -/
def nameNode? (t : Tree) (n : Nat) : Option Nat :=
  match t.kind n with
  | .valueDeclaration | .portSignature => t.functionNameNode? n
  | .typeDeclaration | .typeAliasDeclaration | .unionVariant =>
    t.childOfKind? n .upperCaseIdentifier
  | .lowerPattern => t.childOfKind? n .lowerCaseIdentifier
  | _ => none

/-- Around the identifier `i` of a variable `v`, within reach, stands a scope that binds the
variable, and no scope nearer to it binds the name to something else. -/
def IsBoundAround (t : Tree) (v i : Nat) : Prop :=
  ∃ scope ∈ (i :: t.ancestors i).take 512, t.Binds scope ⟨t.text v, v, .parameter⟩ ∧
    ∀ inner ∈ t.ancestors i, scope < inner → ∀ b, t.Binds inner b → b.name = t.text v → b.node = v

/-- It can be told from its place what the identifier `i` of a declaration declares. -/
def IsTold (t : Tree) (n i : Nat) : Prop :=
  match t.kind n with
  | .portSignature => False
  | .typeDeclaration | .typeAliasDeclaration => t.isDeclaredType i = true
  | _ => True

variable {t : Tree} {n i m block : Nat} {b c : Binding} {name : String}

/-- Where no scope binds a name twice, a scope and a name make one binding. -/
theorem NamesDistinct.eq_of_binds {scope : Nat} (h : t.NamesDistinct) (hb : t.Binds scope b)
    (hc : t.Binds scope c) (hName : b.name = c.name) : b = c :=
  List.inj_on_of_nodup_map (h.scopes scope) hb.mem_bindingsOf hc.mem_bindingsOf hName

/-- What is no node of a file binds nothing, so scopes need to be looked at in the file only. -/
theorem nodup_bindingsOf_of_lt
    (h : ∀ scope < t.size, ((t.bindingsOf scope).map (·.name)).Nodup) (scope : Nat) :
    ((t.bindingsOf scope).map (·.name)).Nodup := by
  by_cases hScope : scope < t.size
  · exact h scope hScope
  · have hKind : t.kind scope = .other "" := by
      rw [kind, node, Array.getElem?_eq_none (Nat.le_of_not_lt hScope)]
      rfl
    rw [bindingsOf_eq_nil (by rw [hKind]; rfl)]
    exact .nil

/-- A variable is bound under its own text. -/
theorem Binds.eq_of_lowerPattern {scope : Nat} (h : t.Binds scope b)
    (hKind : t.kind b.node = .lowerPattern) : b = ⟨t.text b.node, b.node, .parameter⟩ := by
  cases h with
  | letFunction _ _ hDeclaration _ => exact nomatch hDeclaration.symm.trans hKind
  | parameter _ _ _ _ => rfl
  | letPattern _ _ _ _ _ _ _ => rfl
  | branch _ _ _ _ => rfl
  | lambda _ _ _ _ => rfl
  | lambdaPattern _ _ _ _ _ _ => rfl

/-- Scopes farther out begin earlier. -/
theorem lt_of_outward {inner outer : List Nat} {s scope : Nat}
    (hChain : (n :: t.ancestors n).take 512 = inner ++ s :: outer) (h : scope ∈ outer) :
    scope < s := by
  have hSorted := (t.outward_sorted n).sublist (List.take_sublist 512 _)
  rw [hChain] at hSorted
  exact List.rel_of_pairwise_cons (List.pairwise_append.mp hSorted).2.1 h

/-- What is nearer to a node than a scope within reach is within reach too. -/
theorem mem_reach_of_lt {s scope : Nat} (hReach : scope ∈ (n :: t.ancestors n).take 512)
    (hs : s ∈ n :: t.ancestors n) (hNearer : scope < s) : s ∈ (n :: t.ancestors n).take 512 := by
  have hSorted := t.outward_sorted n
  rw [← List.take_append_drop 512 (n :: t.ancestors n)] at hs hSorted
  rcases List.mem_append.mp hs with hs | hBeyond
  · exact hs
  · have := (List.pairwise_append.mp hSorted).2.2 scope hReach s hBeyond
    omega

/-- An identifier is no scope, so the scopes around it stand above it. -/
theorem mem_ancestors_of_binds {s : Nat} (hName : t.childOfKind? n .lowerCaseIdentifier = some i)
    (hs : s ∈ i :: t.ancestors i) (h : t.Binds s b) : s ∈ t.ancestors i := by
  rcases List.mem_cons.mp hs with rfl | hs
  · have hNone : t.bindingsOf s = [] :=
      bindingsOf_eq_nil (by rw [(parent?_of_childOfKind? hName).2]; rfl)
    exact absurd (hNone ▸ h.mem_bindingsOf) List.not_mem_nil
  · exact hs

/-- The name of a variable is bound to the variable exactly when the variable's scope is
around it and no nearer scope binds the name to something else. -/
theorem isNearestBinding_iff_isBoundAround (hDistinct : t.NamesDistinct)
    (hKind : t.kind n = .lowerPattern) (hName : t.childOfKind? n .lowerCaseIdentifier = some i) :
    t.IsNearestBinding i (t.text n) ⟨t.text n, n, .parameter⟩ ↔ t.IsBoundAround n i := by
  constructor
  · rintro ⟨inner, scope, outer, hChain, hInner, hFirst⟩
    refine ⟨scope, by rw [hChain]; simp, hFirst.binds, ?_⟩
    intro s hs hNearer b hb hSame
    -- A scope nearer than the first one that binds the name would be listed before it.
    have hReach : s ∈ (i :: t.ancestors i).take 512 :=
      mem_reach_of_lt (by rw [hChain]; simp) (List.mem_cons_of_mem _ hs) hNearer
    rw [hChain] at hReach
    rcases List.mem_append.mp hReach with hBefore | hAfter
    · exact absurd hSame (hInner s hBefore b hb)
    · rcases List.mem_cons.mp hAfter with rfl | hAfter
      · omega
      · have := lt_of_outward hChain hAfter
        omega
  · rintro ⟨scope, hReach, hBinds, hNearer⟩
    obtain ⟨b, hNearest⟩ := IsBound.exists_nearest ⟨scope, hReach, _, hBinds, rfl⟩
    obtain ⟨inner, s, outer, hChain, hInner, hFirst⟩ := hNearest
    have hb : b = ⟨t.text n, n, .parameter⟩ := by
      rw [hChain] at hReach
      rcases List.mem_append.mp hReach with hBefore | hAfter
      · exact absurd rfl (hInner scope hBefore _ hBinds)
      · rcases List.mem_cons.mp hAfter with rfl | hAfter
        · exact hDistinct.eq_of_binds hFirst.binds hBinds hFirst.named
        · have hs : s ∈ i :: t.ancestors i := by
            apply List.mem_of_mem_take (i := 512)
            rw [hChain]
            simp
          have hNode := hNearer s (mem_ancestors_of_binds hName hs hFirst.binds)
            (lt_of_outward hChain hAfter) b hFirst.binds hFirst.named
          have := hFirst.binds.eq_of_lowerPattern (hNode ▸ hKind)
          rw [this, hNode]
    exact hb ▸ ⟨inner, s, outer, hChain, hInner, hFirst⟩

/-- A block that gives no name twice finds its function under its name. -/
theorem NamesDistinct.findLetFunction? (h : t.NamesDistinct) (hBlock : t.kind block = .letInExpr)
    (hChild : n ∈ t.children block) (hKind : t.kind n = .valueDeclaration)
    (hName : t.functionNameNode? n = some i) : t.findLetFunction? block (t.text i) = some n := by
  have hNamed : t.functionName? n = some (t.text i) := by rw [functionName?, hName, Option.map_some]
  obtain ⟨m, hFind⟩ := exists_findLetFunction? hChild hKind hNamed
  obtain ⟨hmChild, hmKind⟩ := List.mem_filter.mp (List.mem_of_find?_eq_some hFind)
  have hmNamed : t.functionName? m = some (t.text i) := by simpa using List.find?_some hFind
  obtain ⟨j, hj, hSame⟩ := Option.map_eq_some_iff.mp hmNamed
  have hm := Binds.letFunction hBlock hmChild (by simpa using hmKind) hj
  have hn := Binds.letFunction hBlock hChild hKind hName
  rw [hFind, show m = n from congrArg Binding.node (h.eq_of_binds hm hn hSame)]

/-- What a name can lead to: a declaration at the top level or in a `let` block, a variant or
a variable. -/
inductive IsTarget (t : Tree) (n : Nat) : SymbolKind → Prop where
  | declared {kind : SymbolKind} (h : t.IsDeclared kind n) : IsTarget t n kind
  | letFunction {block : Nat} (hBlock : t.kind block = .letInExpr) (hChild : n ∈ t.children block)
      (hForm : t.HasForm n .function) : IsTarget t n .function
  | variant (hKind : t.kind n = .unionVariant) : IsTarget t n .unionConstructor
  | pattern (hKind : t.kind n = .lowerPattern) : IsTarget t n .parameter

variable {kind other : SymbolKind}

theorem IsTarget.hasForm (h : t.IsTarget n kind) : t.HasForm n kind := by
  cases h with
  | declared h => exact h.form
  | letFunction _ _ hForm => exact hForm
  | variant hKind => exact hKind
  | pattern hKind => exact hKind

/-- The form of a node tells its kind of symbol, functions and operators apart. -/
theorem HasForm.eq_of_ne_operator (h : t.HasForm n kind) (h' : t.HasForm n other)
    (hKind : kind ≠ .operator) (hOther : other ≠ .operator) : kind = other := by
  cases kind <;> cases other <;> simp_all [HasForm]

/-- Types and aliases are found at the top level. -/
theorem IsTarget.mem_topLevelOfKind {form : Kind} (h : t.IsTarget n kind)
    (hForm : t.kind n = form) (hType : form = .typeDeclaration ∨ form = .typeAliasDeclaration) :
    n ∈ t.topLevelOfKind form := by
  have hOther (h : t.kind n = .valueDeclaration ∨ t.kind n = .portSignature ∨
      t.kind n = .unionVariant ∨ t.kind n = .lowerPattern) : False := by
    rw [hForm] at h
    rcases hType with rfl | rfl <;> simp at h
  cases h with
  | declared h =>
      obtain ⟨declaration, hTop, rfl | hVariant⟩ := h.place
      · exact mem_topLevelOfKind_iff.mpr ⟨hTop, hForm⟩
      · exact (hOther (.inr (.inr (.inl (mem_variants_iff.mp hVariant).2)))).elim
  | letFunction _ _ hFunction =>
      exact (hOther (hFunction.1.elim .inl fun hPort => .inr (.inl hPort))).elim
  | variant hKind => exact (hOther (.inr (.inr (.inl hKind)))).elim
  | pattern hKind => exact (hOther (.inr (.inr (.inr hKind)))).elim

/-- What a scope binds is something that a name can lead to. -/
theorem Binds.isTarget {scope : Nat} (h : t.Binds scope b) : t.IsTarget b.node b.kind := by
  cases h with
  | letFunction hBlock hChild hKind hName =>
      exact .letFunction hBlock hChild ⟨.inl hKind, by simp [functionName?, hName]⟩
  | parameter _ _ _ hKind => exact .pattern hKind
  | letPattern _ _ _ _ _ _ hKind => exact .pattern hKind
  | branch _ _ _ hKind => exact .pattern hKind
  | lambda _ _ _ hKind => exact .pattern hKind
  | lambdaPattern _ _ _ _ _ hKind => exact .pattern hKind

end Tree

namespace FileScope

variable {s : FileScope} {n i : Nat} {usage : Usage} {r : Definition} {name : String}

/-- What a file supplies of its own is something that a name can lead to. -/
theorem Supplies.isTarget (h : s.Supplies n usage r) (hUse : s.tree.usage? n = some usage)
    (hKind : r.kind ≠ .moduleHeader) : s.tree.IsTarget r.site.node r.kind := by
  cases h with
  | header => exact absurd rfl hKind
  | @letFunction name block m hFind =>
      obtain ⟨hChild, hForm⟩ := Tree.hasForm_of_findLetFunction? hFind
      exact .letFunction (Tree.kind_of_declaredName hUse) hChild hForm
  | variant =>
      obtain ⟨used, parent, -, -, rfl, hVariant⟩ := Tree.usage?_place hUse
      exact .variant hVariant
  | bound hNearest =>
      obtain ⟨scope, -, hFirst⟩ := hNearest.exists_scope
      exact hFirst.binds.isTarget
  | declared hDeclared => exact .declared hDeclared

/-- The name of a function leads back to it: to one of a `let` block through the block, and to any
other through the top level, where a function outside every block is found. -/
theorem definition?_functionName (hDistinct : s.tree.NamesDistinct)
    (hKind : s.tree.kind n = .valueDeclaration) (hName : s.tree.functionNameNode? n = some i)
    (hTarget : s.tree.IsTarget n .function) : s.definition? i = some (s.own .function n) := by
  rw [definition?, Tree.usage?_functionName hKind hName, Option.bind_some, lookup?]
  cases hLet : (s.tree.parent? n).filter (s.tree.kind · = .letInExpr) with
  | some block =>
      obtain ⟨hParent, hBlock⟩ := Option.filter_eq_some_iff.mp hLet
      have hFind := hDistinct.findLetFunction? (by simpa using hBlock)
        (Tree.mem_children_iff.mpr hParent) hKind hName
      simp only [Option.bind_some, hFind, Option.map_some, Option.some_or]
  | none =>
      have hFunction : n ∈ s.tree.functions := by
        cases hTarget with
        | declared h =>
            refine List.mem_filter.mpr ⟨h.mem_topLevel, ?_⟩
            simp [Tree.isFunction, hKind, hName]
        | letFunction hBlock hChild _ =>
            have hParent := Tree.mem_children_iff.mp hChild
            simp [hParent, hBlock] at hLet
      have hFind : s.tree.findFunction? (s.tree.text i) = some n :=
        Tree.find?_of_nodup_filterMap hDistinct.functions hFunction
          (by rw [Tree.functionName?, hName, Option.map_some])
      simp only [Option.bind_none, Option.map_none, Option.none_or, ownFunction?, hFind,
        Option.map_some]

/-- The name of a port leads nowhere where it is declared. -/
theorem definition?_portName (hKind : s.tree.kind n = .portSignature)
    (hName : s.tree.functionNameNode? n = some i) : s.definition? i = none := by
  rw [definition?, Tree.usage?_portName hKind hName, Option.bind_none]

/-- The name of a declared type is looked up among types, if it can be told that it is one. -/
theorem definition?_typeName
    (hKind : s.tree.kind n = .typeDeclaration ∨ s.tree.kind n = .typeAliasDeclaration)
    (hName : s.tree.childOfKind? n .upperCaseIdentifier = some i) :
    s.definition? i = if s.tree.isDeclaredType i then s.ownType? (s.tree.text i) else none := by
  rw [definition?, Tree.usage?_typeName hKind hName]
  split <;> rfl

theorem ownType?_of_type (hDistinct : s.tree.NamesDistinct) (hn : n ∈ s.tree.typeDeclarations)
    (hName : s.tree.upperName? n = some name) : s.ownType? name = some (s.own .customType n) := by
  rw [ownType?, Tree.findType?_of_nodup hDistinct.types hn hName, Option.map_some, Option.some_or]

theorem ownType?_of_alias (hDistinct : s.tree.NamesDistinct) (hn : n ∈ s.tree.typeAliases)
    (hName : s.tree.upperName? n = some name) : s.ownType? name = some (s.own .typeAlias n) := by
  obtain ⟨hNone, hFind⟩ := Tree.findTypeAlias?_of_nodup hDistinct.types hn hName
  rw [ownType?, hNone, hFind, Option.map_none, Option.none_or, Option.map_some]

/-- The name of a variant leads to the variant. -/
theorem definition?_variantName (hKind : s.tree.kind n = .unionVariant)
    (hName : s.tree.childOfKind? n .upperCaseIdentifier = some i) :
    s.definition? i = some (s.own .unionConstructor n) := by
  rw [definition?, Tree.usage?_variantName hKind hName]
  rfl

/-- The name of a variable leads back to the variable exactly when the name is the whole
variable and is bound to it where it stands, since what is not bound is a function. -/
theorem definition?_variableName_iff (hDistinct : s.tree.NamesDistinct)
    (hKind : s.tree.kind n = .lowerPattern)
    (hName : s.tree.childOfKind? n .lowerCaseIdentifier = some i) :
    s.definition? i = some (s.own .parameter n) ↔
      s.tree.text i = s.tree.text n ∧ s.tree.IsBoundAround n i := by
  rw [← Tree.isNearestBinding_iff_isBoundAround hDistinct hKind hName,
    ← Tree.findBinding?_eq_some_iff, definition?, Tree.usage?_variableName hKind hName,
    Option.bind_some, lookup?]
  constructor
  · intro h
    rcases Option.or_eq_some_iff.mp h with hBound | ⟨-, h⟩
    · split at hBound
      · next hText =>
        obtain ⟨b, hFind, hOwn⟩ := Option.map_eq_some_iff.mp hBound
        have hNode : b.node = n := congrArg (fun r => r.site.node) hOwn
        obtain ⟨scope, -, hFirst⟩ := (Tree.findBinding?_eq_some_iff.mp hFind).exists_scope
        have hBinding := hFirst.binds.eq_of_lowerPattern (hNode ▸ hKind)
        rw [hBinding, hNode, hText] at hFind
        exact ⟨hText, hFind⟩
      · cases hBound
    · rcases Option.or_eq_some_iff.mp h with h | ⟨-, h⟩
      · obtain ⟨m, -, hOwn⟩ := Option.map_eq_some_iff.mp h
        cases congrArg Definition.kind hOwn
      · cases imported?_kind h
  · rintro ⟨hText, hFind⟩
    rw [if_pos hText, bound?, hText, hFind]
    rfl

/-- The name of a declaration of which it cannot be told what it declares leads nowhere. -/
theorem definition?_of_not_isTold (hName : s.tree.nameNode? n = some i)
    (hTold : ¬ s.tree.IsTold n i) : s.definition? i = none := by
  unfold Tree.nameNode? at hName
  unfold Tree.IsTold at hTold
  split at hName
  · next hNode => simp [hNode] at hTold
  · next hNode => exact definition?_portName hNode hName
  · next hNode =>
    rw [definition?_typeName (.inl hNode) hName, if_neg (by simpa only [hNode] using hTold)]
  · next hNode =>
    rw [definition?_typeName (.inr hNode) hName, if_neg (by simpa only [hNode] using hTold)]
  · next hNode => simp [hNode] at hTold
  · next hNode => simp [hNode] at hTold
  · cases hName

/-- The name of a function, a type, an alias or a constructor that a name has led to leads back to
it where it can be told what it declares. -/
theorem definition?_of_isTold (hDistinct : s.tree.NamesDistinct) {kind : SymbolKind}
    (hTarget : s.tree.IsTarget n kind) (hOperator : kind ≠ .operator)
    (hName : s.tree.nameNode? n = some i) (hTold : s.tree.IsTold n i)
    (hVariable : s.tree.kind n ≠ .lowerPattern) :
    s.definition? i = some (s.own kind n) := by
  have hKind : ∀ other, s.tree.HasForm n other → other ≠ .operator → kind = other :=
    fun other hForm hOther => hTarget.hasForm.eq_of_ne_operator hForm hOperator hOther
  have hNamed (hName : s.tree.childOfKind? n .upperCaseIdentifier = some i) :
      s.tree.upperName? n = some (s.tree.text i) := by
    rw [Tree.upperName?, Tree.childText?, hName, Option.map_some]
  unfold Tree.nameNode? at hName
  unfold Tree.IsTold at hTold
  split at hName
  · next hNode =>
    obtain rfl := hKind .function ⟨.inl hNode, by simp [Tree.functionName?, hName]⟩ (by decide)
    exact definition?_functionName hDistinct hNode hName hTarget
  · next hNode => simp [hNode] at hTold
  · next hNode =>
    obtain rfl := hKind .customType hNode (by decide)
    have hType := hTarget.mem_topLevelOfKind hNode (.inl rfl)
    rw [definition?_typeName (.inl hNode) hName, if_pos (by simpa only [hNode] using hTold)]
    exact ownType?_of_type hDistinct hType (hNamed hName)
  · next hNode =>
    obtain rfl := hKind .typeAlias hNode (by decide)
    have hType := hTarget.mem_topLevelOfKind hNode (.inr rfl)
    rw [definition?_typeName (.inr hNode) hName, if_pos (by simpa only [hNode] using hTold)]
    exact ownType?_of_alias hDistinct hType (hNamed hName)
  · next hNode =>
    obtain rfl := hKind .unionConstructor hNode (by decide)
    exact definition?_variantName hNode hName
  · next hNode => exact absurd hNode hVariable
  · cases hName

end FileScope

namespace Sample

/-- The file `port send : Cmd msg`, `g = send`. -/
def ported : Tree := .ofEvents
  [.enter .file, .enter .portSignature, .punctuation "port", .gap " ",
    .token .lowerCaseIdentifier "send", .gap " : ", .enter .typeExpression, .gap "Cmd msg", .leave,
    .leave, .gap "\n",
    .enter .valueDeclaration, .enter .functionDeclarationLeft, .token .lowerCaseIdentifier "g",
    .leave, .gap " = ", .enter .valueExpr, .enter .valueQid, .token .lowerCaseIdentifier "send",
    .leave, .leave, .leave, .leave]

def documentPorted : Document := ⟨"file", ported, none, 0⟩

/-- The damaged file `f (let x = 1 in x) = x`. On its left-hand side the variable `x` stands
in a `let` block that has a function `x`. -/
def nested : Tree := .ofEvents
  [.enter .file, .enter .valueDeclaration, .enter .functionDeclarationLeft,
    .token .lowerCaseIdentifier "f", .gap " (",
    .enter .letInExpr, .gap "let ", .enter .valueDeclaration, .enter .functionDeclarationLeft,
    .token .lowerCaseIdentifier "x", .leave, .gap " = 1", .leave, .gap " in ",
    .enter .lowerPattern, .token .lowerCaseIdentifier "x", .leave, .leave, .gap ")", .leave,
    .gap " = ", .enter .valueExpr, .enter .valueQid, .token .lowerCaseIdentifier "x",
    .leave, .leave, .leave, .leave]

def documentNested : Document := ⟨"file", nested, none, 0⟩

/-- The damaged file `type {- -} T`, `T`, `\x! -> x!`, in which the identifier of the parameter is
read as `x`. -/
def damaged : Tree := .ofEvents
  [.enter .file,
    .enter .typeDeclaration, .token .typeKeyword "type", .gap " ",
    .token .blockComment "\x7b- -\x7d", .gap " ", .token .upperCaseIdentifier "T", .leave, .gap "\n",
    .enter .typeRef, .enter .upperCaseQid, .token .upperCaseIdentifier "T", .leave, .leave, .gap "\n",
    .enter .anonymousFunctionExpr, .gap "\\",
    .enter .lowerPattern, .token .lowerCaseIdentifier "x", .gap "!", .leave, .gap " ",
    .token .arrow "->", .gap " ", .enter .valueExpr, .enter .valueQid,
    .token .lowerCaseIdentifier "x!", .leave, .leave, .leave, .leave]

def documentDamaged : Document := ⟨"file", damaged, none, 0⟩

end Sample

namespace Workspace

variable {w : Workspace} {uri : String}

/-- A definition is stored under its uri and is something that a name can lead to. -/
theorem isTarget_of_definition? {s : Site} {r : Definition} (h : w.definition? uri s = some r)
    (hKind : r.kind ≠ .moduleHeader) :
    w.get? r.site.document.uri = some r.site.document ∧
      r.site.document.tree.IsTarget r.site.node r.kind := by
  obtain ⟨d, hGet, -, h⟩ := definition?_eq_some_iff.mp h
  obtain ⟨usage, hUse, h⟩ := Option.bind_eq_some_iff.mp h
  rcases FileScope.lookup?_cases h with hOwn | ⟨-, name, -, hImported⟩
  · have hSupplies := FileScope.supplies_of_ownLookup? hOwn
    rw [hSupplies.document_eq]
    obtain ⟨-, rfl⟩ := get?_eq_some_iff.mp hGet
    exact ⟨hGet, hSupplies.isTarget hUse hKind⟩
  · obtain ⟨hStored, hDeclared⟩ := (comesThrough_of_imported? hImported).isDeclared
    exact ⟨hStored, .declared hDeclared⟩

/-- A name leads to a function, a variable, a type, an alias or a constructor in a file that gives
no name twice. Where it cannot be told from its place what the declaration's own name declares, as
with a port, or a type behind a comment, that name leads nowhere. Else, if the declaration is no
variable, its name leads to it again. The name of a variable does so exactly when it is the whole
variable and the nearest scope around it, within reach, that binds it binds it to the variable. -/
theorem definition?_declarationName (w : Workspace) (uri : String) (s : Site) (r : Definition)
    (i : Nat) (h : w.definition? uri s = some r)
    (hKind : r.kind ≠ .moduleHeader ∧ r.kind ≠ .operator)
    (hDistinct : r.site.document.tree.NamesDistinct)
    (hName : r.site.document.tree.nameNode? r.site.node = some i) :
    (¬ r.site.document.tree.IsTold r.site.node i →
      w.definition? r.site.document.uri ⟨r.site.document, i⟩ = none) ∧
    (r.site.document.tree.IsTold r.site.node i →
      r.site.document.tree.kind r.site.node ≠ .lowerPattern →
      w.definition? r.site.document.uri ⟨r.site.document, i⟩ = some r) ∧
    (r.site.document.tree.kind r.site.node = .lowerPattern →
      (w.definition? r.site.document.uri ⟨r.site.document, i⟩ = some r ↔
        r.site.document.tree.text i = r.site.document.tree.text r.site.node ∧
          r.site.document.tree.IsBoundAround r.site.node i)) := by
  obtain ⟨hGet, hTarget⟩ := isTarget_of_definition? h hKind.1
  rw [definition?_of_get? hGet]
  have hFile : (w.fileScope r.site.document).tree = r.site.document.tree := rfl
  rw [← hFile] at hDistinct hName hTarget ⊢
  refine ⟨FileScope.definition?_of_not_isTold hName,
    FileScope.definition?_of_isTold hDistinct hTarget hKind.2 hName, fun hVariable => ?_⟩
  have hParameter : r.kind = .parameter :=
    hTarget.hasForm.eq_of_ne_operator hVariable hKind.2 (by decide)
  have hChild : (w.fileScope r.site.document).tree.childOfKind? r.site.node .lowerCaseIdentifier =
      some i := by
    simpa only [Tree.nameNode?, hVariable] using hName
  rw [← FileScope.definition?_variableName_iff hDistinct hVariable hChild, ← hParameter]
  rfl

/-- The variable of the lambda in `f x = \x -> x` leads back to itself. -/
theorem definition?_declarationName_lambda :
    Sample.shadowing.NamesDistinct ∧ Sample.shadowing.IsBoundAround 7 8 ∧
      (empty.upsert "file" Sample.shadowing none).definition? "file"
        ⟨Sample.documentShadowing, 8⟩ = some ⟨⟨Sample.documentShadowing, 7⟩, .parameter⟩ := by
  have hFound : (empty.upsert "file" Sample.shadowing none).definition? "file"
      ⟨Sample.documentShadowing, 12⟩ = some ⟨⟨Sample.documentShadowing, 7⟩, .parameter⟩ := by
    decide +kernel
  have hDistinct : Sample.shadowing.NamesDistinct :=
    ⟨by decide +kernel, by decide +kernel, by decide +kernel,
      Tree.nodup_bindingsOf_of_lt (by decide +kernel)⟩
  have hBinds : Sample.shadowing.Binds 6 ⟨Sample.shadowing.text 7, 7, .parameter⟩ :=
    Tree.mem_bindingsOf_iff.mp (by decide +kernel)
  have hInner : ∀ inner ∈ Sample.shadowing.ancestors 8, 6 < inner →
      Sample.shadowing.bindingsOf inner = [] := by decide +kernel
  have hAround : Sample.shadowing.IsBoundAround 7 8 := by
    refine ⟨6, by decide +kernel, hBinds, fun inner hAbove hNearer b hb => ?_⟩
    exact absurd (hInner inner hAbove hNearer ▸ hb.mem_bindingsOf) List.not_mem_nil
  obtain ⟨-, -, hVariable⟩ := definition?_declarationName _ "file" _ _ 8 hFound (by decide)
    hDistinct (by decide +kernel)
  exact ⟨hDistinct, hAround, (hVariable (by decide +kernel)).mpr ⟨by decide +kernel, hAround⟩⟩

/-- Names may be distinct and yet not lead back. The name of a port leads nowhere, nor does that of
a type which a comment parts from its keyword. Between a variable and its scope a nearer scope can
bind the name to a function, and the identifier of a variable can be less than the variable. -/
theorem definition?_declarationName_lost :
    let ports := empty.upsert "file" Sample.ported none
    let comments := empty.upsert "file" Sample.damaged none
    let scopes := empty.upsert "file" Sample.nested none
    (Sample.ported.NamesDistinct ∧ Sample.damaged.NamesDistinct ∧ Sample.nested.NamesDistinct) ∧
      (ports.definition? "file" ⟨Sample.documentPorted, 9⟩ =
          some ⟨⟨Sample.documentPorted, 1⟩, .function⟩ ∧
        Sample.ported.nameNode? 1 = some 3 ∧
        ports.definition? "file" ⟨Sample.documentPorted, 3⟩ = none) ∧
      (comments.definition? "file" ⟨Sample.documentDamaged, 7⟩ =
          some ⟨⟨Sample.documentDamaged, 1⟩, .customType⟩ ∧
        Sample.damaged.nameNode? 1 = some 4 ∧
        comments.definition? "file" ⟨Sample.documentDamaged, 4⟩ = none) ∧
      (scopes.definition? "file" ⟨Sample.documentNested, 12⟩ =
          some ⟨⟨Sample.documentNested, 8⟩, .parameter⟩ ∧
        Sample.nested.nameNode? 8 = some 9 ∧
        scopes.definition? "file" ⟨Sample.documentNested, 9⟩ =
          some ⟨⟨Sample.documentNested, 5⟩, .function⟩) ∧
      (comments.definition? "file" ⟨Sample.documentDamaged, 14⟩ =
          some ⟨⟨Sample.documentDamaged, 9⟩, .parameter⟩ ∧
        Sample.damaged.nameNode? 9 = some 10 ∧
        comments.definition? "file" ⟨Sample.documentDamaged, 10⟩ = none) := by
  refine ⟨⟨?_, ?_, ?_⟩, by decide +kernel⟩
  · exact ⟨by decide +kernel, by decide +kernel, by decide +kernel,
      Tree.nodup_bindingsOf_of_lt (by decide +kernel)⟩
  · exact ⟨by decide +kernel, by decide +kernel, by decide +kernel,
      Tree.nodup_bindingsOf_of_lt (by decide +kernel)⟩
  · exact ⟨by decide +kernel, by decide +kernel, by decide +kernel,
      Tree.nodup_bindingsOf_of_lt (by decide +kernel)⟩

end Workspace

end ElmScope
