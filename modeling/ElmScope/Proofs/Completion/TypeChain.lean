import ElmScope.Completion.Record
import ElmScope.Proofs.Reference.Lookup
import ElmScope.Proofs.Syntax.TreeOrder
import ElmScope.Proofs.Workspace.History

/-! From a type to the record type that it comes down to. A type expression leads to its first
named child, and a reference leads to the type behind its alias. A type leads to one other at
most, so a chain that follows an alias twice goes round for ever, and a search that gives it up
at the second time misses nothing. -/
namespace ElmScope

/-- A type leads to another in a number of steps. The aliases followed on the way are listed
in their order. -/
inductive TypeChain (alias? : Site → Option Site) : Site → Nat → List Site → Site → Prop where
  | here (type : Site) : TypeChain alias? type 0 [] type
  | segment {type last : Site} {child steps : Nat} {followed : List Site}
      (hKind : type.kind = .typeExpression)
      (hChild : type.document.tree.firstNamedChild? type.node = some child)
      (rest : TypeChain alias? ⟨type.document, child⟩ steps followed last) :
      TypeChain alias? type (steps + 1) followed last
  | through {type target last : Site} {body steps : Nat} {followed : List Site}
      (hKind : type.kind = .typeRef) (hAlias : alias? type = some target)
      (hBody : target.document.tree.childOfKind? target.node .typeExpression = some body)
      (rest : TypeChain alias? ⟨target.document, body⟩ steps followed last) :
      TypeChain alias? type (steps + 1) (target :: followed) last

namespace TypeChain

variable {alias? : Site → Option Site} {type middle last record target : Site}
  {steps more : Nat} {followed rest : List Site}

/-- One way behind another is a way. -/
theorem trans (h : TypeChain alias? type steps followed middle)
    (hRest : TypeChain alias? middle more rest last) :
    TypeChain alias? type (steps + more) (followed ++ rest) last := by
  induction h with
  | here type =>
      rw [Nat.zero_add]
      exact hRest
  | segment hKind hChild _ ih =>
      rw [Nat.add_right_comm]
      exact .segment hKind hChild (ih hRest)
  | through hKind hAlias hBody _ ih =>
      rw [Nat.add_right_comm]
      exact .through hKind hAlias hBody (ih hRest)

/-- What a type leads to lies on its way to a record type. -/
theorem split (h : TypeChain alias? type steps followed middle)
    (hAll : TypeChain alias? type more rest record) (hRecord : record.kind = .recordType) :
    ∃ later remaining, rest = followed ++ later ∧
      TypeChain alias? middle remaining later record := by
  induction h generalizing more rest with
  | here type => exact ⟨rest, more, rfl, hAll⟩
  | segment hKind hChild _ ih =>
      cases hAll with
      | here => exact nomatch hRecord.symm.trans hKind
      | segment _ hOther hTail =>
          obtain rfl := Option.some.inj (hChild.symm.trans hOther)
          exact ih hTail
      | through hOther => exact nomatch hKind.symm.trans hOther
  | through hKind hAlias hBody _ ih =>
      cases hAll with
      | here => exact nomatch hRecord.symm.trans hKind
      | segment hOther => exact nomatch hKind.symm.trans hOther
      | through _ hSame hOther hTail =>
          obtain rfl := Option.some.inj (hAlias.symm.trans hSame)
          obtain rfl := Option.some.inj (hBody.symm.trans hOther)
          obtain ⟨later, remaining, hRest, hLater⟩ := ih hTail
          exact ⟨later, remaining, by rw [hRest, List.cons_append], hLater⟩

/-- Behind an alias that is followed the chain goes on from the alias's own type. -/
theorem behind (h : TypeChain alias? type steps followed last) {before after : List Site}
    (hFollowed : followed = before ++ target :: after) :
    ∃ body remaining,
      target.document.tree.childOfKind? target.node .typeExpression = some body ∧
      TypeChain alias? ⟨target.document, body⟩ remaining after last := by
  induction h generalizing before with
  | here => simp at hFollowed
  | segment _ _ _ ih => exact ih hFollowed
  | @through _ first _ body steps _ _ _ hBody hTail ih =>
      cases before with
      | nil =>
          obtain ⟨rfl, rfl⟩ := List.cons.inj hFollowed
          exact ⟨body, steps, hBody, hTail⟩
      | cons _ before => exact ih (List.cons.inj hFollowed).2

/-- On the way to a record type no alias is followed twice: what is behind the alias the second
time would have to be what is behind it the first time, and would be a part of it. -/
theorem nodup (h : TypeChain alias? type steps followed record)
    (hRecord : record.kind = .recordType) : followed.Nodup := by
  induction h with
  | here => exact List.nodup_nil
  | segment _ _ _ ih => exact ih hRecord
  | @through _ target _ body _ followed _ _ hBody hTail ih =>
      refine List.nodup_cons.mpr ⟨fun hAgain => ?_, ih hRecord⟩
      obtain ⟨before, after, hFollowed⟩ := List.append_of_mem hAgain
      obtain ⟨other, remaining, hOther, hSecond⟩ := hTail.behind hFollowed
      obtain rfl := Option.some.inj (hBody.symm.trans hOther)
      obtain ⟨later, _, hLater, -⟩ := hTail.split hSecond hRecord
      have hShort := congrArg List.length hLater
      simp only [hFollowed, List.length_append, List.length_cons] at hShort
      omega

/-- A chain takes no more steps than the trees that it passes have nodes. Within a tree it goes
from parents to children, so the numbers of the nodes pay for the steps, and it enters one tree for
every alias. -/
theorem steps_le (h : TypeChain alias? type steps followed last) {bound : Nat}
    (hBound : type.document.tree.size ≤ bound)
    (hBounds : ∀ target ∈ followed, target.document.tree.size ≤ bound) :
    steps ≤ (followed.length + 1) * bound := by
  suffices hStrong : steps = 0 ∨ steps + type.node < (followed.length + 1) * bound by omega
  induction h with
  | here => exact .inl rfl
  | @segment type _ child steps followed _ hChild _ ih =>
      obtain ⟨hAfter, hInside⟩ := Tree.children_bounds
        (Tree.mem_children_of_firstNamedChild? hChild)
      have hMany : bound ≤ (followed.length + 1) * bound := Nat.le_mul_of_pos_left _ (by omega)
      have hRest := ih hBound hBounds
      dsimp only at hRest
      omega
  | @through type target _ body steps followed hKind _ hBody _ ih =>
      have hNode : type.node < type.document.tree.size := Tree.lt_size_of_kind hKind (by decide)
      have hTarget := hBounds target List.mem_cons_self
      have hInside := (Tree.children_bounds (Tree.mem_children_of_childOfKind? hBody)).2
      have hMany : bound ≤ (followed.length + 1) * bound := Nat.le_mul_of_pos_left _ (by omega)
      have hRest := ih hTarget fun other hOther => hBounds other (List.mem_cons_of_mem _ hOther)
      dsimp only at hRest
      rw [List.length_cons, Nat.add_mul, Nat.one_mul]
      omega

end TypeChain

namespace Site

def IsStored (w : Workspace) (s : Site) : Prop := s.document ∈ w.documents

/-- With one site of a document every other is stored. -/
theorem IsStored.at {w : Workspace} {s : Site} (h : s.IsStored w) (n : Nat) :
    IsStored w ⟨s.document, n⟩ := h

/-- Among stored documents a revision names one document. -/
theorem same_iff {w : Workspace} (hw : w.RevisionsDistinct) {a b : Site} (ha : a.IsStored w)
    (hb : b.IsStored w) : a.same b = true ↔ a = b := by
  rw [same, Bool.and_eq_true, decide_eq_true_eq, decide_eq_true_eq]
  constructor
  · rintro ⟨hRevision, hNode⟩
    obtain ⟨document, node⟩ := a
    obtain rfl := hw document ha b.document hb hRevision
    obtain rfl := hNode
    rfl
  · rintro rfl
    exact ⟨rfl, rfl⟩

/-- Of stored documents, a site is known by the revision of its document and its node. -/
theorem any_same_iff {w : Workspace} (hw : w.RevisionsDistinct) {target : Site}
    {followed : List Site} (hTarget : target.IsStored w)
    (hFollowed : ∀ other ∈ followed, other.IsStored w) :
    followed.any target.same = true ↔ target ∈ followed := by
  rw [List.any_eq_true]
  constructor
  · rintro ⟨other, hOther, hSame⟩
    exact (same_iff hw hTarget (hFollowed other hOther)).mp hSame ▸ hOther
  · exact fun h => ⟨target, h, (same_iff hw hTarget hTarget).mpr rfl⟩

end Site

namespace FileScope

variable {s : FileScope} {w : Workspace} {d : Document} {type target record : Site}
  {steps : Nat} {before followed : List Site}

theorem recordType?_of_record (before : List Site) (h : type.kind = .recordType) :
    s.recordType? before type = some type := by
  rw [recordType?]
  simp only [h]

theorem recordType?_segment {child : Nat} (before : List Site) (hKind : type.kind = .typeExpression)
    (hChild : type.document.tree.firstNamedChild? type.node = some child) :
    s.recordType? before type = s.recordType? before ⟨type.document, child⟩ := by
  rw [recordType?]
  simp only [hKind]
  split
  · next hNone => cases hNone.symm.trans hChild
  · next other hOther => rw [Option.some.inj (hOther.symm.trans hChild)]

/-- An alias that was not followed yet is followed, as long as few enough were. -/
theorem recordType?_through {body : Nat} (hKind : type.kind = .typeRef)
    (hAlias : s.referredAlias? type = some target) (hNew : ¬ before.any target.same = true)
    (hFew : before.length < aliasReach)
    (hBody : target.document.tree.childOfKind? target.node .typeExpression = some body) :
    s.recordType? before type = s.recordType? (before ++ [target]) ⟨target.document, body⟩ := by
  rw [recordType?]
  simp only [hKind, hAlias, hBody]
  refine if_neg ?_
  simpa [hNew] using hFew

/-- What the search finds is a record type to which the type leads, and no more aliases than
allowed were followed. -/
theorem chain_of_recordType? (h : s.recordType? before type = some record)
    (hFew : before.length ≤ aliasReach) :
    record.kind = .recordType ∧ ∃ steps followed,
      TypeChain s.referredAlias? type steps followed record ∧
        before.length + followed.length ≤ aliasReach := by
  fun_induction recordType? s before type with
  | case1 before type hKind =>
      obtain rfl := Option.some.inj h
      exact ⟨hKind, 0, [], .here type, hFew⟩
  | case3 before type hKind child hChild ih =>
      obtain ⟨hRecord, steps, followed, hChain, hLength⟩ := ih h hFew
      exact ⟨hRecord, _, followed, .segment hKind hChild hChain, hLength⟩
  | case7 before type hKind target hAlias hGo body hBody ih =>
      simp only [Bool.or_eq_true, decide_eq_true_eq, not_or, Nat.not_le] at hGo
      obtain ⟨hRecord, steps, followed, hChain, hLength⟩ :=
        ih h (by rw [List.length_append, List.length_singleton]; omega)
      refine ⟨hRecord, _, target :: followed, .through hKind hAlias hBody hChain, ?_⟩
      simp only [List.length_append, List.length_cons] at hLength ⊢
      omega
  | case2 | case4 | case5 | case6 | case8 => exact nomatch h

/-- A name without a qualifier means the alias of its own file first. -/
theorem referredAlias?_own {name : String} {n : Nat}
    (hName : type.document.tree.childText? type.node .upperCaseQid = some name)
    (hBare : name.toList.contains '.' = false)
    (hOwn : type.document.tree.findTypeAlias? name = some n) :
    s.referredAlias? type = some ⟨type.document, n⟩ := by
  rw [referredAlias?, hName, Option.bind_some, typeAlias?, hBare, hOwn]
  rfl

/-- An alias that a stored type refers to is stored. -/
theorem isStored_of_referredAlias? (hType : type.IsStored w)
    (h : (w.fileScope d).referredAlias? type = some target) : target.IsStored w := by
  obtain ⟨name, -, hAlias⟩ := Option.bind_eq_some_iff.mp h
  rcases Option.or_eq_some_iff.mp hAlias with hOwn | ⟨-, hImported⟩
  · split at hOwn
    · exact nomatch hOwn
    · obtain ⟨node, -, rfl⟩ := Option.map_eq_some_iff.mp hOwn
      exact hType
  · obtain ⟨entry, hEntry, rfl⟩ := Option.map_eq_some_iff.mp hImported
    have hFound : (w.fileScope d).imported? name .typeAlias = some ⟨entry.site, .typeAlias⟩ :=
      Option.map_eq_some_iff.mpr ⟨entry, hEntry, rfl⟩
    exact (Workspace.get?_eq_some_iff.mp (comesThrough_of_imported? hFound).isDeclared.1).1

/-- Aliases lead from stored files to stored files. -/
theorem isStored_of_chain (hType : type.IsStored w)
    (h : TypeChain (w.fileScope d).referredAlias? type steps followed target) :
    target.IsStored w ∧ ∀ other ∈ followed, other.IsStored w := by
  induction h with
  | here => exact ⟨hType, fun _ h => absurd h List.not_mem_nil⟩
  | segment _ _ _ ih => exact ih hType
  | through _ hAlias _ _ ih =>
      have hTarget := isStored_of_referredAlias? hType hAlias
      obtain ⟨hLast, hRest⟩ := ih hTarget
      exact ⟨hLast, List.forall_mem_cons.mpr ⟨hTarget, hRest⟩⟩

/-- Wherever the search has come to, it finds the record type at the end of a chain that follows
no alias again and not too many in all. -/
theorem recordType?_of_chain (hw : w.RevisionsDistinct) (hRecord : record.kind = .recordType)
    (h : TypeChain (w.fileScope d).referredAlias? type steps followed record)
    (hType : type.IsStored w) (hBefore : ∀ other ∈ before, other.IsStored w)
    (hNodup : (before ++ followed).Nodup) (hFew : (before ++ followed).length ≤ aliasReach) :
    (w.fileScope d).recordType? before type = some record := by
  induction h generalizing before with
  | here type => exact recordType?_of_record before hRecord
  | segment hKind hChild _ ih =>
      rw [recordType?_segment before hKind hChild]
      exact ih hRecord hType hBefore hNodup hFew
  | @through type target _ body _ followed hKind hAlias hBody _ ih =>
      have hTarget := isStored_of_referredAlias? hType hAlias
      have hNew : target ∉ before := fun hAgain =>
        (List.nodup_append.mp hNodup).2.2 target hAgain target List.mem_cons_self rfl
      have hShort : before.length < aliasReach := by
        rw [List.length_append, List.length_cons] at hFew
        omega
      rw [recordType?_through hKind hAlias (mt (Site.any_same_iff hw hTarget hBefore).mp hNew)
        hShort hBody]
      rw [List.append_cons] at hNodup hFew
      refine ih hRecord hTarget ?_ hNodup hFew
      exact List.forall_mem_append.mpr ⟨hBefore, List.forall_mem_singleton.mpr hTarget⟩

/-- The search finds exactly the record types to which a type leads through few aliases. -/
theorem recordType?_eq_some_iff (hw : w.RevisionsDistinct) (hType : type.IsStored w) :
    (w.fileScope d).recordType? [] type = some record ↔
      record.kind = .recordType ∧ ∃ steps followed,
        TypeChain (w.fileScope d).referredAlias? type steps followed record ∧
          followed.length ≤ aliasReach := by
  constructor
  · intro h
    obtain ⟨hRecord, steps, followed, hChain, hFew⟩ := chain_of_recordType? h (Nat.zero_le _)
    exact ⟨hRecord, steps, followed, hChain, by simpa using hFew⟩
  · rintro ⟨hRecord, steps, followed, hChain, hFew⟩
    exact recordType?_of_chain hw hRecord hChain hType (fun _ h => absurd h List.not_mem_nil)
      (hChain.nodup hRecord) hFew

/-- What a type comes down to is what is behind any type on its way, as far as what is left of
the aliases that may be followed reaches. -/
theorem recordType?_iff_of_chain {middle : Site} (hw : w.RevisionsDistinct)
    (hType : type.IsStored w)
    (h : TypeChain (w.fileScope d).referredAlias? type steps followed middle) :
    (w.fileScope d).recordType? [] type = some record ↔
      record.kind = .recordType ∧ ∃ more rest,
        TypeChain (w.fileScope d).referredAlias? middle more rest record ∧
          followed.length + rest.length ≤ aliasReach := by
  rw [recordType?_eq_some_iff hw hType]
  refine and_congr_right fun hRecord => ?_
  constructor
  · rintro ⟨_, all, hAll, hFew⟩
    obtain ⟨later, remaining, rfl, hLater⟩ := h.split hAll hRecord
    exact ⟨remaining, later, hLater, List.length_append ▸ hFew⟩
  · rintro ⟨more, rest, hRest, hFew⟩
    exact ⟨_, _, h.trans hRest, List.length_append ▸ hFew⟩

/-- A chain that comes to an alias again leads to no record type. -/
theorem not_record_of_again {ref : Site} {more : Nat} {rest : List Site}
    (h : TypeChain s.referredAlias? type steps followed ref) (hKind : ref.kind = .typeRef)
    (hAlias : s.referredAlias? ref = some target) (hAgain : target ∈ followed)
    (hAll : TypeChain s.referredAlias? type more rest record) : record.kind ≠ .recordType := by
  intro hRecord
  obtain ⟨later, _, rfl, hLater⟩ := h.split hAll hRecord
  cases hLater with
  | here => exact nomatch hKind.symm.trans hRecord
  | segment hOther => exact nomatch hKind.symm.trans hOther
  | through _ hSame _ _ =>
      obtain rfl := Option.some.inj (hAlias.symm.trans hSame)
      have hNodup := hAll.nodup hRecord
      exact (List.nodup_append.mp hNodup).2.2 target hAgain target List.mem_cons_self rfl

end FileScope

/-- The search for a record type ends, and its check for an alias followed before is exact. It
finds a record type exactly when the type leads there through no more aliases than allowed. A
chain that comes to an alias it followed before leads to no record type at all, however many
aliases are followed. And a chain that follows no more aliases than allowed, as every search
does, has no more steps than that many trees have nodes. -/
theorem Workspace.recordType?_iff_typeChain (changes : List Change) (d : Document) (type : Site)
    (hType : type.document ∈ (ofChanges changes).documents) :
    let s := (ofChanges changes).fileScope d
    (∀ record, s.recordType? [] type = some record ↔
      record.kind = .recordType ∧ ∃ steps followed,
        TypeChain s.referredAlias? type steps followed record ∧
          followed.length ≤ aliasReach) ∧
    (∀ steps followed ref target, TypeChain s.referredAlias? type steps followed ref →
      ref.kind = .typeRef → s.referredAlias? ref = some target →
      followed.any target.same = true →
      ∀ more rest last, TypeChain s.referredAlias? type more rest last →
        last.kind ≠ .recordType) ∧
    ∀ bound, (∀ e ∈ (ofChanges changes).documents, e.tree.size ≤ bound) →
      ∀ steps followed last, TypeChain s.referredAlias? type steps followed last →
        followed.length ≤ aliasReach → steps ≤ (aliasReach + 1) * bound := by
  intro s
  have hw := revisionsDistinct_ofChanges changes
  refine ⟨fun record => FileScope.recordType?_eq_some_iff hw hType, ?_, ?_⟩
  · intro steps followed ref target hChain hKind hAlias hAgain more rest last hAll
    obtain ⟨hRef, hFollowed⟩ := FileScope.isStored_of_chain hType hChain
    have hTarget := FileScope.isStored_of_referredAlias? hRef hAlias
    have hMem := (Site.any_same_iff hw hTarget hFollowed).mp hAgain
    exact FileScope.not_record_of_again hChain hKind hAlias hMem hAll
  · intro bound hBound steps followed last hChain hFew
    obtain ⟨-, hFollowed⟩ := FileScope.isStored_of_chain hType hChain
    refine Nat.le_trans (hChain.steps_le (hBound _ hType) fun target hTarget =>
      hBound _ (hFollowed target hTarget)) ?_
    exact Nat.mul_le_mul_right bound (Nat.succ_le_succ hFew)

namespace Sample

def namedType (name : String) : List Event :=
  [.enter .typeRef, .enter .upperCaseQid, .token .upperCaseIdentifier name, .leave, .leave]

def recordOf (field : String) (type : List Event) : List Event :=
  [.enter .recordType, .punctuation "\x7b", .gap " ",
    .enter .fieldType, .token .lowerCaseIdentifier field, .gap " : ", .enter .typeExpression] ++
    type ++ [.leave, .leave, .gap " ", .punctuation "\x7d", .leave]

def aliasFor (name : String) (type : List Event) : List Event :=
  [.enter .typeAliasDeclaration, .token .typeKeyword "type", .gap " ",
    .token .aliasKeyword "alias", .gap " ", .token .upperCaseIdentifier name, .gap " = ",
    .enter .typeExpression] ++ type ++ [.leave, .leave, .gap "\n"]

/-- The lines `f : <type> -> Int` and `f m = <access>`. -/
def accessLines (type access : String) : List Event :=
  [.enter .typeSignature, .token .lowerCaseIdentifier "f", .gap " : ", .enter .typeExpression,
    .enter .typeRef, .enter .upperCaseQid, .token .upperCaseIdentifier type, .leave, .leave,
    .gap " ", .token .arrow "->", .gap " ",
    .enter .typeRef, .enter .upperCaseQid, .token .upperCaseIdentifier "Int", .leave, .leave,
    .leave, .leave, .gap "\n",
    .enter .valueDeclaration, .enter .functionDeclarationLeft,
    .token .lowerCaseIdentifier "f", .gap " ",
    .enter .lowerPattern, .token .lowerCaseIdentifier "m", .leave, .leave, .gap " = ",
    .gap access, .leave]

/-- A file with a record type `R`, another name `P` for it, and an alias `L` for itself. -/
def aliases : Tree := .ofEvents <|
  [.enter .file] ++ aliasFor "R" (recordOf "x" (namedType "Int")) ++
    aliasFor "P" (namedType "R") ++ aliasFor "L" (namedType "L") ++ [.leave]

def documentAliases : Document := ⟨"file", aliases, none, 0⟩

end Sample

/-- What `P` is leads to the record type of `R`, and what `L` is leads to none. -/
theorem Workspace.recordType?_iff_typeChain_loop :
    let w := ofChanges [.upsert "file" Sample.aliases none]
    let s := w.fileScope Sample.documentAliases
    Sample.documentAliases ∈ w.documents ∧
      s.recordType? [] ⟨Sample.documentAliases, 19⟩ = some ⟨Sample.documentAliases, 6⟩ ∧
      ∀ steps followed last,
        TypeChain s.referredAlias? ⟨Sample.documentAliases, 28⟩ steps followed last →
          last.kind ≠ .recordType := by
  intro w s
  have hStored : Sample.documentAliases ∈ w.documents := List.mem_singleton_self _
  have hFound := recordType?_iff_typeChain [.upsert "file" Sample.aliases none]
    Sample.documentAliases ⟨Sample.documentAliases, 19⟩ hStored
  have hLoop := recordType?_iff_typeChain [.upsert "file" Sample.aliases none]
    Sample.documentAliases ⟨Sample.documentAliases, 28⟩ hStored
  obtain ⟨hBody, hExpression, hChild, hRecord⟩ :
      Sample.aliases.childOfKind? 1 .typeExpression = some 5 ∧
        Sample.aliases.kind 5 = .typeExpression ∧ Sample.aliases.firstNamedChild? 5 = some 6 ∧
        Sample.aliases.kind 6 = .recordType := by decide +kernel
  obtain ⟨hOuter, hFirst, hRef, hName, hOwn⟩ : Sample.aliases.kind 19 = .typeExpression ∧
      Sample.aliases.firstNamedChild? 19 = some 20 ∧ Sample.aliases.kind 20 = .typeRef ∧
      Sample.aliases.childText? 20 .upperCaseQid = some "R" ∧
      Sample.aliases.findTypeAlias? "R" = some 1 := by decide +kernel
  obtain ⟨hSelf, hSelfName, hSelfOwn, hSelfBody, hSelfExpression, hSelfChild⟩ :
      Sample.aliases.kind 28 = .typeRef ∧
        Sample.aliases.childText? 28 .upperCaseQid = some "L" ∧
        Sample.aliases.findTypeAlias? "L" = some 23 ∧
        Sample.aliases.childOfKind? 23 .typeExpression = some 27 ∧
        Sample.aliases.kind 27 = .typeExpression ∧
        Sample.aliases.firstNamedChild? 27 = some 28 := by decide +kernel
  have hChain : TypeChain s.referredAlias? ⟨Sample.documentAliases, 19⟩ 3
      [⟨Sample.documentAliases, 1⟩] ⟨Sample.documentAliases, 6⟩ :=
    .segment hOuter hFirst <| .through hRef (FileScope.referredAlias?_own hName rfl hOwn) hBody <|
      .segment hExpression hChild (.here _)
  have hRound : TypeChain s.referredAlias? ⟨Sample.documentAliases, 28⟩ 2
      [⟨Sample.documentAliases, 23⟩] ⟨Sample.documentAliases, 28⟩ :=
    .through hSelf (FileScope.referredAlias?_own hSelfName rfl hSelfOwn) hSelfBody <|
      .segment hSelfExpression hSelfChild (.here _)
  refine ⟨hStored, (hFound.1 _).mpr ⟨hRecord, 3, _, hChain, by decide⟩, ?_⟩
  exact hLoop.2.1 2 _ _ ⟨Sample.documentAliases, 23⟩ hRound hSelf
    (FileScope.referredAlias?_own hSelfName rfl hSelfOwn) rfl

end ElmScope
