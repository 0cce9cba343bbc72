import ElmScope.Proofs.Completion.Context
import ElmScope.Proofs.Completion.TypeChain

/-! Type aliases in the scope of the file that mentions them. A reference is looked up among the
aliases of its own file and then among the imports, but always among those of the file in which
the completion is asked for. What a reference means where it is written is therefore found when
its own file has the alias or the imports of both files agree on the name. Where that holds of
all references that a search follows, the fields offered are those of the type as written. -/
namespace ElmScope

namespace TypeChain

variable {f g : Site → Option Site} {type last : Site} {steps : Nat} {followed : List Site}

/-- A chain of one reading of references is a chain of another when both agree with a third on all
references that a chain of the third comes to before a limit. By induction on the chain: what is
come to behind an alias is come to by the whole chain, with that alias more. -/
theorem transfer {other : Site → Option Site} (h : TypeChain other type steps followed last)
    {limit : Nat} (hLimit : followed.length ≤ limit)
    (hAgree : ∀ steps followed ref, TypeChain f type steps followed ref → ref.kind = .typeRef →
      followed.length < limit → other ref = f ref ∧ g ref = f ref) :
    TypeChain g type steps followed last := by
  induction h generalizing limit with
  | here type => exact .here type
  | segment hKind hChild _ ih =>
      refine .segment hKind hChild (ih hLimit fun steps followed ref hRest => ?_)
      exact hAgree (steps + 1) followed ref (.segment hKind hChild hRest)
  | @through type target _ _ _ followed hKind hAlias hBody _ ih =>
      rw [List.length_cons] at hLimit
      obtain ⟨hOther, hSame⟩ := hAgree 0 [] type (.here type) hKind (Nat.lt_of_lt_of_le
        (Nat.succ_pos _) hLimit)
      have hFollowed : f type = some target := hOther.symm.trans hAlias
      refine .through hKind (hSame.trans hFollowed) hBody
        (ih (Nat.le_sub_one_of_lt hLimit) fun steps followed ref hRest hRef hFew => ?_)
      refine hAgree (steps + 1) (target :: followed) ref (.through hKind hFollowed hBody hRest)
        hRef ?_
      rw [List.length_cons]
      omega

/-- Two readings of references that agree on all references a chain may follow have the same
chains. -/
theorem congr {limit : Nat} (hLimit : followed.length ≤ limit)
    (hAgree : ∀ steps followed ref, TypeChain f type steps followed ref → ref.kind = .typeRef →
      followed.length < limit → f ref = g ref) :
    TypeChain f type steps followed last ↔ TypeChain g type steps followed last := by
  constructor
  · exact fun h => h.transfer hLimit fun steps followed ref hChain hRef hFew =>
      ⟨rfl, (hAgree steps followed ref hChain hRef hFew).symm⟩
  · exact fun h => h.transfer hLimit fun steps followed ref hChain hRef hFew =>
      ⟨(hAgree steps followed ref hChain hRef hFew).symm, rfl⟩

end TypeChain

/-- The alias of a name in a file itself. A qualified name is never the file's own. -/
def Document.ownAlias? (d : Document) (name : String) : Option Site :=
  if name.toList.contains '.' then none else (d.tree.findTypeAlias? name).map (Site.mk d)

/-- What the search finds from a stored type is stored. -/
theorem FileScope.isStored_of_recordType? {w : Workspace} {d : Document} {type record : Site}
    (hType : type.IsStored w) (h : (w.fileScope d).recordType? [] type = some record) :
    record.IsStored w := by
  obtain ⟨-, _, _, hChain, -⟩ := chain_of_recordType? h (Nat.zero_le _)
  exact (isStored_of_chain hType hChain).1

namespace Workspace

variable {w : Workspace} {d : Document} {ref type record : Site}

def importedAlias? (w : Workspace) (d : Document) (name : String) : Option Site :=
  ((ImportIndex.ofTree w d.tree).find? name .typeAlias).map (·.site)

/-- The alias that a reference names in the file in which it is written: the first one of that
file, else the one that the imports of that file have under the name. -/
def writtenAlias? (w : Workspace) (ref : Site) : Option Site :=
  (ref.document.tree.childText? ref.node .upperCaseQid).bind fun name =>
    (ref.document.ownAlias? name).or (w.importedAlias? ref.document name)

/-- A file has nothing else to say about a reference than the file of the reference: that file
has the alias itself, or the imports of both have the same under the name. -/
def SeesAsWritten (w : Workspace) (d : Document) (ref : Site) : Prop :=
  ∀ name ∈ ref.document.tree.childText? ref.node .upperCaseQid,
    (ref.document.ownAlias? name).isSome ∨
      w.importedAlias? d name = w.importedAlias? ref.document name

instance : Decidable (w.SeesAsWritten d ref) :=
  inferInstanceAs (Decidable (∀ name ∈ ref.document.tree.childText? ref.node .upperCaseQid,
    (ref.document.ownAlias? name).isSome ∨
      w.importedAlias? d name = w.importedAlias? ref.document name))

/-- A file has nothing else to say about its own references. -/
theorem seesAsWritten_self (w : Workspace) (ref : Site) : w.SeesAsWritten ref.document ref :=
  fun _ _ => .inr rfl

/-- A reference is taken to what it means where it is written exactly when the asking file has
nothing else to say about it. -/
theorem referredAlias?_eq_iff :
    (w.fileScope d).referredAlias? ref = w.writtenAlias? ref ↔ w.SeesAsWritten d ref := by
  have hCode : (w.fileScope d).referredAlias? ref =
      (ref.document.tree.childText? ref.node .upperCaseQid).bind fun name =>
        (ref.document.ownAlias? name).or (w.importedAlias? d name) := rfl
  rw [hCode, writtenAlias?, SeesAsWritten]
  cases ref.document.tree.childText? ref.node .upperCaseQid with
  | none => simp
  | some name =>
      simp only [Option.bind_some, Option.mem_some_iff, forall_eq']
      cases ref.document.ownAlias? name with
      | none => simp
      | some own => simp

/-- The record type that a type denotes as it is written, through no more aliases than are
followed. -/
def Denotes (w : Workspace) (type record : Site) : Prop :=
  record.kind = .recordType ∧ ∃ steps followed,
    TypeChain w.writtenAlias? type steps followed record ∧ followed.length ≤ aliasReach

/-- The search finds what a type denotes as written if the asking file has nothing else to say
about the references that it follows. -/
theorem recordType?_iff_denotes (hw : w.RevisionsDistinct) (hType : type.IsStored w)
    (hSees : ∀ steps followed ref,
      TypeChain (w.fileScope d).referredAlias? type steps followed ref → ref.kind = .typeRef →
      followed.length < aliasReach → w.SeesAsWritten d ref) :
    (w.fileScope d).recordType? [] type = some record ↔ w.Denotes type record := by
  rw [FileScope.recordType?_eq_some_iff hw hType, Denotes]
  refine and_congr_right fun _ => exists_congr fun steps => exists_congr fun followed => ?_
  refine and_congr_left fun hFew => TypeChain.congr hFew fun steps followed ref hChain hRef h => ?_
  exact referredAlias?_eq_iff.mpr (hSees steps followed ref hChain hRef h)

end Workspace

namespace Request

variable {r : Request} {target : RecordTarget} {record type : Site}

/-- The record type of a target, given the record types to which types come down. -/
inductive TargetIs (r : Request) (comesTo : Site → Site → Prop) : RecordTarget → Site → Prop where
  | value {name : String} {n : Nat} {record : Site} (hType : r.valueType? name = some n)
      (hRecord : comesTo (r.site n) record) : TargetIs r comesTo (.value name) record
  | field {target : RecordTarget} {name : String} {outer record : Site} {field n : Nat}
      (hOuter : TargetIs r comesTo target outer) (hField : fieldNamed? outer name = some field)
      (hType : outer.document.tree.childOfKind? field .typeExpression = some n)
      (hRecord : comesTo ⟨outer.document, n⟩ record) :
      TargetIs r comesTo (.field target name) record
  | literal {n : Nat} {record : Site}
      (hType : r.enclosingDeclaration?.bind r.tree.resultType? = some n)
      (hRecord : comesTo (r.site n) record) : TargetIs r comesTo .literal record

/-- The types whose record types are asked for while the record type of a target is found. -/
inductive Asks (r : Request) : RecordTarget → Site → Prop where
  | value {name : String} {n : Nat} (hType : r.valueType? name = some n) :
      Asks r (.value name) (r.site n)
  | within {target : RecordTarget} {name : String} {type : Site} (h : Asks r target type) :
      Asks r (.field target name) type
  | field {target : RecordTarget} {name : String} {outer : Site} {field n : Nat}
      (hOuter : r.targetType? target = some outer) (hField : fieldNamed? outer name = some field)
      (hType : outer.document.tree.childOfKind? field .typeExpression = some n) :
      Asks r (.field target name) ⟨outer.document, n⟩
  | literal {n : Nat} (hType : r.enclosingDeclaration?.bind r.tree.resultType? = some n) :
      Asks r .literal (r.site n)

/-- If types come down to what the search finds for them, targets do. -/
theorem targetType?_eq_some_iff {comesTo : Site → Site → Prop}
    (hFinds : ∀ type, r.Asks target type → ∀ record,
      r.scope.recordType? [] type = some record ↔ comesTo type record) :
    r.targetType? target = some record ↔ r.TargetIs comesTo target record := by
  induction target generalizing record with
  | value name =>
      rw [targetType?, Option.bind_eq_some_iff]
      constructor
      · rintro ⟨n, hType, h⟩
        exact .value hType ((hFinds _ (.value hType) _).mp h)
      · intro h
        cases h with
        | value hType hRecord => exact ⟨_, hType, (hFinds _ (.value hType) _).mpr hRecord⟩
  | field target name ih =>
      have hInner : ∀ outer, r.targetType? target = some outer ↔ r.TargetIs comesTo target outer :=
        fun outer => ih fun type hAsks => hFinds type (.within hAsks)
      simp only [targetType?, Option.bind_eq_some_iff]
      constructor
      · rintro ⟨outer, hOuter, field, hField, n, hType, h⟩
        exact .field ((hInner outer).mp hOuter) hField hType
          ((hFinds _ (.field hOuter hField hType) _).mp h)
      · intro h
        cases h with
        | field hTarget hField hType hRecord =>
            have hOuter := (hInner _).mpr hTarget
            exact ⟨_, hOuter, _, hField, _, hType,
              (hFinds _ (.field hOuter hField hType) _).mpr hRecord⟩
  | literal =>
      rw [targetType?, Option.bind_eq_some_iff]
      constructor
      · rintro ⟨n, hType, h⟩
        exact .literal hType ((hFinds _ (.literal hType) _).mp h)
      · intro h
        cases h with
        | literal hType hRecord => exact ⟨_, hType, (hFinds _ (.literal hType) _).mpr hRecord⟩

/-- What is found for a target lies in a stored file. -/
theorem isStored_of_targetType? {w : Workspace} {d : Document} (hScope : r.scope = w.fileScope d)
    (hStored : d ∈ w.documents) (h : r.targetType? target = some record) : record.IsStored w := by
  have hSite : ∀ n, (r.site n).IsStored w := fun n => by
    rw [Site.IsStored, site, hScope]
    exact hStored
  induction target generalizing record with
  | value name =>
      obtain ⟨n, -, hFound⟩ := Option.bind_eq_some_iff.mp h
      exact FileScope.isStored_of_recordType? (hSite n) (hScope ▸ hFound)
  | field target name ih =>
      simp only [targetType?, Option.bind_eq_some_iff] at h
      obtain ⟨outer, hOuter, field, -, n, -, hFound⟩ := h
      exact FileScope.isStored_of_recordType? ((ih hOuter).at n) (hScope ▸ hFound)
  | literal =>
      obtain ⟨n, -, hFound⟩ := Option.bind_eq_some_iff.mp h
      exact FileScope.isStored_of_recordType? (hSite n) (hScope ▸ hFound)

/-- Every type that is asked about on the way to a target stands in a stored file. -/
theorem isStored_of_asks {w : Workspace} {d : Document} (hScope : r.scope = w.fileScope d)
    (hStored : d ∈ w.documents) (h : r.Asks target type) : type.IsStored w := by
  induction h with
  | within _ ih => exact ih
  | field hOuter _ _ => exact (isStored_of_targetType? hScope hStored hOuter).at _
  | value | literal =>
      rw [Site.IsStored, site, hScope]
      exact hStored

end Request

/-- Where a record is completed, a reference is taken to what it means where it is written
exactly when the asking file has nothing else to say about it. If it has nothing else to say about
any of the references that are followed, the fields offered are those of the record type that the
target denotes as written, and none are offered when the target denotes no record type. -/
theorem Workspace.recordFields?_asWritten (changes : List Change) (uri : String) (d : Document)
    (p : Position) (trigger : Trigger) (settings : Settings) (target : RecordTarget)
    (hGet : (ofChanges changes).get? uri = some d) (hTarget : d.tree.targetAt? p = some target) :
    let w := ofChanges changes
    let r := Request.mk w (w.fileScope d) settings trigger p
    (∀ ref, r.scope.referredAlias? ref = w.writtenAlias? ref ↔ w.SeesAsWritten d ref) ∧
    ((∀ type steps followed ref, r.Asks target type →
        TypeChain r.scope.referredAlias? type steps followed ref → ref.kind = .typeRef →
        followed.length < aliasReach → w.SeesAsWritten d ref) →
      (∀ record, r.TargetIs w.Denotes target record →
        r.recordFields? = some (Request.fieldCandidates record)) ∧
      ((∀ record, ¬ r.TargetIs w.Denotes target record) → r.recordFields? = some [])) := by
  intro w r
  refine ⟨fun ref => referredAlias?_eq_iff, fun hSees => ?_⟩
  have hw : w.RevisionsDistinct := revisionsDistinct_ofChanges changes
  have hStored : d ∈ w.documents := (get?_eq_some_iff.mp hGet).1
  have hFinds (record : Site) :
      r.targetType? target = some record ↔ r.TargetIs w.Denotes target record := by
    refine Request.targetType?_eq_some_iff fun type hAsks record => ?_
    refine recordType?_iff_denotes hw (Request.isStored_of_asks rfl hStored hAsks) ?_
    exact fun steps followed ref => hSees type steps followed ref hAsks
  refine ⟨fun record hIs => ?_, fun hNone => ?_⟩
  · exact Request.recordFields?_of_targetType? hTarget ((hFinds record).mpr hIs)
  · have hNothing : r.targetType? target = none :=
      Option.eq_none_iff_forall_ne_some.mpr fun record h => hNone record ((hFinds record).mp h)
    rw [Request.recordFields?, show r.tree.targetAt? r.position = some target from hTarget,
      Option.map_some, hNothing]
    rfl

namespace Sample

def moduleLine (name : String) : List Event :=
  [.enter .moduleDeclaration, .token .moduleKeyword "module", .gap " ",
    .enter .upperCaseQid, .token .upperCaseIdentifier name, .leave, .gap " ",
    .enter .exposingList, .punctuation "exposing", .gap " ", .punctuation "(",
    .token .doubleDot "..", .punctuation ")", .leave, .leave, .gap "\n"]

def importLine (name : String) : List Event :=
  [.enter .importClause, .token .importKeyword "import", .gap " ",
    .enter .upperCaseQid, .token .upperCaseIdentifier name, .leave, .gap " ",
    .enter .exposingList, .punctuation "exposing", .gap " ", .punctuation "(",
    .token .doubleDot "..", .punctuation ")", .leave, .leave, .gap "\n"]

def userModule (name field : String) : Tree := .ofEvents <|
  [.enter .file] ++ moduleLine name ++ aliasFor "User" (recordOf field (namedType "Int")) ++
    [.leave]

def modelModule : Tree := .ofEvents <|
  [.enter .file] ++ moduleLine "Model" ++ importLine "Staff" ++
    aliasFor "Model" (recordOf "user" (namedType "User")) ++ [.leave]

/-- A file that imports `Model` and one module more, and reads a field of a model. -/
def reader (other : String) : Tree := .ofEvents <|
  [.enter .file] ++ importLine "Model" ++ importLine other ++
    accessLines "Model" "m.user.x" ++ [.leave]

/-- Two modules have a type `User`, and the reader of `Model` may import either. -/
def readers (other : String) : List Change :=
  [.upsert "guests" (userModule "Guests" "label") (some "Guests"),
    .upsert "model" modelModule (some "Model"),
    .upsert "reader" (reader other) none,
    .upsert "staff" (userModule "Staff" "name") (some "Staff")]

def documentGuests : Document := ⟨"guests", userModule "Guests" "label", some "Guests", 0⟩

def documentModel : Document := ⟨"model", modelModule, some "Model", 1⟩

def documentReader (other : String) : Document := ⟨"reader", reader other, none, 2⟩

def documentStaff : Document := ⟨"staff", userModule "Staff" "name", some "Staff", 3⟩

def readerRequest (other : String) : Request :=
  let w := Workspace.ofChanges (readers other)
  ⟨w, w.fileScope (documentReader other), {}, .character '.', ⟨3, 13⟩⟩

section

variable {alias? : Site → Option Site} {other : String} {user : Document}

/-- `Model` leads to the record type of its module. -/
theorem chain_model (hKind : (documentReader other).tree.kind 22 = .typeRef)
    (hModel : alias? ⟨documentReader other, 22⟩ = some ⟨documentModel, 19⟩) :
    TypeChain alias? ⟨documentReader other, 22⟩ 2 [⟨documentModel, 19⟩] ⟨documentModel, 24⟩ := by
  obtain ⟨hBody, hExpression, hChild⟩ :
      modelModule.childOfKind? 19 .typeExpression = some 23 ∧
        modelModule.kind 23 = .typeExpression ∧ modelModule.firstNamedChild? 23 = some 24 := by
    decide +kernel
  exact .through hKind hModel hBody (.segment hExpression hChild (.here _))

/-- The type of the field of `Model` refers to `User`. -/
theorem chain_user : TypeChain alias? ⟨documentModel, 28⟩ 1 [] ⟨documentModel, 29⟩ := by
  obtain ⟨hKind, hChild⟩ : modelModule.kind 28 = .typeExpression ∧
      modelModule.firstNamedChild? 28 = some 29 := by decide +kernel
  exact .segment hKind hChild (.here _)

/-- It leads to the record type of the module from which `User` is taken. -/
theorem chain_userRecord (hModule : user = documentGuests ∨ user = documentStaff)
    (hUser : alias? ⟨documentModel, 29⟩ = some ⟨user, 10⟩) :
    TypeChain alias? ⟨documentModel, 28⟩ 3 [⟨user, 10⟩] ⟨user, 15⟩ := by
  have hKind : modelModule.kind 29 = .typeRef := by decide +kernel
  obtain ⟨hBody, hExpression, hChild⟩ : user.tree.childOfKind? 10 .typeExpression = some 14 ∧
      user.tree.kind 14 = .typeExpression ∧ user.tree.firstNamedChild? 14 = some 15 := by
    rcases hModule with rfl | rfl <;> decide +kernel
  exact chain_user.trans (.through hKind hUser hBody (.segment hExpression hChild (.here _)))

/-- What `m.user` is, given what `Model` and the type of its field come down to. -/
theorem targetIs_user {comesTo : Site → Site → Prop}
    (hValue : (readerRequest other).valueType? "m" = some 22)
    (hModel : comesTo ⟨documentReader other, 22⟩ ⟨documentModel, 24⟩)
    (hUser : comesTo ⟨documentModel, 28⟩ ⟨user, 15⟩) :
    (readerRequest other).TargetIs comesTo (.field (.value "m") "user") ⟨user, 15⟩ := by
  obtain ⟨hField, hType⟩ : Request.fieldNamed? ⟨documentModel, 24⟩ "user" = some 26 ∧
      documentModel.tree.childOfKind? 26 .typeExpression = some 28 := by decide +kernel
  exact .field (.value hValue hModel) hField hType hUser

end

/-- As it is written, `m.user` has the type that `Staff` has. -/
theorem targetIs_denotes {w : Workspace} {other : String}
    (hValue : (readerRequest other).valueType? "m" = some 22)
    (hKind : (documentReader other).tree.kind 22 = .typeRef)
    (hModel : w.writtenAlias? ⟨documentReader other, 22⟩ = some ⟨documentModel, 19⟩)
    (hUser : w.writtenAlias? ⟨documentModel, 29⟩ = some ⟨documentStaff, 10⟩) :
    (readerRequest other).TargetIs w.Denotes (.field (.value "m") "user") ⟨documentStaff, 15⟩ := by
  obtain ⟨hModelRecord, hUserRecord⟩ : modelModule.kind 24 = .recordType ∧
      documentStaff.tree.kind 15 = .recordType := by decide +kernel
  refine targetIs_user hValue ⟨hModelRecord, _, _, chain_model hKind hModel, by decide⟩ ?_
  exact ⟨hUserRecord, _, _, chain_userRecord (.inr rfl) hUser, by decide⟩

end Sample

/-- A reader that imports `Staff` is offered the field of `Staff`. -/
theorem Workspace.recordFields?_asWritten_same_imports :
    let w := ofChanges (Sample.readers "Staff")
    let r := Sample.readerRequest "Staff"
    r.TargetIs w.Denotes (.field (.value "m") "user") ⟨Sample.documentStaff, 15⟩ ∧
      r.recordFields? = some [⟨"name", .field, none, some "Int", []⟩] := by
  intro w r
  have hGet : w.get? "reader" = some (Sample.documentReader "Staff") := rfl
  obtain ⟨hAgree, hModel, hUser⟩ :
      (∀ e ∈ w.documents, ∀ n < e.tree.size, e.tree.kind n = .typeRef →
          w.SeesAsWritten (Sample.documentReader "Staff") ⟨e, n⟩) ∧
        w.writtenAlias? ⟨Sample.documentReader "Staff", 22⟩ = some ⟨Sample.documentModel, 19⟩ ∧
        w.writtenAlias? ⟨Sample.documentModel, 29⟩ = some ⟨Sample.documentStaff, 10⟩ := by
    decide +kernel
  obtain ⟨hTarget, hValue, hKind⟩ :
      (Sample.reader "Staff").targetAt? ⟨3, 13⟩ = some (.field (.value "m") "user") ∧
        (Sample.readerRequest "Staff").valueType? "m" = some 22 ∧
        (Sample.reader "Staff").kind 22 = .typeRef := by decide +kernel
  have hIs := Sample.targetIs_denotes hValue hKind hModel hUser
  obtain ⟨-, hFields⟩ := recordFields?_asWritten (Sample.readers "Staff") "reader"
    (Sample.documentReader "Staff") ⟨3, 13⟩ (.character '.') {} (.field (.value "m") "user") hGet
    hTarget
  refine ⟨hIs, ((hFields fun type steps followed ref hAsks hChain hRef _ => ?_).1 _ hIs).trans ?_⟩
  · have hStored := Request.isStored_of_asks rfl (get?_eq_some_iff.mp hGet).1 hAsks
    have hRefStored := (FileScope.isStored_of_chain hStored hChain).1
    exact hAgree _ hRefStored _ (Tree.lt_size_of_kind hRef (by decide)) hRef
  · decide +kernel

namespace Sample

/-- Where `Guests` is imported, `m` is found to be a model and `m.user` what `Guests` has. -/
theorem targetType?_guests
    (hGet : (Workspace.ofChanges (readers "Guests")).get? "reader" = some (documentReader "Guests"))
    (hValue : (readerRequest "Guests").valueType? "m" = some 22)
    (hKind : (documentReader "Guests").tree.kind 22 = .typeRef)
    (hModel : (readerRequest "Guests").scope.referredAlias? ⟨documentReader "Guests", 22⟩ =
      some ⟨documentModel, 19⟩)
    (hUser : (readerRequest "Guests").scope.referredAlias? ⟨documentModel, 29⟩ =
      some ⟨documentGuests, 10⟩) :
    (readerRequest "Guests").targetType? (.value "m") = some ⟨documentModel, 24⟩ ∧
      (readerRequest "Guests").targetType? (.field (.value "m") "user") =
        some ⟨documentGuests, 15⟩ := by
  have hw := Workspace.revisionsDistinct_ofChanges (readers "Guests")
  have hReader : Site.IsStored (Workspace.ofChanges (readers "Guests"))
      ⟨documentReader "Guests", 22⟩ := (Workspace.get?_eq_some_iff.mp hGet).1
  have hField := (FileScope.isStored_of_referredAlias? hReader hModel).at 28
  obtain ⟨hModelRecord, hUserRecord⟩ : Site.kind ⟨documentModel, 24⟩ = .recordType ∧
      Site.kind ⟨documentGuests, 15⟩ = .recordType := by decide +kernel
  have hModelFound := (FileScope.recordType?_eq_some_iff hw hReader).mpr
    ⟨hModelRecord, _, _, chain_model hKind hModel, by decide⟩
  have hUserFound := (FileScope.recordType?_eq_some_iff hw hField).mpr
    ⟨hUserRecord, _, _, chain_userRecord (.inl rfl) hUser, by decide⟩
  have hFinds {target : RecordTarget} {record : Site} :
      (readerRequest "Guests").targetType? target = some record ↔ (readerRequest "Guests").TargetIs
        (fun type record => (readerRequest "Guests").scope.recordType? [] type = some record)
          target record :=
    Request.targetType?_eq_some_iff fun _ _ _ => Iff.rfl
  exact ⟨hFinds.mpr (.value hValue hModelFound),
    hFinds.mpr (targetIs_user hValue hModelFound hUserFound)⟩

end Sample

/-- A reader that imports `Guests` is offered the field of `Guests`: the reference to `User` in
`Model` is followed, and taken to what the reader imports and not to what it means there. -/
theorem Workspace.recordFields?_asWritten_other_imports :
    let w := ofChanges (Sample.readers "Guests")
    let r := Sample.readerRequest "Guests"
    r.Asks (.field (.value "m") "user") ⟨Sample.documentModel, 28⟩ ∧
      TypeChain r.scope.referredAlias? ⟨Sample.documentModel, 28⟩ 1 []
        ⟨Sample.documentModel, 29⟩ ∧
      r.scope.referredAlias? ⟨Sample.documentModel, 29⟩ = some ⟨Sample.documentGuests, 10⟩ ∧
      w.writtenAlias? ⟨Sample.documentModel, 29⟩ = some ⟨Sample.documentStaff, 10⟩ ∧
      r.TargetIs w.Denotes (.field (.value "m") "user") ⟨Sample.documentStaff, 15⟩ ∧
      (Request.fieldCandidates ⟨Sample.documentStaff, 15⟩).map (·.name) = ["name"] ∧
      (w.completions "reader" ⟨3, 13⟩ (.character '.') {}).map (·.name) = ["label"] := by
  intro w r
  have hGet : w.get? "reader" = some (Sample.documentReader "Guests") := rfl
  obtain ⟨hModel, hUser⟩ :
      w.writtenAlias? ⟨Sample.documentReader "Guests", 22⟩ = some ⟨Sample.documentModel, 19⟩ ∧
        w.writtenAlias? ⟨Sample.documentModel, 29⟩ = some ⟨Sample.documentStaff, 10⟩ := by
    decide +kernel
  obtain ⟨hTaken, hValue, hKind, hTarget⟩ :
      (Sample.readerRequest "Guests").scope.referredAlias? ⟨Sample.documentModel, 29⟩ =
          some ⟨Sample.documentGuests, 10⟩ ∧
        (Sample.readerRequest "Guests").valueType? "m" = some 22 ∧
        (Sample.reader "Guests").kind 22 = .typeRef ∧
        (Sample.reader "Guests").targetAt? ⟨3, 13⟩ = some (.field (.value "m") "user") := by
    decide +kernel
  obtain ⟨hImport, hExposing, hHeader⟩ : (Sample.readerRequest "Guests").importModule? = none ∧
      (Sample.readerRequest "Guests").importExposing? = none ∧
      (Sample.readerRequest "Guests").moduleExposing? = none := by decide +kernel
  obtain ⟨hField, hType, hStaffFields, hGuestsFields⟩ :
      Request.fieldNamed? ⟨Sample.documentModel, 24⟩ "user" = some 26 ∧
        Sample.documentModel.tree.childOfKind? 26 .typeExpression = some 28 ∧
        (Request.fieldCandidates ⟨Sample.documentStaff, 15⟩).map (·.name) = ["name"] ∧
        Request.fieldCandidates ⟨Sample.documentGuests, 15⟩ =
          [⟨"label", .field, none, some "Int", []⟩] := by decide +kernel
  have hOwn := (referredAlias?_eq_iff.mpr (seesAsWritten_self w _)).trans hModel
  obtain ⟨hOuter, hInner⟩ := Sample.targetType?_guests hGet hValue hKind hOwn hTaken
  refine ⟨.field hOuter hField hType, Sample.chain_user, hTaken, hUser,
    Sample.targetIs_denotes hValue hKind hModel hUser, hStaffFields, ?_⟩
  have hFields := Request.recordFields?_of_targetType? (r := r) hTarget hInner
  rw [hGuestsFields] at hFields
  have hAnswer : w.completions "reader" ⟨3, 13⟩ (.character '.') {} = r.answer := by
    rw [completions, hGet]
    rfl
  rw [hAnswer, Request.answer_of_recordFields? hImport hExposing hHeader hFields]
  rfl

end ElmScope
