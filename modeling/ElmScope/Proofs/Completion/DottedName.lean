import ElmScope.Proofs.Completion.NestedRecord
import ElmScope.Proofs.Text.Pattern

/-! Dotted names before a cursor. Two regular expressions describe them, one for paths to the
field of a record and one for qualified names. Both are about the longest tail of word characters
and dots, which is cut at its dots, so what they find is what the cut gives, and no text fits
both. -/
namespace ElmScope

open Text

namespace LineShape

/-- Segments of which each is a name with a dot behind it, and what is typed behind the last
dot. -/
structure IsDotted (first : Char → Bool) (segments : List (List Char)) (typed text : List Char) :
    Prop where
  nonempty : segments ≠ []
  isName : ∀ segment ∈ segments, segment ∈ Pattern.names first isWordChar
  isTyped : ∀ c ∈ typed, isWordChar c = true
  text_eq : text = segments.flatMap (· ++ ['.']) ++ typed

def dot : Pattern := .one (· = '.')

def words : Pattern := .many (.one isWordChar)

/-- A path to the field of a record: `(?:^|[^\w.])([a-z]\w*(?:\.[a-z]\w*)*)\.(\w*)$`. -/
def fieldAccess : Pattern :=
  .tail isDottedChar (.both
    (.group (.both (.name isLowerAscii isWordChar)
      (.many (.both dot (.name isLowerAscii isWordChar)))))
    (.both dot (.group words)))

/-- A qualified name: `(?:^|[^\w.])((?:[A-Z]\w*\.)+)(\w*)$`. -/
def qualifiedName : Pattern :=
  .tail isDottedChar (.both
    (.group (.both (.both (.name isUpperAscii isWordChar) dot)
      (.many (.both (.name isUpperAscii isWordChar) dot))))
    (.group words))

variable {first : Char → Bool} {segments : List (List Char)} {typed text segment : List Char}
  {groups : List (List Char)} {l : Language Char}

theorem splitDots_of_not_mem (h : '.' ∉ typed) : splitDots typed = [typed] := by
  induction typed with
  | nil => rfl
  | cons c rest ih =>
      rw [List.mem_cons, not_or] at h
      rw [splitDots, if_neg (Ne.symm h.1), ih h.2]

/-- A dot ends the segment before it. -/
theorem splitDots_segment (h : '.' ∉ segment) (rest : List Char) :
    splitDots (segment ++ '.' :: rest) = segment :: splitDots rest := by
  induction segment with
  | nil => rfl
  | cons c more ih =>
      rw [List.mem_cons, not_or] at h
      rw [List.cons_append, splitDots, if_neg (Ne.symm h.1), ih h.2]

/-- A text is cut at the dots behind its segments. -/
theorem splitDots_eq (hSegments : ∀ segment ∈ segments, '.' ∉ segment) (hTyped : '.' ∉ typed) :
    splitDots (segments.flatMap (· ++ ['.']) ++ typed) = segments ++ [typed] := by
  induction segments with
  | nil => exact splitDots_of_not_mem hTyped
  | cons segment segments ih =>
      rw [List.forall_mem_cons] at hSegments
      rw [List.flatMap_cons, List.append_assoc, List.append_assoc, List.singleton_append,
        splitDots_segment hSegments.1, ih hSegments.2, List.cons_append]

/-- Every text is cut into segments without dots. -/
theorem exists_segments (text : List Char) : ∃ (segments : List (List Char)) (typed : List Char),
    text = segments.flatMap (· ++ ['.']) ++ typed ∧
      (∀ segment ∈ segments, '.' ∉ segment) ∧ '.' ∉ typed := by
  induction text with
  | nil => exact ⟨[], [], rfl, by simp, by simp⟩
  | cons c rest ih =>
      obtain ⟨segments, typed, rfl, hSegments, hTyped⟩ := ih
      by_cases hc : c = '.'
      · exact ⟨[] :: segments, typed, by simp [hc], by simpa using hSegments, hTyped⟩
      · cases segments with
        | nil => exact ⟨[], c :: typed, by simp, by simp, by simp [hTyped, Ne.symm hc]⟩
        | cons segment segments =>
            refine ⟨(c :: segment) :: segments, typed, by simp, ?_, hTyped⟩
            simpa [Ne.symm hc] using hSegments

theorem isWordChar_of_mem_names (hFirst : ∀ c, first c = true → isWordChar c = true)
    (h : segment ∈ Pattern.names first isWordChar) : ∀ c ∈ segment, isWordChar c = true := by
  obtain ⟨c, rest, hc, hRest, rfl⟩ := h
  exact List.forall_mem_cons.mpr ⟨hFirst c hc, hRest⟩

theorem dot_not_mem_of_isWordChar (h : ∀ c ∈ segment, isWordChar c = true) : '.' ∉ segment :=
  fun hDot => absurd (h _ hDot) (by decide)

/-- What is dotted is made of word characters and dots. -/
theorem IsDotted.isDottedChar (hFirst : ∀ c, first c = true → isWordChar c = true)
    (h : IsDotted first segments typed text) : ∀ c ∈ text, isDottedChar c = true := by
  obtain ⟨-, hNames, hTyped, rfl⟩ := h
  intro c hc
  rw [LineShape.isDottedChar, Bool.or_eq_true, decide_eq_true_eq]
  rcases List.mem_append.mp hc with hc | hc
  · obtain ⟨segment, hSegment, hc⟩ := List.mem_flatMap.mp hc
    rcases List.mem_append.mp hc with hc | hc
    · exact .inl (isWordChar_of_mem_names hFirst (hNames segment hSegment) c hc)
    · exact .inr (List.mem_singleton.mp hc)
  · exact .inl (hTyped c hc)

/-- The path before the last dot of a text is found just when its tail is dotted. -/
theorem dottedPath?_eq_some_iff (hFirst : ∀ c, first c = true → isWordChar c = true) :
    dottedPath? first text = some segments ↔
      ∃ typed, IsDotted first segments typed (takeTail LineShape.isDottedChar text) := by
  obtain ⟨path, last, hTail, hPath, hLast⟩ := exists_segments (takeTail LineShape.isDottedChar text)
  have hWord : ∀ c ∈ path.flatMap (· ++ ['.']) ++ last, c ≠ '.' → isWordChar c = true := by
    intro c hc hDot
    rw [← hTail, takeTail, List.mem_reverse] at hc
    simpa [LineShape.isDottedChar, hDot] using List.mem_takeWhile_imp hc
  simp only [dottedPath?, hTail, splitDots_eq hPath hLast, List.dropLast_concat]
  constructor
  · intro h
    obtain ⟨hGood, hSame⟩ := Option.ite_none_right_eq_some.mp h
    obtain rfl : path = segments := Option.some.inj hSame
    simp only [Bool.and_eq_true, Bool.not_eq_true', List.isEmpty_eq_false_iff, List.all_eq_true]
      at hGood
    refine ⟨last, hGood.1, fun segment hSegment => ?_, fun c hc => ?_, rfl⟩
    · obtain ⟨c, hHead, hc⟩ := Option.any_eq_true _ _ |>.mp (hGood.2 segment hSegment)
      obtain ⟨rest, rfl⟩ := List.head?_eq_some_iff.mp hHead
      refine ⟨c, rest, hc, fun x hx => hWord x ?_ ?_, rfl⟩
      · exact List.mem_append_left _ (List.mem_flatMap.mpr ⟨_, hSegment, by simp [hx]⟩)
      · rintro rfl
        exact hPath _ hSegment (List.mem_cons_of_mem _ hx)
    · exact hWord c (List.mem_append_right _ hc) (ne_of_mem_of_not_mem hc hLast)
  · rintro ⟨typed, hNonempty, hNames, hTyped, hText⟩
    have hDots := fun segment hSegment =>
      dot_not_mem_of_isWordChar (isWordChar_of_mem_names hFirst (hNames segment hSegment))
    have hSplit := congrArg splitDots hText
    rw [splitDots_eq hPath hLast, splitDots_eq hDots (dot_not_mem_of_isWordChar hTyped)] at hSplit
    obtain ⟨rfl, -⟩ := List.append_inj' hSplit rfl
    refine if_pos ?_
    simp only [Bool.and_eq_true, Bool.not_eq_true', List.isEmpty_eq_false_iff, List.all_eq_true]
    refine ⟨hNonempty, fun segment hSegment => ?_⟩
    obtain ⟨c, rest, hc, -, rfl⟩ := hNames segment hSegment
    exact hc

theorem accepts_words : words.Accepts {word | ∀ c ∈ word, isWordChar c = true} := by
  intro front inside rest groups
  rw [words, (Pattern.accepts_one isWordChar).many]
  exact and_congr_left' Pattern.mem_kstar_oneOf_iff

def aDot : Language Char := Pattern.oneOf (· = '.')

theorem mem_aDot_iff : text ∈ aDot ↔ text = ['.'] := by
  constructor
  · rintro ⟨c, hc, rfl⟩
    rw [of_decide_eq_true hc]
  · rintro rfl
    exact ⟨'.', rfl, rfl⟩

theorem mem_mul_aDot_iff : text ∈ l * aDot ↔ ∃ segment ∈ l, text = segment ++ ['.'] := by
  rw [Language.mem_mul]
  simp only [mem_aDot_iff, exists_eq_left, eq_comm]

theorem mem_aDot_mul_iff : text ∈ aDot * l ↔ ∃ segment ∈ l, text = '.' :: segment := by
  rw [Language.mem_mul]
  simp only [mem_aDot_iff, exists_eq_left, eq_comm, List.singleton_append]

/-- Names with dots between them are names with dots behind them, up to the last dot. -/
theorem intercalate_append_dot (h : segments ≠ []) :
    ['.'].intercalate segments ++ ['.'] = segments.flatMap (· ++ ['.']) := by
  cases segments with
  | nil => exact absurd rfl h
  | cons segment segments =>
      induction segments generalizing segment with
      | nil => simp [List.intercalate_singleton]
      | cons next segments ih =>
          rw [List.intercalate_cons_cons, List.append_assoc, ih next (List.cons_ne_nil _ _)]
          simp

theorem intercalate_cons_eq (segment : List Char) (segments : List (List Char)) :
    ['.'].intercalate (segment :: segments) = segment ++ segments.flatMap ('.' :: ·) := by
  induction segments generalizing segment with
  | nil => simp [List.intercalate_singleton]
  | cons next segments ih => rw [List.intercalate_cons_cons, ih next]; simp

/-- The words of a path are segments with dots between them. -/
theorem mem_path_iff : text ∈ l * KStar.kstar (aDot * l) ↔ ∃ segments : List (List Char),
    segments ≠ [] ∧ (∀ segment ∈ segments, segment ∈ l) ∧ text = ['.'].intercalate segments := by
  rw [Language.mem_mul]
  simp only [Pattern.mem_kstar_iff_of_form fun _ => mem_aDot_mul_iff]
  constructor
  · rintro ⟨segment, hSegment, _, ⟨segments, hSegments, rfl⟩, rfl⟩
    exact ⟨segment :: segments, List.cons_ne_nil _ _,
      List.forall_mem_cons.mpr ⟨hSegment, hSegments⟩, (intercalate_cons_eq segment segments).symm⟩
  · rintro ⟨segments, hNonempty, hSegments, rfl⟩
    cases segments with
    | nil => exact absurd rfl hNonempty
    | cons segment segments =>
        rw [List.forall_mem_cons] at hSegments
        exact ⟨segment, hSegments.1, _, ⟨segments, hSegments.2, rfl⟩,
          (intercalate_cons_eq segment segments).symm⟩

/-- The words of a qualifier are segments with a dot behind each. -/
theorem mem_qualifier_iff : text ∈ l * aDot * KStar.kstar (l * aDot) ↔
    ∃ segments : List (List Char), segments ≠ [] ∧ (∀ segment ∈ segments, segment ∈ l) ∧
      text = segments.flatMap (· ++ ['.']) := by
  rw [Language.mem_mul]
  simp only [Pattern.mem_kstar_iff_of_form fun _ => mem_mul_aDot_iff, mem_mul_aDot_iff]
  constructor
  · rintro ⟨_, ⟨segment, hSegment, rfl⟩, _, ⟨segments, hSegments, rfl⟩, rfl⟩
    exact ⟨segment :: segments, List.cons_ne_nil _ _,
      List.forall_mem_cons.mpr ⟨hSegment, hSegments⟩, rfl⟩
  · rintro ⟨segments, hNonempty, hSegments, rfl⟩
    cases segments with
    | nil => exact absurd rfl hNonempty
    | cons segment segments =>
        rw [List.forall_mem_cons] at hSegments
        exact ⟨_, ⟨segment, hSegments.1, rfl⟩, _, ⟨segments, hSegments.2, rfl⟩, rfl⟩

/-- The expression for paths finds the path and what is typed behind it. -/
theorem finds_fieldAccess_iff : fieldAccess.Finds text groups ↔
    ∃ segments typed, IsDotted isLowerAscii segments typed (takeTail LineShape.isDottedChar text) ∧
      groups = [['.'].intercalate segments, typed] := by
  have hNames := Pattern.accepts_name isLowerAscii isWordChar
  have hDot : dot.Accepts aDot := Pattern.accepts_one _
  have hPath := (hNames.both (hDot.both hNames).many).group
  refine Pattern.finds_tail_iff (P := fun body groups => ∃ segments typed,
    IsDotted isLowerAscii segments typed body ∧ groups = [['.'].intercalate segments, typed]) ?_ ?_
  · intro front inside rest groups
    rw [hPath.both (hDot.gives.both accepts_words.group) front inside rest groups]
    simp only [mem_path_iff, mem_aDot_iff]
    constructor
    · rintro ⟨_, _, _, _, rfl, rfl, ⟨⟨segments, hNonempty, hSegments, rfl⟩, rfl⟩,
        _, typed, _, _, rfl, rfl, ⟨rfl, rfl⟩, hTyped, rfl⟩
      refine ⟨segments, typed, ⟨hNonempty, hSegments, hTyped, ?_⟩, rfl⟩
      rw [← intercalate_append_dot hNonempty, List.append_assoc]
    · rintro ⟨segments, typed, ⟨hNonempty, hSegments, hTyped, rfl⟩, rfl⟩
      refine ⟨_, '.' :: typed, _, _, ?_, rfl, ⟨⟨segments, hNonempty, hSegments, rfl⟩, rfl⟩,
        ['.'], typed, [], _, rfl, rfl, ⟨rfl, rfl⟩, hTyped, rfl⟩
      rw [← intercalate_append_dot hNonempty, List.append_assoc, List.singleton_append]
  · rintro body groups ⟨segments, typed, hDotted, -⟩
    exact hDotted.isDottedChar fun _ => isWordChar_of_isLowerAscii

/-- The expression for qualified names finds the qualifier and what is typed behind it. -/
theorem finds_qualifiedName_iff : qualifiedName.Finds text groups ↔
    ∃ segments typed, IsDotted isUpperAscii segments typed (takeTail LineShape.isDottedChar text) ∧
      groups = [segments.flatMap (· ++ ['.']), typed] := by
  have hNames := Pattern.accepts_name isUpperAscii isWordChar
  have hDot : dot.Accepts aDot := Pattern.accepts_one _
  have hSegment := hNames.both hDot
  have hQualifier := (hSegment.both hSegment.many).group
  refine Pattern.finds_tail_iff (P := fun body groups => ∃ segments typed,
    IsDotted isUpperAscii segments typed body ∧
      groups = [segments.flatMap (· ++ ['.']), typed]) ?_ ?_
  · intro front inside rest groups
    rw [hQualifier.both accepts_words.group front inside rest groups]
    simp only [mem_qualifier_iff]
    constructor
    · rintro ⟨_, typed, _, _, rfl, rfl, ⟨⟨segments, hNonempty, hSegments, rfl⟩, rfl⟩, hTyped, rfl⟩
      exact ⟨segments, typed, ⟨hNonempty, hSegments, hTyped, rfl⟩, rfl⟩
    · rintro ⟨segments, typed, ⟨hNonempty, hSegments, hTyped, rfl⟩, rfl⟩
      exact ⟨_, typed, _, _, rfl, rfl, ⟨⟨segments, hNonempty, hSegments, rfl⟩, rfl⟩, hTyped, rfl⟩
  · rintro body groups ⟨segments, typed, hDotted, -⟩
    exact hDotted.isDottedChar fun _ => isWordChar_of_isUpperAscii

/-- A qualifier is found exactly where the last word of a text, with the dots in it, is a dotted
name whose segments begin in upper case. -/
theorem qualifier?_eq_some_iff {qualifier : List Char} : qualifier? text = some qualifier ↔
    ∃ segments typed, IsDotted isUpperAscii segments typed (takeTail LineShape.isDottedChar text) ∧
      qualifier = segments.flatMap (· ++ ['.']) := by
  simp only [qualifier?, Option.map_eq_some_iff,
    dottedPath?_eq_some_iff fun _ => isWordChar_of_isUpperAscii]
  constructor
  · rintro ⟨segments, ⟨typed, hDotted⟩, rfl⟩
    exact ⟨segments, typed, hDotted, rfl⟩
  · rintro ⟨segments, typed, hDotted, rfl⟩
    exact ⟨segments, ⟨typed, hDotted⟩, rfl⟩

/-- No text begins its segments with both a lower-case and an upper-case letter. -/
theorem IsDotted.not_upper {other : List (List Char)} {typed' : List Char}
    (h : IsDotted isLowerAscii segments typed text) :
    ¬ IsDotted isUpperAscii other typed' text := by
  intro hOther
  have hHead {first : Char → Bool} {path : List (List Char)} {rest : List Char}
      (h : IsDotted first path rest text) : ∃ c ∈ text.head?, first c = true := by
    obtain ⟨hNonempty, hNames, -, rfl⟩ := h
    cases path with
    | nil => exact absurd rfl hNonempty
    | cons segment path =>
        obtain ⟨c, more, hc, -, rfl⟩ := hNames segment List.mem_cons_self
        exact ⟨c, rfl, hc⟩
  obtain ⟨c, hc, hLower⟩ := hHead h
  obtain ⟨d, hd, hUpper⟩ := hHead hOther
  obtain rfl := Option.mem_unique hc hd
  simp only [isLowerAscii, isUpperAscii, Bool.and_eq_true, decide_eq_true_eq] at hLower hUpper
  exact absurd (Char.le_trans hLower.1 hUpper.2) (by decide)

end LineShape

/-- A path stands for the fields below its base. -/
theorem RecordTarget.ofPath_cons (base : List Char) (fields : List (List Char)) :
    RecordTarget.ofPath (base :: fields) =
      .nested (some (.ofList base)) (fields.map String.ofList) := by
  rw [RecordTarget.ofPath, RecordTarget.nested, List.foldl_map]
  rfl

/-- The text `x = model.user.na`, in no node of its own. -/
def Sample.typedPath : Tree := .ofEvents [.enter .file, .gap "x = model.user.na", .leave]

namespace LineShape

variable {base typed : List Char} {fields : List (List Char)} {t : Tree} {p : Position}

/-- Behind a path the text names the record at the end of the path. -/
theorem IsDotted.textTarget? (h : IsDotted isLowerAscii (base :: fields) typed
    (takeTail LineShape.isDottedChar (t.textBefore p))) :
    t.textTarget? p = some (.nested (some (.ofList base)) (fields.map String.ofList)) := by
  have hPath : fieldPath? (t.textBefore p) = some (base :: fields) :=
    (dottedPath?_eq_some_iff fun _ => isWordChar_of_isLowerAscii).mpr ⟨typed, h⟩
  rw [Tree.textTarget?, hPath, ← RecordTarget.ofPath_cons]

/-- Dotted text before a cursor fits at most one of two expressions, and exactly. The longest tail
of word characters and dots decides. When it is a path of names that begin with lower-case letters
and what is typed, each behind the other with a dot, the expression for paths finds the path, and
no other text has a path; the record of the cursor is then the field of a field down from the
first name. When the names begin with upper-case letters the expression for qualified names finds
the qualifier, and no other text has one. -/
theorem finds_dottedName (text : List Char) :
    (∀ groups, fieldAccess.Finds text groups ↔ ∃ segments typed,
      IsDotted isLowerAscii segments typed (takeTail LineShape.isDottedChar text) ∧
        groups = [['.'].intercalate segments, typed]) ∧
    (∀ segments, fieldPath? text = some segments ↔ ∃ typed,
      IsDotted isLowerAscii segments typed (takeTail LineShape.isDottedChar text)) ∧
    (∀ (t : Tree) (p : Position), t.textBefore p = text → ∀ base fields typed,
      IsDotted isLowerAscii (base :: fields) typed (takeTail LineShape.isDottedChar text) →
        t.textTarget? p = some (.nested (some (.ofList base)) (fields.map String.ofList))) ∧
    (∀ groups, qualifiedName.Finds text groups ↔ ∃ segments typed,
      IsDotted isUpperAscii segments typed (takeTail LineShape.isDottedChar text) ∧
        groups = [segments.flatMap (· ++ ['.']), typed]) ∧
    (∀ qualifier, qualifier? text = some qualifier ↔ ∃ segments typed,
      IsDotted isUpperAscii segments typed (takeTail LineShape.isDottedChar text) ∧
        qualifier = segments.flatMap (· ++ ['.'])) ∧
    ∀ groups others, fieldAccess.Finds text groups → ¬ qualifiedName.Finds text others := by
  refine ⟨fun groups => finds_fieldAccess_iff,
    fun segments => dottedPath?_eq_some_iff fun _ => isWordChar_of_isLowerAscii, ?_,
    fun groups => finds_qualifiedName_iff, fun qualifier => qualifier?_eq_some_iff, ?_⟩
  · rintro t p rfl base fields typed hDotted
    exact hDotted.textTarget?
  · intro groups others hField hQualified
    obtain ⟨_, _, hLower, -⟩ := finds_fieldAccess_iff.mp hField
    obtain ⟨_, _, hUpper, -⟩ := finds_qualifiedName_iff.mp hQualified
    exact hLower.not_upper hUpper

/-- A path of two segments with a name begun behind it. -/
theorem finds_dottedName_path :
    Sample.typedPath.textBefore ⟨0, 17⟩ = "x = model.user.na".toList ∧
      fieldAccess.Finds "x = model.user.na".toList ["model.user".toList, "na".toList] ∧
      (∀ others, ¬ qualifiedName.Finds "x = model.user.na".toList others) ∧
      Sample.typedPath.textTarget? ⟨0, 17⟩ = some (.field (.value "model") "user") := by
  have hBefore : Sample.typedPath.textBefore ⟨0, 17⟩ = "x = model.user.na".toList := by
    decide +kernel
  have hDotted : IsDotted isLowerAscii ["model".toList, "user".toList] "na".toList
      (takeTail LineShape.isDottedChar "x = model.user.na".toList) := by
    refine ⟨by simp, ?_, List.all_eq_true.mp (by decide +kernel), by decide +kernel⟩
    simp only [List.forall_mem_cons]
    exact ⟨⟨'m', "odel".toList, rfl, List.all_eq_true.mp (by decide +kernel), rfl⟩,
      ⟨'u', "ser".toList, rfl, List.all_eq_true.mp (by decide +kernel), rfl⟩, by simp⟩
  obtain ⟨hField, -, hTarget, -, -, hApart⟩ := finds_dottedName "x = model.user.na".toList
  have hFound := (hField ["model.user".toList, "na".toList]).mpr ⟨_, _, hDotted, by decide +kernel⟩
  exact ⟨hBefore, hFound, fun others => hApart _ others hFound,
    hTarget Sample.typedPath ⟨0, 17⟩ hBefore _ _ _ hDotted⟩

end LineShape

end ElmScope
