import ElmScope.Completion.RecordTarget
import ElmScope.Proofs.Completion.LineShape
import ElmScope.Proofs.Completion.Scan

/-! Where the name of a field is being written. The open brace of the record is found by what is
code, but the last separator in the body of the record is found by what the characters are, also
in comments and literals. So a separator or a bracket in one of these can begin a field where
there is none, and where none stands there the field is the one that the code has. -/
namespace ElmScope

open Text

namespace Braces

def isMark (c : Char) : Bool :=
  c = '\x7b' || c = '\x7d' || c = '-' || c = '"' || c = '\'' || c = '\\'

def endRegion (text : List Char) : Region := (scan .code text).2

def codeIn (text : List Char) : List Char := codeOf (scan .code text).1

def isOpening (c : Char) : Bool := c = '(' || c = '[' || c = '\x7b'

def isClosing (c : Char) : Bool := c = ')' || c = ']' || c = '\x7d'

def bracketDepth (text : List Char) : Int := text.countP isOpening - text.countP isClosing

/-- A comma, or the bar behind the base of an update. -/
def IsDivider (before : List Char) (c : Char) (after : List Char) : Prop :=
  c = ',' ∨ c = '|' ∧ isUpdateBar before.getLast? after.head? = true

/-- A separator of a record's body as it is counted, with all brackets that stand before it. -/
def Counts (before : List Char) (c : Char) (after : List Char) : Prop :=
  bracketDepth before = 0 ∧ IsDivider before c after

/-- A separator of a record's body: in code, and with all brackets of the code closed. -/
def Separates (before : List Char) (c : Char) (after : List Char) : Prop :=
  endRegion before = .code ∧ bracketDepth (codeIn before) = 0 ∧ IsDivider before c after

/-- A part of a body up to its end that begins with the body or behind a separator. -/
inductive BeginsSegment (P : List Char → Char → List Char → Prop) (body : List Char) :
    List Char → Prop where
  | whole : BeginsSegment P body body
  | behind {before after : List Char} {c : Char} (hBody : body = before ++ c :: after)
      (h : P before c after) : BeginsSegment P body after

/-- The part behind the last separator. -/
structure IsLastSegment (P : List Char → Char → List Char → Prop) (body segment : List Char) :
    Prop where
  begins : BeginsSegment P body segment
  length_le : ∀ other, BeginsSegment P body other → segment.length ≤ other.length

/-- No separator and no bracket of a text stands in a comment or a literal. -/
def IsQuiet (text : List Char) : Prop := (codeIn text).filter isSeparator = text.filter isSeparator

instance (text : List Char) : Decidable (IsQuiet text) :=
  inferInstanceAs (Decidable (_ = _))

variable {region : Region} {text a b body front rest segment : List Char} {c : Char}
  {P : List Char → Char → List Char → Prop}

/-! The region in which a text that is put together ends. -/

theorem append_ne_cons (hCut : ∀ c ∈ b.head?, isMark c = false) {mark : Char}
    (hMark : isMark mark = true) (h : ∀ rest, a = mark :: rest → False) :
    ∀ rest, a ++ b = mark :: rest → False := by
  intro rest hText
  cases a with
  | nil =>
      have hHead : mark ∈ b.head? := by
        rw [← List.nil_append b, hText]
        rfl
      exact absurd (hCut mark hHead) (by simp [hMark])
  | cons x a =>
      obtain ⟨rfl, -⟩ := List.cons.inj hText
      exact h a rfl

/-- A character of a literal is read alone, also a backslash at the end of a part, since no mark
stands behind it that it could take along. -/
theorem IsLiteral.scan_append {mark : Char} (hLiteral : IsLiteral region mark)
    (hMark : isMark mark = true) (hCut : ∀ c ∈ b.head?, isMark c = false)
    (hRest : ∀ x more, c = '\\' → a = x :: more → False) :
    scan region (c :: (a ++ b)) = skip [c] (scan (if c = mark then .code else region) (a ++ b)) := by
  by_cases hc : c = '\\'
  · subst hc
    obtain rfl : a = [] := by
      cases a with
      | nil => rfl
      | cons x more => exact (hRest x more rfl rfl).elim
    rw [List.nil_append, if_neg hLiteral.mark_ne.symm]
    cases b with
    | nil => rw [hLiteral.plain _ _ fun _ => rfl, if_neg hLiteral.mark_ne.symm]
    | cons x more =>
        have hNotMark : isMark x = false := hCut x rfl
        have hNoEscape : x ≠ '\\' := by
          rintro rfl
          exact absurd hNotMark (by decide)
        have hOther : x ≠ mark := by
          rintro rfl
          exact absurd hMark (by simp [hNotMark])
        rw [hLiteral.escape, hLiteral.plain x more fun h => absurd h hNoEscape, if_neg hOther]
        simp [skip]
  · exact hLiteral.plain c _ fun h => absurd h hc

/-- A text is scanned in two parts, if the second does not begin with a mark. -/
theorem scan_append (hCut : ∀ c ∈ b.head?, isMark c = false) (region : Region) (a : List Char) :
    scan region (a ++ b) =
      ((scan region a).1 ++ (scan (scan region a).2 b).1, (scan (scan region a).2 b).2) := by
  fun_induction scan region a with
  | case1 => rfl
  | case4 depth rest ih =>
      cases depth <;>
      · rw [List.cons_append, List.cons_append, scan, ih]
        simp [skip]
  | case5 depth c rest hOpen hClose ih =>
      rw [List.cons_append, scan, ih]
      · simp [skip]
      · exact fun more hc => append_ne_cons hCut (by decide) (fun rest => hOpen rest hc) more
      · exact fun more hc => append_ne_cons hCut (by decide) (fun rest => hClose rest hc) more
  | case7 c rest hEscape ih =>
      rw [List.cons_append, isLiteral_string.scan_append (by decide) hCut hEscape, ih]
      simp [skip]
  | case9 c rest hEscape ih =>
      rw [List.cons_append, isLiteral_character.scan_append (by decide) hCut hEscape, ih]
      simp [skip]
  | case14 c rest hBlock hLine hString hCharacter ih =>
      rw [List.cons_append, scan, ih]
      · simp
      · exact fun more hc => append_ne_cons hCut (by decide) (fun rest => hBlock rest hc) more
      · exact fun more hc => append_ne_cons hCut (by decide) (fun rest => hLine rest hc) more
      · exact hString
      · exact hCharacter
  | _ =>
      rename_i ih
      simp [scan, ih, skip]

theorem ne_of_isMark {mark : Char} (h : isMark c = false) (hMark : isMark mark = true) :
    c ≠ mark := by
  rintro rfl
  exact absurd hMark (by simp [h])

theorem scan_code_cons (h : isMark c = false) (rest : List Char) :
    scan .code (c :: rest) = (⟨c, true⟩ :: (scan .code rest).1, (scan .code rest).2) := by
  rw [scan]
  · exact fun _ hc => absurd hc (ne_of_isMark h (by decide))
  · exact fun _ hc => absurd hc (ne_of_isMark h (by decide))
  · exact ne_of_isMark h (by decide)
  · exact ne_of_isMark h (by decide)

/-- Outside of code a character that is no mark is passed over, and ends at most a line comment. -/
theorem scan_cons (h : isMark c = false) (hRegion : region ≠ .code) (rest : List Char) :
    scan region (c :: rest) =
      skip [c] (scan (if region = .lineComment ∧ c = '\n' then .code else region) rest) := by
  cases region with
  | code => exact absurd rfl hRegion
  | lineComment => simp [scan]
  | blockComment depth =>
      rw [scan]
      · simp
      · exact fun _ hc => absurd hc (ne_of_isMark h (by decide))
      · exact fun _ hc => absurd hc (ne_of_isMark h (by decide))
  | string =>
      rw [isLiteral_string.plain c rest fun hc => absurd hc (ne_of_isMark h (by decide)),
        if_neg (ne_of_isMark h (by decide))]
      simp
  | character =>
      rw [isLiteral_character.plain c rest fun hc => absurd hc (ne_of_isMark h (by decide)),
        if_neg (ne_of_isMark h (by decide))]
      simp

/-- Text without marks stays in its region, unless it ends a line comment. -/
theorem scan_snd_of_not_isMark (h : ∀ c ∈ text, isMark c = false) :
    (scan region text).2 = region ∨ region = .lineComment ∧ (scan region text).2 = .code := by
  induction text generalizing region with
  | nil => exact .inl rfl
  | cons c rest ih =>
      obtain ⟨hc, hRest⟩ := List.forall_mem_cons.mp h
      by_cases hRegion : region = .code
      · subst hRegion
        rw [scan_code_cons hc]
        exact ih hRest
      · rw [scan_cons hc hRegion, skip_snd]
        split
        · next hEnd =>
          refine .inr ⟨hEnd.1, ?_⟩
          rcases ih hRest with hCode | ⟨hLine, -⟩
          · exact hCode
          · cases hLine
        · exact ih hRest

/-! The last segment of a body. -/

/-- Where one sort of separator is also of another sort, a part behind the one is a part behind
the other. -/
theorem BeginsSegment.mono {Q : List Char → Char → List Char → Prop}
    (hImp : ∀ before c after, body = before ++ c :: after → P before c after → Q before c after)
    (h : BeginsSegment P body segment) : BeginsSegment Q body segment := by
  cases h with
  | whole => exact .whole
  | behind hBody h => exact .behind hBody (hImp _ _ _ hBody h)

theorem BeginsSegment.isSuffix (h : BeginsSegment P body segment) : segment <:+ body := by
  cases h with
  | whole => exact List.suffix_refl body
  | @behind before after c hBody h =>
      rw [hBody]
      exact (List.suffix_cons c segment).trans (List.suffix_append before _)

def Within (length : Nat) (P : List Char → Char → List Char → Prop) (before : List Char) (c : Char)
    (after : List Char) : Prop :=
  before.length < length ∧ P before c after

/-- One character further on, the character begins a segment if it is a separator. -/
theorem IsLastSegment.step (hBody : body = front ++ c :: rest)
    (h : IsLastSegment (Within front.length P) body segment) :
    (P front c rest → IsLastSegment (Within (front.length + 1) P) body rest) ∧
      (¬ P front c rest → IsLastSegment (Within (front.length + 1) P) body segment) := by
  constructor
  · intro hP
    refine ⟨.behind hBody ⟨Nat.lt_succ_self _, hP⟩, fun other hOther => ?_⟩
    cases hOther with
    | whole => simp [hBody]; omega
    | behind hOther hWithin =>
        have hLength := congrArg List.length (hBody.symm.trans hOther)
        have hBefore := hWithin.1
        simp only [List.length_append, List.length_cons] at hLength
        omega
  · intro hP
    refine ⟨h.begins.mono fun _ _ _ _ hWithin => ⟨Nat.lt_succ_of_lt hWithin.1, hWithin.2⟩,
      fun other hOther => ?_⟩
    cases hOther with
    | whole => exact h.length_le _ .whole
    | behind hOther hWithin =>
        rcases Nat.lt_succ_iff_lt_or_eq.mp hWithin.1 with hBefore | hHere
        · exact h.length_le _ (.behind hOther ⟨hBefore, hWithin.2⟩)
        · obtain ⟨rfl, hRest⟩ := List.append_inj (hBody.symm.trans hOther) hHere.symm
          obtain ⟨rfl, rfl⟩ := List.cons.inj hRest
          exact absurd hWithin.2 hP

/-- A character changes the depth by what it opens or closes. -/
theorem bracketDepth_concat (front : List Char) (c : Char) :
    bracketDepth (front ++ [c]) =
      bracketDepth front + (if isOpening c then 1 else 0) - (if isClosing c then 1 else 0) := by
  simp only [bracketDepth, List.countP_append, List.countP_singleton]
  split <;> split <;> simp <;> omega

theorem isClosing_eq_false (h : isOpening c = true) : isClosing c = false := by
  simp only [isOpening, Bool.or_eq_true, decide_eq_true_eq] at h
  rcases h with (rfl | rfl) | rfl <;> rfl

/-- A bracket is never a separator that counts. -/
theorem not_counts_of_bracket (h : isOpening c = true ∨ isClosing c = true) :
    ¬ Counts front c rest := by
  rintro ⟨-, rfl | ⟨rfl, -⟩⟩ <;> exact absurd h (by decide)

/-- Walking through a body keeps the last segment of what is passed, by induction on the rest. -/
theorem isLastSegment_segmentFrom (hBody : body = front ++ rest)
    (h : IsLastSegment (Within front.length Counts) body segment) :
    IsLastSegment Counts body
      (segmentFrom (bracketDepth front) front.getLast? segment rest) := by
  induction rest generalizing front segment with
  | nil =>
      refine ⟨h.begins.mono fun _ _ _ _ hWithin => hWithin.2, fun other hOther => ?_⟩
      refine h.length_le other (hOther.mono fun before c after hSplit hCounts => ⟨?_, hCounts⟩)
      have hLength := congrArg List.length (hBody.symm.trans hSplit)
      simp at hLength
      omega
  | cons c rest ih =>
      have hNext : body = (front ++ [c]) ++ rest := by simp [hBody]
      have hLast : (front ++ [c]).getLast? = some c := List.getLast?_concat
      have hLength : (front ++ [c]).length = front.length + 1 := by simp
      obtain ⟨hSplit, hStay⟩ := h.step hBody
      have hOn := fun {next} => @ih (front ++ [c]) next hNext
      rw [hLast, hLength, bracketDepth_concat] at hOn
      rw [segmentFrom]
      change IsLastSegment Counts body (if isOpening c = true then _ else
        if isClosing c = true then _ else _)
      by_cases hOpening : isOpening c = true
      · have hClosing := isClosing_eq_false hOpening
        rw [if_pos hOpening]
        simpa [hOpening, hClosing] using hOn (hStay (not_counts_of_bracket (.inl hOpening)))
      · by_cases hClosing : isClosing c = true
        · rw [if_neg hOpening, if_pos hClosing]
          simpa [hOpening, hClosing] using hOn (hStay (not_counts_of_bracket (.inr hClosing)))
        · rw [if_neg hOpening, if_neg hClosing]
          simp only [hOpening, hClosing, Bool.false_eq_true, if_false, Int.add_zero,
            Int.sub_zero] at hOn
          split
          · next hCounts => exact hOn (hSplit (by simpa [Counts, IsDivider] using hCounts))
          · next hCounts => exact hOn (hStay (by simpa [Counts, IsDivider] using hCounts))

/-- The current segment is what stands behind the last separator that counts. -/
theorem isLastSegment_currentSegment (body : List Char) :
    IsLastSegment Counts body (currentSegment body) := by
  have hBody : body = [] ++ body := rfl
  refine isLastSegment_segmentFrom hBody ⟨.whole, fun other hOther => ?_⟩
  cases hOther with
  | whole => exact Nat.le_refl _
  | behind hSplit hWithin => exact absurd hWithin.1 (Nat.not_lt_zero _)

/-- A last segment of the code is within every segment of the code. -/
theorem IsLastSegment.isSuffix {other : List Char} (h : IsLastSegment P body segment)
    (hOther : BeginsSegment P body other) : segment <:+ other := by
  rcases List.suffix_or_suffix_of_suffix h.begins.isSuffix hOther.isSuffix with hInside | hOutside
  · exact hInside
  · rw [hOutside.eq_of_length_le (h.length_le _ hOther)]

theorem isMark_of_isDivider (h : IsDivider front c rest) : isMark c = false := by
  rcases h with rfl | ⟨rfl, -⟩ <;> rfl

/-- Behind a divider a text is scanned in the region of the divider. -/
theorem scan_isDivider (h : IsDivider front c rest) (region : Region) :
    scan region (front ++ c :: rest) =
      ((scan region front).1 ++ (scan (scan region front).2 (c :: rest)).1,
        (scan (scan region front).2 (c :: rest)).2) := by
  refine scan_append ?_ region front
  rintro x ⟨⟩
  exact isMark_of_isDivider h

/-- Text without marks behind a divider ends in the region of the divider, or in code. -/
theorem endRegion_isDivider (h : IsDivider front c segment)
    (hSegment : ∀ c ∈ segment, isMark c = false) :
    endRegion (front ++ c :: segment) = endRegion front ∨
      endRegion (front ++ c :: segment) = .code := by
  have hAll : ∀ x ∈ c :: segment, isMark x = false :=
    List.forall_mem_cons.mpr ⟨isMark_of_isDivider h, hSegment⟩
  rw [endRegion, scan_isDivider h, ← endRegion]
  exact (scan_snd_of_not_isMark hAll).imp_right And.right

/-- Text without marks behind code ends in code. -/
theorem endRegion_of_begins (hSegment : ∀ c ∈ segment, isMark c = false)
    (h : BeginsSegment Separates body segment) : endRegion body = .code := by
  cases h with
  | whole => exact (scan_snd_of_not_isMark hSegment).elim id And.right
  | behind hBody h =>
      rw [hBody]
      exact (endRegion_isDivider h.2.2 hSegment).elim (·.trans h.1) id

/-- A body that ends with text without marks ends in a comment or a literal only if the divider
before this text stands there. -/
theorem endRegion_of_counts (hSegment : ∀ c ∈ segment, isMark c = false)
    (h : BeginsSegment Counts body segment) (hEnd : endRegion body ≠ .code) :
    ∃ before c, body = before ++ c :: segment ∧ Counts before c segment ∧
      endRegion before = endRegion body := by
  cases h with
  | whole => exact absurd ((scan_snd_of_not_isMark hSegment).elim id And.right) hEnd
  | @behind before after c hBody h =>
      refine ⟨before, c, hBody, h, ?_⟩
      rw [hBody] at hEnd ⊢
      exact ((endRegion_isDivider h.2 hSegment).resolve_right hEnd).symm

/-- The code of a text is left of it in the same order. -/
theorem codeOf_sublist (region : Region) (text : List Char) :
    (codeOf (scan region text).1).Sublist text := by
  have hAll := (List.filter_sublist (p := (·.isCode)) (l := (scan region text).1)).map (·.char)
  rwa [map_char_scan] at hAll

/-- Outside of code a divider is left out. -/
theorem codeOf_isDivider (h : IsDivider front c rest) (hRegion : region ≠ .code) :
    (codeOf (scan region (c :: rest)).1).Sublist rest := by
  rw [scan_cons (isMark_of_isDivider h) hRegion]
  exact codeOf_sublist _ rest

theorem isSeparator_of_bracket (h : isOpening c = true ∨ isClosing c = true) :
    isSeparator c = true := by
  simp only [isOpening, isClosing, Bool.or_eq_true, decide_eq_true_eq] at h
  rcases h with ((rfl | rfl) | rfl) | (rfl | rfl) | rfl <;> rfl

theorem isSeparator_of_isDivider (h : IsDivider front c rest) : isSeparator c = true := by
  rcases h with rfl | ⟨rfl, -⟩ <;> rfl

/-- The depth of brackets is told by the separators and brackets of a text. -/
theorem bracketDepth_filter (text : List Char) :
    bracketDepth (text.filter isSeparator) = bracketDepth text := by
  have hOpening : ∀ c ∈ text, (isOpening c && isSeparator c) = true ↔ isOpening c = true := by
    intro c _
    rw [Bool.and_eq_true, and_iff_left_iff_imp]
    exact fun h => isSeparator_of_bracket (.inl h)
  have hClosing : ∀ c ∈ text, (isClosing c && isSeparator c) = true ↔ isClosing c = true := by
    intro c _
    rw [Bool.and_eq_true, and_iff_left_iff_imp]
    exact fun h => isSeparator_of_bracket (.inr h)
  rw [bracketDepth, bracketDepth, List.countP_filter, List.countP_filter,
    List.countP_congr hOpening, List.countP_congr hClosing]

/-- Where no separator and no bracket stands in a comment or a literal, a separator that is counted
is one of the code. A divider that were passed over would be missing in the code. -/
theorem begins_of_isQuiet (hQuiet : IsQuiet body) (h : BeginsSegment Counts body segment) :
    BeginsSegment Separates body segment := by
  cases h with
  | whole => exact .whole
  | @behind before after c hBody h =>
      refine .behind hBody ?_
      rw [IsQuiet, hBody, codeIn, scan_isDivider h.2, codeOf_append, List.filter_append,
        List.filter_append] at hQuiet
      have hBefore := (codeOf_sublist .code before).filter isSeparator
      have hBehind := (codeOf_sublist (scan .code before).2 (c :: segment)).filter isSeparator
      have hLength := congrArg List.length hQuiet
      simp only [List.length_append] at hLength
      have hBeforeLe := hBefore.length_le
      have hBehindLe := hBehind.length_le
      refine ⟨?_, ?_, h.2⟩
      · by_contra hRegion
        have hMissing := ((codeOf_isDivider h.2 hRegion).filter isSeparator).length_le
        rw [List.filter_cons_of_pos (isSeparator_of_isDivider h.2), List.length_cons] at hLength
        rw [endRegion] at hMissing
        omega
      · rw [← bracketDepth_filter, codeIn, hBefore.eq_of_length (by omega), bracketDepth_filter]
        exact h.1

end Braces

namespace LineShape

open Braces

variable {text body : List Char} {target : RecordTarget} {c : Char}

/-- Behind the last separator stand white space and at most the beginning of a name. -/
theorem isBlank_or_isWordChar_of_isAtFieldName (h : isAtFieldName body = true)
    (hc : c ∈ currentSegment body) : isBlank c = true ∨ isWordChar c = true := by
  rw [isAtFieldName, Bool.and_eq_true, Bool.or_eq_true] at h
  rw [← List.takeWhile_append_dropWhile (p := isBlank) (l := currentSegment body),
    ← dropTail_append_takeTail isBlank ((currentSegment body).dropWhile isBlank)] at hc
  rcases List.mem_append.mp hc with hFront | hc
  · exact .inl (List.mem_takeWhile_imp hFront)
  rcases List.mem_append.mp hc with hName | hEnd
  · rcases h.2 with hEmpty | hValue
    · rw [List.isEmpty_iff, trim, trimEnd] at hEmpty
      simp [hEmpty] at hName
    · rw [isValueName, Option.any_eq_true] at hValue
      obtain ⟨⟨name, rest⟩, hRead, hRest⟩ := hValue
      obtain ⟨⟨first, more, hFirst, hMore, rfl⟩, hTrim, -⟩ := name?_eq_some_iff.mp hRead
      obtain rfl := List.isEmpty_iff.mp hRest
      rw [List.append_nil, trim, trimEnd] at hTrim
      have hIsName : IsName (first :: more) := ⟨first, more, rfl, hFirst, hMore⟩
      exact .inr (hIsName.isWordChar c (hTrim ▸ hName))
  · exact .inl (of_mem_takeTail hEnd)

/-- White space and the characters of names are neither marks nor an equals sign. -/
theorem isMark_eq_false_and_ne (h : isBlank c = true ∨ isWordChar c = true) :
    isMark c = false ∧ c ≠ '=' := by
  have hOthers : ['\x7b', '\x7d', '-', '"', '\'', '\\', '='].all
      (fun x => !(isBlank x || isWordChar x)) = true := by decide +kernel
  have hNot : c ∉ ['\x7b', '\x7d', '-', '"', '\'', '\\', '='] := by
    intro hc
    have hNeither := List.all_eq_true.mp hOthers c hc
    rcases h with h | h <;> simp [h] at hNeither
  simpa [isMark, and_assoc] using hNot

/-- A record is recognised only behind an open brace whose body ends where a field's name may. -/
theorem exists_body_of_recordTarget? (h : recordTarget? text = some target) :
    ∃ outer body, text = outer ++ '\x7b' :: body ∧
      (unmatched text).getLast? = some (byteLength outer) ∧ endRegion text = endRegion body ∧
      isAtFieldName body = true := by
  rw [recordTarget?] at h
  split at h
  · cases h
  · next brace hLast =>
    obtain ⟨pre, post, hScanned, hBrace, -⟩ := mem_unmatched_iff.mp (List.mem_of_getLast? hLast)
    obtain ⟨body, hText, hBody⟩ := exists_of_scan hScanned
    have hOuter : byteLength (pre.map (·.char) ++ ['\x7b']) = brace + 1 := by
      rw [hBrace, byteLength_append, Nat.zero_add]
      rfl
    have hSplit : text = pre.map (·.char) ++ ['\x7b'] ++ body := by simp [hText]
    have hDrop : dropBytes (brace + 1) text = body := by
      rw [← hOuter, hSplit, dropBytes_byteLength]
    refine ⟨_, body, hText, ?_, ?_, ?_⟩
    · rw [hLast, hBrace, Nat.zero_add]
    · rw [endRegion, endRegion, hBody]
    · by_contra hNot
      simp [hDrop, hNot] at h

/-- A record is recognised only behind an open brace. The part of its body behind the last
separator that is counted has white space and at most the beginning of a name. A body that ends in
a comment or a literal has this separator there. Where the part begins as one of the code does, the
text ends in code, and no equals sign stands behind the last separator of the code. So it does
where no separator and no bracket of the body stands in a comment or a literal. -/
theorem recordTarget?_field (text : List Char) (target : RecordTarget)
    (h : recordTarget? text = some target) :
    ∃ outer body, text = outer ++ '\x7b' :: body ∧
      (unmatched text).getLast? = some (byteLength outer) ∧ endRegion text = endRegion body ∧
      (∀ c ∈ currentSegment body, isBlank c = true ∨ isWordChar c = true) ∧
      (endRegion text ≠ .code → ∃ before c, body = before ++ c :: currentSegment body ∧
        Counts before c (currentSegment body) ∧ endRegion before = endRegion text) ∧
      (BeginsSegment Separates body (currentSegment body) → endRegion text = .code ∧
        ∀ segment, IsLastSegment Separates body segment → '=' ∉ segment) ∧
      (IsQuiet body → BeginsSegment Separates body (currentSegment body)) := by
  obtain ⟨outer, body, hText, hLast, hEnd, hField⟩ := exists_body_of_recordTarget? h
  have hPart : ∀ c ∈ currentSegment body, isBlank c = true ∨ isWordChar c = true :=
    fun c => isBlank_or_isWordChar_of_isAtFieldName hField
  have hNoMark : ∀ c ∈ currentSegment body, isMark c = false :=
    fun c hc => (isMark_eq_false_and_ne (hPart c hc)).1
  have hCounted := (isLastSegment_currentSegment body).begins
  refine ⟨outer, body, hText, hLast, hEnd, hPart, ?_, fun hBegins => ⟨?_, ?_⟩, fun hQuiet => ?_⟩
  · rw [hEnd]
    exact endRegion_of_counts hNoMark hCounted
  · rw [hEnd]
    exact endRegion_of_begins hNoMark hBegins
  · intro segment hSegment hEquals
    exact (isMark_eq_false_and_ne (hPart '=' ((hSegment.isSuffix hBegins).subset hEquals))).2 rfl
  · exact begins_of_isQuiet hQuiet hCounted

/-- The second field of a record, behind a string. -/
theorem recordTarget?_field_second :
    let text := "\x7b a = \"x\", b".toList
    recordTarget? text = some .literal ∧ ∃ outer body, text = outer ++ '\x7b' :: body ∧
      endRegion text = .code ∧ ∀ segment, IsLastSegment Separates body segment → '=' ∉ segment := by
  intro text
  have hTarget : recordTarget? text = some .literal := by decide +kernel
  obtain ⟨outer, body, hText, hLast, -, -, -, hSegment, hQuiet⟩ :=
    recordTarget?_field text .literal hTarget
  have hOnly : unmatched text = [0] := by decide +kernel
  rw [hOnly] at hLast
  obtain rfl : outer = [] := by
    cases outer with
    | nil => rfl
    | cons c outer =>
        have := c.utf8Size_pos
        simp [byteLength] at hLast
        omega
  obtain rfl : body = " a = \"x\", b".toList := (List.cons.inj hText).2.symm
  exact ⟨hTarget, [], _, rfl, hSegment (hQuiet (by decide +kernel))⟩

/-- Behind a comma in a string, in which the text ends, a field is recognised. -/
theorem recordTarget?_field_unclosed :
    recordTarget? "\x7b x = \"a, ".toList = some .literal ∧
      endRegion "\x7b x = \"a, ".toList = .string := by
  decide +kernel

end LineShape

end ElmScope
