import ElmScope.Completion.LineShape
import ElmScope.Proofs.Text.Pattern

/-! How names stand in a text. White space and punctuation are no word characters, so a
name is read up to the character that follows it, and is found again from behind. -/
namespace ElmScope

namespace Text

variable {c x : Char}

/-- White space is in no word. -/
theorem isWordChar_eq_false_of_isBlank (h : isBlank c = true) : isWordChar c = false := by
  have hCodes : ∀ n ∈ List.range' 9 5 ++ List.range' 0x2000 11 ++
      [0x20, 0x85, 0xA0, 0x1680, 0x2028, 0x2029, 0x202F, 0x205F, 0x3000],
      isWordChar (Char.ofNat n) = false := by decide +kernel
  rw [← Char.ofNat_toNat c]
  apply hCodes
  simp only [isBlank, Bool.or_eq_true, Bool.and_eq_true, decide_eq_true_eq] at h
  simp only [List.mem_append, List.mem_range'_1, List.mem_cons, List.not_mem_nil, or_false]
  omega

theorem isBlank_eq_false_of_isWordChar (h : isWordChar c = true) : isBlank c = false := by
  cases hBlank : isBlank c with
  | false => rfl
  | true => exact absurd h (by simp [isWordChar_eq_false_of_isBlank hBlank])

/-- The letters of ASCII are word characters. -/
theorem isWordChar_of_letter (h : c.toNat ∈ List.range' 65 26 ++ List.range' 97 26) :
    isWordChar c = true := by
  have hCodes : ∀ n ∈ List.range' 65 26 ++ List.range' 97 26,
      isWordChar (Char.ofNat n) = true := by decide +kernel
  rw [← Char.ofNat_toNat c]
  exact hCodes _ h

theorem isWordChar_of_isLowerAscii (h : isLowerAscii c = true) : isWordChar c = true := by
  simp only [isLowerAscii, Bool.and_eq_true, decide_eq_true_eq] at h
  have hLow : 97 ≤ c.toNat := h.1
  have hHigh : c.toNat ≤ 122 := h.2
  refine isWordChar_of_letter (List.mem_append_right _ (List.mem_range'_1.mpr ⟨hLow, ?_⟩))
  omega

theorem isWordChar_of_isUpperAscii (h : isUpperAscii c = true) : isWordChar c = true := by
  simp only [isUpperAscii, Bool.and_eq_true, decide_eq_true_eq] at h
  have hLow : 65 ≤ c.toNat := h.1
  have hHigh : c.toNat ≤ 90 := h.2
  refine isWordChar_of_letter (List.mem_append_left _ (List.mem_range'_1.mpr ⟨hLow, ?_⟩))
  omega

theorem ne_of_isWordChar (h : isWordChar c = true) (hx : isWordChar x = false) : c ≠ x := by
  rintro rfl
  exact absurd h (by simp [hx])

end Text

namespace LineShape

open Text

variable {name typed : List Char}

/-- What is read behind a word stands behind it. -/
theorem after?_eq_some {word text rest : List Char} (h : after? word text = some rest) :
    text = word ++ rest := by
  induction word generalizing text with
  | nil => exact Option.some.inj h
  | cons w word ih =>
      cases text with
      | nil => cases h
      | cons c text =>
          rw [after?] at h
          split at h
          · next hSame => rw [ih h, hSame, List.cons_append]
          · cases h

/-- A word is not read from a text that does not begin with it. -/
theorem word?_eq_none {word : String} {text : List Char} (h : ¬ word.toList <+: text) :
    word? word text = none := by
  rw [Option.eq_none_iff_forall_ne_some]
  intro rest hRest
  exact h ⟨rest, (after?_eq_some hRest).symm⟩

def IsBlanks (text : List Char) : Prop := text ≠ [] ∧ ∀ c ∈ text, isBlank c = true

variable {word : String} {text rest : List Char} {first more : Char → Bool}

theorem dropWhile_append {test : Char → Bool} {a b : List Char} (ha : ∀ c ∈ a, test c = true)
    (hb : ∀ c ∈ b.head?, test c = false) : (a ++ b).dropWhile test = b := by
  rw [List.dropWhile_append_of_pos ha]
  cases b with
  | nil => rfl
  | cons c b => rw [List.dropWhile_cons, hb c rfl]; rfl

theorem head?_dropWhile {test : Char → Bool} {a : List Char} :
    ∀ c ∈ (a.dropWhile test).head?, test c = false := by
  intro c hc
  have hHead := List.head?_dropWhile_not test a
  rw [Option.mem_def.mp hc] at hHead
  simpa using hHead

theorem word?_eq_some_iff : word? word text = some rest ↔ text = word.toList ++ rest := by
  refine ⟨after?_eq_some, ?_⟩
  rintro rfl
  rw [word?]
  induction word.toList with
  | nil => rfl
  | cons w word ih => rw [List.cons_append, after?, if_pos rfl, ih]

/-- White space is read as far as it goes. -/
theorem blanks?_eq_some_iff : blanks? text = some rest ↔
    ∃ blanks, IsBlanks blanks ∧ text = blanks ++ rest ∧ ∀ c ∈ rest.head?, isBlank c = false := by
  constructor
  · intro h
    cases text with
    | nil => cases h
    | cons c text =>
        obtain ⟨hBlank, hRest⟩ := Option.ite_none_right_eq_some.mp h
        obtain rfl := Option.some.inj hRest
        refine ⟨c :: text.takeWhile isBlank, ⟨List.cons_ne_nil _ _, ?_⟩, ?_, head?_dropWhile⟩
        · exact List.forall_mem_cons.mpr ⟨hBlank, fun x => List.mem_takeWhile_imp⟩
        · rw [List.cons_append, List.takeWhile_append_dropWhile]
  · rintro ⟨blanks, ⟨hNe, hBlanks⟩, rfl, hRest⟩
    cases blanks with
    | nil => exact absurd rfl hNe
    | cons c blanks =>
        obtain ⟨hBlank, hBlanks⟩ := List.forall_mem_cons.mp hBlanks
        rw [List.cons_append, blanks?, if_pos hBlank, dropWhile_append hBlanks hRest]

/-- A name is read as far as its characters go. -/
theorem name?_eq_some_iff : name? first more text = some (name, rest) ↔
    name ∈ Pattern.names first more ∧ text = name ++ rest ∧ ∀ c ∈ rest.head?, more c = false := by
  constructor
  · intro h
    cases text with
    | nil => cases h
    | cons c text =>
        obtain ⟨hFirst, hParts⟩ := Option.ite_none_right_eq_some.mp h
        obtain ⟨rfl, rfl⟩ := Prod.mk.inj (Option.some.inj hParts)
        refine ⟨⟨c, _, hFirst, fun x => List.mem_takeWhile_imp, rfl⟩, ?_, head?_dropWhile⟩
        rw [List.cons_append, List.takeWhile_append_dropWhile]
  · rintro ⟨⟨c, tail, hFirst, hMore, rfl⟩, rfl, hRest⟩
    have hDrop := dropWhile_append hMore hRest
    have hTake := List.takeWhile_append_dropWhile (p := more) (l := tail ++ rest)
    rw [hDrop] at hTake
    rw [List.cons_append, name?, if_pos hFirst, hDrop, List.append_cancel_right hTake]

theorem mark?_eq_some_iff {mark : Char} : mark? mark text = some rest ↔ text = mark :: rest := by
  cases text with
  | nil => simp [mark?]
  | cons c text => simp [mark?, eq_comm]

/-- The names of values: a lower-case letter of ASCII, and word characters. -/
def IsName (name : List Char) : Prop :=
  ∃ first more, name = first :: more ∧ isLowerAscii first = true ∧
    ∀ c ∈ more, isWordChar c = true

theorem IsName.isWordChar (h : IsName name) : ∀ c ∈ name, isWordChar c = true := by
  obtain ⟨first, more, rfl, hFirst, hMore⟩ := h
  intro c hc
  rcases List.mem_cons.mp hc with rfl | hc
  · exact isWordChar_of_isLowerAscii hFirst
  · exact hMore c hc

/-- A name is read up to a character that is in no word. -/
theorem IsName.valueName? (h : IsName name) {rest : List Char}
    (hRest : ∀ c ∈ rest.head?, Text.isWordChar c = false) :
    valueName? (name ++ rest) = some (name, rest) := by
  obtain ⟨first, more, rfl, hFirst, hMore⟩ := h
  exact name?_eq_some_iff.mpr ⟨⟨first, more, hFirst, hMore, rfl⟩, rfl, hRest⟩

theorem IsName.valueName?_self (h : IsName name) : LineShape.valueName? name = some (name, []) := by
  have hRest : ∀ c ∈ ([] : List Char).head?, Text.isWordChar c = false := by simp
  have hAll := h.valueName? hRest
  rwa [List.append_nil] at hAll

theorem IsName.isValueName (h : IsName name) : isValueName name = true := by
  rw [LineShape.isValueName, h.valueName?_self]
  rfl

/-- No white space begins a text of word characters. -/
theorem dropWhile_isBlank_of_isWordChar (h : ∀ c ∈ typed.head?, isWordChar c = true) :
    typed.dropWhile isBlank = typed := by
  cases typed with
  | nil => rfl
  | cons c rest =>
      rw [List.dropWhile_cons, isBlank_eq_false_of_isWordChar (h c rfl)]
      rfl

theorem trimEnd_of_isWordChar (h : ∀ c ∈ typed.getLast?, isWordChar c = true) :
    trimEnd typed = typed :=
  dropTail_eq_self fun c hc => isBlank_eq_false_of_isWordChar (h c hc)

/-- `field =` is found at the end of a text, behind a character that is in no word. -/
theorem IsName.fieldBefore? (h : IsName name) {outer : List Char}
    (hOuter : ∀ c ∈ outer.getLast?, Text.isWordChar c = false) :
    fieldBefore? (outer ++ name ++ [' ', '=']) = some (outer, name) := by
  have hWord := h.isWordChar
  obtain ⟨first, more, rfl, hFirst, -⟩ := h
  have hHead : trimEnd (outer ++ first :: more ++ [' ']) = outer ++ first :: more := by
    refine dropTail_append (List.forall_mem_singleton.mpr rfl) fun c hc =>
      isBlank_eq_false_of_isWordChar (hWord c ?_)
    rw [List.getLast?_append, List.getLast?_cons, Option.some_or, ← List.getLast?_cons] at hc
    exact List.mem_of_getLast? hc
  have hEnd : outer ++ first :: more ++ [' ', '='] = outer ++ first :: more ++ [' '] ++ ['='] := by
    simp
  rw [LineShape.fieldBefore?, hEnd, List.getLast?_concat, if_pos rfl, List.dropLast_concat, hHead]
  simp only [takeTail_append hWord hOuter, dropTail_append hWord hOuter]
  simp [hFirst]

end LineShape

end ElmScope
