import Mathlib.Computability.Language
import ElmScope.Proofs.Text.Tail

/-! Regular expressions that are searched for in a text. What an expression reads depends on the
text around it only through its anchors, so a part without anchors reads the words of a language,
and an expression that reaches the end of a text from a character of another class reads the
longest tail of its own class. -/
namespace ElmScope.Text

inductive Pattern where
  /-- The beginning of the text. -/
  | start
  /-- The end of the text. -/
  | stop
  /-- A character of a class. -/
  | one (test : Char → Bool)
  | both (first second : Pattern)
  | either (first second : Pattern)
  /-- Any number of repetitions. -/
  | many (repeated : Pattern)
  /-- A part whose text is kept. -/
  | group (inner : Pattern)

namespace Pattern

/-- What an expression reads between two parts of a text, and what its groups read, in the order
in which they open. -/
inductive Reads : Pattern → List Char → List Char → List Char → List (List Char) → Prop where
  | start (rest : List Char) : Reads .start [] [] rest []
  | stop (front : List Char) : Reads .stop front [] [] []
  | one {test : Char → Bool} {c : Char} (hTest : test c = true) (front rest : List Char) :
      Reads (.one test) front [c] rest []
  | both {p q : Pattern} {front a b rest : List Char} {first second : List (List Char)}
      (hFirst : Reads p front a (b ++ rest) first) (hSecond : Reads q (front ++ a) b rest second) :
      Reads (.both p q) front (a ++ b) rest (first ++ second)
  | left {p q : Pattern} {front inside rest : List Char} {groups : List (List Char)}
      (h : Reads p front inside rest groups) : Reads (.either p q) front inside rest groups
  | right {p q : Pattern} {front inside rest : List Char} {groups : List (List Char)}
      (h : Reads q front inside rest groups) : Reads (.either p q) front inside rest groups
  | done (p : Pattern) (front rest : List Char) : Reads (.many p) front [] rest []
  | again {p : Pattern} {front a b rest : List Char} {first more : List (List Char)}
      (hFirst : Reads p front a (b ++ rest) first)
      (hMore : Reads (.many p) (front ++ a) b rest more) :
      Reads (.many p) front (a ++ b) rest (first ++ more)
  | group {p : Pattern} {front inside rest : List Char} {groups : List (List Char)}
      (h : Reads p front inside rest groups) : Reads (.group p) front inside rest (inside :: groups)

/-- A search ends at the leftmost place at which the expression reads anything. Which of several
readings at that place counts is left open. -/
def Finds (p : Pattern) (text : List Char) (groups : List (List Char)) : Prop :=
  ∃ front inside rest, text = front ++ inside ++ rest ∧ p.Reads front inside rest groups ∧
    ∀ front' inside' rest' groups', text = front' ++ inside' ++ rest' →
      p.Reads front' inside' rest' groups' → front.length ≤ front'.length

/-- A character of one class and then any number of another. -/
def name (first more : Char → Bool) : Pattern := .both (.one first) (.many (.one more))

/-- An expression up to the end of a text, behind a character of another class or the beginning
of the text. -/
def tail (test : Char → Bool) (p : Pattern) : Pattern :=
  .both (.either .start (.one fun c => !test c)) (.both p .stop)

/-- What an expression without anchors reads, whatever stands around. -/
def Gives (p : Pattern) (P : List Char → List (List Char) → Prop) : Prop :=
  ∀ front inside rest groups, p.Reads front inside rest groups ↔ P inside groups

/-- An expression without anchors and groups reads the words of a language. -/
def Accepts (p : Pattern) (l : Language Char) : Prop :=
  ∀ front inside rest groups, p.Reads front inside rest groups ↔ inside ∈ l ∧ groups = []

def oneOf (test : Char → Bool) : Language Char := {w | ∃ c, test c = true ∧ w = [c]}

def names (first more : Char → Bool) : Language Char :=
  {w | ∃ c rest, first c = true ∧ (∀ x ∈ rest, more x = true) ∧ w = c :: rest}

variable {p q : Pattern} {P Q : List Char → List (List Char) → Prop} {l m : Language Char}
  {test first more : Char → Bool} {front inside rest text : List Char} {groups : List (List Char)}

theorem reads_both_iff : (both p q).Reads front inside rest groups ↔
    ∃ a b first second, inside = a ++ b ∧ groups = first ++ second ∧
      p.Reads front a (b ++ rest) first ∧ q.Reads (front ++ a) b rest second := by
  constructor
  · rintro ⟨⟩
    exact ⟨_, _, _, _, rfl, rfl, ‹_›, ‹_›⟩
  · rintro ⟨a, b, first, second, rfl, rfl, hFirst, hSecond⟩
    exact .both hFirst hSecond

/-- Two expressions in a row read two parts in a row. -/
theorem Gives.both (hp : p.Gives P) (hq : q.Gives Q) :
    (both p q).Gives fun inside groups => ∃ a b first second,
      inside = a ++ b ∧ groups = first ++ second ∧ P a first ∧ Q b second := by
  intro front inside rest groups
  rw [reads_both_iff]
  simp only [hp _ _ _ _, hq _ _ _ _]

theorem Accepts.gives (hp : p.Accepts l) : p.Gives fun inside groups => inside ∈ l ∧ groups = [] :=
  hp

/-- A group of one word keeps the word. -/
theorem Accepts.group (hp : p.Accepts l) :
    (group p).Gives fun inside groups => inside ∈ l ∧ groups = [inside] := by
  intro front inside rest groups
  constructor
  · rintro ⟨⟩
    obtain ⟨hInside, rfl⟩ := (hp _ _ _ _).mp ‹_›
    exact ⟨hInside, rfl⟩
  · rintro ⟨hInside, rfl⟩
    exact .group ((hp _ _ _ _).mpr ⟨hInside, rfl⟩)

theorem accepts_one (test : Char → Bool) : (one test).Accepts (oneOf test) := by
  intro front inside rest groups
  constructor
  · rintro ⟨⟩
    exact ⟨⟨_, ‹_›, rfl⟩, rfl⟩
  · rintro ⟨⟨c, hTest, rfl⟩, rfl⟩
    exact .one hTest front rest

/-- Two expressions in a row accept the words that are made of one word each. -/
theorem Accepts.both (hp : p.Accepts l) (hq : q.Accepts m) : (both p q).Accepts (l * m) := by
  intro front inside rest groups
  rw [Gives.both hp hq front inside rest groups, Language.mem_mul]
  constructor
  · rintro ⟨a, b, _, _, rfl, rfl, ⟨ha, rfl⟩, hb, rfl⟩
    exact ⟨⟨a, ha, b, hb, rfl⟩, rfl⟩
  · rintro ⟨⟨a, ha, b, hb, rfl⟩, rfl⟩
    exact ⟨a, b, [], [], rfl, rfl, ⟨ha, rfl⟩, hb, rfl⟩

/-- Repetitions read one word after the other, by induction on their number. -/
theorem Accepts.many (hp : p.Accepts l) : (many p).Accepts (KStar.kstar l) := by
  intro front inside rest groups
  rw [Language.mem_kstar]
  constructor
  · intro h
    generalize hMany : Pattern.many p = repeated at h
    induction h with
    | done => exact ⟨⟨[], rfl, by simp⟩, rfl⟩
    | again hFirst _ _ ih =>
        cases hMany
        obtain ⟨⟨parts, rfl, hParts⟩, rfl⟩ := ih rfl
        obtain ⟨ha, rfl⟩ := (hp _ _ _ _).mp hFirst
        exact ⟨⟨_ :: parts, rfl, List.forall_mem_cons.mpr ⟨ha, hParts⟩⟩, rfl⟩
    | _ => cases hMany
  · rintro ⟨⟨parts, rfl, hParts⟩, rfl⟩
    induction parts generalizing front with
    | nil => exact .done p front rest
    | cons a parts ih =>
        obtain ⟨ha, hParts⟩ := List.forall_mem_cons.mp hParts
        change Reads _ front (a ++ parts.flatten) rest ([] ++ [])
        exact .again ((hp _ _ _ _).mpr ⟨ha, rfl⟩) (ih _ hParts)

/-- Any number of characters of a class is a word of such characters. -/
theorem mem_kstar_oneOf_iff : text ∈ KStar.kstar (oneOf test) ↔ ∀ c ∈ text, test c = true := by
  rw [Language.mem_kstar]
  constructor
  · rintro ⟨parts, rfl, hParts⟩ c hc
    obtain ⟨part, hPart, hc⟩ := List.mem_flatten.mp hc
    obtain ⟨x, hTest, rfl⟩ := hParts part hPart
    exact List.mem_singleton.mp hc ▸ hTest
  · intro h
    refine ⟨text.map fun c => [c], ?_, fun part hPart => ?_⟩
    · rw [← List.flatMap_def, List.flatMap_singleton']
    · obtain ⟨c, hc, rfl⟩ := List.mem_map.mp hPart
      exact ⟨c, h c hc, rfl⟩

/-- Any number of words of one form is read as the parts in which they differ. -/
theorem mem_kstar_iff_of_form {form : List Char → List Char}
    (h : ∀ word, word ∈ m ↔ ∃ part ∈ l, word = form part) :
    text ∈ KStar.kstar m ↔
      ∃ parts : List (List Char), (∀ part ∈ parts, part ∈ l) ∧ text = parts.flatMap form := by
  rw [Language.mem_kstar]
  constructor
  · rintro ⟨words, rfl, hWords⟩
    induction words with
    | nil => exact ⟨[], by simp, rfl⟩
    | cons word words ih =>
        rw [List.forall_mem_cons] at hWords
        obtain ⟨part, hPart, rfl⟩ := (h word).mp hWords.1
        obtain ⟨parts, hParts, hText⟩ := ih hWords.2
        exact ⟨part :: parts, List.forall_mem_cons.mpr ⟨hPart, hParts⟩, by simp [hText]⟩
  · rintro ⟨parts, hParts, rfl⟩
    refine ⟨parts.map form, List.flatMap_def.symm ▸ rfl, ?_⟩
    simp only [List.forall_mem_map, h]
    exact fun part hPart => ⟨part, hParts part hPart, rfl⟩

theorem accepts_name (first more : Char → Bool) : (name first more).Accepts (names first more) := by
  intro front inside rest groups
  rw [name, (accepts_one first).both (accepts_one more).many front inside rest groups,
    Language.mem_mul]
  simp only [mem_kstar_oneOf_iff]
  refine and_congr_left' ⟨?_, ?_⟩
  · rintro ⟨_, ⟨c, hFirst, rfl⟩, tail, hMore, rfl⟩
    exact ⟨c, tail, hFirst, hMore, rfl⟩
  · rintro ⟨c, tail, hFirst, hMore, rfl⟩
    exact ⟨[c], ⟨c, hFirst, rfl⟩, tail, hMore, rfl⟩

/-- Before a tail there is either nothing or a character of another class, which is read too. -/
theorem reads_tail_iff (hp : p.Gives P) : (tail test p).Reads front inside rest groups ↔
    rest = [] ∧ ∃ lead body, inside = lead ++ body ∧ P body groups ∧
      (front = [] ∧ lead = [] ∨ ∃ c, test c = false ∧ lead = [c]) := by
  simp only [tail, reads_both_iff, hp _ _ _ _]
  constructor
  · rintro ⟨lead, _, _, _, rfl, rfl, hLead, body, _, groups, _, rfl, rfl, hBody, ⟨⟩⟩
    cases hLead with
    | left h =>
        cases h
        exact ⟨rfl, [], body, by simp, by simpa using hBody, .inl ⟨rfl, rfl⟩⟩
    | right h =>
        cases h with
        | @one _ c hTest =>
            exact ⟨rfl, [c], body, by simp, by simpa using hBody,
              .inr ⟨c, by simpa using hTest, rfl⟩⟩
  · rintro ⟨rfl, lead, body, rfl, hBody, hLead⟩
    refine ⟨lead, body, [], groups, rfl, rfl, ?_, body, [], groups, [], ?_, ?_, hBody, .stop _⟩
    · rcases hLead with ⟨rfl, rfl⟩ | ⟨c, hTest, rfl⟩
      · exact .left (.start _)
      · exact .right (.one (by simp [hTest]) _ _)
    · rw [List.append_nil]
    · rw [List.append_nil]

/-- A search for an expression at the end of a text finds what it gives for the longest tail of
its class, wherever else the expression could be read. -/
theorem finds_tail_iff (hp : p.Gives P)
    (hClass : ∀ body groups, P body groups → ∀ c ∈ body, test c = true) :
    (tail test p).Finds text groups ↔ P (takeTail test text) groups := by
  -- Every reading begins right before the tail, so it is the leftmost.
  have hReading : ∀ front inside rest groups, text = front ++ inside ++ rest →
      (tail test p).Reads front inside rest groups →
      front = (dropTail test text).dropLast ∧ P (takeTail test text) groups := by
    rintro front inside rest groups rfl hReads
    obtain ⟨rfl, lead, body, rfl, hBody, hLead⟩ := (reads_tail_iff hp).mp hReads
    have hEnd : ∀ c ∈ (front ++ lead).getLast?, test c = false := by
      rcases hLead with ⟨rfl, rfl⟩ | ⟨c, hTest, rfl⟩
      · simp
      · simpa using hTest
    have hSplit : front ++ (lead ++ body) ++ [] = front ++ lead ++ body := by simp
    rw [hSplit, dropTail_append (hClass _ _ hBody) hEnd, takeTail_append (hClass _ _ hBody) hEnd]
    refine ⟨?_, hBody⟩
    rcases hLead with ⟨rfl, rfl⟩ | ⟨c, -, rfl⟩
    · rfl
    · rw [List.dropLast_concat]
  constructor
  · rintro ⟨front, inside, rest, hText, hReads, -⟩
    exact (hReading _ _ _ _ hText hReads).2
  · intro hBody
    obtain ⟨lead, hFront, hLead⟩ : ∃ lead,
        dropTail test text = (dropTail test text).dropLast ++ lead ∧
        ((dropTail test text).dropLast = [] ∧ lead = [] ∨ ∃ c, test c = false ∧ lead = [c]) := by
      rcases List.eq_nil_or_concat (dropTail test text) with hNone | ⟨front, c, hSome⟩
      · exact ⟨[], by simp [hNone], .inl ⟨by simp [hNone], rfl⟩⟩
      · have hOwn : c ∈ (dropTail test text).getLast? := by simp [hSome]
        have hLast : test c = false := getLast?_dropTail hOwn
        exact ⟨[c], by simp [hSome], .inr ⟨c, hLast, rfl⟩⟩
    have hText : text = (dropTail test text).dropLast ++ (lead ++ takeTail test text) ++ [] := by
      rw [List.append_nil, ← List.append_assoc, ← hFront, dropTail_append_takeTail]
    refine ⟨_, _, _, hText, (reads_tail_iff hp).mpr ⟨rfl, lead, _, rfl, hBody, hLead⟩, ?_⟩
    intro front inside rest groups hOther hReads
    exact (congrArg List.length (hReading _ _ _ _ hOther hReads).1).ge

end Pattern

end ElmScope.Text
