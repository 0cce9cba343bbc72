import ElmScope.Proofs.Completion.Braces
import ElmScope.Proofs.Text.Place

/-! Which characters of a text count when its braces are matched. One pass tells each character
that is code from what stands in comments and literals, and the region in which the text ends.
The braces left open are then those of the code that no later brace of the code closes. -/
namespace ElmScope.Braces

open Text

structure Scanned where
  char : Char
  isCode : Bool
deriving DecidableEq, Repr

/-- Characters that are not code, before what is read further on. -/
def skip (text : List Char) (more : List Scanned × Region) : List Scanned × Region :=
  (text.map (Scanned.mk · false) ++ more.1, more.2)

/-- What a text is, character by character, and the region in which it ends. It is read in a
region as it is to match braces. -/
def scan : Region → List Char → List Scanned × Region
  | region, [] => ([], region)
  | .lineComment, c :: rest =>
    skip [c] (scan (if c = '\n' then .code else .lineComment) rest)
  | .blockComment depth, '\x7b' :: '-' :: rest =>
    skip ['\x7b', '-'] (scan (.blockComment (depth + 1)) rest)
  | .blockComment depth, '-' :: '\x7d' :: rest =>
    skip ['-', '\x7d'] (scan (match depth with | 0 => .code | outer + 1 => .blockComment outer) rest)
  | .blockComment depth, c :: rest => skip [c] (scan (.blockComment depth) rest)
  | .string, '\\' :: c :: rest => skip ['\\', c] (scan .string rest)
  | .string, c :: rest => skip [c] (scan (if c = '"' then .code else .string) rest)
  | .character, '\\' :: c :: rest => skip ['\\', c] (scan .character rest)
  | .character, c :: rest => skip [c] (scan (if c = '\'' then .code else .character) rest)
  | .code, '\x7b' :: '-' :: rest => skip ['\x7b', '-'] (scan (.blockComment 0) rest)
  | .code, '-' :: '-' :: rest => skip ['-', '-'] (scan .lineComment rest)
  | .code, '"' :: rest => skip ['"'] (scan .string rest)
  | .code, '\'' :: rest => skip ['\''] (scan .character rest)
  | .code, c :: rest => (⟨c, true⟩ :: (scan .code rest).1, (scan .code rest).2)

def codeOf (scanned : List Scanned) : List Char := (scanned.filter (·.isCode)).map (·.char)

/-- The open braces, innermost first, after some scanned characters. -/
def stackFrom : Nat → List Nat → List Scanned → List Nat
  | _, stack, [] => stack
  | offset, stack, c :: rest =>
    stackFrom (offset + c.char.utf8Size)
      (if c = ⟨'\x7b', true⟩ then offset :: stack
        else if c = ⟨'\x7d', true⟩ then stack.tail else stack) rest

/-- Braces of a text that close some number of braces before it and all that it opens. -/
structure Closes (outer : Nat) (inner : List Char) : Prop where
  count_eq : inner.count '\x7d' = inner.count '\x7b' + outer
  count_le : ∀ front, front <+: inner → front.count '\x7d' ≤ front.count '\x7b' + outer

/-- A brace is closed in a text behind it: in the text stands a closing brace, and what precedes
this closes all its own braces and those, of which the number is given, that stand open between
the brace and the text. -/
def IsClosed (outer : Nat) (after : List Char) : Prop :=
  ∃ inner more, after = inner ++ '\x7d' :: more ∧ Closes outer inner

theorem codeOf_append (first second : List Scanned) :
    codeOf (first ++ second) = codeOf first ++ codeOf second := by
  simp [codeOf]

variable {region : Region} {text a b : List Char} {offset n k : Nat} {stack : List Nat} {c : Char}
  {scanned pre post : List Scanned}

@[simp] theorem skip_fst (text : List Char) (more : List Scanned × Region) :
    (skip text more).1 = text.map (Scanned.mk · false) ++ more.1 := rfl

@[simp] theorem skip_snd (text : List Char) (more : List Scanned × Region) :
    (skip text more).2 = more.2 := rfl

/-- A region that is a literal up to a mark. A backslash takes what stands behind it along. -/
structure IsLiteral (region : Region) (mark : Char) : Prop where
  mark_ne : mark ≠ '\\'
  escape : ∀ c rest, scan region ('\\' :: c :: rest) = skip ['\\', c] (scan region rest)
  plain : ∀ c rest, (c = '\\' → rest = []) →
    scan region (c :: rest) = skip [c] (scan (if c = mark then .code else region) rest)

theorem isLiteral_string : IsLiteral .string '"' where
  mark_ne := by decide
  escape c rest := by rw [scan]
  plain c rest hRest := by
    rw [scan]
    intro x more hEscape hMore
    exact absurd (hMore.symm.trans (hRest hEscape)) (List.cons_ne_nil x more)

theorem isLiteral_character : IsLiteral .character '\'' where
  mark_ne := by decide
  escape c rest := by rw [scan]
  plain c rest hRest := by
    rw [scan]
    intro x more hEscape hMore
    exact absurd (hMore.symm.trans (hRest hEscape)) (List.cons_ne_nil x more)

/-- What is not code opens and closes nothing. -/
theorem stackFrom_skip (offset : Nat) (stack : List Nat) (text : List Char)
    (more : List Scanned × Region) :
    stackFrom offset stack (skip text more).1 =
      stackFrom (offset + byteLength text) stack more.1 := by
  induction text generalizing offset with
  | nil => rfl
  | cons c rest ih =>
      have hRest := ih (offset + c.utf8Size)
      rw [skip_fst] at hRest
      simpa [stackFrom, byteLength, Nat.add_assoc] using hRest

/-- Matching braces reads the code of a text only. -/
theorem unmatchedFrom_eq_stackFrom (region : Region) (offset : Nat) (stack : List Nat)
    (text : List Char) :
    unmatchedFrom region offset stack text = stackFrom offset stack (scan region text).1 := by
  fun_induction unmatchedFrom region offset stack text with
  | case1 => rw [scan, stackFrom]
  | case4 depth offset stack rest ih =>
      cases depth <;>
      · rw [scan, stackFrom_skip, ih]
        rfl
  | case5 depth offset stack c rest hOpen hClose ih =>
      rw [scan, stackFrom_skip, ih]
      · rfl
      · exact hOpen
      · exact hClose
  | case6 offset stack c rest ih | case8 offset stack c rest ih =>
      rw [scan, stackFrom_skip, ih, Nat.add_assoc]
      rfl
  | case7 offset stack c rest hEscape ih | case9 offset stack c rest hEscape ih =>
      rw [scan, stackFrom_skip, ih]
      · rfl
      · exact hEscape
  | case14 offset stack rest hNext ih =>
      rw [scan, stackFrom, ih]
      · rfl
      · simpa using hNext
      all_goals simp
  | case15 offset stack rest ih =>
      rw [scan, stackFrom, ih]
      · rfl
      all_goals simp
  | case16 offset stack c rest hBlock hLine hString hCharacter hOpen hClose ih =>
      have hSame : ∀ mark : Char, (c = mark → False) → (⟨c, true⟩ : Scanned) ≠ ⟨mark, true⟩ :=
        fun mark hMark h => hMark (Scanned.mk.inj h).1
      rw [scan, stackFrom, ih, if_neg (hSame _ hOpen), if_neg (hSame _ hClose)]
      · exact hBlock
      · exact hLine
      · exact hString
      · exact hCharacter
  | _ =>
      rename_i ih
      rw [scan, stackFrom_skip, ih]
      rfl

/-- A scanned text is the text, and its code a part of it. -/
theorem map_char_scan (region : Region) (text : List Char) :
    (scan region text).1.map (·.char) = text := by
  fun_induction scan region text <;> simp [*]

/-- In front of what is scanned as code stand the skipped characters. -/
theorem exists_of_skip {more : List Scanned × Region} {rest : List Char} {P : List Char → Prop}
    (h : (skip text more).1 = pre ++ ⟨c, true⟩ :: post)
    (hMore : ∀ pre, more.1 = pre ++ ⟨c, true⟩ :: post →
      ∃ body, rest = pre.map (·.char) ++ c :: body ∧ P body) :
    ∃ body, text ++ rest = pre.map (·.char) ++ c :: body ∧ P body := by
  induction text generalizing pre with
  | nil => exact hMore pre h
  | cons x text ih =>
      cases pre with
      | nil => cases h
      | cons first pre =>
          obtain ⟨hFirst, hPre⟩ := List.cons.inj h
          obtain ⟨body, hBody, hP⟩ := ih hPre
          refine ⟨body, ?_, hP⟩
          rw [List.map_cons, ← hFirst, List.cons_append, List.cons_append, hBody]

/-- Behind a character that is code, code goes on. -/
theorem exists_of_scan (h : (scan region text).1 = pre ++ ⟨c, true⟩ :: post) :
    ∃ body, text = pre.map (·.char) ++ c :: body ∧
      scan .code body = (post, (scan region text).2) := by
  fun_induction scan region text generalizing pre with
  | case1 => simp at h
  | case14 x rest hBlock hLine hString hCharacter ih =>
      cases pre with
      | nil =>
          obtain ⟨⟨⟩, rfl⟩ := List.cons.inj h
          exact ⟨rest, rfl, rfl⟩
      | cons first pre =>
          obtain ⟨rfl, hPre⟩ := List.cons.inj h
          obtain ⟨body, hBody, hScan⟩ := ih hPre
          exact ⟨body, congrArg (x :: ·) hBody, hScan⟩
  | _ =>
      rename_i ih
      exact exists_of_skip h fun _ hPre => ih hPre

/-! Which braces stay open. -/

def openBehind (outer : Nat) (c : Char) : Nat :=
  if c = '\x7b' then outer + 1 else if c = '\x7d' then outer - 1 else outer

theorem openBehind_of_ne (hOpen : c ≠ '\x7b') (hClose : c ≠ '\x7d') : openBehind k c = k := by
  rw [openBehind, if_neg hOpen, if_neg hClose]

/-- One character on, opening, closing and open braces are in the same balance. -/
theorem count_cons_add (h : c = '\x7d' → k ≠ 0) (rest : List Char) :
    (c :: rest).count '\x7d' + rest.count '\x7b' + openBehind k c =
      rest.count '\x7d' + (c :: rest).count '\x7b' + k := by
  by_cases hOpen : c = '\x7b'
  · subst hOpen
    simp [openBehind]
    omega
  · by_cases hClose : c = '\x7d'
    · have hk := h hClose
      subst hClose
      simp [openBehind]
      omega
    · simp [openBehind_of_ne hOpen hClose, List.count_cons_of_ne hOpen,
        List.count_cons_of_ne hClose]

/-- The first character decides how many braces are left to close. -/
theorem closes_cons {inner : List Char} :
    Closes k (c :: inner) ↔ (c = '\x7d' → k ≠ 0) ∧ Closes (openBehind k c) inner := by
  constructor
  · intro h
    have hOuter : c = '\x7d' → k ≠ 0 := by
      rintro rfl rfl
      simpa using h.count_le ['\x7d'] (List.cons_prefix_cons.mpr ⟨rfl, List.nil_prefix⟩)
    refine ⟨hOuter, ?_, fun front hFront => ?_⟩
    · have := count_cons_add hOuter inner
      have := h.count_eq
      omega
    · have := count_cons_add hOuter front
      have := h.count_le _ (List.cons_prefix_cons.mpr ⟨rfl, hFront⟩)
      omega
  · rintro ⟨hOuter, h⟩
    refine ⟨?_, fun front hFront => ?_⟩
    · have := count_cons_add hOuter inner
      have := h.count_eq
      omega
    · cases front with
      | nil => simp
      | cons x front =>
          obtain ⟨rfl, hInside⟩ := List.cons_prefix_cons.mp hFront
          have := count_cons_add hOuter front
          have := h.count_le front hInside
          omega

theorem not_isClosed_nil : ¬ IsClosed k [] := by
  rintro ⟨inner, more, h, -⟩
  simp at h

/-- The first character behind a brace closes it, or the brace is closed behind the character. -/
theorem isClosed_cons {rest : List Char} : IsClosed k (c :: rest) ↔
    c = '\x7d' ∧ k = 0 ∨ (c = '\x7d' → k ≠ 0) ∧ IsClosed (openBehind k c) rest := by
  constructor
  · rintro ⟨inner, more, hText, hInner⟩
    cases inner with
    | nil =>
        have hCount := hInner.count_eq
        exact .inl ⟨(List.cons.inj hText).1, by simpa using hCount.symm⟩
    | cons x inner =>
        obtain ⟨rfl, rfl⟩ := List.cons.inj hText
        obtain ⟨hOuter, hInner⟩ := closes_cons.mp hInner
        exact .inr ⟨hOuter, inner, more, rfl, hInner⟩
  · rintro (⟨rfl, rfl⟩ | ⟨hOuter, inner, more, rfl, hInner⟩)
    · exact ⟨[], rest, rfl, rfl, fun front hFront => by simp [List.prefix_nil.mp hFront]⟩
    · exact ⟨c :: inner, more, rfl, closes_cons.mpr ⟨hOuter, hInner⟩⟩

theorem isClosed_open {rest : List Char} : IsClosed k ('\x7b' :: rest) ↔ IsClosed (k + 1) rest := by
  simp [isClosed_cons, openBehind]

theorem isClosed_close {rest : List Char} :
    IsClosed k ('\x7d' :: rest) ↔ k = 0 ∨ k ≠ 0 ∧ IsClosed (k - 1) rest := by
  simp [isClosed_cons, openBehind]

theorem isClosed_of_ne {rest : List Char} (hOpen : c ≠ '\x7b') (hClose : c ≠ '\x7d') :
    IsClosed k (c :: rest) ↔ IsClosed k rest := by
  simp [isClosed_cons, openBehind_of_ne hOpen hClose, hClose]

/-- A brace that some scanned characters open, and that is not closed in them. -/
def LeftOpen (offset : Nat) (scanned : List Scanned) (n : Nat) : Prop :=
  ∃ pre post, scanned = pre ++ ⟨'\x7b', true⟩ :: post ∧
    n = offset + byteLength (pre.map (·.char)) ∧ ¬ IsClosed 0 (codeOf post)

/-- An opening brace in code is left open unless the rest closes it. -/
theorem leftOpen_cons {x : Scanned} {rest : List Scanned} : LeftOpen offset (x :: rest) n ↔
    (x = ⟨'\x7b', true⟩ ∧ n = offset ∧ ¬ IsClosed 0 (codeOf rest)) ∨
      LeftOpen (offset + x.char.utf8Size) rest n := by
  constructor
  · rintro ⟨pre, post, hScanned, hn, hOpen⟩
    cases pre with
    | nil =>
        obtain ⟨rfl, rfl⟩ := List.cons.inj hScanned
        exact .inl ⟨rfl, hn, hOpen⟩
    | cons first pre =>
        obtain ⟨rfl, rfl⟩ := List.cons.inj hScanned
        exact .inr ⟨pre, post, rfl, by rw [hn, List.map_cons, byteLength, Nat.add_assoc], hOpen⟩
  · rintro (⟨rfl, rfl, hOpen⟩ | ⟨pre, post, rfl, rfl, hOpen⟩)
    · exact ⟨[], rest, rfl, rfl, hOpen⟩
    · exact ⟨x :: pre, post, rfl, by rw [List.map_cons, byteLength, Nat.add_assoc], hOpen⟩

/-- What is open behind some scanned characters was open before and is not closed in them, or is
opened in them and not closed behind it. -/
theorem mem_stackFrom_iff : n ∈ stackFrom offset stack scanned ↔
    (∃ k, stack[k]? = some n ∧ ¬ IsClosed k (codeOf scanned)) ∨ LeftOpen offset scanned n := by
  induction scanned generalizing offset stack with
  | nil => simp [stackFrom, codeOf, not_isClosed_nil, List.mem_iff_getElem?, LeftOpen]
  | cons x rest ih =>
      rw [stackFrom, ih, leftOpen_cons, ← or_assoc]
      refine or_congr_left ?_
      by_cases hOpen : x = ⟨'\x7b', true⟩
      · have hCode : codeOf (x :: rest) = '\x7b' :: codeOf rest := by simp [codeOf, hOpen]
        rw [if_pos hOpen, hCode, ← Nat.or_exists_add_one]
        simp [isClosed_open, hOpen, or_comm, eq_comm]
      · by_cases hClose : x = ⟨'\x7d', true⟩
        · have hCode : codeOf (x :: rest) = '\x7d' :: codeOf rest := by simp [codeOf, hClose]
          have hTail : (∃ k, stack[k]? = some n ∧ ¬ IsClosed k ('\x7d' :: codeOf rest)) ↔
              ∃ k, stack[k + 1]? = some n ∧ ¬ IsClosed k (codeOf rest) := by
            rw [← Nat.or_exists_add_one]
            simp [isClosed_close]
          rw [if_neg hOpen, if_pos hClose, hCode, hTail]
          simp [hOpen]
        · have hCode : ∀ k, IsClosed k (codeOf (x :: rest)) ↔ IsClosed k (codeOf rest) := by
            intro k
            obtain ⟨c, isCode⟩ := x
            cases isCode with
            | false => rfl
            | true =>
                refine isClosed_of_ne ?_ ?_
                · rintro rfl
                  exact hOpen rfl
                · rintro rfl
                  exact hClose rfl
          rw [if_neg hOpen, if_neg hClose]
          simp [hCode, hOpen]

/-- Braces are put on the stack as they stand in the text. -/
theorem pairwise_stackFrom (hStack : stack.Pairwise (· > ·)) (hBelow : ∀ n ∈ stack, n < offset) :
    (stackFrom offset stack scanned).Pairwise (· > ·) := by
  induction scanned generalizing offset stack with
  | nil => exact hStack
  | cons x rest ih =>
      have hSize := x.char.utf8Size_pos
      have hLater : ∀ n ∈ stack, n < offset + x.char.utf8Size :=
        fun n hn => Nat.lt_add_right _ (hBelow n hn)
      rw [stackFrom]
      split
      · refine ih (List.pairwise_cons.mpr ⟨hBelow, hStack⟩) (List.forall_mem_cons.mpr ⟨?_, hLater⟩)
        omega
      · split
        · exact ih hStack.tail fun n hn => hLater n (List.mem_of_mem_tail hn)
        · exact ih hStack hLater

/-- The braces that a text leaves open are those of its code that no brace of its code closes. -/
theorem mem_unmatched_iff : n ∈ unmatched text ↔ LeftOpen 0 (scan .code text).1 n := by
  rw [unmatched, List.mem_reverse, unmatchedFrom_eq_stackFrom, mem_stackFrom_iff]
  simp

/-- Open braces are listed in the order of the text. -/
theorem pairwise_unmatched (text : List Char) : (unmatched text).Pairwise (· < ·) := by
  rw [unmatched, List.pairwise_reverse, unmatchedFrom_eq_stackFrom]
  exact pairwise_stackFrom .nil (by simp)

/-- Braces are found between characters. -/
theorem isBoundary_of_mem_unmatched (h : n ∈ unmatched text) : IsBoundary text n := by
  obtain ⟨pre, post, hScanned, rfl, -⟩ := mem_unmatched_iff.mp h
  obtain ⟨body, hText, -⟩ := exists_of_scan hScanned
  exact ⟨_, ⟨_, hText.symm⟩, (Nat.zero_add _).symm⟩

end ElmScope.Braces
