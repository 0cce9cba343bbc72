import ElmScope.Completion.Braces
import ElmScope.Proofs.Text.Offset

/-! How braces and separators are told in a text that is put together. Plain text changes
nothing, a brace with a blank behind it stays open, and an update bar begins a segment. -/
namespace ElmScope.Braces

open Text

variable {text inner rest : List Char} {stack : List Nat} {c : Char}

/-- The characters that neither open nor close a brace or a literal. -/
def isInert (c : Char) : Bool := c ≠ '\x7b' && c ≠ '\x7d' && c ≠ '"' && c ≠ '\''

/-- A character that is no mark is passed over, unless a comment begins with it. -/
theorem unmatchedFrom_cons_of_isInert (hInert : isInert c = true)
    (hComment : c = '-' → rest.head? ≠ some '-') (offset : Nat) (stack : List Nat) :
    unmatchedFrom .code offset stack (c :: rest) =
      unmatchedFrom .code (offset + c.utf8Size) stack rest := by
  simp only [isInert, Bool.and_eq_true, decide_eq_true_eq] at hInert
  obtain ⟨⟨⟨hOpen, hClose⟩, hString⟩, hCharacter⟩ := hInert
  rw [unmatchedFrom]
  · exact fun rest hc => absurd hc hOpen
  · exact fun rest hc hRest => hComment hc (by simp [hRest])
  · exact hString
  · exact hCharacter
  · exact hOpen
  · exact hClose

/-- Text without braces, literals and comments changes nothing. -/
theorem unmatchedFrom_append_of_isInert (hInert : ∀ c ∈ text, isInert c = true)
    (hComment : ¬ ['-', '-'] <:+: text) (hEnd : '-' ∈ text → rest.head? ≠ some '-')
    (offset : Nat) (stack : List Nat) :
    unmatchedFrom .code offset stack (text ++ rest) =
      unmatchedFrom .code (offset + byteLength text) stack rest := by
  induction text generalizing offset with
  | nil => rfl
  | cons c more ih =>
      have hNext : c = '-' → (more ++ rest).head? ≠ some '-' := by
        rintro rfl
        cases more with
        | nil => exact hEnd List.mem_cons_self
        | cons d more =>
            intro hd
            obtain rfl := Option.some.inj hd
            exact hComment ⟨[], more, rfl⟩
      have hRest := ih (fun d hd => hInert d (List.mem_cons_of_mem _ hd))
        (fun h => hComment (h.trans (List.suffix_cons _ _).isInfix))
        (fun h => hEnd (List.mem_cons_of_mem _ h)) (offset + c.utf8Size)
      rw [List.cons_append, unmatchedFrom_cons_of_isInert (hInert c List.mem_cons_self) hNext,
        hRest, byteLength, Nat.add_assoc]

/-- A text leaves some braces open, innermost first, and whatever follows is code. What
follows does not make a comment of its last character. -/
def LeavesOpen (text : List Char) (stack : List Nat) : Prop :=
  ∀ rest, rest.head? ≠ some '-' →
    unmatchedFrom .code 0 [] (text ++ rest) = unmatchedFrom .code (byteLength text) stack rest

/-- The characters of what is written between two braces of nested records. -/
def IsInside (inner : List Char) : Prop := ∀ c ∈ inner, isInert c = true ∧ c ≠ '-'

/-- What is written between two braces of nested records neither opens nor closes a brace. -/
theorem IsInside.unmatchedFrom (h : IsInside inner) (offset : Nat) (stack : List Nat)
    (rest : List Char) :
    unmatchedFrom .code offset stack (inner ++ rest) =
      Braces.unmatchedFrom .code (offset + byteLength inner) stack rest := by
  have hNoDash : '-' ∉ inner := fun hDash => (h _ hDash).2 rfl
  refine unmatchedFrom_append_of_isInert (fun c hc => (h c hc).1) (fun hComment => ?_)
    (fun hDash => absurd hDash hNoDash) offset stack
  exact hNoDash (hComment.subset List.mem_cons_self)

theorem IsInside.append {more : List Char} (h : IsInside inner) (hMore : IsInside more) :
    IsInside (inner ++ more) :=
  List.forall_mem_append.mpr ⟨h, hMore⟩

/-- Between two braces more can be written, and the same braces stay open. -/
theorem LeavesOpen.append (h : LeavesOpen text stack) (hInner : IsInside inner) :
    LeavesOpen (text ++ inner) stack := by
  intro rest hRest
  have hHead : (inner ++ rest).head? ≠ some '-' := by
    cases inner with
    | nil => exact hRest
    | cons c inner => exact fun hc => (hInner c List.mem_cons_self).2 (Option.some.inj hc)
  rw [List.append_assoc, h _ hHead, hInner.unmatchedFrom, byteLength_append]

/-- The blank behind a brace keeps it from opening a comment. -/
theorem LeavesOpen.brace (h : LeavesOpen text stack) :
    LeavesOpen (text ++ ['\x7b', ' ']) (byteLength text :: stack) := by
  intro rest _
  rw [List.append_assoc, h _ (by simp), byteLength_append, List.cons_append, List.cons_append,
    List.nil_append, unmatchedFrom,
    unmatchedFrom_cons_of_isInert (by decide) fun h => absurd h (by decide)]
  · rfl
  · exact fun rest hc => absurd (List.cons.inj hc).1 (by decide)

theorem LeavesOpen.unmatched (h : LeavesOpen text stack) : unmatched text = stack.reverse := by
  have hAll := h [] (by simp)
  rw [List.append_nil] at hAll
  rw [Braces.unmatched, hAll]
  rfl

/-- The characters that separate fields or group what is between them. -/
def isSeparator (c : Char) : Bool :=
  c = '(' || c = '[' || c = '\x7b' || c = ')' || c = ']' || c = '\x7d' || c = ',' || c = '|'

/-- Where no separator stands, the segment goes on. -/
theorem segmentFrom_append (h : ∀ c ∈ text, isSeparator c = false) (depth : Int)
    (previous : Option Char) (segment rest : List Char) :
    segmentFrom depth previous segment (text ++ rest) =
      segmentFrom depth (text.getLast?.or previous) segment rest := by
  induction text generalizing previous with
  | nil => rfl
  | cons c more ih =>
      have hc := h c List.mem_cons_self
      simp only [isSeparator, Bool.or_eq_false_iff, decide_eq_false_iff_not] at hc
      rw [List.cons_append, segmentFrom, ih fun d hd => h d (List.mem_cons_of_mem _ hd),
        List.getLast?_cons]
      simp [hc]

/-- Text without separators is one segment. -/
theorem currentSegment_eq_self (h : ∀ c ∈ text, isSeparator c = false) :
    currentSegment text = text := by
  have hAll := segmentFrom_append h 0 none text []
  rw [List.append_nil] at hAll
  rw [currentSegment, hAll]
  rfl

/-- Behind a bar between blanks a new segment begins. -/
theorem currentSegment_update (hText : ∀ c ∈ text, isSeparator c = false)
    (hRest : ∀ c ∈ rest, isSeparator c = false) :
    currentSegment (text ++ ' ' :: '|' :: ' ' :: rest) = ' ' :: rest := by
  have hBlank : ∀ c ∈ text ++ [' '], isSeparator c = false := by
    intro c hc
    rcases List.mem_append.mp hc with hc | hc
    · exact hText c hc
    · exact List.mem_singleton.mp hc ▸ rfl
  have hSplit : text ++ ' ' :: '|' :: ' ' :: rest = text ++ [' '] ++ '|' :: ' ' :: rest := by simp
  have hLast := segmentFrom_append hRest 0 (some ' ') (' ' :: rest) []
  rw [List.append_nil] at hLast
  rw [currentSegment, hSplit, segmentFrom_append hBlank, List.getLast?_concat, segmentFrom]
  simp [isUpdateBar, segmentFrom, hLast]

end ElmScope.Braces
