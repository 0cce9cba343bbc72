import Mathlib.Data.List.TakeWhile
import ElmScope.Text.Blank

/-! The end of a text cut off by a test. What stays ends with a character that does not pass,
so a text that ends with such a character stays whole, whatever follows it. -/
namespace ElmScope.Text

variable {c : Char} {test : Char → Bool} {outer word text : List Char}

/-- The longest tail of a text that passes a test, when what precedes it does not. -/
theorem takeTail_append (hWord : ∀ c ∈ word, test c = true)
    (hOuter : ∀ c ∈ outer.getLast?, test c = false) : takeTail test (outer ++ word) = word := by
  have hStop : outer.reverse.takeWhile test = [] := by
    cases h : outer.reverse with
    | nil => rfl
    | cons c rest =>
        have hLast : outer.getLast? = some c := by rw [← List.head?_reverse, h]; rfl
        rw [List.takeWhile_cons, hOuter c hLast]
        rfl
  rw [takeTail, List.reverse_append, List.takeWhile_append_of_pos (by simpa using hWord), hStop,
    List.append_nil, List.reverse_reverse]

/-- A tail that passes a test belongs to the longest such tail. -/
theorem takeTail_append_of_pos (hWord : ∀ c ∈ word, test c = true) :
    takeTail test (outer ++ word) = takeTail test outer ++ word := by
  rw [takeTail, List.reverse_append, List.takeWhile_append_of_pos (by simpa using hWord),
    List.reverse_append, List.reverse_reverse, takeTail]

/-- A tail is dropped as far as its characters go. -/
theorem dropTail_append (hWord : ∀ c ∈ word, test c = true)
    (hOuter : ∀ c ∈ outer.getLast?, test c = false) : dropTail test (outer ++ word) = outer := by
  have h := dropTail_append_takeTail test (outer ++ word)
  rw [takeTail_append hWord hOuter] at h
  exact List.append_cancel_right h

theorem dropTail_eq_self (h : ∀ c ∈ outer.getLast?, test c = false) :
    dropTail test outer = outer := by
  have hWord : ∀ c ∈ ([] : List Char), test c = true := by simp
  have hNone := dropTail_append hWord h
  rwa [List.append_nil] at hNone

/-- What is cut off a text passes the test. -/
theorem of_mem_takeTail (h : c ∈ takeTail test text) : test c = true := by
  rw [takeTail, List.mem_reverse] at h
  exact List.mem_takeWhile_imp h

/-- What stays of a text does not end with a character that passes the test. -/
theorem getLast?_dropTail (h : c ∈ (dropTail test text).getLast?) : test c = false := by
  rw [dropTail, List.getLast?_reverse] at h
  have hHead := List.head?_dropWhile_not test text.reverse
  rw [Option.mem_def.mp h] at hHead
  simpa using hHead

/-- A text that ends with a character that does not pass the test stays whole. -/
theorem isPrefix_dropTail (h : outer <+: text) (hOuter : ∀ c ∈ outer.getLast?, test c = false) :
    outer <+: dropTail test text := by
  obtain ⟨rest, rfl⟩ := h
  have hKept : ∀ c ∈ (outer ++ dropTail test rest).getLast?, test c = false := by
    intro c hc
    rw [List.getLast?_append, Option.mem_def, Option.or_eq_some_iff] at hc
    rcases hc with hRest | ⟨-, hOwn⟩
    · exact getLast?_dropTail hRest
    · exact hOuter c hOwn
  have hCut : ∀ c ∈ takeTail test rest, test c = true := fun c => of_mem_takeTail
  have h := dropTail_append hCut hKept
  rw [List.append_assoc, dropTail_append_takeTail] at h
  exact ⟨_, h.symm⟩

end ElmScope.Text
