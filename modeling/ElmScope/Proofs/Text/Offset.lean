import Mathlib.Data.List.Induction
import ElmScope.Text.Line

/-! Byte offsets that fall between characters. Such an offset is the length of the text
before it, so cutting there gives that text back. Its place has as its line the number of
line feeds before it, and as its column the width of what follows the last of them. -/
namespace ElmScope.Text

@[simp] theorem byteLength_nil : byteLength [] = 0 := rfl

theorem utf8ByteSize_eq_byteLength (s : String) : s.utf8ByteSize = byteLength s.toList := by
  induction s using String.push_induction with
  | empty => rfl
  | push s c ih =>
      rw [String.utf8ByteSize_push, String.toList_push, byteLength_append, ih]
      rfl

/-- An offset behind a beginning of the text takes the beginning and goes on behind it. -/
theorem takeBytes_append (before after : List Char) (n : Nat) :
    takeBytes (byteLength before + n) (before ++ after) = before ++ takeBytes n after := by
  induction before with
  | nil => rw [byteLength_nil, Nat.zero_add, List.nil_append, List.nil_append]
  | cons c rest ih =>
      have hPos := c.utf8Size_pos
      obtain ⟨k, hk⟩ : ∃ k, byteLength (c :: rest) + n = k + 1 :=
        ⟨byteLength (c :: rest) + n - 1, by simp only [byteLength]; omega⟩
      have hRest : k + 1 - c.utf8Size = byteLength rest + n := by
        simp only [byteLength] at hk
        omega
      rw [hk, List.cons_append, takeBytes, hRest, ih, List.cons_append]

/-- The number of bytes of a beginning cuts the text behind it. -/
theorem takeBytes_byteLength (before after : List Char) :
    takeBytes (byteLength before) (before ++ after) = before := by
  have h := takeBytes_append before after 0
  rwa [Nat.add_zero, takeBytes_zero, List.append_nil] at h

theorem dropBytes_byteLength (before after : List Char) :
    dropBytes (byteLength before) (before ++ after) = after := by
  have h := takeBytes_append_dropBytes (byteLength before) (before ++ after)
  rw [takeBytes_byteLength] at h
  exact List.append_cancel_left h

/-- The text between two offsets is what stands between the texts before them. -/
theorem slice_byteLength (before inside after : List Char) :
    slice (byteLength before) (byteLength (before ++ inside)) (before ++ inside ++ after) =
      inside := by
  rw [slice, byteLength_append, Nat.add_sub_cancel_left, List.append_assoc, dropBytes_byteLength,
    takeBytes_byteLength]

theorem utf16Length_append (a b : List Char) :
    utf16Length (a ++ b) = utf16Length a + utf16Length b := by
  induction a with
  | nil => simp [utf16Length]
  | cons c rest ih => simp [utf16Length, ih, Nat.add_assoc]

/-- The place behind a text: its line feeds are counted, and then the units after the last. -/
def endPlace (text : List Char) : Position :=
  ⟨text.count '\n', utf16Length (takeTail (· ≠ '\n') text)⟩

theorem endPlace_append_singleton (text : List Char) (c : Char) :
    endPlace (text ++ [c]) = advance (endPlace text) c := by
  by_cases h : c = '\n'
  · simp [endPlace, advance, takeTail, h, utf16Length]
  · simp [endPlace, advance, takeTail, h, utf16Length_append, utf16Length]

/-- Character by character a text leads from the origin to the place behind it. -/
theorem foldl_advance (text : List Char) : text.foldl advance Position.origin = endPlace text := by
  induction text using List.reverseRecOn with
  | nil => rfl
  | append_singleton text c ih =>
      rw [List.foldl_append, ih, endPlace_append_singleton]
      rfl

/-- The place of an offset between characters is the place behind the text before it. -/
theorem positionAt_byteLength (before after : List Char) :
    positionAt (before ++ after) (byteLength before) = endPlace before := by
  rw [positionAt, takeBytes_byteLength, foldl_advance]

end ElmScope.Text
