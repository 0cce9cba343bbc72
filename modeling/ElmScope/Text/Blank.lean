/-! White space, and trimming it. The set is the Unicode property of that name. -/
namespace ElmScope.Text

/-- The characters with the Unicode property White_Space. -/
def isBlank (c : Char) : Bool :=
  let n := c.toNat
  (9 ≤ n && n ≤ 13) || n = 0x20 || n = 0x85 || n = 0xA0 || n = 0x1680 ||
    (0x2000 ≤ n && n ≤ 0x200A) || n = 0x2028 || n = 0x2029 || n = 0x202F || n = 0x205F ||
    n = 0x3000

/-- The text without the longest tail of characters that satisfy a test. -/
def dropTail (test : Char → Bool) (text : List Char) : List Char :=
  (text.reverse.dropWhile test).reverse

/-- The longest tail of characters that satisfy a test. -/
def takeTail (test : Char → Bool) (text : List Char) : List Char :=
  (text.reverse.takeWhile test).reverse

def trimEnd (text : List Char) : List Char := dropTail isBlank text

def trim (text : List Char) : List Char := trimEnd (text.dropWhile isBlank)

/-- A test divides a text into what precedes its longest satisfying tail and
that tail. -/
theorem dropTail_append_takeTail (test : Char → Bool) (text : List Char) :
    dropTail test text ++ takeTail test text = text := by
  rw [dropTail, takeTail, ← List.reverse_append, List.takeWhile_append_dropWhile,
    List.reverse_reverse]

theorem dropTail_length_le (test : Char → Bool) (text : List Char) :
    (dropTail test text).length ≤ text.length := by
  have h := congrArg List.length (dropTail_append_takeTail test text)
  rw [List.length_append] at h
  omega

end ElmScope.Text
