/-! The two widths of a text: UTF-8 bytes, in which trees locate their nodes,
and UTF-16 code units, in which editors count columns. Offsets and columns that
fall inside a character are taken to the boundary after it. -/
namespace ElmScope.Text

/-- The number of UTF-16 code units of a character: two beyond the basic plane. -/
def utf16Width (c : Char) : Nat := if c.toNat < 0x10000 then 1 else 2

def utf16Length : List Char → Nat
  | [] => 0
  | c :: rest => utf16Width c + utf16Length rest

def byteLength : List Char → Nat
  | [] => 0
  | c :: rest => c.utf8Size + byteLength rest

/-- The characters that begin before a byte offset. -/
def takeBytes : Nat → List Char → List Char
  | _, [] => []
  | 0, _ => []
  | n + 1, c :: rest => c :: takeBytes (n + 1 - c.utf8Size) rest

def dropBytes : Nat → List Char → List Char
  | _, [] => []
  | 0, c :: rest => c :: rest
  | n + 1, c :: rest => dropBytes (n + 1 - c.utf8Size) rest

/-- The text between two byte offsets, empty when they are out of order. -/
def slice (start stop : Nat) (text : List Char) : List Char :=
  takeBytes (stop - start) (dropBytes start text)

def takeColumns : Nat → List Char → List Char
  | _, [] => []
  | 0, _ => []
  | k + 1, c :: rest => c :: takeColumns (k + 1 - utf16Width c) rest

/-- The byte offset of a UTF-16 column of a line. A column inside a surrogate
pair lands after the pair, and one past the end lands at the end. -/
def byteColumn (line : List Char) (character : Nat) : Nat :=
  byteLength (takeColumns character line)

theorem utf16Width_pos (c : Char) : 0 < utf16Width c := by
  unfold utf16Width
  split <;> decide

@[simp] theorem takeBytes_nil (n : Nat) : takeBytes n [] = [] := by cases n <;> rfl

@[simp] theorem takeBytes_zero (text : List Char) : takeBytes 0 text = [] := by
  cases text <;> rfl

@[simp] theorem dropBytes_nil (n : Nat) : dropBytes n [] = [] := by cases n <;> rfl

/-- A byte offset cuts a text in two. -/
theorem takeBytes_append_dropBytes (n : Nat) (text : List Char) :
    takeBytes n text ++ dropBytes n text = text := by
  induction text generalizing n with
  | nil => simp
  | cons c rest ih =>
    cases n with
    | zero => rfl
    | succ n => simp [takeBytes, dropBytes, ih]

theorem takeBytes_length_le (n : Nat) (text : List Char) :
    (takeBytes n text).length ≤ text.length := by
  have h := congrArg List.length (takeBytes_append_dropBytes n text)
  rw [List.length_append] at h
  omega

theorem byteLength_append (a b : List Char) :
    byteLength (a ++ b) = byteLength a + byteLength b := by
  induction a with
  | nil => simp [byteLength]
  | cons c rest ih => simp [byteLength, ih, Nat.add_assoc]

end ElmScope.Text
