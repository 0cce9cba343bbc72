/-! Places and stretches of a text as an editor counts them. Lines are numbered
from zero, and a column counts the UTF-16 code units before it on its line.
Places are ordered by line and then by column. -/
namespace ElmScope

/-- A place in a text: a zero-based line and a column in UTF-16 code units. -/
structure Position where
  line : Nat
  character : Nat
deriving DecidableEq, Repr, Inhabited

namespace Position

def origin : Position := ⟨0, 0⟩

/-- A place comes no later than another when its line is smaller, or when the
lines agree and its column is not greater. -/
instance : LE Position where
  le p q := p.line < q.line ∨ p.line = q.line ∧ p.character ≤ q.character

/-- A place comes strictly before another when its line is smaller, or when the
lines agree and its column is smaller. -/
instance : LT Position where
  lt p q := p.line < q.line ∨ p.line = q.line ∧ p.character < q.character

theorem le_def {p q : Position} :
    p ≤ q ↔ p.line < q.line ∨ p.line = q.line ∧ p.character ≤ q.character := Iff.rfl

theorem lt_def {p q : Position} :
    p < q ↔ p.line < q.line ∨ p.line = q.line ∧ p.character < q.character := Iff.rfl

instance (p q : Position) : Decidable (p ≤ q) := decidable_of_iff _ le_def.symm

instance (p q : Position) : Decidable (p < q) := decidable_of_iff _ lt_def.symm

protected theorem le_refl (p : Position) : p ≤ p := .inr ⟨rfl, Nat.le_refl _⟩

protected theorem le_trans {p q r : Position} (hpq : p ≤ q) (hqr : q ≤ r) : p ≤ r := by
  simp only [le_def] at *
  omega

protected theorem not_le {p q : Position} : ¬ p ≤ q ↔ q < p := by
  simp only [le_def, lt_def]
  omega

end Position

structure Range where
  start : Position
  stop : Position
deriving DecidableEq, Repr, Inhabited

namespace Range

def empty (p : Position) : Range := ⟨p, p⟩

/-- Both ends of a stretch belong to it. -/
def contains (r : Range) (p : Position) : Bool := decide (r.start ≤ p) && decide (p ≤ r.stop)

end Range

end ElmScope
