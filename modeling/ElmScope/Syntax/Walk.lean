import ElmScope.Syntax.Tree

/-! Walks over a tree: children by kind, siblings, the chain of ancestors, the
descendants in the order in which they begin, and the deepest node over a stretch
of text. -/
namespace ElmScope.Tree

def namedChildren (t : Tree) (n : Nat) : List Nat := (t.children n).filter t.isNamed

def firstNamedChild? (t : Tree) (n : Nat) : Option Nat := (t.namedChildren n).head?

def lastNamedChild? (t : Tree) (n : Nat) : Option Nat := (t.namedChildren n).getLast?

def childrenOfKind (t : Tree) (n : Nat) (kind : Kind) : List Nat :=
  (t.children n).filter (t.kind · = kind)

def childOfKind? (t : Tree) (n : Nat) (kind : Kind) : Option Nat :=
  (t.children n).find? (t.kind · = kind)

def siblingsBefore (t : Tree) (n : Nat) : List Nat :=
  match t.parent? n with
  | none => []
  | some p => (t.children p).take (t.node n).index

def siblingsAfter (t : Tree) (n : Nat) : List Nat :=
  match t.parent? n with
  | none => []
  | some p => (t.children p).drop ((t.node n).index + 1)

def nextSibling? (t : Tree) (n : Nat) : Option Nat := (t.siblingsAfter n).head?

def prevSibling? (t : Tree) (n : Nat) : Option Nat := (t.siblingsBefore n).getLast?

def nextNamedSibling? (t : Tree) (n : Nat) : Option Nat :=
  (t.siblingsAfter n).find? t.isNamed

def prevNamedSibling? (t : Tree) (n : Nat) : Option Nat :=
  (t.siblingsBefore n).reverse.find? t.isNamed

/-- The nodes above a node, nearest first. -/
def ancestors (t : Tree) (n : Nat) : List Nat :=
  match _h : t.parent? n with
  | none => []
  | some p => p :: t.ancestors p
termination_by n
decreasing_by exact parent?_lt _h

/-- The nodes below a node, each before its own descendants. -/
def descendants (t : Tree) (n : Nat) : List Nat :=
  (t.children n).attach.flatMap fun child => child.1 :: t.descendants child.1
termination_by t.size - n
decreasing_by
  have := children_bounds child.2
  omega

def descendantsOfKind (t : Tree) (n : Nat) (kind : Kind) : List Nat :=
  (t.descendants n).filter (t.kind · = kind)

def reachable (t : Tree) : List Nat := root :: t.descendants root

/-- A node spans a stretch of text when it starts no later, ends no earlier, and
ends strictly after the beginning of the stretch. A place right behind a name is
therefore not on the name. -/
def spans (t : Tree) (stretch : Range) (n : Nat) : Bool :=
  decide (stretch.stop ≤ t.stop n) && decide (stretch.start < t.stop n) &&
    decide (t.start n ≤ stretch.start)

/-- The last named node on the way down from a node through spanning children. -/
def descend (t : Tree) (stretch : Range) (n best : Nat) : Nat :=
  match _h : (t.children n).find? (t.spans stretch) with
  | none => best
  | some c => t.descend stretch c (if t.isNamed c then c else best)
termination_by t.size - n
decreasing_by
  have := children_bounds (List.mem_of_find?_eq_some _h)
  omega

/-- The deepest named node that spans a stretch of text, or the root. -/
def deepestOver (t : Tree) (stretch : Range) : Nat := t.descend stretch root root

def deepestAt (t : Tree) (p : Position) : Nat := t.deepestOver (.empty p)

theorem ancestors_eq (t : Tree) (n : Nat) :
    t.ancestors n = match t.parent? n with
      | none => []
      | some p => p :: t.ancestors p := by
  rw [ancestors]
  split <;> simp_all

theorem descendants_eq (t : Tree) (n : Nat) :
    t.descendants n = (t.children n).flatMap fun c => c :: t.descendants c := by
  rw [descendants]
  conv => rhs; rw [← List.attach_map_subtype_val (t.children n), List.flatMap_map]

end ElmScope.Tree
