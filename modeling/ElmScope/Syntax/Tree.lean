import ElmScope.Syntax.Builder

/-! Syntax trees. A tree keeps its nodes in an array in the order in which they
begin, and node 0 is the root. A node begun outside every other is in the array too,
but only the nodes below the root are reached by walking down from it. -/
namespace ElmScope

/-- A source text with its nodes, as some sequence of events describes them. -/
structure Tree where
  source : String
  nodes : Array Node
  described : ∃ events : List Event,
    source = (Builder.ofEvents events).source ∧ nodes = (Builder.ofEvents events).nodes
deriving DecidableEq

namespace Tree

def ofEvents (events : List Event) : Tree :=
  let b := Builder.ofEvents events
  ⟨b.source, b.nodes, events, rfl, rfl⟩

def root : Nat := 0

/-- The number of nodes, those outside the root included. -/
def size (t : Tree) : Nat := t.nodes.size

def node (t : Tree) (n : Nat) : Node := t.nodes[n]?.getD .absent

def kind (t : Tree) (n : Nat) : Kind := (t.node n).kind

def isNamed (t : Tree) (n : Nat) : Bool := (t.node n).isNamed

def isMissing (t : Tree) (n : Nat) : Bool := (t.node n).isMissing

/-- An error node covers text that fits no rule of the grammar. -/
def isError (t : Tree) (n : Nat) : Bool := t.kind n = .error

def startByte (t : Tree) (n : Nat) : Nat := (t.node n).startByte

def endByte (t : Tree) (n : Nat) : Nat := (t.node n).endByte

def range (t : Tree) (n : Nat) : Range := (t.node n).range

def start (t : Tree) (n : Nat) : Position := (t.range n).start

def stop (t : Tree) (n : Nat) : Position := (t.range n).stop

def text (t : Tree) (n : Nat) : String := (t.node n).text

def parent? (t : Tree) (n : Nat) : Option Nat := (t.node n).parent

def children (t : Tree) (n : Nat) : List Nat := (t.node n).children

/-- Whether some node, reached from the root or not, is an error or is missing. -/
def hasError (t : Tree) : Bool :=
  t.nodes.any fun node => node.kind = .error || node.isMissing

/-- Every tree is the tree of some events. -/
theorem exists_eq_ofEvents (t : Tree) : ∃ events, t = ofEvents events := by
  obtain ⟨source, nodes, events, rfl, rfl⟩ := t
  exact ⟨events, rfl⟩

theorem size_ofEvents (events : List Event) :
    (ofEvents events).size = (Builder.ofEvents events).drafts.size :=
  (Builder.ofEvents events).size_nodes

theorem node_ofEvents (events : List Event) (n : Nat) :
    (ofEvents events).node n = ((Builder.ofEvents events).drafts[n]?.map
      (Builder.toNode (Builder.ofEvents events).source.toList)).getD .absent := by
  simp only [node, ofEvents, Builder.nodes, List.getElem?_toArray, List.getElem?_map,
    Array.getElem?_toList]

theorem parent?_ofEvents (events : List Event) (n : Nat) :
    (ofEvents events).parent? n = (Builder.ofEvents events).parent? n := by
  rw [parent?, node_ofEvents, Builder.parent?]
  cases (Builder.ofEvents events).drafts[n]? <;> rfl

theorem children_ofEvents (events : List Event) (n : Nat) :
    (ofEvents events).children n = ((Builder.ofEvents events).childrenOf n).toList := by
  rw [children, node_ofEvents, Builder.childrenOf]
  cases (Builder.ofEvents events).drafts[n]? <;> rfl

theorem index_ofEvents (events : List Event) (n : Nat) :
    ((ofEvents events).node n).index = (Builder.ofEvents events).indexOf n := by
  rw [node_ofEvents, Builder.indexOf]
  cases (Builder.ofEvents events).drafts[n]? <;> rfl

/-- Every tree has a root. -/
theorem size_pos (t : Tree) : 0 < t.size := by
  obtain ⟨events, rfl⟩ := t.exists_eq_ofEvents
  rw [size_ofEvents]
  exact Builder.finish_size_pos _

/-- A node is a child of its parent and of no other node. -/
theorem mem_children_iff {t : Tree} {n c : Nat} : c ∈ t.children n ↔ t.parent? c = some n := by
  obtain ⟨events, rfl⟩ := t.exists_eq_ofEvents
  rw [children_ofEvents, parent?_ofEvents, Array.mem_toList_iff]
  exact (Builder.linked_ofEvents events).mem_childrenOf

/-- Parents come before their children and children lie within the tree, so walking up
and walking down end. -/
theorem parent?_bounds {t : Tree} {n p : Nat} (h : t.parent? n = some p) :
    p < n ∧ n < t.size := by
  obtain ⟨events, rfl⟩ := t.exists_eq_ofEvents
  rw [parent?_ofEvents] at h
  rw [size_ofEvents]
  exact Builder.parent?_bounds h

/-- A parent begins before its children. -/
theorem parent?_lt {t : Tree} {n p : Nat} (h : t.parent? n = some p) : p < n :=
  (parent?_bounds h).1

theorem children_bounds {t : Tree} {n c : Nat} (h : c ∈ t.children n) :
    n < c ∧ c < t.size :=
  parent?_bounds (mem_children_iff.mp h)

end Tree

end ElmScope
