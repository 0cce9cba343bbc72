import ElmScope.Syntax.Node
import ElmScope.Text.Line

/-! Nodes from events. A reader of source text reports, in order, where nodes begin
and end and the text between. The source is the text of all events, and a node
covers what was reported between its beginning and its end. A node belongs to the
innermost node that is open when it begins, so one begun outside every other has no
parent. -/
namespace ElmScope

open Text

/-- What a reader of source text reports. -/
inductive Event where
  /-- A named node begins. -/
  | enter (kind : Kind)
  /-- The innermost open node ends. -/
  | leave
  /-- A named leaf with its text. -/
  | token (kind : Kind) (text : String)
  /-- A leaf of fixed text, whose kind is the text itself. -/
  | punctuation (text : String)
  /-- A token that was expected here and not found. -/
  | missing (kind : Kind)
  /-- Text that belongs to no leaf, such as white space. -/
  | gap (text : String)
deriving Repr

/-- A node while its tree is being built: with the children begun so far, and its own place
among those of its parent. -/
structure Draft where
  kind : Kind
  isNamed : Bool
  isMissing : Bool
  parent : Option Nat
  startByte : Nat
  endByte : Nat
  children : Array Nat
  index : Nat
deriving Repr, Inhabited

/-- A tree under construction. Every node begun so far has a draft, and the open
ones are listed innermost first. -/
structure Builder where
  source : String := ""
  drafts : Array Draft := #[]
  opened : List Nat := []
  parent_lt : ∀ (n : Nat) (h : n < drafts.size) (p : Nat),
    drafts[n].parent = some p → p < n := by simp
  opened_lt : ∀ n ∈ opened, n < drafts.size := by simp

namespace Builder

def start : Builder := {}

def here (b : Builder) : Nat := b.source.utf8ByteSize

def append (b : Builder) (text : String) : Builder := { b with source := b.source ++ text }

def changeInnermost (b : Builder) (change : Draft → Draft) : Array Draft :=
  match b.opened.head? with
  | none => b.drafts
  | some inner => b.drafts.modify inner change

@[simp] theorem size_changeInnermost (b : Builder) (change : Draft → Draft) :
    (b.changeInnermost change).size = b.drafts.size := by
  unfold changeInnermost
  split <;> simp

/-- A change reaches the draft of the innermost open node alone. -/
theorem getElem?_changeInnermost (b : Builder) (change : Draft → Draft) (n : Nat) :
    (b.changeInnermost change)[n]? =
      if b.opened.head? = some n then b.drafts[n]?.map change else b.drafts[n]? := by
  unfold changeInnermost
  split
  · next hNone => rw [if_neg (by simp [hNone])]
  · next inner hInner => simp only [Array.getElem?_modify, hInner, Option.some.injEq]

/-- What a change does not touch can be read off as before. -/
theorem map_changeInnermost {α : Type} {change : Draft → Draft} {read : Draft → α}
    (h : ∀ draft, read (change draft) = read draft) (b : Builder) (n : Nat) :
    (b.changeInnermost change)[n]?.map read = b.drafts[n]?.map read := by
  rw [getElem?_changeInnermost]
  split
  · rw [Option.map_map]
    exact congrArg (b.drafts[n]?.map ·) (funext h)
  · rfl

/-- A change that leaves the parents alone keeps them before their children. -/
theorem parent_changeInnermost_lt (b : Builder) (change : Draft → Draft)
    (hParent : ∀ draft, (change draft).parent = draft.parent) (n : Nat)
    (h : n < (b.changeInnermost change).size) (p : Nat)
    (hp : (b.changeInnermost change)[n].parent = some p) : p < n := by
  have hlt : n < b.drafts.size := b.size_changeInnermost change ▸ h
  have hSame := map_changeInnermost hParent b n
  rw [Array.getElem?_eq_getElem h, Array.getElem?_eq_getElem hlt] at hSame
  exact b.parent_lt n hlt p ((Option.some.inj hSame).symm.trans hp)

def nextIndex (b : Builder) : Nat :=
  ((b.opened.head?.bind (b.drafts[·]?)).map (·.children.size)).getD 0

/-- A node begins here, as the next child of the innermost open node. -/
def enter (b : Builder) (kind : Kind) (isNamed isMissing : Bool) : Builder where
  source := b.source
  drafts :=
    let id := b.drafts.size
    (b.changeInnermost fun draft => { draft with children := draft.children.push id }).push
      ⟨kind, isNamed, isMissing, b.opened.head?, b.here, b.here, #[], b.nextIndex⟩
  opened := b.drafts.size :: b.opened
  parent_lt := by
    intro n h p hp
    rw [Array.getElem_push] at hp
    split at hp
    · refine b.parent_changeInnermost_lt _ ?_ n _ p hp
      exact fun _ => rfl
    · have := b.opened_lt p (List.mem_of_mem_head? hp)
      simp only [Array.size_push, size_changeInnermost] at h
      simp only [size_changeInnermost] at *
      omega
  opened_lt := by
    intro n hn
    rw [Array.size_push, size_changeInnermost]
    rcases List.mem_cons.mp hn with rfl | hn
    · exact Nat.lt_succ_self _
    · exact Nat.lt_succ_of_lt (b.opened_lt n hn)

/-- The innermost open node ends here. Nothing happens when none is open. -/
def leave (b : Builder) : Builder where
  source := b.source
  drafts :=
    let stop := b.here
    b.changeInnermost fun draft => { draft with endByte := stop }
  opened := b.opened.tail
  parent_lt := b.parent_changeInnermost_lt _ fun _ => rfl
  opened_lt := by
    intro n hn
    rw [size_changeInnermost]
    exact b.opened_lt n (List.mem_of_mem_tail hn)

def leaf (b : Builder) (kind : Kind) (isNamed : Bool) (text : String) : Builder :=
  ((b.enter kind isNamed false).append text).leave

def step (b : Builder) : Event → Builder
  | .enter kind => b.enter kind true false
  | .leave => b.leave
  | .token kind text => b.leaf kind true text
  | .punctuation text => b.leaf (.ofName text) false text
  | .missing kind => (b.enter kind true true).leave
  | .gap text => b.append text

def closeAll (b : Builder) : Builder := b.opened.foldl (fun b _ => b.leave) b

/-- One file node over a whole source. -/
def wholeFile (source : String) : Builder where
  source := source
  drafts := #[⟨.file, true, false, none, 0, source.utf8ByteSize, #[], 0⟩]
  parent_lt := by
    intro n h p hp
    obtain rfl : n = 0 := by simpa using h
    simp at hp

/-- Every open node ends here, and a source without nodes becomes one file node. -/
def finish (b : Builder) : Builder :=
  let closed := b.closeAll
  if closed.drafts.isEmpty then wholeFile closed.source else closed

/-- The builder after a whole sequence of events. Nodes still open at the end of the
sequence end with the source. -/
def ofEvents (events : List Event) : Builder := (events.foldl step start).finish

def toNode (chars : List Char) (draft : Draft) : Node where
  kind := draft.kind
  isNamed := draft.isNamed
  isMissing := draft.isMissing
  startByte := draft.startByte
  endByte := draft.endByte
  range := ⟨positionAt chars draft.startByte, positionAt chars draft.endByte⟩
  text := .ofList (slice draft.startByte draft.endByte chars)
  parent := draft.parent
  children := draft.children.toList
  index := draft.index

def nodes (b : Builder) : Array Node := (b.drafts.toList.map (toNode b.source.toList)).toArray

/-! ### What a builder has of a draft -/

def parent? (b : Builder) (n : Nat) : Option Nat := b.drafts[n]?.bind (·.parent)

def childrenOf (b : Builder) (n : Nat) : Array Nat := (b.drafts[n]?.map Draft.children).getD #[]

def indexOf (b : Builder) (n : Nat) : Nat := (b.drafts[n]?.map Draft.index).getD 0

/-- A parent begins before its children. -/
theorem parent?_bounds {b : Builder} {p c : Nat} (h : b.parent? c = some p) :
    p < c ∧ c < b.drafts.size := by
  by_cases hlt : c < b.drafts.size
  · simp only [parent?, Array.getElem?_eq_getElem hlt, Option.bind_some] at h
    exact ⟨b.parent_lt c hlt p h, hlt⟩
  · simp [parent?, Array.getElem?_eq_none (Nat.le_of_not_lt hlt)] at h

@[simp] theorem size_nodes (b : Builder) : b.nodes.size = b.drafts.size := by simp [nodes]

@[simp] theorem size_enter (b : Builder) (kind : Kind) (isNamed isMissing : Bool) :
    (b.enter kind isNamed isMissing).drafts.size = b.drafts.size + 1 := by
  simp [enter]

@[simp] theorem size_leave (b : Builder) : b.leave.drafts.size = b.drafts.size :=
  b.size_changeInnermost _

theorem opened_leave {b : Builder} {inner : Nat} {outer : List Nat}
    (h : b.opened = inner :: outer) : b.leave.opened = outer :=
  congrArg List.tail h

/-! ### What every builder has in common -/

section

variable {motive : Builder → Prop}
  (enter : ∀ b kind isNamed isMissing, motive b → motive (b.enter kind isNamed isMissing))
  (leave : ∀ b, motive b → motive b.leave)
  (append : ∀ b text, motive b → motive (b.append text))

include enter leave append

/-- What the three ways to change a builder keep, every event keeps. -/
theorem step_induction {b : Builder} (h : motive b) (event : Event) : motive (b.step event) := by
  cases event with
  | enter kind => exact enter b kind true false h
  | leave => exact leave b h
  | token kind text => exact leave _ (append _ text (enter b kind true false h))
  | punctuation text => exact leave _ (append _ text (enter b (.ofName text) false false h))
  | missing kind => exact leave _ (enter b kind true true h)
  | gap text => exact append b text h

/-- What one event keeps, every sequence of events keeps. -/
theorem run_induction {b : Builder} (h : motive b) (events : List Event) :
    motive (events.foldl step b) := by
  induction events generalizing b with
  | nil => exact h
  | cons event rest ih => exact ih (step_induction enter leave append h event)

end

theorem closeAll_of_opened_nil {b : Builder} (h : b.opened = []) : b.closeAll = b := by
  rw [closeAll, h, List.foldl_nil]

theorem closeAll_of_opened_cons {b : Builder} {inner : Nat} {outer : List Nat}
    (h : b.opened = inner :: outer) : b.closeAll = b.leave.closeAll := by
  rw [closeAll, h, List.foldl_cons, closeAll, opened_leave h]

/-- What leaving keeps holds after all open nodes have ended. -/
theorem closeAll_induction {motive : Builder → Prop} (leave : ∀ b, motive b → motive b.leave)
    {b : Builder} (h : motive b) : motive b.closeAll := by
  induction hOpened : b.opened generalizing b with
  | nil => rwa [closeAll_of_opened_nil hOpened]
  | cons inner outer ih =>
      rw [closeAll_of_opened_cons hOpened]
      exact ih (leave b h) (opened_leave hOpened)

/-- What leaving keeps and a file without nodes has, a finished builder has. -/
theorem finish_induction {motive : Builder → Prop} (leave : ∀ b, motive b → motive b.leave)
    (file : ∀ source, motive (wholeFile source)) {b : Builder} (h : motive b) :
    motive b.finish := by
  simp only [finish]
  split
  · exact file _
  · exact closeAll_induction leave h

/-- A source without nodes becomes one file node, so there is always a first node. -/
theorem finish_size_pos (b : Builder) : 0 < b.finish.drafts.size := by
  simp only [finish]
  split
  · exact Nat.zero_lt_one
  · next h => simpa [Array.isEmpty_iff, Nat.pos_iff_ne_zero] using h

/-! ### Parents and children -/

/-- What neither a new child nor an end touches is read off the drafts as before. -/
theorem map_drafts_enter {α : Type} {read : Draft → α}
    (h : ∀ draft children, read { draft with children } = read draft) (b : Builder) (kind : Kind)
    (isNamed isMissing : Bool) (n : Nat) :
    (b.enter kind isNamed isMissing).drafts[n]?.map read =
      if n = b.drafts.size then
        some (read ⟨kind, isNamed, isMissing, b.opened.head?, b.here, b.here, #[], b.nextIndex⟩)
      else b.drafts[n]?.map read := by
  simp only [enter, Array.getElem?_push, size_changeInnermost]
  split
  · rfl
  · exact map_changeInnermost (fun draft => h draft _) b n

theorem map_drafts_leave {α : Type} {read : Draft → α}
    (h : ∀ draft endByte, read { draft with endByte } = read draft) (b : Builder) (n : Nat) :
    b.leave.drafts[n]?.map read = b.drafts[n]?.map read :=
  map_changeInnermost (fun draft => h draft _) b n

theorem parent?_eq (b : Builder) (n : Nat) :
    b.parent? n = (b.drafts[n]?.map Draft.parent).bind id := by
  rw [parent?, Option.bind_map]
  rfl

/-- A node that begins has the innermost open node as its parent. -/
theorem parent?_enter (b : Builder) (kind : Kind) (isNamed isMissing : Bool) (n : Nat) :
    (b.enter kind isNamed isMissing).parent? n =
      if n = b.drafts.size then b.opened.head? else b.parent? n := by
  rw [parent?_eq, map_drafts_enter (fun _ _ => rfl), parent?_eq]
  split <;> rfl

theorem parent?_leave (b : Builder) (n : Nat) : b.leave.parent? n = b.parent? n := by
  rw [parent?_eq, map_drafts_leave (fun _ _ => rfl), parent?_eq]

theorem indexOf_enter (b : Builder) (kind : Kind) (isNamed isMissing : Bool) (n : Nat) :
    (b.enter kind isNamed isMissing).indexOf n =
      if n = b.drafts.size then b.nextIndex else b.indexOf n := by
  rw [indexOf, map_drafts_enter (fun _ _ => rfl), indexOf]
  split <;> rfl

theorem indexOf_leave (b : Builder) (n : Nat) : b.leave.indexOf n = b.indexOf n := by
  rw [indexOf, map_drafts_leave (fun _ _ => rfl), indexOf]

theorem childrenOf_of_size_le {b : Builder} {n : Nat} (h : b.drafts.size ≤ n) :
    b.childrenOf n = #[] := by
  rw [childrenOf, Array.getElem?_eq_none h]
  rfl

/-- A node that begins is one more child of the innermost open node. -/
theorem childrenOf_enter (b : Builder) (kind : Kind) (isNamed isMissing : Bool) (n : Nat) :
    (b.enter kind isNamed isMissing).childrenOf n =
      if b.opened.head? = some n then (b.childrenOf n).push b.drafts.size
      else b.childrenOf n := by
  rw [childrenOf, enter, Array.getElem?_push, size_changeInnermost]
  split
  · next hNew =>
    have hNotOpen : b.opened.head? ≠ some n := fun h =>
      Nat.lt_irrefl n (hNew ▸ b.opened_lt n (List.mem_of_mem_head? h))
    rw [if_neg hNotOpen, childrenOf_of_size_le (Nat.le_of_eq hNew.symm)]
    rfl
  · rw [getElem?_changeInnermost]
    split
    · next hInner =>
      have hlt := b.opened_lt n (List.mem_of_mem_head? hInner)
      rw [childrenOf, Array.getElem?_eq_getElem hlt]
      rfl
    · rfl

theorem childrenOf_leave (b : Builder) (n : Nat) : b.leave.childrenOf n = b.childrenOf n := by
  rw [childrenOf, map_drafts_leave (fun _ _ => rfl), childrenOf]

/-- A new child has as its index the number of children before it. -/
theorem nextIndex_eq {b : Builder} {p : Nat} (h : b.opened.head? = some p) :
    b.nextIndex = (b.childrenOf p).size := by
  have hlt := b.opened_lt p (List.mem_of_mem_head? h)
  rw [nextIndex, h, Option.bind_some, childrenOf, Array.getElem?_eq_getElem hlt]
  rfl

/-- What holds of the bookkeeping after any events: the place at which a node is listed among
the children of another is the index it has there, and no node is listed under another than its
parent. Children are listed in the order in which they begin. -/
structure Linked (b : Builder) : Prop where
  child_iff : ∀ p i c, (b.childrenOf p)[i]? = some c ↔ b.parent? c = some p ∧ b.indexOf c = i
  children_sorted : ∀ p, (b.childrenOf p).toList.Pairwise (· < ·)

/-- A node that begins is listed last among the children of its parent, at its index. -/
theorem Linked.enter {b : Builder} (h : b.Linked) (kind : Kind) (isNamed isMissing : Bool) :
    (b.enter kind isNamed isMissing).Linked := by
  have hListed {p i c : Nat} (hc : (b.childrenOf p)[i]? = some c) : c < b.drafts.size :=
    (parent?_bounds ((h.child_iff p i c).mp hc).1).2
  constructor
  case child_iff =>
    intro p i c
    rw [childrenOf_enter, parent?_enter, indexOf_enter]
    by_cases hNew : c = b.drafts.size
    · rw [if_pos hNew, if_pos hNew, hNew]
      split
      · next hInner =>
        rw [Array.getElem?_push, nextIndex_eq hInner]
        split
        · next hLast => simp [hInner, hLast]
        · next hBefore =>
          refine ⟨fun hc => absurd (hListed hc) (Nat.lt_irrefl _), fun hc => ?_⟩
          exact absurd hc.2.symm hBefore
      · next hOther =>
        exact ⟨fun hc => absurd (hListed hc) (Nat.lt_irrefl _), fun hc => absurd hc.1 hOther⟩
    · rw [if_neg hNew, if_neg hNew, ← h.child_iff]
      split
      · rw [Array.getElem?_push]
        split
        · next hLast =>
          rw [hLast, Array.getElem?_eq_none (Nat.le_refl _)]
          simpa using Ne.symm hNew
        · rfl
      · rfl
  case children_sorted =>
    intro p
    rw [childrenOf_enter]
    split
    · rw [Array.toList_push, List.pairwise_append]
      refine ⟨h.children_sorted p, List.pairwise_singleton _ _, fun c hc last hLast => ?_⟩
      obtain ⟨i, hi⟩ := List.mem_iff_getElem?.mp hc
      rw [List.mem_singleton.mp hLast]
      exact hListed ((Array.getElem?_toList ..).symm.trans hi)
    · exact h.children_sorted p

theorem Linked.leave {b : Builder} (h : b.Linked) : b.leave.Linked := by
  refine ⟨fun p i c => ?_, fun p => ?_⟩
  · rw [childrenOf_leave, parent?_leave, indexOf_leave]
    exact h.child_iff p i c
  · rw [childrenOf_leave]
    exact h.children_sorted p

theorem linked_wholeFile (source : String) : (wholeFile source).Linked := by
  have hNone (n : Nat) : (wholeFile source).parent? n = none ∧
      (wholeFile source).childrenOf n = #[] := by
    cases n <;> exact ⟨rfl, rfl⟩
  refine ⟨fun p i c => ?_, fun p => ?_⟩
  · rw [(hNone p).2, (hNone c).1]
    simp
  · rw [(hNone p).2]
    exact .nil

/-- Every sequence of events leaves the bookkeeping in order. -/
theorem linked_ofEvents (events : List Event) : (ofEvents events).Linked := by
  have hStart : start.Linked := by
    constructor <;> simp [start, childrenOf, parent?]
  exact finish_induction (fun _ h => h.leave) linked_wholeFile
    (run_induction (fun _ kind isNamed isMissing h => h.enter kind isNamed isMissing)
      (fun _ h => h.leave) (fun _ _ h => ⟨h.child_iff, h.children_sorted⟩) hStart events)

/-- A node is listed among the children of its parent and of no other. -/
theorem Linked.mem_childrenOf {b : Builder} (h : b.Linked) {p c : Nat} :
    c ∈ b.childrenOf p ↔ b.parent? c = some p := by
  rw [Array.mem_iff_getElem?]
  simp only [h.child_iff]
  exact ⟨fun ⟨_, hParent, _⟩ => hParent, fun hParent => ⟨_, hParent, rfl⟩⟩

end Builder

end ElmScope
