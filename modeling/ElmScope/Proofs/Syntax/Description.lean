import ElmScope.Proofs.Syntax.Cover
import ElmScope.Proofs.Syntax.TreeOrder
import ElmScope.Proofs.Text.Offset

/-! A tree is what its events describe. Its source is the text of all events, it has a node
for every event that begins one, and a node covers the text reported from its beginning to
the event that ends it, or to the end of the source when none does. -/
namespace ElmScope

open Text

namespace Event

def text : Event → String
  | .token _ text | .punctuation text | .gap text => text
  | .enter _ | .leave | .missing _ => ""

def begins : Event → Bool
  | .leave | .gap _ => false
  | _ => true

end Event

def reported (events : List Event) : List Char := events.flatMap fun event => event.text.toList

/-- The events up to the one that ends a node in which `depth` others are open, or all of
them when none ends it. -/
def untilEnd : Nat → List Event → List Event
  | _, [] => []
  | depth, .enter kind :: rest => .enter kind :: untilEnd (depth + 1) rest
  | 0, .leave :: _ => []
  | depth + 1, .leave :: rest => .leave :: untilEnd depth rest
  | depth, event :: rest => event :: untilEnd depth rest

/-- The text reported while a node is open, from the event that begins it and the events
behind that one. Only an entered node stays open beyond its first event. -/
def extent : Event → List Event → List Char
  | .enter _, after => reported (untilEnd 0 after)
  | event, _ => event.text.toList

/-- A node of a tree covers a part of the source: it has the text of the part, and begins
and ends at the byte offsets and the places of the part's ends. -/
structure Tree.Covers (t : Tree) (n : Nat) (before inside after : List Char) : Prop where
  source : t.source.toList = before ++ inside ++ after
  text : t.text n = .ofList inside
  startByte : t.startByte n = byteLength before
  endByte : t.endByte n = byteLength (before ++ inside)
  start : t.start n = endPlace before
  stop : t.stop n = endPlace (before ++ inside)

theorem reported_cons (event : Event) (rest : List Event) :
    reported (event :: rest) = event.text.toList ++ reported rest := List.flatMap_cons

theorem reported_append (before after : List Event) :
    reported (before ++ after) = reported before ++ reported after := List.flatMap_append

theorem untilEnd_isPrefix (depth : Nat) (events : List Event) :
    untilEnd depth events <+: events := by
  induction events generalizing depth with
  | nil => simp [untilEnd]
  | cons event rest ih =>
      cases event with
      | leave =>
          cases depth with
          | zero => exact List.nil_prefix
          | succ depth => exact List.cons_prefix_cons.mpr ⟨rfl, ih depth⟩
      | enter kind => exact List.cons_prefix_cons.mpr ⟨rfl, ih (depth + 1)⟩
      | token kind text => exact List.cons_prefix_cons.mpr ⟨rfl, ih depth⟩
      | punctuation text => exact List.cons_prefix_cons.mpr ⟨rfl, ih depth⟩
      | missing kind => exact List.cons_prefix_cons.mpr ⟨rfl, ih depth⟩
      | gap text => exact List.cons_prefix_cons.mpr ⟨rfl, ih depth⟩

/-- What a node covers stands right behind what was reported before it began. -/
theorem extent_isPrefix (event : Event) (after : List Event) :
    extent event after <+: reported (event :: after) := by
  rw [reported_cons]
  cases event with
  | enter kind =>
      obtain ⟨rest, hRest⟩ := untilEnd_isPrefix 0 after
      refine ⟨reported rest, ?_⟩
      conv => rhs; rw [← hRest, reported_append]
      rfl
  | leave => exact List.prefix_append _ _
  | token kind text => exact List.prefix_append _ _
  | punctuation text => exact List.prefix_append _ _
  | missing kind => exact List.prefix_append _ _
  | gap text => exact List.prefix_append _ _

namespace Builder

variable {b : Builder} {n : Nat}

/-- An event adds its text to the source. -/
theorem source_step (b : Builder) (event : Event) :
    (b.step event).source = b.source ++ event.text := by
  cases event <;> simp [step, leaf, leave, append, enter, Event.text]

theorem source_run (b : Builder) (events : List Event) :
    (events.foldl step b).source.toList = b.source.toList ++ reported events := by
  induction events generalizing b with
  | nil => simp [reported]
  | cons event rest ih =>
      rw [List.foldl_cons, ih, source_step, String.toList_append, reported_cons, List.append_assoc]

theorem here_run (b : Builder) (events : List Event) :
    (events.foldl step b).here = b.here + byteLength (reported events) := by
  rw [here, here, utf8ByteSize_eq_byteLength, source_run, byteLength_append,
    ← utf8ByteSize_eq_byteLength]

/-- Some events begin a node, and no event more than one. -/
theorem size_step (b : Builder) (event : Event) :
    (b.step event).drafts.size = b.drafts.size + if event.begins then 1 else 0 := by
  cases event <;> simp [step, leaf, append, enter, Event.begins]

theorem size_run (b : Builder) (events : List Event) :
    (events.foldl step b).drafts.size = b.drafts.size + events.countP Event.begins := by
  induction events generalizing b with
  | nil => simp
  | cons event rest ih =>
      rw [List.foldl_cons, ih, size_step, List.countP_cons]
      omega

/-- A node keeps its beginning. -/
theorem startOf_run (h : n < b.drafts.size) (events : List Event) :
    (events.foldl step b).startOf n = b.startOf n := by
  refine (run_induction (motive := fun c => n < c.drafts.size ∧ c.startOf n = b.startOf n)
    ?_ ?_ (fun _ _ hc => hc) ⟨h, rfl⟩ events).2
  · intro c kind isNamed isMissing hc
    rw [size_enter, startOf_enter, if_neg (Nat.ne_of_lt hc.1)]
    exact ⟨Nat.lt_succ_of_lt hc.1, hc.2⟩
  · intro c hc
    rwa [size_leave, startOf_leave]

/-- A node has ended, and its end will stay as it is. -/
structure EndsAt (b : Builder) (n stop : Nat) : Prop where
  lt : n < b.drafts.size
  closed : n ∉ b.opened
  stop : b.endOf n = stop

variable {stop : Nat}

theorem EndsAt.enter (h : b.EndsAt n stop) (kind : Kind) (isNamed isMissing : Bool) :
    (b.enter kind isNamed isMissing).EndsAt n stop := by
  have hOther := Nat.ne_of_lt h.lt
  refine ⟨?_, ?_, ?_⟩
  · simpa [Builder.enter] using Nat.lt_succ_of_lt h.lt
  · exact List.not_mem_cons_of_ne_of_not_mem hOther h.closed
  · rw [endOf_enter, if_neg hOther, h.stop]

theorem EndsAt.leave (h : b.EndsAt n stop) : b.leave.EndsAt n stop := by
  cases hOpened : b.opened with
  | nil => rwa [leave_of_opened_nil hOpened]
  | cons inner outer =>
      have hClosed := h.closed
      rw [hOpened, List.mem_cons, not_or] at hClosed
      refine ⟨Nat.lt_of_lt_of_eq h.lt (size_leave b).symm, ?_, ?_⟩
      · rw [opened_leave hOpened]
        exact hClosed.2
      · rw [endOf_leave hOpened, if_neg hClosed.1, h.stop]

/-- Once a node has ended, no event moves its end. -/
theorem EndsAt.run (h : b.EndsAt n stop) (events : List Event) :
    (events.foldl Builder.step b).EndsAt n stop :=
  run_induction (motive := fun c => c.EndsAt n stop)
    (fun _ kind isNamed isMissing h => h.enter kind isNamed isMissing) (fun _ h => h.leave)
    (fun _ _ h => ⟨h.lt, h.closed, h.stop⟩) h events

theorem EndsAt.finish (h : b.EndsAt n stop) : b.finish.endOf n = stop := by
  rw [finish_of_size_pos (Nat.lt_of_le_of_lt (Nat.zero_le n) h.lt)]
  exact (closeAll_induction (motive := fun c => c.EndsAt n stop) (fun _ hc => hc.leave) h).stop

/-- The innermost open node ends when a node is left. -/
theorem endsAt_leave (hNested : b.Nested) {outer : List Nat} (hOpened : b.opened = n :: outer) :
    b.leave.EndsAt n b.here := by
  have hSorted := hNested.opened_sorted
  rw [hOpened] at hSorted
  refine ⟨?_, fun hMem => ?_, ?_⟩
  · rw [size_leave]
    exact b.opened_lt n (by simp [hOpened])
  · rw [opened_leave hOpened] at hMem
    exact absurd (List.rel_of_pairwise_cons hSorted hMem) (Nat.lt_irrefl n)
  · rw [endOf_leave hOpened, if_pos rfl]

/-- Nodes that are still open end with the source. -/
theorem endOf_finish_of_mem (hNested : b.Nested) (h : n ∈ b.opened) :
    b.finish.endOf n = b.here := by
  have hSize := b.opened_lt n h
  rw [finish_of_size_pos (by omega)]
  induction hOpened : b.opened generalizing b with
  | nil => simp [hOpened] at h
  | cons inner outer ih =>
      rw [closeAll_of_opened_cons hOpened]
      rw [hOpened] at h
      rcases List.mem_cons.mp h with rfl | hOuter
      · rw [← finish_of_size_pos (by rw [size_leave]; omega)]
        exact (endsAt_leave hNested hOpened).finish
      · exact ih hNested.leave (by rwa [opened_leave hOpened]) (by rwa [size_leave])
          (opened_leave hOpened)

theorem here_step (b : Builder) (event : Event) :
    (b.step event).here = b.here + byteLength event.text.toList := by
  rw [here, source_step, String.utf8ByteSize_append, utf8ByteSize_eq_byteLength event.text, here]

/-- An open node ends behind what is reported until its end. By induction on the events; those
between leave the open nodes as they were. -/
theorem endOf_finish_of_open (hNested : b.Nested) {inner outer : List Nat}
    (hOpened : b.opened = inner ++ n :: outer) (events : List Event) :
    (events.foldl step b).finish.endOf n =
      b.here + byteLength (reported (untilEnd inner.length events)) := by
  induction events generalizing b inner with
  | nil => exact endOf_finish_of_mem hNested (by simp [hOpened])
  | cons event rest ih =>
      have hStays (hSame : (b.step event).opened = b.opened)
          (hUntil : untilEnd inner.length (event :: rest) =
            event :: untilEnd inner.length rest) :
          ((event :: rest).foldl step b).finish.endOf n =
            b.here + byteLength (reported (untilEnd inner.length (event :: rest))) := by
        rw [List.foldl_cons, ih (hNested.step event) (hSame.trans hOpened), hUntil, reported_cons,
          byteLength_append, here_step, Nat.add_assoc]
      cases event with
      | enter kind =>
          have hInside : (b.step (.enter kind)).opened =
              (b.drafts.size :: inner) ++ n :: outer := congrArg (b.drafts.size :: ·) hOpened
          exact ih (hNested.step (.enter kind)) hInside
      | leave =>
          cases inner with
          | nil => exact ((endsAt_leave hNested hOpened).run rest).finish
          | cons x inner => exact ih hNested.leave (opened_leave hOpened)
      | token kind text => exact hStays rfl (by simp [untilEnd])
      | punctuation text => exact hStays rfl (by simp [untilEnd])
      | missing kind => exact hStays rfl (by simp [untilEnd])
      | gap text => exact hStays rfl (by simp [untilEnd])

/-- A node that is begun ends behind its extent. -/
theorem endOf_finish_of_begins (hNested : b.Nested) {event : Event} (hBegins : event.begins)
    (after : List Event) :
    (after.foldl step (b.step event)).finish.endOf b.drafts.size =
      b.here + byteLength (extent event after) := by
  have hLeaf : ∀ {c : Builder}, c.Nested → c.opened = b.drafts.size :: b.opened →
      (after.foldl step c.leave).finish.endOf b.drafts.size = c.here :=
    fun hc hOpened => ((endsAt_leave hc hOpened).run after).finish
  have hAppended : ∀ text : String,
      b.here + byteLength text.toList = (b.source ++ text).utf8ByteSize := by
    intro text
    rw [String.utf8ByteSize_append, utf8ByteSize_eq_byteLength text, here]
  cases event with
  | enter kind =>
      have hInnermost : (b.step (.enter kind)).opened = [] ++ b.drafts.size :: b.opened := rfl
      exact endOf_finish_of_open (hNested.step (.enter kind)) hInnermost after
  | leave => cases hBegins
  | token kind text =>
      exact (hLeaf ((hNested.enter kind true false).append text) rfl).trans (hAppended text).symm
  | punctuation text =>
      exact (hLeaf ((hNested.enter (.ofName text) false false).append text) rfl).trans
        (hAppended text).symm
  | missing kind => exact hLeaf (hNested.enter kind true true) rfl
  | gap text => cases hBegins

/-- A node begins where its event stands. -/
theorem startOf_step_size (b : Builder) {event : Event} (hBegins : event.begins) :
    (b.step event).startOf b.drafts.size = b.here := by
  have hEnter : ∀ kind isNamed isMissing,
      (b.enter kind isNamed isMissing).startOf b.drafts.size = b.here := by
    intro kind isNamed isMissing
    rw [startOf_enter, if_pos rfl]
  cases event with
  | enter kind => exact hEnter kind true false
  | leave => cases hBegins
  | token kind text => exact (startOf_leave _ _).trans (hEnter kind true false)
  | punctuation text => exact (startOf_leave _ _).trans (hEnter (.ofName text) false false)
  | missing kind => exact (startOf_leave _ _).trans (hEnter kind true true)
  | gap text => cases hBegins

theorem startOf_finish (h : n < b.drafts.size) : b.finish.startOf n = b.startOf n := by
  rw [finish_of_size_pos (Nat.lt_of_le_of_lt (Nat.zero_le n) h)]
  exact closeAll_induction (motive := fun c => c.startOf n = b.startOf n)
    (fun c hc => (startOf_leave c n).trans hc) rfl

theorem size_finish (h : 0 < b.drafts.size) : b.finish.drafts.size = b.drafts.size := by
  rw [finish_of_size_pos h, size_closeAll]

theorem source_ofEvents (events : List Event) :
    (ofEvents events).source.toList = reported events := by
  rw [ofEvents, source_finish, source_run]
  rfl

theorem size_run_start (events : List Event) :
    (events.foldl step start).drafts.size = events.countP Event.begins := by
  rw [size_run]
  exact Nat.zero_add _

/-- A node spans the bytes from what was reported before its event to its end. -/
theorem span_ofEvents (before : List Event) {event : Event} (hBegins : event.begins)
    (after : List Event) :
    (ofEvents (before ++ event :: after)).startOf (before.countP Event.begins) =
        byteLength (reported before) ∧
      (ofEvents (before ++ event :: after)).endOf (before.countP Event.begins) =
        byteLength (reported before ++ extent event after) := by
  have hSize := size_run_start before
  have hHere : (before.foldl step start).here = byteLength (reported before) := by
    rw [here_run]
    exact Nat.zero_add _
  rw [ofEvents, List.foldl_append, List.foldl_cons, ← hSize, byteLength_append, ← hHere]
  refine ⟨?_, endOf_finish_of_begins (nested_start.run before) hBegins after⟩
  have hNew := size_step (before.foldl step start) event
  rw [if_pos hBegins] at hNew
  have hLater := size_run ((before.foldl step start).step event) after
  rw [startOf_finish (by omega), startOf_run (by omega), startOf_step_size _ hBegins]

end Builder

/-- The events that begin nodes are counted off by the nodes they begin. -/
theorem exists_event_of_lt_countP {events : List Event} {n : Nat}
    (h : n < events.countP Event.begins) :
    ∃ before event after, events = before ++ event :: after ∧ event.begins = true ∧
      before.countP Event.begins = n := by
  induction events generalizing n with
  | nil => exact absurd h (Nat.not_lt_zero n)
  | cons first rest ih =>
      cases hFirst : first.begins with
      | false =>
          rw [List.countP_cons_of_neg (by simp [hFirst])] at h
          obtain ⟨before, event, after, rfl, hBegins, hCount⟩ := ih h
          refine ⟨first :: before, event, after, rfl, hBegins, ?_⟩
          rw [List.countP_cons_of_neg (by simp [hFirst]), hCount]
      | true =>
          rw [List.countP_cons_of_pos hFirst] at h
          cases n with
          | zero => exact ⟨[], first, rest, rfl, hFirst, rfl⟩
          | succ n =>
              obtain ⟨before, event, after, rfl, hBegins, hCount⟩ :=
                ih (Nat.lt_of_succ_lt_succ h)
              refine ⟨first :: before, event, after, rfl, hBegins, ?_⟩
              rw [List.countP_cons_of_pos hFirst, hCount]

namespace Tree

variable {n : Nat}

/-- What makes the nodes of a tree one arena. Parents, children and indices say the same,
nodes are numbered in the order in which they begin, and ranges nest as the nodes do. -/
structure IsArena (t : Tree) : Prop where
  root_lt : root < t.size
  child_iff : ∀ p i c, (t.children p)[i]? = some c ↔ t.parent? c = some p ∧ (t.node c).index = i
  parent_lt : ∀ c p, t.parent? c = some p → p < c ∧ c < t.size
  children_sorted : ∀ p, (t.children p).Pairwise (· < ·)
  descendants_sorted : ∀ p, (t.descendants p).Pairwise (· < ·)
  inside : ∀ c p, t.parent? c = some p →
    t.startByte p ≤ t.startByte c ∧ t.endByte c ≤ t.endByte p
  apart : ∀ c next p, t.parent? c = some p → t.parent? next = some p → c < next →
    t.endByte c ≤ t.startByte next

theorem isArena (t : Tree) : t.IsArena where
  root_lt := t.size_pos
  child_iff _ _ _ := getElem?_children_iff
  parent_lt _ _ := parent?_bounds
  children_sorted := t.children_sorted
  descendants_sorted := t.descendants_sorted
  inside _ _ := inside_of_parent?
  apart _ _ _ := endByte_le_startByte

/-- A node covers what its offsets enclose. -/
theorem covers_ofEvents {events : List Event} {before inside after : List Char}
    (hSource : reported events = before ++ inside ++ after)
    (hStart : (Builder.ofEvents events).startOf n = byteLength before)
    (hEnd : (Builder.ofEvents events).endOf n = byteLength (before ++ inside))
    (hSize : n < (ofEvents events).size) : (ofEvents events).Covers n before inside after := by
  rw [size_ofEvents] at hSize
  have hChars := (Builder.source_ofEvents events).trans hSource
  have hDraft := Array.getElem?_eq_getElem hSize
  simp only [Builder.startOf, Builder.endOf, hDraft, Option.map_some, Option.getD_some]
    at hStart hEnd
  have hNode := node_ofEvents events n
  rw [hDraft, Option.map_some, Option.getD_some] at hNode
  constructor
  case source => exact hChars
  case text => rw [Tree.text, hNode, Builder.toNode, hChars, hStart, hEnd, slice_byteLength]
  case startByte => rw [startByte, hNode, Builder.toNode, hStart]
  case endByte => rw [endByte, hNode, Builder.toNode, hEnd]
  case start =>
    rw [start, range, hNode, Builder.toNode, hChars, hStart, List.append_assoc,
      positionAt_byteLength]
  case stop => rw [stop, range, hNode, Builder.toNode, hChars, hEnd, positionAt_byteLength]

theorem size_ofEvents_eq_max (events : List Event) :
    (ofEvents events).size = max 1 (events.countP Event.begins) := by
  have hRun := Builder.size_run_start events
  rw [size_ofEvents, Builder.ofEvents]
  by_cases hPos : 0 < events.countP Event.begins
  · rw [Builder.size_finish (by omega)]
    omega
  · rw [Builder.finish_of_size_eq_zero (by omega), Builder.wholeFile, List.size_toArray,
      List.length_singleton]
    omega

/-- A source without nodes has one node over the whole of it. -/
theorem covers_root (events : List Event) (hNone : events.countP Event.begins = 0) :
    (ofEvents events).Covers root [] (reported events) [] := by
  have hSize := (Builder.size_run_start events).trans hNone
  have hFile : Builder.ofEvents events = .wholeFile (events.foldl Builder.step .start).source :=
    Builder.finish_of_size_eq_zero hSize
  have hSource : reported events = [] ++ reported events ++ [] := (List.append_nil _).symm
  refine covers_ofEvents hSource ?_ ?_ (ofEvents events).size_pos
  · rw [hFile]
    rfl
  · rw [hFile]
    exact (Builder.here_run Builder.start events).trans (Nat.zero_add _)

/-- The node of an event covers what is reported from there until the node ends. -/
theorem covers_extent (before : List Event) {event : Event} (hBegins : event.begins = true)
    (after : List Event) :
    ∃ rest, (ofEvents (before ++ event :: after)).Covers (before.countP Event.begins)
      (reported before) (extent event after) rest := by
  obtain ⟨rest, hRest⟩ := extent_isPrefix event after
  obtain ⟨hStart, hEnd⟩ := Builder.span_ofEvents before hBegins after
  refine ⟨rest, covers_ofEvents ?_ hStart hEnd ?_⟩
  · rw [reported_append, ← hRest, List.append_assoc]
  · rw [size_ofEvents_eq_max, List.countP_append, List.countP_cons_of_pos hBegins]
    omega

/-- Every node of a tree covers a part of its source. -/
theorem exists_covers {t : Tree} {n : Nat} (hn : n < t.size) :
    ∃ before inside after, t.Covers n before inside after := by
  obtain ⟨events, rfl⟩ := t.exists_eq_ofEvents
  rw [size_ofEvents_eq_max] at hn
  by_cases hNone : events.countP Event.begins = 0
  · obtain rfl : n = root := by
      rw [root]
      omega
    exact ⟨_, _, _, covers_root events hNone⟩
  · have hCounted : n < events.countP Event.begins := by omega
    obtain ⟨before, event, after, rfl, hBegins, rfl⟩ := exists_event_of_lt_countP hCounted
    obtain ⟨rest, hCovers⟩ := covers_extent before hBegins after
    exact ⟨_, _, _, hCovers⟩

/-- Every sequence of events describes a well-formed tree. Its source is what the events
report, and each of its nodes is begun by an event and covers what is reported until it
ends. Only where no event begins a node is there one over the whole source. -/
theorem ofEvents_described (events : List Event) :
    (ofEvents events).source = .ofList (reported events) ∧
      (ofEvents events).IsArena ∧
      (ofEvents events).size = max 1 (events.countP Event.begins) ∧
      ∀ n < (ofEvents events).size,
        (∃ before event after rest, events = before ++ event :: after ∧ event.begins = true ∧
          before.countP Event.begins = n ∧
          (ofEvents events).Covers n (reported before) (extent event after) rest) ∨
        (events.countP Event.begins = 0 ∧ n = root ∧
          (ofEvents events).Covers n [] (reported events) []) := by
  refine ⟨?_, (ofEvents events).isArena, size_ofEvents_eq_max events, fun n hn => ?_⟩
  · rw [← Builder.source_ofEvents, String.ofList_toList]
    rfl
  rw [size_ofEvents_eq_max] at hn
  by_cases hNone : events.countP Event.begins = 0
  · obtain rfl : n = root := by
      rw [root]
      omega
    exact .inr ⟨hNone, rfl, covers_root events hNone⟩
  · have hCounted : n < events.countP Event.begins := by omega
    obtain ⟨before, event, after, rfl, hBegins, rfl⟩ := exists_event_of_lt_countP hCounted
    obtain ⟨rest, hCovers⟩ := covers_extent before hBegins after
    exact .inl ⟨before, event, after, rest, rfl, hBegins, rfl, hCovers⟩

/-- An end without a beginning changes nothing, and what stays open ends with the source. -/
example :
    let t := ofEvents [.leave, .enter .file, .gap "\n", .token .lowerCaseIdentifier "é", .gap " "]
    t.children root = [1] ∧ t.text root = "\né " ∧ (t.startByte 1, t.endByte 1) = (1, 3) ∧
      t.stop root = ⟨1, 2⟩ := by decide

end Tree

end ElmScope
