import Mathlib.Data.List.Nodup
import ElmScope.Completion.Candidate

/-! Lists in which each name is kept once. The candidate that stays is the first of its
name, so what is put in front hides what comes behind, and nothing else is lost. -/
namespace ElmScope

variable {c : Candidate} {l : List Candidate} {name : String}

theorem exists_find?_of_mem {α : Type} {l : List α} {p : α → Bool} {a : α} (h : a ∈ l)
    (hp : p a = true) : ∃ found, l.find? p = some found :=
  Option.isSome_iff_exists.mp (List.find?_isSome.mpr ⟨a, h, hp⟩)

theorem find?_eq_some_of_unique {α : Type} {l : List α} {p : α → Bool} {a : α} (hMem : a ∈ l)
    (hp : p a = true) (hUnique : ∀ b ∈ l, p b = true → b = a) : l.find? p = some a := by
  obtain ⟨found, hFound⟩ := exists_find?_of_mem hMem hp
  rw [hFound, hUnique found (List.mem_of_find?_eq_some hFound) (List.find?_some hFound)]

/-- The candidates that are kept stay in the order in which they were offered. -/
theorem firstOfName_sublist (l : List Candidate) : (firstOfName l).Sublist l := by
  induction l with
  | nil => exact .slnil
  | cons c rest ih => exact (List.filter_sublist.trans ih).cons_cons c

/-- No name is kept twice. -/
theorem nodup_firstOfName (l : List Candidate) : ((firstOfName l).map (·.name)).Nodup := by
  induction l with
  | nil => exact .nil
  | cons c rest ih =>
      rw [firstOfName, List.map_cons, List.nodup_cons]
      refine ⟨fun hMem => ?_, ih.sublist (List.filter_sublist.map _)⟩
      obtain ⟨other, hOther, hName⟩ := List.mem_map.mp hMem
      simpa [hName] using (List.mem_filter.mp hOther).2

/-- The candidates that are kept are those found under their names. -/
theorem mem_firstOfName_iff : c ∈ firstOfName l ↔ l.find? (·.name = c.name) = some c := by
  induction l with
  | nil => simp [firstOfName]
  | cons first rest ih =>
      rw [firstOfName, List.mem_cons, List.mem_filter]
      by_cases hName : first.name = c.name
      · simp [hName, eq_comm]
      · have hOther : c ≠ first := fun h => hName (congrArg Candidate.name h).symm
        simp [hName, hOther, ih, Ne.symm hName]

/-- Every name is kept. -/
theorem exists_mem_firstOfName (h : c ∈ l) : ∃ kept ∈ firstOfName l, kept.name = c.name := by
  obtain ⟨kept, hKept⟩ := exists_find?_of_mem (p := (·.name = c.name)) h (by simp)
  have hName : kept.name = c.name := by simpa using List.find?_some hKept
  exact ⟨kept, mem_firstOfName_iff.mpr (hName ▸ hKept), hName⟩

/-- Of two lists the first is kept as it is alone, and of the second what has other names. -/
theorem firstOfName_append (a b : List Candidate) :
    firstOfName (a ++ b) =
      firstOfName a ++ (firstOfName b).filter fun c => a.all fun other => c.name ≠ other.name := by
  induction a with
  | nil => simp [firstOfName]
  | cons first rest ih =>
      rw [List.cons_append, firstOfName, firstOfName, ih, List.filter_append, List.filter_filter,
        List.cons_append]
      rfl

/-- Among candidates of one kind a name has only one candidate. -/
theorem find?_map_ofSymbol {names : List String} (kind : SymbolKind) (h : name ∈ names) :
    (names.map (Candidate.ofSymbol kind)).find? (·.name = name) =
      some (Candidate.ofSymbol kind name) := by
  refine find?_eq_some_of_unique (List.mem_map_of_mem h) (decide_eq_true rfl) fun c hc hName => ?_
  obtain ⟨other, -, rfl⟩ := List.mem_map.mp hc
  obtain rfl : other = name := of_decide_eq_true hName
  rfl

/-- When a limit leaves something of the second of two lists, it leaves all of the first. -/
theorem mem_take_append {a b : List Candidate} {limit : Nat} (hc : c ∈ (a ++ b).take limit)
    (hNot : c ∉ a) {first : Candidate} (hFirst : first ∈ a) : first ∈ (a ++ b).take limit := by
  rw [List.take_append] at hc ⊢
  have hSecond : c ∈ b.take (limit - a.length) :=
    (List.mem_append.mp hc).resolve_left fun hc => hNot (List.mem_of_mem_take hc)
  have hLength := List.length_pos_of_mem hSecond
  rw [List.length_take] at hLength
  rw [List.take_of_length_le (by omega)]
  exact List.mem_append_left _ hFirst

end ElmScope
