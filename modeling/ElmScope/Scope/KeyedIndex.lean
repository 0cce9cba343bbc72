import Mathlib.Data.List.Induction
import ElmScope.Scope.ImportIndex

/-! An import index that does not search its entries. Beside them it keeps a hash map from
each name and kind to the position of the entry, so a look-up reads one entry, and an
insertion replaces one or appends one. -/
namespace ElmScope

def ImportEntry.key (entry : ImportEntry) : String × SymbolKind := (entry.name, entry.kind)

/-- An import index with a map of positions. The positions are those of entries, so reading
an entry at one of them never fails. -/
structure KeyedIndex where
  entries : Array ImportEntry
  positions : Std.HashMap (String × SymbolKind) Nat
  inRange : ∀ key : String × SymbolKind, ∀ position ∈ positions[key]?, position < entries.size

namespace KeyedIndex

variable {position : Nat}

def empty : KeyedIndex := ⟨#[], ∅, by simp⟩

theorem inRange_replace (index : KeyedIndex) (entry : ImportEntry)
    (h : position < index.entries.size) (key : String × SymbolKind) :
    ∀ other ∈ index.positions[key]?, other < (index.entries.set position entry h).size := by
  rw [Array.size_set]
  exact index.inRange key

theorem inRange_append (index : KeyedIndex) (entry : ImportEntry) (key : String × SymbolKind) :
    ∀ other ∈ (index.positions.insert entry.key index.entries.size)[key]?,
      other < (index.entries.push entry).size := by
  intro other hOther
  rw [Option.mem_def, Std.HashMap.getElem?_insert] at hOther
  rw [Array.size_push]
  split at hOther
  · exact Option.some.inj hOther ▸ Nat.lt_succ_self _
  · exact Nat.lt_succ_of_lt (index.inRange key other hOther)

/-- An entry is put in at the position of its name and kind, or at the end if there is none. -/
def insert (index : KeyedIndex) (entry : ImportEntry) : KeyedIndex :=
  match h : index.positions[entry.key]? with
  | some position =>
    have hRange := index.inRange _ _ h
    ⟨index.entries.set position entry hRange, index.positions,
      index.inRange_replace entry hRange⟩
  | none =>
    ⟨index.entries.push entry, index.positions.insert entry.key index.entries.size,
      index.inRange_append entry⟩

def find? (index : KeyedIndex) (name : String) (kind : SymbolKind) : Option ImportEntry :=
  match h : index.positions[(name, kind)]? with
  | some position =>
    have hRange := index.inRange _ _ h
    some index.entries[position]
  | none => none

def ofOffers (offers : List ImportEntry) : KeyedIndex := offers.foldl insert empty

end KeyedIndex

end ElmScope
