import Mathlib.Data.Finset.Card
import ElmScope.Proofs.Scope.ImportIndex
import ElmScope.Scope.KeyedIndex

/-! The entries of a keyed index and its map stay in step over every sequence of
insertions, and the index answers as the one that searches. -/
namespace ElmScope

namespace ImportEntry

/-- An entry is the last for its key in a sequence of offers. -/
def IsLastOf (entry : ImportEntry) (offers : List ImportEntry) : Prop :=
  ∃ before after, offers = before ++ entry :: after ∧ ∀ later ∈ after, later.key ≠ entry.key

theorem clashes_iff {a b : ImportEntry} : a.clashes b = true ↔ a.key = b.key := by
  simp [clashes, key]

theorem isFor_iff_key {entry : ImportEntry} {name : String} {kind : SymbolKind} :
    entry.isFor name kind = true ↔ entry.key = (name, kind) := by
  rw [isFor_iff, key, Prod.mk.injEq]

end ImportEntry

namespace ImportIndex

open ImportEntry

variable {entries offers : List ImportEntry} {entry : ImportEntry} {name : String}
  {kind : SymbolKind}

/-- An entry for a new key goes to the end. -/
theorem place_of_new (h : ∀ other ∈ entries, other.key ≠ entry.key) :
    place entry entries = entries ++ [entry] := by
  induction entries with
  | nil => rfl
  | cons first rest ih =>
      obtain ⟨hFirst, hRest⟩ := List.forall_mem_cons.mp h
      rw [place, if_neg (mt clashes_iff.mp hFirst), ih hRest, List.cons_append]

/-- An entry replaces the first one for its key. -/
theorem place_of_first {old : ImportEntry} {before after : List ImportEntry}
    (hKey : old.key = entry.key) (hBefore : ∀ other ∈ before, other.key ≠ entry.key) :
    place entry (before ++ old :: after) = before ++ entry :: after := by
  induction before with
  | nil => rw [List.nil_append, place, if_pos (clashes_iff.mpr hKey), List.nil_append]
  | cons first rest ih =>
      obtain ⟨hFirst, hRest⟩ := List.forall_mem_cons.mp hBefore
      rw [List.cons_append, place, if_neg (mt clashes_iff.mp hFirst), ih hRest, List.cons_append]

/-- The keys stay as they are, and a new one goes to the end. -/
theorem map_key_place (entry : ImportEntry) (entries : List ImportEntry) :
    (place entry entries).map key =
      if entry.key ∈ entries.map key then entries.map key else entries.map key ++ [entry.key] := by
  induction entries with
  | nil => simp [place]
  | cons first rest ih =>
      rw [place]
      by_cases hKey : first.key = entry.key
      · simp [clashes_iff, hKey]
      · simp only [clashes_iff, hKey, if_false, List.map_cons, ih, List.mem_cons,
          Ne.symm hKey, false_or]
        split <;> rfl

theorem ofOffers_concat (offers : List ImportEntry) (entry : ImportEntry) :
    ofOffers (offers ++ [entry]) = (ofOffers offers).insert entry := by
  simp [ofOffers]

/-- Another element at the end is kept if it is not there before. -/
theorem eraseDups_concat {α : Type} [BEq α] [LawfulBEq α] (l : List α) (a : α) :
    (l ++ [a]).eraseDups = if a ∈ l then l.eraseDups else l.eraseDups ++ [a] := by
  rw [List.eraseDups_append, List.removeAll]
  split
  · next hKnown => simp [hKnown]
  · next hNew => simp [hNew, List.eraseDups_cons]

/-- The keys of the entries are those of the offers in the order of their first offers. -/
theorem map_key_ofOffers (offers : List ImportEntry) :
    (ofOffers offers).entries.map key = (offers.map key).eraseDups := by
  induction offers using List.reverseRecOn with
  | nil => rfl
  | append_singleton offers entry ih =>
      rw [ofOffers_concat, insert, map_key_place, ih, List.map_append, List.map_singleton,
        eraseDups_concat]
      simp only [List.mem_eraseDups]

/-- A look-up gives the last offer for the key. -/
theorem find?_ofOffers_eq_some_iff :
    (ofOffers offers).find? name kind = some entry ↔
      entry.IsLastOf offers ∧ entry.key = (name, kind) := by
  rw [find?_ofOffers, List.find?_eq_some_iff_append, isFor_iff_key]
  constructor
  · rintro ⟨hKey, after, before, hOffers, hAfter⟩
    refine ⟨⟨before.reverse, after.reverse, ?_, fun later hLater hSame => ?_⟩, hKey⟩
    · simpa using congrArg List.reverse hOffers
    · have hNot := hAfter later (List.mem_reverse.mp hLater)
      simp [isFor_iff_key.mpr (hSame.trans hKey)] at hNot
  · rintro ⟨⟨before, after, rfl, hAfter⟩, hKey⟩
    refine ⟨hKey, after.reverse, before.reverse, by simp, fun later hLater => ?_⟩
    have hOther := hAfter later (List.mem_reverse.mp hLater)
    rw [hKey] at hOther
    simpa using mt isFor_iff_key.mp hOther

/-- The entries are the last offers for their keys. -/
theorem mem_entries_iff : entry ∈ (ofOffers offers).entries ↔ entry.IsLastOf offers := by
  have hFound : (ofOffers offers).find? entry.name entry.kind = some entry ↔
      entry.IsLastOf offers := by
    rw [find?_ofOffers_eq_some_iff]
    exact and_iff_left rfl
  rw [← hFound]
  refine ⟨fun h => ?_, List.mem_of_find?_eq_some⟩
  obtain ⟨before, after, hEntries⟩ := List.append_of_mem h
  have hDistinct := keysDistinct_ofOffers offers
  rw [KeysDistinct, hEntries, List.pairwise_append] at hDistinct
  refine List.find?_eq_some_iff_append.mpr ⟨by simp, before, after, hEntries, fun other hOther => ?_⟩
  simpa [imp_iff_not_or] using hDistinct.2.2 other hOther entry List.mem_cons_self

/-- There are as many entries as keys that were offered. -/
theorem length_entries_ofOffers (offers : List ImportEntry) :
    (ofOffers offers).entries.length = (offers.map key).toFinset.card := by
  have hNodup : ((ofOffers offers).entries.map key).Nodup := by
    refine List.pairwise_map.mpr ((keysDistinct_ofOffers offers).imp fun h hSame => h ?_)
    exact Prod.mk.inj hSame
  have hKeys : (offers.map key).toFinset = ((ofOffers offers).entries.map key).toFinset := by
    ext
    rw [map_key_ofOffers]
    simp
  rw [hKeys, List.toFinset_card_of_nodup hNodup, List.length_map]

end ImportIndex

namespace KeyedIndex

variable {index : KeyedIndex} {entry : ImportEntry} {key : String × SymbolKind} {position : Nat}

/-- What an insertion does: it replaces the entry at the position of the key and leaves the
positions alone, or it appends an entry and notes its position. -/
theorem insert_cases (index : KeyedIndex) (entry : ImportEntry) :
    (∃ position, ∃ h : position < index.entries.size,
      index.positions[entry.key]? = some position ∧
      (index.insert entry).entries = index.entries.set position entry ∧
      (index.insert entry).positions = index.positions) ∨
    (index.positions[entry.key]? = none ∧
      (index.insert entry).entries = index.entries.push entry ∧
      (index.insert entry).positions =
        index.positions.insert entry.key index.entries.size) := by
  unfold insert
  split
  · next position h => exact .inl ⟨position, index.inRange _ _ h, h, rfl, rfl⟩
  · next h => exact .inr ⟨h, rfl, rfl⟩

/-- A look-up reads a position, and then the entry at it. -/
theorem find?_eq (index : KeyedIndex) (name : String) (kind : SymbolKind) :
    index.find? name kind =
      (index.positions[(name, kind)]?).bind fun position => index.entries[position]? := by
  unfold find?
  split
  · next position h =>
    simp only [h, Option.bind_some, Array.getElem?_eq_getElem (index.inRange _ _ h)]
  · next h => rw [h, Option.bind_none]

/-- The entries and the map are in step: a position is noted for a key exactly when the entry
there is for the key. -/
def InStep (index : KeyedIndex) : Prop :=
  ∀ (key : String × SymbolKind) (position : Nat), index.positions[key]? = some position ↔
    ∃ entry, index.entries[position]? = some entry ∧ entry.key = key

theorem inStep_empty : empty.InStep := by simp [InStep, empty]

/-- A key without a position has no entry. -/
theorem InStep.key_ne (h : index.InStep) (hNone : index.positions[key]? = none)
    (hEntry : index.entries[position]? = some entry) : entry.key ≠ key := by
  intro hKey
  have hSome := (h key position).mpr ⟨entry, hEntry, hKey⟩
  exact nomatch hNone.symm.trans hSome

/-- An insertion keeps the entries and the map in step. -/
theorem InStep.insert (h : index.InStep) (entry : ImportEntry) : (index.insert entry).InStep := by
  intro key position
  rcases index.insert_cases entry with
    ⟨old, hRange, hOld, hEntries, hPositions⟩ | ⟨hNone, hEntries, hPositions⟩
  · rw [hEntries, hPositions, Array.getElem?_set hRange]
    split
    · next hSame =>
      subst hSame
      obtain ⟨former, hFormer, hKey⟩ := (h entry.key old).mp hOld
      rw [h key old, hFormer]
      simp [hKey]
    · exact h key position
  · rw [hEntries, hPositions, Std.HashMap.getElem?_insert, Array.getElem?_push]
    by_cases hKey : entry.key = key
    · subst hKey
      simp only [beq_self_eq_true, if_true]
      split
      · next hLast => simp [hLast]
      · next hOther =>
        refine ⟨fun hSize => absurd (Option.some.inj hSize).symm hOther, ?_⟩
        rintro ⟨other, hEntry, hSame⟩
        exact absurd hSame (h.key_ne hNone hEntry)
    · rw [if_neg (by simpa using hKey)]
      split
      · next hLast =>
        subst hLast
        refine ⟨fun hSize => absurd (index.inRange _ _ hSize) (Nat.lt_irrefl _), ?_⟩
        rintro ⟨other, hOther, hSame⟩
        exact absurd (Option.some.inj hOther ▸ hSame) hKey
      · exact h key position

theorem InStep.run (h : index.InStep) (offers : List ImportEntry) :
    (offers.foldl KeyedIndex.insert index).InStep := by
  induction offers generalizing index with
  | nil => exact h
  | cons offer rest ih => exact ih (h.insert offer)

theorem inStep_ofOffers (offers : List ImportEntry) : (ofOffers offers).InStep :=
  inStep_empty.run offers

/-- Insertion has the same effect on the entries as with a search. -/
theorem InStep.toList_insert (h : index.InStep) (entry : ImportEntry) :
    (index.insert entry).entries.toList = ImportIndex.place entry index.entries.toList := by
  rcases index.insert_cases entry with
    ⟨position, hRange, hOld, hEntries, -⟩ | ⟨hNone, hEntries, -⟩
  · obtain ⟨former, hFormer, hKey⟩ := (h entry.key position).mp hOld
    have hLt : position < index.entries.toList.length := by simpa using hRange
    obtain ⟨before, after, hSplit, hLength, hSet⟩ :
        ∃ before after, index.entries.toList = before ++ index.entries.toList[position] :: after ∧
          before.length = position ∧
          index.entries.toList.set position entry = before ++ entry :: after :=
      List.exists_of_set hLt
    have hAt : index.entries.toList[position] = former := by
      simpa [Array.getElem?_eq_getElem hRange] using hFormer
    rw [hEntries, Array.toList_set, hSet, hSplit, hAt, ImportIndex.place_of_first hKey]
    -- An earlier entry for the key would have a position of its own.
    intro other hOther hSame
    obtain ⟨earlier, hBefore, hEarlier⟩ := List.mem_iff_getElem.mp hOther
    have hEntry : index.entries[earlier]? = some other := by
      rw [← Array.getElem?_toList, hSplit, List.getElem?_append_left hBefore, ← hEarlier,
        List.getElem?_eq_getElem hBefore]
    have hPosition := (h entry.key earlier).mpr ⟨other, hEntry, hSame⟩
    obtain rfl := Option.some.inj (hOld.symm.trans hPosition)
    omega
  · rw [hEntries, Array.toList_push, ImportIndex.place_of_new]
    intro other hOther
    obtain ⟨position, hAt⟩ := List.mem_iff_getElem?.mp hOther
    exact h.key_ne hNone (Array.getElem?_toList ▸ hAt)

/-- An insertion leaves the entries for other keys where they are. -/
theorem InStep.kept (h : index.InStep) {other : ImportEntry}
    (hOther : index.entries[position]? = some other) (hKey : other.key ≠ entry.key) :
    (index.insert entry).entries[position]? = some other := by
  rcases index.insert_cases entry with
    ⟨old, hRange, hOld, hEntries, -⟩ | ⟨-, hEntries, -⟩
  · rw [hEntries, Array.getElem?_set hRange, if_neg, hOther]
    rintro rfl
    obtain ⟨former, hFormer, hSame⟩ := (h entry.key old).mp hOld
    exact hKey (Option.some.inj (hOther.symm.trans hFormer) ▸ hSame)
  · obtain ⟨hRange, -⟩ := Array.getElem?_eq_some_iff.mp hOther
    rw [hEntries, Array.getElem?_push, if_neg (Nat.ne_of_lt hRange), hOther]

/-- No insertion moves a key. -/
theorem positions_insert (entry : ImportEntry) (h : index.positions[key]? = some position) :
    (index.insert entry).positions[key]? = some position := by
  rcases index.insert_cases entry with ⟨-, -, -, -, hPositions⟩ | ⟨hNone, -, hPositions⟩
  · rwa [hPositions]
  · rw [hPositions, Std.HashMap.getElem?_insert, if_neg, h]
    intro hSame
    obtain rfl := eq_of_beq hSame
    exact nomatch hNone.symm.trans h

theorem ofOffers_concat (offers : List ImportEntry) (entry : ImportEntry) :
    ofOffers (offers ++ [entry]) = (ofOffers offers).insert entry := by
  simp [ofOffers]

/-- The entries are those of the index that searches. -/
theorem toList_ofOffers (offers : List ImportEntry) :
    (ofOffers offers).entries.toList = (ImportIndex.ofOffers offers).entries := by
  induction offers using List.reverseRecOn with
  | nil => rfl
  | append_singleton offers entry ih =>
      rw [ofOffers_concat, (inStep_ofOffers offers).toList_insert, ih,
        ImportIndex.ofOffers_concat]
      rfl

/-- In step, a look-up finds the entry for the key. -/
theorem InStep.find?_eq_some_iff (h : index.InStep) {name : String} {kind : SymbolKind} :
    index.find? name kind = some entry ↔ entry ∈ index.entries ∧ entry.key = (name, kind) := by
  rw [find?_eq, Option.bind_eq_some_iff, Array.mem_iff_getElem?]
  constructor
  · rintro ⟨position, hPosition, hEntry⟩
    obtain ⟨other, hOther, hKey⟩ := (h _ _).mp hPosition
    obtain rfl := Option.some.inj (hEntry.symm.trans hOther)
    exact ⟨⟨position, hEntry⟩, hKey⟩
  · rintro ⟨⟨position, hEntry⟩, hKey⟩
    exact ⟨position, (h _ _).mpr ⟨entry, hEntry, hKey⟩, hEntry⟩

theorem mem_entries_iff {offers : List ImportEntry} :
    entry ∈ (ofOffers offers).entries ↔ entry.IsLastOf offers := by
  rw [← Array.mem_toList_iff, toList_ofOffers, ImportIndex.mem_entries_iff]

theorem find?_ofOffers_eq_some_iff {offers : List ImportEntry} {name : String}
    {kind : SymbolKind} : (ofOffers offers).find? name kind = some entry ↔
      entry.IsLastOf offers ∧ entry.key = (name, kind) := by
  rw [(inStep_ofOffers offers).find?_eq_some_iff, mem_entries_iff]

/-- An index of any sequence of offers. Its map has a position for exactly the keys of the
entries, and that is the position of the one entry for the key. The entries are in the order
in which their keys were first offered, each of them is the last offer for its key, and this
is what a look-up gives. A further insertion moves no key and changes no entry for another
key. There are as many entries as keys offered, and all of this is so of the index that
searches its entries, which has the same entries and answers. -/
theorem ofOffers_content (offers : List ImportEntry) :
    (∀ (key : String × SymbolKind) (position : Nat),
      (ofOffers offers).positions[key]? = some position ↔
        ∃ entry, (ofOffers offers).entries[position]? = some entry ∧ entry.key = key) ∧
    (ofOffers offers).entries.toList.map ImportEntry.key =
      (offers.map ImportEntry.key).eraseDups ∧
    (∀ entry, entry ∈ (ofOffers offers).entries ↔ entry.IsLastOf offers) ∧
    (∀ name kind entry, (ofOffers offers).find? name kind = some entry ↔
      entry.IsLastOf offers ∧ entry.key = (name, kind)) ∧
    (∀ entry,
      (∀ (key : String × SymbolKind) (position : Nat),
        (ofOffers offers).positions[key]? = some position →
          ((ofOffers offers).insert entry).positions[key]? = some position) ∧
      ∀ (position : Nat) (other : ImportEntry),
        (ofOffers offers).entries[position]? = some other → other.key ≠ entry.key →
          ((ofOffers offers).insert entry).entries[position]? = some other) ∧
    (ofOffers offers).entries.size = (offers.map ImportEntry.key).toFinset.card ∧
    (ofOffers offers).entries.toList = (ImportIndex.ofOffers offers).entries ∧
    ∀ name kind,
      (ofOffers offers).find? name kind = (ImportIndex.ofOffers offers).find? name kind := by
  have hInStep := inStep_ofOffers offers
  have hEntries := toList_ofOffers offers
  refine ⟨hInStep, ?_, fun _ => mem_entries_iff, fun _ _ _ => find?_ofOffers_eq_some_iff,
    fun entry => ⟨fun _ _ => positions_insert entry, fun _ _ => hInStep.kept⟩, ?_, hEntries,
    fun name kind => ?_⟩
  · rw [hEntries, ImportIndex.map_key_ofOffers]
  · rw [← Array.length_toList, hEntries, ImportIndex.length_entries_ofOffers]
  · ext entry
    rw [find?_ofOffers_eq_some_iff, ImportIndex.find?_ofOffers_eq_some_iff]

/-- Three offers for two keys: the third replaces the first and stays in its place. -/
theorem ofOffers_content_replaced :
    let site : Site := ⟨⟨"a", .ofEvents [], none, 0⟩, 0⟩
    let f : ImportEntry := ⟨"f", .function, site, "A"⟩
    let g : ImportEntry := ⟨"g", .function, site, "A"⟩
    let latest : ImportEntry := ⟨"f", .function, site, "B"⟩
    let index := ofOffers [f, g, latest]
    index.entries.toList = [latest, g] ∧ index.positions[("f", SymbolKind.function)]? = some 0 ∧
      index.find? "f" .function = some latest ∧ index.entries.size = 2 ∧
      (index.insert f).entries[1]? = some g := by
  intro site f g latest index
  obtain ⟨hPositions, -, -, hFind, hInsert, -, hEntries, -⟩ := ofOffers_content [f, g, latest]
  have hList : index.entries.toList = [latest, g] := hEntries
  have hAt : ∀ position : Nat, index.entries[position]? = [latest, g][position]? := fun position => by
    rw [← hList, Array.getElem?_toList]
  refine ⟨hList, (hPositions _ 0).mpr ⟨latest, hAt 0, rfl⟩, ?_, congrArg List.length hList, ?_⟩
  · exact (hFind _ _ latest).mpr ⟨⟨[f, g], [], rfl, by simp⟩, rfl⟩
  · exact (hInsert f).2 1 g (hAt 1) (by decide)

end KeyedIndex

end ElmScope
