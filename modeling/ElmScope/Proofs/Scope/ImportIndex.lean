import ElmScope.Scope.ImportIndex

/-! The import index after a sequence of offers. A look-up gives the last offer of a
name and kind, and no name and kind has two entries. -/
namespace ElmScope

def ImportEntry.isFor (name : String) (kind : SymbolKind) (entry : ImportEntry) : Bool :=
  entry.name = name && entry.kind = kind

theorem ImportEntry.isFor_iff {name : String} {kind : SymbolKind} {entry : ImportEntry} :
    entry.isFor name kind = true ↔ entry.name = name ∧ entry.kind = kind := by
  simp only [isFor, Bool.and_eq_true, decide_eq_true_eq]

namespace ImportIndex

variable {index : ImportIndex} {entry : ImportEntry} {name : String} {kind : SymbolKind}

/-- Offers made to an index hide what it had under their names and kinds, the later
ones the earlier. -/
theorem find?_foldl_insert (offers : List ImportEntry) (index : ImportIndex) (name : String)
    (kind : SymbolKind) :
    (offers.foldl insert index).find? name kind =
      (offers.reverse.find? (ImportEntry.isFor name kind)).or (index.find? name kind) := by
  induction offers generalizing index with
  | nil => rfl
  | cons offer rest ih =>
      rw [List.foldl_cons, ih, List.reverse_cons, List.find?_append, Option.or_assoc]
      congr 1
      by_cases h : offer.name = name ∧ offer.kind = kind
      · obtain ⟨rfl, rfl⟩ := h
        rw [find?_insert_self]
        simp [ImportEntry.isFor]
      · rw [find?_insert_of_ne index offer h]
        have hNot : offer.isFor name kind = false :=
          Bool.eq_false_iff.mpr (mt ImportEntry.isFor_iff.mp h)
        simp [hNot]

/-- A look-up gives the last offer. -/
theorem find?_ofOffers (offers : List ImportEntry) (name : String) (kind : SymbolKind) :
    (ofOffers offers).find? name kind = offers.reverse.find? (ImportEntry.isFor name kind) := by
  rw [ofOffers, find?_foldl_insert]
  exact Option.or_none

def KeysDistinct (entries : List ImportEntry) : Prop :=
  entries.Pairwise fun a b => ¬ (a.name = b.name ∧ a.kind = b.kind)

theorem mem_place {entries : List ImportEntry} {other : ImportEntry}
    (h : other ∈ place entry entries) : other = entry ∨ other ∈ entries := by
  induction entries with
  | nil => exact .inl (List.mem_singleton.mp h)
  | cons first rest ih =>
      rw [place] at h
      split at h
      · exact (List.mem_cons.mp h).imp_right (List.mem_cons_of_mem _)
      · rcases List.mem_cons.mp h with rfl | h
        · exact .inr List.mem_cons_self
        · exact (ih h).imp_right (List.mem_cons_of_mem _)

/-- An index has no entries but those offered to it. -/
theorem mem_entries_foldl_insert {offers : List ImportEntry} {index : ImportIndex}
    (h : entry ∈ (offers.foldl insert index).entries) :
    entry ∈ offers ∨ entry ∈ index.entries := by
  induction offers generalizing index with
  | nil => exact .inr h
  | cons offer rest ih =>
      rcases ih h with hRest | hIndex
      · exact .inl (List.mem_cons_of_mem _ hRest)
      · rcases mem_place hIndex with rfl | hBefore
        · exact .inl List.mem_cons_self
        · exact .inr hBefore

theorem mem_offers_of_mem_entries {offers : List ImportEntry}
    (h : entry ∈ (ofOffers offers).entries) : entry ∈ offers :=
  (mem_entries_foldl_insert h).resolve_right List.not_mem_nil

/-- An entry for a key that is there takes the place of the other. -/
theorem KeysDistinct.place {entries : List ImportEntry} (h : KeysDistinct entries)
    (entry : ImportEntry) : KeysDistinct (place entry entries) := by
  induction entries with
  | nil => exact List.pairwise_singleton _ _
  | cons first rest ih =>
      obtain ⟨hFirst, hRest⟩ := List.pairwise_cons.mp h
      rw [ImportIndex.place]
      split
      · next hClash =>
        have hKey : first.name = entry.name ∧ first.kind = entry.kind := by
          simpa [ImportEntry.clashes] using hClash
        refine List.pairwise_cons.mpr ⟨fun other hOther => ?_, hRest⟩
        rw [← hKey.1, ← hKey.2]
        exact hFirst other hOther
      · next hClash =>
        refine List.pairwise_cons.mpr ⟨fun other hOther => ?_, ih hRest⟩
        rcases mem_place hOther with rfl | hOther
        · simpa [ImportEntry.clashes] using hClash
        · exact hFirst other hOther

theorem KeysDistinct.run (index : ImportIndex) (h : KeysDistinct index.entries)
    (offers : List ImportEntry) : KeysDistinct (offers.foldl insert index).entries := by
  induction offers generalizing index with
  | nil => exact h
  | cons offer rest ih => exact ih (index.insert offer) (h.place offer)

theorem keysDistinct_ofOffers (offers : List ImportEntry) :
    KeysDistinct (ofOffers offers).entries :=
  KeysDistinct.run empty .nil offers

/-- When offers come in groups, what a look-up gives is from the last group that has
an offer for the name and kind. -/
theorem exists_last_group {groups : List Nat} {offersOf : Nat → List ImportEntry}
    (h : (ofOffers (groups.flatMap offersOf)).find? name kind = some entry) :
    ∃ before group after, groups = before ++ group :: after ∧ entry ∈ offersOf group ∧
      (entry.name = name ∧ entry.kind = kind) ∧
      ∀ later ∈ after, ∀ offer ∈ offersOf later, ¬ (offer.name = name ∧ offer.kind = kind) := by
  rw [find?_ofOffers] at h
  induction groups with
  | nil => exact nomatch h
  | cons group rest ih =>
      rw [List.flatMap_cons, List.reverse_append, List.find?_append] at h
      rcases Option.or_eq_some_iff.mp h with h | ⟨hNone, h⟩
      · obtain ⟨before, last, after, rfl, hEntry⟩ := ih h
        exact ⟨group :: before, last, after, rfl, hEntry⟩
      · refine ⟨[], group, rest, rfl, ?_, ?_, ?_⟩
        · exact List.mem_reverse.mp (List.mem_of_find?_eq_some h)
        · exact ImportEntry.isFor_iff.mp (List.find?_some h)
        · intro later hLater offer hOffer hKey
          have hMem := List.mem_reverse.mpr (List.mem_flatMap.mpr ⟨later, hLater, hOffer⟩)
          exact List.find?_eq_none.mp hNone offer hMem (ImportEntry.isFor_iff.mpr hKey)

/-- What is found was offered, and what was offered is found. -/
theorem find?_isSome_iff {offers : List ImportEntry} :
    ((ofOffers offers).find? name kind).isSome ↔
      ∃ offer ∈ offers, offer.name = name ∧ offer.kind = kind := by
  rw [find?_ofOffers, List.find?_isSome]
  simp only [List.mem_reverse, ImportEntry.isFor_iff]

end ImportIndex

end ElmScope
