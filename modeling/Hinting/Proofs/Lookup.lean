import Hinting.SortedMap

/-!
# Look-up in sorted maps

An update changes the answer at its own key and at no other. The laws hold for any
list of entries: `updateEntries` passes only entries of smaller keys, so that no
older entry stands in front of the new one. That an entry is found when it is there
needs ascending keys, which updates preserve.
-/

namespace Hinting.SortedMap

variable {α β γ : Type} [Ord α] [Std.LawfulEqOrd α]

theorem get?_cons (key other : α) (value : β) (rest : List (α × β)) [DecidableEq α] :
    get? ⟨(other, value) :: rest⟩ key = if key = other then some value else get? ⟨rest⟩ key := by
  unfold get?
  by_cases hKey : key = other
  · subst hKey
    simp [Std.compare_self]
  · have hCompare : compare key other ≠ .eq := fun h => hKey (Std.compare_eq_iff_eq.mp h)
    simp [hKey, hCompare]

theorem get?_updateEntries_of_ne {key other : α} (hKey : other ≠ key) (change : Option β → β)
    (entries : List (α × β)) :
    get? ⟨updateEntries key change entries⟩ other = get? ⟨entries⟩ other := by
  classical
  induction entries with
  | nil => simp [updateEntries, get?_cons, hKey]
  | cons entry rest ih =>
    obtain ⟨first, value⟩ := entry
    rw [updateEntries]
    split
    · simp [get?_cons, hKey]
    · rename_i hCompare
      obtain rfl := Std.compare_eq_iff_eq.mp hCompare
      simp [get?_cons, hKey]
    · simp only [get?_cons, ih]

theorem get?_updateEntries_self (key : α) (value : β) (entries : List (α × β)) :
    get? ⟨updateEntries key (fun _ => value) entries⟩ key = some value := by
  classical
  induction entries with
  | nil => simp [updateEntries, get?_cons]
  | cons entry rest ih =>
    obtain ⟨first, old⟩ := entry
    rw [updateEntries]
    split
    · simp [get?_cons]
    · simp [get?_cons]
    · rename_i hCompare
      have hKey : key ≠ first := by
        rintro rfl
        simp [Std.compare_self] at hCompare
      simp only [get?_cons, hKey, ↓reduceIte, ih]

@[simp] theorem get?_insert_self (m : SortedMap α β) (key : α) (value : β) :
    (m.insert key value).get? key = some value :=
  get?_updateEntries_self key value m.entries

theorem get?_insert_of_ne (m : SortedMap α β) {key other : α} (hKey : other ≠ key) (value : β) :
    (m.insert key value).get? other = m.get? other :=
  get?_updateEntries_of_ne hKey _ m.entries

theorem get?_mapValues (m : SortedMap α β) (change : β → γ) (key : α) :
    (m.mapValues change).get? key = (m.get? key).map change := by
  classical
  obtain ⟨entries⟩ := m
  induction entries with
  | nil => rfl
  | cons entry rest ih =>
    obtain ⟨first, value⟩ := entry
    simp only [mapValues, List.map_cons, get?_cons] at ih ⊢
    split
    · rfl
    · exact ih

theorem contains_iff_mem_keys (m : SortedMap α β) (key : α) :
    m.contains key = true ↔ key ∈ m.keys := by
  classical
  obtain ⟨entries⟩ := m
  induction entries with
  | nil => simp [contains, get?, keys]
  | cons entry rest ih =>
    obtain ⟨first, value⟩ := entry
    simp only [contains, keys, get?_cons, List.map_cons, List.mem_cons] at ih ⊢
    split
    · simp_all
    · simp_all

theorem mem_keys_update (m : SortedMap α β) (key other : α) (change : Option β → β) :
    other ∈ (m.update key change).keys ↔ other = key ∨ other ∈ m.keys := by
  obtain ⟨entries⟩ := m
  simp only [update, keys]
  induction entries with
  | nil => simp [updateEntries]
  | cons entry rest ih =>
    obtain ⟨first, value⟩ := entry
    rw [updateEntries]
    split
    · simp
    · rename_i hCompare
      obtain rfl := Std.compare_eq_iff_eq.mp hCompare
      simp
    · rw [List.map_cons, List.mem_cons, ih, List.map_cons, List.mem_cons, or_left_comm]

theorem contains_insert (m : SortedMap α β) (key other : α) (value : β) :
    (m.insert key value).contains other = true ↔ other = key ∨ m.contains other = true := by
  rw [contains_iff_mem_keys, contains_iff_mem_keys, insert, mem_keys_update]

omit [Std.LawfulEqOrd α] in
theorem mem_updateEntries {key : α} {change : Option β → β} {entries : List (α × β)}
    {entry : α × β} (h : entry ∈ updateEntries key change entries) :
    entry ∈ entries ∨ ∃ old, entry = (key, change old) := by
  induction entries with
  | nil => exact .inr ⟨none, by simpa [updateEntries] using h⟩
  | cons head rest ih =>
    obtain ⟨first, value⟩ := head
    rw [updateEntries] at h
    split at h
    · rcases List.mem_cons.mp h with rfl | h
      · exact .inr ⟨none, rfl⟩
      · exact .inl h
    · rcases List.mem_cons.mp h with rfl | h
      · exact .inr ⟨some value, rfl⟩
      · exact .inl (List.mem_cons_of_mem _ h)
    · rcases List.mem_cons.mp h with rfl | h
      · exact .inl List.mem_cons_self
      · exact (ih h).imp_left (List.mem_cons_of_mem _)

/-- The keys ascend, so that each stands there once. -/
def Ascending (m : SortedMap α β) : Prop :=
  m.entries.Pairwise fun a b => compare a.1 b.1 = .lt

omit [Std.LawfulEqOrd α] in
theorem Ascending.empty : Ascending ({} : SortedMap α β) :=
  .nil

theorem Ascending.update [Std.TransOrd α] {m : SortedMap α β} (h : m.Ascending) (key : α)
    (change : Option β → β) : (m.update key change).Ascending := by
  obtain ⟨entries⟩ := m
  simp only [Ascending, SortedMap.update] at h ⊢
  induction entries with
  | nil => exact .cons (fun _ hMem => nomatch hMem) .nil
  | cons entry rest ih =>
    obtain ⟨first, value⟩ := entry
    obtain ⟨hFirst, hRest⟩ := List.pairwise_cons.mp h
    rw [updateEntries]
    split
    · rename_i hCompare
      refine .cons (fun b hb => ?_) h
      rcases List.mem_cons.mp hb with rfl | hb
      · exact hCompare
      · exact Std.TransCmp.lt_trans hCompare (hFirst b hb)
    · rename_i hCompare
      obtain rfl := Std.compare_eq_iff_eq.mp hCompare
      exact .cons hFirst hRest
    · rename_i hCompare
      refine .cons (fun b hb => ?_) (ih hRest)
      rcases mem_updateEntries hb with hb | ⟨old, rfl⟩
      · exact hFirst b hb
      · exact Std.OrientedCmp.gt_iff_lt.mp hCompare

theorem Ascending.insert [Std.TransOrd α] {m : SortedMap α β} (h : m.Ascending) (key : α)
    (value : β) : (m.insert key value).Ascending :=
  h.update key _

theorem Ascending.get?_eq_some_iff {m : SortedMap α β} (h : m.Ascending) (key : α) (value : β) :
    m.get? key = some value ↔ (key, value) ∈ m.entries := by
  classical
  obtain ⟨entries⟩ := m
  simp only [Ascending] at h ⊢
  induction entries with
  | nil => simp [get?]
  | cons entry rest ih =>
    obtain ⟨first, old⟩ := entry
    obtain ⟨hFirst, hRest⟩ := List.pairwise_cons.mp h
    rw [get?_cons, List.mem_cons]
    by_cases hKey : key = first
    · subst hKey
      have hAbsent : (key, value) ∉ rest := by
        intro hMem
        have hLess := hFirst (key, value) hMem
        simp [Std.compare_self] at hLess
      simp [hAbsent, eq_comm]
    · rw [if_neg hKey, ih hRest]
      simp [hKey]

theorem Ascending.get?_rest {first : α} {value : β} {rest : List (α × β)}
    (h : Ascending ⟨(first, value) :: rest⟩) : get? ⟨rest⟩ first = none := by
  obtain ⟨hFirst, hRest⟩ := List.pairwise_cons.mp h
  cases hOther : get? ⟨rest⟩ first with
  | none => rfl
  | some other =>
    have hMem := (get?_eq_some_iff hRest first other).mp hOther
    have hLess := hFirst (first, other) hMem
    simp [Std.compare_self] at hLess

/-- An update at a key that is there keeps all keys. -/
theorem Ascending.keys_update [Std.TransOrd α] {m : SortedMap α β} (h : m.Ascending) {key : α}
    (hKey : key ∈ m.keys) (change : Option β → β) : (m.update key change).keys = m.keys := by
  obtain ⟨entries⟩ := m
  simp only [Ascending, keys, SortedMap.update] at h hKey ⊢
  induction entries with
  | nil => cases hKey
  | cons entry rest ih =>
    obtain ⟨first, value⟩ := entry
    obtain ⟨hFirst, hRest⟩ := List.pairwise_cons.mp h
    rw [updateEntries]
    split
    · rename_i hCompare
      -- a smaller key would stand in front of the first one
      rcases List.mem_cons.mp hKey with rfl | hKey
      · simp [Std.compare_self] at hCompare
      · obtain ⟨⟨_, old⟩, hMem, rfl⟩ := List.mem_map.mp hKey
        have hGreater := Std.OrientedCmp.gt_iff_lt.mpr (hFirst _ hMem)
        rw [hCompare] at hGreater
        cases hGreater
    · rename_i hCompare
      obtain rfl := Std.compare_eq_iff_eq.mp hCompare
      rfl
    · rename_i hCompare
      rw [List.map_cons, List.map_cons, ih hRest ?_]
      rcases List.mem_cons.mp hKey with rfl | hKey
      · simp [Std.compare_self] at hCompare
      · exact hKey

end Hinting.SortedMap

namespace Hinting.SortedSet

variable {α : Type} [Ord α] [Std.LawfulEqOrd α]

theorem contains_add (s : SortedSet α) (a b : α) :
    (add s a).contains b = true ↔ b = a ∨ s.contains b = true :=
  SortedMap.contains_insert s a b ()

theorem contains_foldl_add (as : List α) (s : SortedSet α) (b : α) :
    (as.foldl add s).contains b = true ↔ b ∈ as ∨ s.contains b = true := by
  induction as generalizing s with
  | nil => simp
  | cons a as ih =>
    rw [List.foldl_cons, ih, contains_add, List.mem_cons, or_left_comm, or_assoc]

theorem contains_union (s t : SortedSet α) (a : α) :
    (union s t).contains a = true ↔ s.contains a = true ∨ t.contains a = true := by
  rw [union, contains_foldl_add, SortedMap.contains_iff_mem_keys t a, or_comm]

end Hinting.SortedSet
