import Hinting.Proofs.FontProgram
import Hinting.Proofs.Lookup
import Mathlib.Data.List.Induction
import Mathlib.Data.List.Nodup

/-!
# Function tables as maps in order of insertion

What a function table holds is told from the insertions and removals that made it. A label has
the function that was inserted last and has not been removed since. The labels stand in order of
their first insertion since their last removal.

An indexed table finds its functions by an index from labels to places. It writes through the
index, and it makes a new index only when functions were removed. It has the same functions as
the table that searches for its labels, at every point of every history, and its index is never
stale.
-/

namespace Hinting

inductive TableOperation
  | insert (d : Definition)
  /-- Removes the functions for which `keep` is false. -/
  | retain (keep : Definition → Bool)

/-- Neither replaces nor removes the function. -/
def TableOperation.Spares (d : Definition) : TableOperation → Prop
  | .insert other => other.label ≠ d.label
  | .retain keep => keep d = true

/-- The operations on a table that was empty, the first one first. -/
abbrev TableHistory := List TableOperation

namespace TableHistory

/-- The function was inserted, and neither replaced nor removed since. -/
def Current (history : TableHistory) (d : Definition) : Prop :=
  ∃ before after, history = before ++ .insert d :: after ∧ ∀ operation ∈ after, operation.Spares d

def InsertsAt (history : TableHistory) (label : Label) (n : Nat) : Prop :=
  ∃ d, history[n]? = some (.insert d) ∧ d.label = label

def RemovesAt (history : TableHistory) (label : Label) (n : Nat) : Prop :=
  ∃ keep d, history[n]? = some (.retain keep) ∧ Current (history.take n) d ∧ d.label = label ∧
    keep d = false

/-- The first insertion of a label since its last removal. -/
structure Born (history : TableHistory) (label : Label) (n : Nat) : Prop where
  inserts : InsertsAt history label n
  not_removed : ∀ m, n < m → ¬RemovesAt history label m
  first : ∀ m, m < n → InsertsAt history label m → ∃ k, m < k ∧ k < n ∧ RemovesAt history label k

def BornBefore (history : TableHistory) (label other : Label) : Prop :=
  ∃ m n, Born history label m ∧ Born history other n ∧ m < n

section

variable {history : TableHistory} {operation : TableOperation} {d : Definition} {label : Label}
  {m n : Nat}

@[simp]
theorem not_current_nil : ¬Current [] d := by
  rintro ⟨before, after, hSplit, _⟩
  simp at hSplit

theorem current_concat_iff : Current (history ++ [operation]) d ↔
    operation = .insert d ∨ Current history d ∧ operation.Spares d := by
  constructor
  · rintro ⟨before, after, hSplit, hSpares⟩
    rcases List.eq_nil_or_concat after with rfl | ⟨between, last, rfl⟩
    · exact .inl (List.append_inj_right' hSplit rfl |> List.singleton_inj.mp)
    · rw [List.concat_eq_append, ← List.cons_append, ← List.append_assoc] at hSplit
      obtain ⟨rfl, hLast⟩ := List.append_inj' hSplit rfl
      obtain rfl := List.singleton_inj.mp hLast
      rw [List.concat_eq_append, List.forall_mem_append, List.forall_mem_singleton] at hSpares
      exact .inr ⟨⟨before, between, rfl, hSpares.1⟩, hSpares.2⟩
  · rintro (rfl | ⟨⟨before, after, rfl, hSpares⟩, hLast⟩)
    · exact ⟨history, [], rfl, by simp⟩
    · refine ⟨before, after ++ [operation], by simp, ?_⟩
      rw [List.forall_mem_append, List.forall_mem_singleton]
      exact ⟨hSpares, hLast⟩

theorem InsertsAt.lt_length (h : InsertsAt history label n) : n < history.length := by
  obtain ⟨d, hd, _⟩ := h
  exact (List.getElem?_eq_some_iff.mp hd).1

theorem RemovesAt.lt_length (h : RemovesAt history label n) : n < history.length := by
  obtain ⟨keep, d, hKeep, _⟩ := h
  exact (List.getElem?_eq_some_iff.mp hKeep).1

theorem insertsAt_concat_of_lt (hn : n < history.length) :
    InsertsAt (history ++ [operation]) label n ↔ InsertsAt history label n := by
  rw [InsertsAt, List.getElem?_append_left hn]
  rfl

theorem removesAt_concat_of_lt (hn : n < history.length) :
    RemovesAt (history ++ [operation]) label n ↔ RemovesAt history label n := by
  rw [RemovesAt, List.getElem?_append_left hn, List.take_append_of_le_length (Nat.le_of_lt hn)]
  rfl

theorem insertsAt_concat_length :
    InsertsAt (history ++ [operation]) label history.length ↔
      ∃ d, operation = .insert d ∧ d.label = label := by
  simp [InsertsAt]

theorem removesAt_concat_length :
    RemovesAt (history ++ [operation]) label history.length ↔ ∃ keep d,
      operation = .retain keep ∧ Current history d ∧ d.label = label ∧ keep d = false := by
  simp [RemovesAt]

/-- A label keeps its place until it is removed. -/
theorem Born.concat (h : Born history label n)
    (hKept : ¬RemovesAt (history ++ [operation]) label history.length) :
    Born (history ++ [operation]) label n := by
  have hn := h.inserts.lt_length
  refine ⟨(insertsAt_concat_of_lt hn).mpr h.inserts, ?_, ?_⟩
  · intro m hm hRemoves
    have hLength := hRemoves.lt_length
    rw [List.length_append, List.length_singleton] at hLength
    rcases Nat.lt_succ_iff_lt_or_eq.mp hLength with hOld | rfl
    · exact h.not_removed m hm ((removesAt_concat_of_lt hOld).mp hRemoves)
    · exact hKept hRemoves
  · intro m hm hInserts
    rw [insertsAt_concat_of_lt (Nat.lt_trans hm hn)] at hInserts
    obtain ⟨k, hmk, hkn, hRemoves⟩ := h.first m hm hInserts
    exact ⟨k, hmk, hkn, (removesAt_concat_of_lt (Nat.lt_trans hkn hn)).mpr hRemoves⟩

/-- A label that was removed after each of its insertions gets a new place. -/
theorem born_concat_insert
    (h : ∀ m, InsertsAt history d.label m → ∃ k, m < k ∧ RemovesAt history d.label k) :
    Born (history ++ [.insert d]) d.label history.length := by
  refine ⟨insertsAt_concat_length.mpr ⟨d, rfl, rfl⟩, ?_, ?_⟩
  · intro m hm hRemoves
    have hLength := hRemoves.lt_length
    rw [List.length_append, List.length_singleton] at hLength
    omega
  · intro m hm hInserts
    obtain ⟨k, hmk, hRemoves⟩ := h m ((insertsAt_concat_of_lt hm).mp hInserts)
    have hk := hRemoves.lt_length
    exact ⟨k, hmk, hk, (removesAt_concat_of_lt hk).mpr hRemoves⟩

end

end TableHistory

namespace FunctionTable

open TableHistory

def perform (t : FunctionTable) : TableOperation → FunctionTable
  | .insert d => t.insert d
  | .retain keep => t.filter keep

def after (history : TableHistory) : FunctionTable :=
  history.foldl perform {}

/-- The table is the map that a history of operations makes, in order of insertion. -/
structure Records (history : TableHistory) (t : FunctionTable) : Prop where
  nodup : t.labels.Nodup
  position : ∀ label position, t.position? label = some position ↔
    t.definitions[position]?.map Definition.label = some label
  get : ∀ label d, t.get? label = some d ↔ Current history d ∧ d.label = label
  contains : ∀ label, t.contains label = true ↔ ∃ d, t.get? label = some d
  labels : ∀ label, label ∈ t.labels ↔ ∃ n, Born history label n
  order : t.labels.Pairwise (BornBefore history)

section

variable {t : FunctionTable} {d : Definition} {label : Label}

theorem mem_labels_iff : label ∈ t.labels ↔ ∃ d, t.get? label = some d := by
  rw [← not_iff_not, ← position?_eq_none_iff, not_exists]
  simp only [get?_eq_find?, ← Option.eq_none_iff_forall_ne_some]
  rw [position?, List.findIdx?_eq_none_iff, List.find?_eq_none]
  simp

theorem get?_eq_some_iff (h : t.labels.Nodup) :
    t.get? label = some d ↔ d ∈ t.definitions ∧ d.label = label := by
  refine ⟨mem_of_get?, ?_⟩
  rintro ⟨hd, rfl⟩
  obtain ⟨other, hOther⟩ := mem_labels_iff.mp (List.mem_map_of_mem hd)
  obtain ⟨hMem, hLabel⟩ := mem_of_get? hOther
  rw [hOther, List.inj_on_of_nodup_map h hMem hd hLabel]

theorem nodup_labels_perform (h : t.labels.Nodup) (operation : TableOperation) :
    (t.perform operation).labels.Nodup := by
  cases operation with
  | insert d => exact nodup_labels_insert h d
  | retain keep => exact h.sublist (List.filter_sublist.map Definition.label)

/-- With labels that stand once, the place of a label is the one place where it stands. -/
theorem position?_eq_some_iff (h : t.labels.Nodup) {position : Nat} :
    t.position? label = some position ↔
      t.definitions[position]?.map Definition.label = some label := by
  rw [← List.getElem?_map]
  have hStands {n : Nat} (hn : t.position? label = some n) : t.labels[n]? = some label := by
    obtain ⟨hBound, hLabel, _⟩ := List.findIdx?_eq_some_iff_getElem.mp hn
    rw [labels, List.getElem?_map, List.getElem?_eq_getElem hBound, Option.map_some,
      eq_of_beq hLabel]
  refine ⟨hStands, fun hLabel => ?_⟩
  cases hPosition : t.position? label with
  | none =>
    have hMem : label ∈ t.labels := List.mem_of_getElem? hLabel
    exact absurd hMem ((position?_eq_none_iff t label).mp hPosition)
  | some n =>
    have hSame : t.labels[n]? = t.labels[position]? := (hStands hPosition).trans hLabel.symm
    obtain ⟨hBound, _⟩ := List.getElem?_eq_some_iff.mp (hStands hPosition)
    rw [(List.getElem?_inj hBound h).mp hSame]

theorem position?_concat {definitions : List Definition}
    (h : d.label ∉ definitions.map Definition.label) (label : Label) :
    position? ⟨definitions ++ [d]⟩ label =
      if label = d.label then some definitions.length else position? ⟨definitions⟩ label := by
  rw [position?, List.findIdx?_append]
  by_cases hLabel : label = d.label
  · have hNone := (position?_eq_none_iff ⟨definitions⟩ label).mpr (hLabel ▸ h)
    rw [position?] at hNone
    rw [hNone]
    simp [hLabel]
  · have hOther : ¬d.label = label := fun hEq => hLabel hEq.symm
    simp [hLabel, hOther, position?]

theorem filter_of_dropped_eq_nil {keep : Definition → Bool} (h : t.dropped keep = []) :
    t.filter keep = t := by
  rw [dropped, List.map_eq_nil_iff, List.filter_eq_nil_iff] at h
  rw [filter, List.filter_eq_self.mpr fun d hd => by simpa using h d hd]

theorem position?_congr {u : FunctionTable} (h : t.labels = u.labels) (label : Label) :
    t.position? label = u.position? label := by
  have hLabels (v : FunctionTable) : v.position? label = v.labels.findIdx? (· == label) := by
    rw [labels, List.findIdx?_map]
    rfl
  rw [hLabels, hLabels, h]

end

section

variable (history : TableHistory) (operation : TableOperation)

theorem after_concat : after (history ++ [operation]) = (after history).perform operation := by
  rw [after, List.foldl_append]
  rfl

theorem nodup_labels_after : (after history).labels.Nodup := by
  induction history using List.reverseRecOn with
  | nil => exact List.nodup_nil
  | append_singleton history operation ih =>
    rw [after_concat]
    exact nodup_labels_perform ih operation

theorem get?_after_eq_some_iff (label : Label) (d : Definition) :
    (after history).get? label = some d ↔ Current history d ∧ d.label = label := by
  induction history using List.reverseRecOn with
  | nil =>
    have hNone : (after []).get? label = none := rfl
    simp [hNone]
  | append_singleton history operation ih =>
    rw [after_concat, current_concat_iff]
    cases operation with
    | insert other =>
      rw [perform, get?_insert]
      by_cases hLabel : other.label = label
      · rw [if_pos hLabel]
        constructor
        · intro h
          cases h
          exact ⟨.inl rfl, hLabel⟩
        · rintro ⟨hSame | ⟨_, hSpares⟩, hd⟩
          · cases hSame
            rfl
          · exact absurd (hLabel.trans hd.symm) hSpares
      · rw [if_neg hLabel, ih]
        constructor
        · rintro ⟨hCurrent, rfl⟩
          exact ⟨.inr ⟨hCurrent, hLabel⟩, rfl⟩
        · rintro ⟨hSame | ⟨hCurrent, _⟩, hd⟩
          · cases hSame
            exact absurd hd hLabel
          · exact ⟨hCurrent, hd⟩
    | retain keep =>
      have hNodup := nodup_labels_after history
      rw [get?_eq_some_iff (nodup_labels_perform hNodup (.retain keep)), perform, filter,
        List.mem_filter, and_right_comm, ← get?_eq_some_iff hNodup, ih]
      simp [TableOperation.Spares, and_right_comm]

theorem mem_labels_after_iff (label : Label) :
    label ∈ (after history).labels ↔ ∃ d, Current history d ∧ d.label = label := by
  simp only [mem_labels_iff, get?_after_eq_some_iff]

variable {history operation} {label : Label}

theorem not_removesAt_of_mem
    (h : label ∈ (after (history ++ [operation])).labels) :
    ¬RemovesAt (history ++ [operation]) label history.length := by
  intro hRemoves
  obtain ⟨keep, d, rfl, hCurrent, hLabel, hKeep⟩ := removesAt_concat_length.mp hRemoves
  obtain ⟨other, hOther, hSame⟩ := (mem_labels_after_iff _ label).mp h
  obtain ⟨hOther, hKept⟩ := (current_concat_iff.mp hOther).resolve_left (by simp)
  have hd := (get?_after_eq_some_iff history label d).mpr ⟨hCurrent, hLabel⟩
  rw [(get?_after_eq_some_iff history label other).mpr ⟨hOther, hSame⟩] at hd
  cases hd
  exact Bool.eq_false_iff.mp hKeep hKept

/-- A label leaves the table by its removal only. -/
theorem removesAt_of_lost (hOld : label ∈ (after history).labels)
    (hLost : label ∉ (after (history ++ [operation])).labels) :
    RemovesAt (history ++ [operation]) label history.length := by
  obtain ⟨d, hCurrent, hLabel⟩ := (mem_labels_after_iff history label).mp hOld
  have hNot : ¬operation.Spares d := fun hSpares => hLost ((mem_labels_after_iff _ label).mpr
    ⟨d, current_concat_iff.mpr (.inr ⟨hCurrent, hSpares⟩), hLabel⟩)
  cases operation with
  | insert other =>
    -- a function of this label would be in the table now
    have hOther : other.label = d.label := Classical.not_not.mp hNot
    exact absurd ((mem_labels_after_iff _ label).mpr
      ⟨other, current_concat_iff.mpr (.inl rfl), hOther.trans hLabel⟩) hLost
  | retain keep =>
    exact removesAt_concat_length.mpr
      ⟨keep, d, rfl, hCurrent, hLabel, Bool.eq_false_iff.mpr hNot⟩

/-- A label that the table does not have was removed after each of its insertions. -/
theorem exists_removesAt_of_not_mem (h : label ∉ (after history).labels) (m : Nat)
    (hm : InsertsAt history label m) : ∃ k, m < k ∧ RemovesAt history label k := by
  induction history using List.reverseRecOn with
  | nil => simp [InsertsAt] at hm
  | append_singleton history operation ih =>
    have hLength := hm.lt_length
    rw [List.length_append, List.length_singleton] at hLength
    rcases Nat.lt_succ_iff_lt_or_eq.mp hLength with hLength | rfl
    · by_cases hMem : label ∈ (after history).labels
      · exact ⟨history.length, hLength, removesAt_of_lost hMem h⟩
      · obtain ⟨k, hmk, hRemoves⟩ := ih hMem ((insertsAt_concat_of_lt hLength).mp hm)
        exact ⟨k, hmk, (removesAt_concat_of_lt hRemoves.lt_length).mpr hRemoves⟩
    · obtain ⟨d, rfl, hLabel⟩ := insertsAt_concat_length.mp hm
      exact absurd ((mem_labels_after_iff _ label).mpr
        ⟨d, current_concat_iff.mpr (.inl rfl), hLabel⟩) h

theorem bornBefore_concat {other : Label}
    (hLabel : label ∈ (after (history ++ [operation])).labels)
    (hOther : other ∈ (after (history ++ [operation])).labels) (h : BornBefore history label other) :
    BornBefore (history ++ [operation]) label other := by
  obtain ⟨m, n, hm, hn, hLess⟩ := h
  exact ⟨m, n, hm.concat (not_removesAt_of_mem hLabel), hn.concat (not_removesAt_of_mem hOther),
    hLess⟩

variable (history)

theorem mem_labels_after_iff_born (label : Label) :
    label ∈ (after history).labels ↔ ∃ n, Born history label n := by
  constructor
  · intro h
    induction history using List.reverseRecOn with
    | nil => cases h
    | append_singleton history operation ih =>
      by_cases hMem : label ∈ (after history).labels
      · obtain ⟨n, hn⟩ := ih hMem
        exact ⟨n, hn.concat (not_removesAt_of_mem h)⟩
      · obtain ⟨d, hCurrent, hLabel⟩ := (mem_labels_after_iff _ label).mp h
        rcases current_concat_iff.mp hCurrent with rfl | ⟨hCurrent, _⟩
        · subst hLabel
          exact ⟨history.length, born_concat_insert (exists_removesAt_of_not_mem hMem)⟩
        · exact absurd ((mem_labels_after_iff history label).mpr ⟨d, hCurrent, hLabel⟩) hMem
  · rintro ⟨n, hn⟩
    by_contra hAbsent
    obtain ⟨k, hnk, hRemoves⟩ := exists_removesAt_of_not_mem hAbsent n hn.inserts
    exact hn.not_removed k hnk hRemoves

theorem pairwise_bornBefore_after : (after history).labels.Pairwise (BornBefore history) := by
  induction history using List.reverseRecOn with
  | nil => exact .nil
  | append_singleton history operation ih =>
    -- labels that were there stay in order, and a new one comes last
    have hStay {labels : List Label} (hSublist : labels.Sublist (after history).labels)
        (hMem : ∀ label ∈ labels, label ∈ (after (history ++ [operation])).labels) :
        labels.Pairwise (BornBefore (history ++ [operation])) :=
      (ih.sublist hSublist).imp_of_mem fun hLabel hOther =>
        bornBefore_concat (hMem _ hLabel) (hMem _ hOther)
    rw [after_concat] at hStay ⊢
    cases operation with
    | retain keep =>
      exact hStay (List.filter_sublist.map Definition.label) fun _ h => h
    | insert d =>
      rw [perform, labels_insert] at hStay ⊢
      by_cases hMem : d.label ∈ (after history).labels
      · rw [if_pos hMem] at hStay ⊢
        exact hStay (List.Sublist.refl _) fun _ h => h
      · rw [if_neg hMem] at hStay ⊢
        refine List.pairwise_append.mpr ⟨?_, List.pairwise_singleton _ _, ?_⟩
        · exact hStay (List.Sublist.refl _) fun _ h => List.mem_append_left _ h
        · intro label hLabel other hOther
          obtain rfl := List.mem_singleton.mp hOther
          obtain ⟨m, hm⟩ := (mem_labels_after_iff_born history label).mp hLabel
          have hKept : ¬RemovesAt (history ++ [.insert d]) label history.length := by
            intro hRemoves
            obtain ⟨keep, _, hRetain, _⟩ := removesAt_concat_length.mp hRemoves
            cases hRetain
          exact ⟨m, history.length, hm.concat hKept,
            born_concat_insert (exists_removesAt_of_not_mem hMem), hm.inserts.lt_length⟩

/-- A function keeps its place when it is defined again, and loses it when it is removed. -/
example (a b c : Body) : (after [.insert ⟨1, a⟩, .insert ⟨2, b⟩, .insert ⟨1, c⟩]).labels = [1, 2] ∧
    (after [.insert ⟨1, a⟩, .insert ⟨2, b⟩, .retain fun d => d.label == 2,
      .insert ⟨1, c⟩]).labels = [2, 1] :=
  ⟨rfl, rfl⟩

theorem records_after : (after history).Records history where
  nodup := nodup_labels_after history
  position _ _ := position?_eq_some_iff (nodup_labels_after history)
  get := get?_after_eq_some_iff history
  contains label := by
    rw [contains, ← mem_labels_iff, ← Option.ne_none_iff_isSome, ne_eq, position?_eq_none_iff,
      not_not]
  labels := mem_labels_after_iff_born history
  order := pairwise_bornBefore_after history

end

end FunctionTable

/-- A function table with an index that says where each label stands. -/
structure IndexedTable where
  functions : List Definition := []
  index : SortedMap Label Nat := {}

namespace IndexedTable

/-- Adds a function, or writes it at the place that the index gives. Fails when there is no such
place. -/
def insert (x : IndexedTable) (d : Definition) : Option IndexedTable :=
  match x.index.get? d.label with
  | some position =>
    if position < x.functions.length then
      some { x with functions := x.functions.set position d }
    else none
  | none => some ⟨x.functions ++ [d], x.index.insert d.label x.functions.length⟩

/-- The function at the place that the index gives. Fails when there is no such place. -/
def get (x : IndexedTable) (label : Label) : Option (Option Definition) :=
  match x.index.get? label with
  | some position => x.functions[position]?.map some
  | none => some none

def contains (x : IndexedTable) (label : Label) : Bool :=
  x.index.contains label

/-- An index made from the places in a list. -/
def indexOf (functions : List Definition) : SortedMap Label Nat :=
  functions.zipIdx.foldl (fun index entry => index.insert entry.1.label entry.2) {}

/-- Sorts one function to those kept or its label to those removed. -/
def sort (keep : Definition → Bool) (sorted : List Definition × List Label) (d : Definition) :
    List Definition × List Label :=
  if keep d then (sorted.1 ++ [d], sorted.2) else (sorted.1, sorted.2 ++ [d.label])

/-- Removes the functions for which `keep` is false, and gives their labels. -/
def retain (x : IndexedTable) (keep : Definition → Bool) : List Label × IndexedTable :=
  let sorted := x.functions.foldl (sort keep) ([], [])
  (sorted.2, ⟨sorted.1, if sorted.2.isEmpty then x.index else indexOf sorted.1⟩)

def perform (x : IndexedTable) : TableOperation → Option IndexedTable
  | .insert d => x.insert d
  | .retain keep => some (x.retain keep).2

/-- The table that a history makes, unless it reaches for a place outside of the functions. -/
def after (history : TableHistory) : Option IndexedTable :=
  history.foldlM perform {}

/-- The table has the functions of another one and answers as that one does. -/
structure Implements (x : IndexedTable) (t : FunctionTable) : Prop where
  functions : x.functions = t.definitions
  index : ∀ label, x.index.get? label = t.position? label
  get : ∀ label, x.get label = some (t.get? label)
  contains : ∀ label, x.contains label = t.contains label
  removed : ∀ keep, (x.retain keep).1 = t.dropped keep
  kept : ∀ keep, (x.retain keep).2.functions = (t.filter keep).definitions

/-- The index says where the labels stand. -/
structure InStep (x : IndexedTable) (t : FunctionTable) : Prop where
  functions : x.functions = t.definitions
  nodup : t.labels.Nodup
  index : ∀ label, x.index.get? label = t.position? label
  ascending : x.index.Ascending

theorem foldl_sort (keep : Definition → Bool) (functions : List Definition)
    (sorted : List Definition × List Label) : functions.foldl (sort keep) sorted =
      (sorted.1 ++ functions.filter keep,
        sorted.2 ++ (functions.filter fun d => !keep d).map Definition.label) := by
  induction functions generalizing sorted with
  | nil => simp
  | cons d rest ih =>
    rw [List.foldl_cons, ih, sort]
    by_cases hKeep : keep d = true
    · simp [hKeep]
    · simp [hKeep]

theorem indexOf_concat (functions : List Definition) (d : Definition) :
    indexOf (functions ++ [d]) = (indexOf functions).insert d.label functions.length := by
  rw [indexOf, List.zipIdx_append, List.foldl_append, Nat.zero_add]
  rfl

theorem ascending_indexOf (functions : List Definition) : (indexOf functions).Ascending := by
  induction functions using List.reverseRecOn with
  | nil => exact .empty
  | append_singleton front d ih =>
    rw [indexOf_concat]
    exact ih.insert _ _

theorem get?_indexOf {functions : List Definition}
    (h : (functions.map Definition.label).Nodup) (label : Label) :
    (indexOf functions).get? label = FunctionTable.position? ⟨functions⟩ label := by
  induction functions using List.reverseRecOn with
  | nil => rfl
  | append_singleton front d ih =>
    rw [List.map_append, List.map_singleton] at h
    obtain ⟨hFront, _, hNew⟩ := List.nodup_append.mp h
    have hLabel : d.label ∉ front.map Definition.label := fun hMem =>
      hNew d.label hMem d.label (List.mem_singleton_self _) rfl
    rw [indexOf_concat, FunctionTable.position?_concat hLabel]
    by_cases hSame : label = d.label
    · rw [if_pos hSame, hSame, SortedMap.get?_insert_self]
    · rw [if_neg hSame, SortedMap.get?_insert_of_ne _ hSame, ih hFront]

section

variable {x : IndexedTable} {t : FunctionTable}

theorem InStep.insert (h : x.InStep t) (d : Definition) :
    ∃ y, x.insert d = some y ∧ y.InStep (t.insert d) := by
  have hNodup := FunctionTable.nodup_labels_insert h.nodup d
  have hIndex := h.index d.label
  by_cases hMem : d.label ∈ t.labels
  · -- the place is in range, and no label moves
    cases hPosition : t.position? d.label with
    | none => exact absurd hMem ((t.position?_eq_none_iff d.label).mp hPosition)
    | some position =>
      obtain ⟨hBound, _⟩ := List.findIdx?_eq_some_iff_getElem.mp hPosition
      rw [hPosition] at hIndex
      refine ⟨{ x with functions := x.functions.set position d }, ?_, ?_, hNodup, ?_, h.ascending⟩
      · rw [← h.functions] at hBound
        simp only [IndexedTable.insert, hIndex, hBound, ↓reduceIte]
      · simp only [FunctionTable.insert, hPosition, h.functions]
      · intro label
        rw [FunctionTable.position?_congr (FunctionTable.labels_insert_of_mem hMem)]
        exact h.index label
  · rw [(t.position?_eq_none_iff d.label).mpr hMem] at hIndex
    refine ⟨⟨x.functions ++ [d], x.index.insert d.label x.functions.length⟩, ?_, ?_, hNodup, ?_,
      h.ascending.insert _ _⟩
    · simp only [IndexedTable.insert, hIndex]
    · rw [FunctionTable.insert_of_not_mem hMem, h.functions]
    · intro label
      rw [FunctionTable.insert_of_not_mem hMem, FunctionTable.position?_concat hMem, h.functions]
      by_cases hSame : label = d.label
      · rw [if_pos hSame, hSame, SortedMap.get?_insert_self]
      · rw [if_neg hSame, SortedMap.get?_insert_of_ne _ hSame]
        exact h.index label

theorem InStep.retain_eq (h : x.InStep t) (keep : Definition → Bool) :
    x.retain keep = (t.dropped keep, ⟨(t.filter keep).definitions,
      if (t.dropped keep).isEmpty then x.index else indexOf (t.filter keep).definitions⟩) := by
  rw [IndexedTable.retain, foldl_sort, List.nil_append, List.nil_append, h.functions]
  rfl

theorem InStep.retain (h : x.InStep t) (keep : Definition → Bool) :
    (x.retain keep).2.InStep (t.filter keep) := by
  have hNodup := FunctionTable.nodup_labels_perform h.nodup (.retain keep)
  rw [h.retain_eq]
  by_cases hDropped : t.dropped keep = []
  · -- nothing was removed, and the old index is right
    rw [hDropped, FunctionTable.filter_of_dropped_eq_nil hDropped]
    exact ⟨rfl, h.nodup, h.index, h.ascending⟩
  · rw [if_neg (mt List.isEmpty_iff.mp hDropped)]
    exact ⟨rfl, hNodup, get?_indexOf hNodup, ascending_indexOf _⟩

theorem InStep.perform (h : x.InStep t) (operation : TableOperation) :
    ∃ y, x.perform operation = some y ∧ y.InStep (t.perform operation) := by
  cases operation with
  | insert d => exact h.insert d
  | retain keep => exact ⟨_, rfl, h.retain keep⟩

theorem InStep.foldlM_perform (h : x.InStep t) (history : TableHistory) :
    ∃ y, history.foldlM IndexedTable.perform x = some y ∧
      y.InStep (history.foldl FunctionTable.perform t) := by
  induction history generalizing x t with
  | nil => exact ⟨x, rfl, h⟩
  | cons operation rest ih =>
    obtain ⟨next, hNext, hStep⟩ := h.perform operation
    obtain ⟨y, hy, hInStep⟩ := ih hStep
    refine ⟨y, ?_, hInStep⟩
    rw [List.foldlM_cons, hNext]
    exact hy

theorem after_concat {history : TableHistory} (h : after history = some x)
    (operation : TableOperation) : after (history ++ [operation]) = x.perform operation := by
  rw [after] at h
  rw [after, List.foldlM_append, h]
  exact bind_pure (x.perform operation)

theorem inStep_empty : InStep {} {} :=
  ⟨rfl, List.nodup_nil, fun _ => rfl, .empty⟩

theorem InStep.implements (h : x.InStep t) : x.Implements t where
  functions := h.functions
  index := h.index
  get label := by
    rw [IndexedTable.get, h.index, FunctionTable.get?]
    cases hPosition : t.position? label with
    | none => rfl
    | some position =>
      obtain ⟨hBound, _⟩ := List.findIdx?_eq_some_iff_getElem.mp hPosition
      simp only [h.functions, List.getElem?_eq_getElem hBound, Option.map_some, Option.bind_some]
  contains label := by
    rw [IndexedTable.contains, SortedMap.contains, h.index]
    rfl
  removed keep := by rw [h.retain_eq]
  kept keep := by rw [h.retain_eq]

/-- Whatever functions were inserted and removed, the table is the map that this makes, in order
of insertion, and the table with the index answers as it does. -/
theorem after_implements_insertion_order (history : TableHistory) :
    (FunctionTable.after history).Records history ∧
    ∃ x, after history = some x ∧ x.Implements (FunctionTable.after history) := by
  obtain ⟨x, hx, hInStep⟩ := inStep_empty.foldlM_perform history
  exact ⟨FunctionTable.records_after history, x, hx, hInStep.implements⟩

end

end IndexedTable

end Hinting
