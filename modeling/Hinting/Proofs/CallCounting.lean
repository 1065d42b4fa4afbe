import Hinting.Proofs.Canonical

/-!
# Graphs as counts of calls

A graph that comes about by recording calls and merging graphs says how often each function was
called and nothing else: two of them are equal if and only if the same calls were recorded, in
whatever order and however the work was shared out. The laws of merging follow.

The counts of a graph have no bound. Counters of 32 bits hold the same graph unless some function
was called too often for its counter. Then they have run over, and are nothing from there on.
-/

namespace Hinting

/-- How a graph comes about. -/
inductive Recording
  | empty
  | record (r : Recording) (label : Label)
  | merge (r s : Recording)

/-- A graph with counters of 32 bits. -/
structure WordGraph where
  counts : SortedMap Label UInt32 := {}

namespace WordGraph

/-- Counts a number of calls, unless the counter is too small. -/
def add (w : WordGraph) (label : Label) (calls : UInt32) : Option WordGraph :=
  let old := (w.counts.get? label).getD 0
  if old.toNat + calls.toNat < 0x100000000 then some ⟨w.counts.insert label (old + calls)⟩
  else none

def merge (w other : WordGraph) : Option WordGraph :=
  other.counts.entries.foldlM (fun w entry => w.add entry.1 entry.2) w

def count (w : WordGraph) (label : Label) : UInt32 :=
  (w.counts.get? label).getD 0

def labels (w : WordGraph) : List Label :=
  w.counts.keys

/-- The calls of all functions together. -/
def total (w : WordGraph) : Nat :=
  (w.counts.entries.map fun entry => entry.2.toNat).sum

/-- The same functions with the same numbers of calls. -/
def Represents (w : WordGraph) (g : CallGraph) : Prop :=
  w.counts.mapValues UInt32.toNat = g.counts

end WordGraph

/-- Counters of 32 bits, as long as none of them has run over. -/
abbrev Counters := Option WordGraph

namespace Counters

def record (c : Counters) (label : Label) : Counters :=
  c.bind fun w => w.add label 1

def recordAll (c : Counters) (labels : List Label) : Counters :=
  labels.foldl record c

def merge (c d : Counters) : Counters :=
  c.bind fun w => d.bind fun other => w.merge other

/-- The counters hold the graph, or have run over because a count is too large for them. -/
def Hold (c : Counters) (g : CallGraph) : Prop :=
  ∀ w, c = some w ↔ w.Represents g

end Counters

namespace Recording

def graph : Recording → CallGraph
  | empty => .empty
  | record r label => r.graph.record label
  | merge r s => r.graph.merge s.graph

def words : Recording → Option WordGraph
  | empty => some {}
  | record r label => r.words.bind fun w => w.add label 1
  | merge r s => r.words.bind fun w => s.words.bind fun other => w.merge other

/-- The calls recorded. -/
def calls : Recording → List Label
  | empty => []
  | record r label => r.calls ++ [label]
  | merge r s => r.calls ++ s.calls

/-- One graph for a list of calls. -/
def ofCalls (labels : List Label) : Recording :=
  labels.foldl record empty

/-- A graph of its own for each part, merged in some grouping. -/
inductive Groups : List (List Label) → Recording → Prop
  | part (labels : List Label) : Groups [labels] (ofCalls labels)
  | merge {parts others : List (List Label)} {r s : Recording} : Groups parts r →
      Groups others s → Groups (parts ++ others) (merge r s)

end Recording

namespace CallGraph

theorem count_add {g : CallGraph} (hg : g.counts.Ascending) (label other : Label) (calls : Nat) :
    (g.add label calls).count other = g.count other + if label = other then calls else 0 := by
  have hAdd : (g.add label calls).counts.Ascending := hg.update label _
  rw [← total_indicator hAdd, ← total_indicator hg, total_add, mul_ite, Nat.mul_one, Nat.mul_zero]

theorem count_merge_of_ascending {g h : CallGraph} (hg : g.counts.Ascending)
    (hh : h.counts.Ascending) (label : Label) :
    (g.merge h).count label = g.count label + h.count label := by
  rw [← total_indicator (ascending_merge hg h), ← total_indicator hg, ← total_indicator hh,
    total_merge]

theorem merge_record {g : CallGraph} (hg : g.counts.Ascending) (h : CallGraph) (label : Label) :
    g.merge (h.record label) = (g.merge h).record label := by
  refine ext_of_total (ascending_merge hg _) ((ascending_merge hg h).update label _) ?_ ?_
  · intro other
    simp [record, or_left_comm]
  · intro weight
    simp [record, Nat.add_assoc]

theorem merge_foldl_record {g : CallGraph} (hg : g.counts.Ascending) (h : CallGraph)
    (labels : List Label) : g.merge (labels.foldl record h) = labels.foldl record (g.merge h) := by
  induction labels generalizing h with
  | nil => rfl
  | cons label rest ih => rw [List.foldl_cons, ih, merge_record hg, List.foldl_cons]

theorem ascending_foldl_record {g : CallGraph} (hg : g.counts.Ascending) (labels : List Label) :
    (labels.foldl record g).counts.Ascending := by
  induction labels generalizing g with
  | nil => exact hg
  | cons label rest ih => exact ih (hg.update label _)

theorem count_foldl_record {g : CallGraph} (hg : g.counts.Ascending) (labels : List Label)
    (label : Label) : (labels.foldl record g).count label = g.count label + labels.count label := by
  induction labels generalizing g with
  | nil => rfl
  | cons first rest ih =>
    have hNext : (g.record first).counts.Ascending := hg.update first _
    rw [List.foldl_cons, ih hNext, record, count_add hg, List.count_cons]
    simp only [beq_iff_eq]
    omega

theorem mem_labels_foldl_record (g : CallGraph) (labels : List Label) (label : Label) :
    label ∈ (labels.foldl record g).labels ↔ label ∈ labels ∨ label ∈ g.labels := by
  induction labels generalizing g with
  | nil => simp
  | cons first rest ih =>
    simp [ih, record, or_left_comm, or_assoc]

/-- What merging does to graphs, with the empty graph and with equality. -/
structure MergeLaws (g h k : CallGraph) : Prop where
  comm : g.merge h = h.merge g
  assoc : (g.merge h).merge k = g.merge (h.merge k)
  empty_merge : empty.merge g = g
  merge_empty : g.merge empty = g
  count : ∀ label, (g.merge h).count label = g.count label + h.count label
  labels : ∀ label, label ∈ (g.merge h).labels ↔ label ∈ g.labels ∨ label ∈ h.labels
  positive : ∀ entry ∈ g.toList, 0 < entry.2
  eq_iff : g = h ↔ ∀ label, g.count label = h.count label

end CallGraph

namespace Recording

variable (r s t : Recording)

theorem ascending_graph : r.graph.counts.Ascending := by
  induction r with
  | empty => exact .empty
  | record r label ih => exact ih.update label _
  | merge r s ihr _ => exact CallGraph.ascending_merge ihr s.graph

@[simp]
theorem count_graph (label : Label) : r.graph.count label = r.calls.count label := by
  induction r with
  | empty => rfl
  | record r other ih =>
    rw [graph, CallGraph.record, CallGraph.count_add r.ascending_graph, ih, calls,
      List.count_append, List.count_singleton]
    simp only [beq_iff_eq]
  | merge r s ihr ihs =>
    rw [graph, CallGraph.count_merge_of_ascending r.ascending_graph s.ascending_graph, ihr, ihs,
      calls, List.count_append]

@[simp]
theorem mem_labels_graph (label : Label) : label ∈ r.graph.labels ↔ label ∈ r.calls := by
  induction r with
  | empty => rfl
  | record r other ih => simp [graph, CallGraph.record, ih, calls, or_comm]
  | merge r s ihr ihs => simp [graph, ihr, ihs, calls]

theorem get?_graph (label : Label) :
    r.graph.counts.get? label =
      if label ∈ r.calls then some (r.calls.count label) else none := by
  simp only [CallGraph.get?_counts, mem_labels_graph, count_graph]

/-- A graph tells which calls were recorded, and no more. -/
theorem graph_eq_iff : r.graph = s.graph ↔ r.calls.Perm s.calls := by
  refine ⟨fun h => List.perm_iff_count.mpr fun label => ?_, fun h => ?_⟩
  · rw [← count_graph, ← count_graph, h]
  · have hCounts : r.graph.counts = s.graph.counts := by
      refine r.ascending_graph.ext s.ascending_graph fun label => ?_
      rw [get?_graph, get?_graph, h.count_eq]
      simp only [h.mem_iff]
    exact congrArg CallGraph.mk hCounts

theorem positive_of_mem_toList {entry : Label × Nat} (h : entry ∈ r.graph.toList) :
    0 < entry.2 := by
  have hCount : r.graph.counts.get? entry.1 = some entry.2 :=
    (r.ascending_graph.get?_eq_some_iff entry.1 entry.2).mpr h
  rw [get?_graph] at hCount
  split at hCount
  · rename_i hMem
    rw [← Option.some.inj hCount]
    exact List.count_pos_iff.mpr hMem
  · cases hCount

theorem mergeLaws : CallGraph.MergeLaws r.graph s.graph t.graph where
  comm := (graph_eq_iff (merge r s) (merge s r)).mpr List.perm_append_comm
  assoc := (graph_eq_iff (merge (merge r s) t) (merge r (merge s t))).mpr
    (.of_eq (List.append_assoc _ _ _))
  empty_merge := (graph_eq_iff (merge empty r) r).mpr (.refl _)
  merge_empty := (graph_eq_iff (merge r empty) r).mpr (.of_eq (List.append_nil _))
  count := CallGraph.count_merge_of_ascending r.ascending_graph s.ascending_graph
  labels := CallGraph.mem_labels_merge _ _
  positive _ := r.positive_of_mem_toList
  eq_iff := by
    rw [graph_eq_iff, List.perm_iff_count]
    simp only [count_graph]

@[simp]
theorem calls_ofCalls (labels : List Label) : (ofCalls labels).calls = labels := by
  have hFold (r : Recording) : (labels.foldl record r).calls = r.calls ++ labels := by
    induction labels generalizing r with
    | nil => exact (List.append_nil _).symm
    | cons label labels ih =>
      rw [List.foldl_cons, ih, calls, List.append_assoc, List.singleton_append]
  exact hFold empty

theorem graph_ofCalls (labels : List Label) :
    (ofCalls labels).graph = labels.foldl CallGraph.record .empty := by
  have hFold (r : Recording) :
      (labels.foldl record r).graph = labels.foldl CallGraph.record r.graph := by
    induction labels generalizing r with
    | nil => rfl
    | cons label labels ih => exact ih (record r label)
  exact hFold empty

theorem Groups.calls_eq {parts : List (List Label)} {r : Recording} (h : Groups parts r) :
    r.calls = parts.flatten := by
  induction h with
  | part labels => rw [calls_ofCalls, List.flatten_singleton]
  | merge _ _ ihr ihs => rw [calls, ihr, ihs, List.flatten_append]

end Recording

namespace WordGraph

variable {w other : WordGraph} {g h : CallGraph} {label : Label} {calls : UInt32}

theorem Represents.ascending (hw : w.Represents g) (hg : g.counts.Ascending) :
    w.counts.Ascending := by
  have hMapped : (w.counts.mapValues UInt32.toNat).Ascending := by rwa [hw]
  exact List.pairwise_map.mp hMapped

theorem Represents.get? (hw : w.Represents g) (label : Label) :
    (w.counts.get? label).map UInt32.toNat = g.counts.get? label := by
  rw [← SortedMap.get?_mapValues, hw]

theorem Represents.toNat_count (hw : w.Represents g) (label : Label) :
    (w.count label).toNat = g.count label := by
  rw [count, CallGraph.count, ← hw.get?]
  cases w.counts.get? label with
  | none => rfl
  | some calls => rfl

theorem Represents.labels_eq (hw : w.Represents g) : w.labels = g.labels := by
  rw [labels, CallGraph.labels, ← hw, SortedMap.keys_mapValues]

theorem Represents.total_eq (hw : w.Represents g) : w.total = g.total fun _ => 1 := by
  rw [total, CallGraph.total, CallGraph.toList, ← hw, SortedMap.mapValues, List.map_map]
  simp only [Function.comp_def, Nat.mul_one]

theorem Represents.count_lt (hw : w.Represents g) (label : Label) :
    g.count label < 0x100000000 := by
  rw [← hw.toNat_count]
  exact UInt32.toNat_lt _

theorem Represents.unique (hw : w.Represents g) (hOther : other.Represents g)
    (hg : g.counts.Ascending) : w = other := by
  have hCounts : w.counts = other.counts := by
    refine (hw.ascending hg).ext (hOther.ascending hg) fun label => ?_
    have hSame := (hw.get? label).trans (hOther.get? label).symm
    exact Option.map_injective (fun _ _ => UInt32.toNat_inj.mp) hSame
  exact congrArg WordGraph.mk hCounts

theorem Represents.insert (hw : w.Represents g) (hg : g.counts.Ascending) {total : UInt32}
    (hTotal : total.toNat = g.count label + calls.toNat) :
    Represents ⟨w.counts.insert label total⟩ (g.add label calls.toNat) := by
  refine (((hw.ascending hg).insert label total).mapValues _).ext (hg.update label _) fun key => ?_
  rw [SortedMap.get?_mapValues]
  by_cases hKey : key = label
  · subst hKey
    have hMem : key ∈ (g.add key calls.toNat).labels :=
      (g.mem_labels_add key key _).mpr (.inl rfl)
    have hFound := (g.add key calls.toNat).get?_counts key
    rw [if_pos hMem, CallGraph.count_add hg, if_pos rfl, ← hTotal] at hFound
    rw [SortedMap.get?_insert_self]
    exact hFound.symm
  · rw [SortedMap.get?_insert_of_ne _ hKey, hw.get?]
    exact (SortedMap.get?_updateEntries_of_ne hKey _ _).symm

theorem exists_represents_iff (hg : g.counts.Ascending) :
    (∃ w : WordGraph, w.Represents g) ↔ ∀ label, g.count label < 0x100000000 := by
  refine ⟨fun ⟨w, hw⟩ => hw.count_lt, fun hSmall => ⟨⟨g.counts.mapValues UInt32.ofNat⟩, ?_⟩⟩
  refine ((hg.mapValues _).mapValues _).ext hg fun label => ?_
  rw [SortedMap.get?_mapValues, SortedMap.get?_mapValues, g.get?_counts]
  split
  · exact congrArg some (UInt32.toNat_ofNat_of_lt' (hSmall label))
  · rfl

/-- What has fewer calls fits as well. -/
theorem Represents.exists_of_le (hw : w.Represents g) (hh : h.counts.Ascending)
    (hLe : ∀ label, h.count label ≤ g.count label) : ∃ other : WordGraph, other.Represents h :=
  (exists_represents_iff hh).mpr fun label => Nat.lt_of_le_of_lt (hLe label) (hw.count_lt label)

/-- A counter takes more calls if and only if they have room in it. -/
theorem Represents.add_eq_some_iff (hw : w.Represents g) (hg : g.counts.Ascending) :
    w.add label calls = some other ↔ other.Represents (g.add label calls.toNat) := by
  have hOld : ((w.counts.get? label).getD 0).toNat = g.count label := hw.toNat_count label
  by_cases hRoom : ((w.counts.get? label).getD 0).toNat + calls.toNat < 0x100000000
  · have hAdded : Represents ⟨w.counts.insert label ((w.counts.get? label).getD 0 + calls)⟩
        (g.add label calls.toNat) := by
      refine hw.insert hg ?_
      rw [UInt32.toNat_add, Nat.mod_eq_of_lt hRoom, hOld]
    rw [add, if_pos hRoom, Option.some_inj]
    exact ⟨fun hSame => hSame ▸ hAdded, fun hOther => hAdded.unique hOther (hg.update label _)⟩
  · rw [add, if_neg hRoom]
    refine ⟨fun hAdd => ?_, fun hOther => ?_⟩
    · cases hAdd
    · have hLess := hOther.count_lt label
      rw [CallGraph.count_add hg, if_pos rfl] at hLess
      omega

theorem count_le_foldl_add (hg : g.counts.Ascending) (entries : List (Label × UInt32))
    (label : Label) : g.count label ≤
      (entries.foldl (fun g entry => g.add entry.1 entry.2.toNat) g).count label := by
  induction entries generalizing g with
  | nil => exact Nat.le_refl _
  | cons entry rest ih =>
    have hAdd := CallGraph.count_add hg entry.1 label entry.2.toNat
    have hRest := ih (g := g.add entry.1 entry.2.toNat) (hg.update entry.1 _)
    rw [List.foldl_cons]
    omega

theorem Represents.foldlM_eq_some_iff (hw : w.Represents g) (hg : g.counts.Ascending)
    (entries : List (Label × UInt32)) :
    entries.foldlM (fun w entry => w.add entry.1 entry.2) w = some other ↔
      other.Represents (entries.foldl (fun g entry => g.add entry.1 entry.2.toNat) g) := by
  induction entries generalizing w g with
  | nil =>
    rw [List.foldlM_nil, Option.pure_def, Option.some_inj]
    exact ⟨fun hSame => hSame ▸ hw, fun hOther => hw.unique hOther hg⟩
  | cons entry rest ih =>
    have hNext : (g.add entry.1 entry.2.toNat).counts.Ascending := hg.update entry.1 _
    rw [List.foldlM_cons, List.foldl_cons, Option.bind_eq_bind, Option.bind_eq_some_iff]
    constructor
    · rintro ⟨next, hAdd, hRest⟩
      exact (ih ((hw.add_eq_some_iff hg).mp hAdd) hNext).mp hRest
    · intro hOther
      -- no counter can be too small on the way to one that is not
      obtain ⟨next, hRepresents⟩ := hOther.exists_of_le hNext (count_le_foldl_add hNext rest)
      exact ⟨next, (hw.add_eq_some_iff hg).mpr hRepresents, (ih hRepresents hNext).mpr hOther⟩

theorem Represents.merge_eq_some_iff {v : WordGraph} (hw : w.Represents g)
    (hg : g.counts.Ascending) (hv : v.Represents h) :
    w.merge v = some other ↔ other.Represents (g.merge h) := by
  have hMerge : g.merge h =
      v.counts.entries.foldl (fun g entry => g.add entry.1 entry.2.toNat) g := by
    rw [CallGraph.merge, CallGraph.toList, ← hv, SortedMap.mapValues, List.foldl_map]
  rw [merge, hMerge]
  exact hw.foldlM_eq_some_iff hg _

end WordGraph

/-- Counters that have run over stay so. -/
@[simp]
theorem Counters.recordAll_none (labels : List Label) : recordAll none labels = none := by
  induction labels with
  | nil => rfl
  | cons label rest ih => exact ih

namespace Counters.Hold

variable {c d : Counters} {g h : CallGraph}

theorem unique (hc : c.Hold g) (hd : d.Hold g) : c = d :=
  Option.ext fun w => (hc w).trans (hd w).symm

theorem exists_iff (hc : c.Hold g) (hg : g.counts.Ascending) :
    (∃ w, c = some w) ↔ ∀ label, g.count label < 0x100000000 := by
  rw [← WordGraph.exists_represents_iff hg]
  exact exists_congr hc

/-- Counters that count fewer calls have not run over either. -/
theorem exists_le (hc : c.Hold g) (hg : g.counts.Ascending) (hd : d.Hold h)
    (hLe : ∀ label, g.count label ≤ h.count label) {w : WordGraph} (hw : d = some w) :
    ∃ v, c = some v ∧ ∀ label, v.count label ≤ w.count label := by
  have hw := (hd w).mp hw
  obtain ⟨v, hv⟩ := hw.exists_of_le hg hLe
  refine ⟨v, (hc v).mpr hv, fun label => ?_⟩
  rw [UInt32.le_iff_toNat_le, hv.toNat_count, hw.toNat_count]
  exact hLe label

/-- Counters for the calls of two others have room if those have, and if the sums fit. -/
theorem exists_iff_of_count_eq_add {e : Counters} {k : CallGraph} (hc : c.Hold g)
    (hg : g.counts.Ascending) (hd : d.Hold h) (hh : h.counts.Ascending) (he : e.Hold k)
    (hk : k.counts.Ascending) (hCount : ∀ label, k.count label = g.count label + h.count label) :
    (∃ w, e = some w) ↔ ∃ u v, c = some u ∧ d = some v ∧
      ∀ label, (u.count label).toNat + (v.count label).toNat < 0x100000000 := by
  constructor
  · rintro ⟨w, hw⟩
    obtain ⟨u, hu, _⟩ := hc.exists_le hg he (fun label => hCount label ▸ Nat.le_add_right _ _) hw
    obtain ⟨v, hv, _⟩ := hd.exists_le hh he (fun label => hCount label ▸ Nat.le_add_left _ _) hw
    refine ⟨u, v, hu, hv, fun label => ?_⟩
    rw [((hc u).mp hu).toNat_count, ((hd v).mp hv).toNat_count, ← hCount]
    exact ((he w).mp hw).count_lt label
  · rintro ⟨u, v, hu, hv, hRoom⟩
    refine (he.exists_iff hk).mpr fun label => ?_
    rw [hCount, ← ((hc u).mp hu).toNat_count, ← ((hd v).mp hv).toNat_count]
    exact hRoom label

theorem empty : Hold (some {}) CallGraph.empty := by
  have hEmpty : WordGraph.Represents {} CallGraph.empty := rfl
  intro w
  rw [Option.some_inj]
  exact ⟨fun hSame => hSame ▸ hEmpty, fun hw => hEmpty.unique hw .empty⟩

theorem record (hc : c.Hold g) (hg : g.counts.Ascending) (label : Label) :
    (c.record label).Hold (g.record label) := by
  intro w
  rw [Counters.record, Option.bind_eq_some_iff]
  constructor
  · rintro ⟨v, hv, hAdd⟩
    exact (((hc v).mp hv).add_eq_some_iff hg).mp hAdd
  · intro hw
    obtain ⟨v, hv⟩ := hw.exists_of_le hg fun other => by
      rw [CallGraph.record, CallGraph.count_add hg]
      exact Nat.le_add_right _ _
    exact ⟨v, (hc v).mpr hv, (hv.add_eq_some_iff hg).mpr hw⟩

theorem recordAll (hc : c.Hold g) (hg : g.counts.Ascending) (labels : List Label) :
    (c.recordAll labels).Hold (labels.foldl CallGraph.record g) := by
  induction labels generalizing c g with
  | nil => exact hc
  | cons label rest ih => exact ih (hc.record hg label) (hg.update label _)

theorem merge (hc : c.Hold g) (hg : g.counts.Ascending) (hd : d.Hold h)
    (hh : h.counts.Ascending) : (c.merge d).Hold (g.merge h) := by
  have hCount := CallGraph.count_merge_of_ascending hg hh
  intro w
  simp only [Counters.merge, Option.bind_eq_some_iff]
  constructor
  · rintro ⟨v, hv, u, hu, hMerge⟩
    exact (((hc v).mp hv).merge_eq_some_iff hg ((hd u).mp hu)).mp hMerge
  · intro hw
    obtain ⟨v, hv⟩ := hw.exists_of_le hg fun label => by
      rw [hCount]
      exact Nat.le_add_right _ _
    obtain ⟨u, hu⟩ := hw.exists_of_le hh fun label => by
      rw [hCount]
      exact Nat.le_add_left _ _
    exact ⟨v, (hc v).mpr hv, u, (hd u).mpr hu, (hv.merge_eq_some_iff hg hu).mpr hw⟩

end Counters.Hold

namespace Recording

theorem hold_words (r : Recording) : Counters.Hold r.words r.graph := by
  induction r with
  | empty => exact .empty
  | record r label ih => exact ih.record r.ascending_graph label
  | merge r s ihr ihs => exact ihr.merge r.ascending_graph ihs s.ascending_graph

/-- The laws of merging for all graphs that recording and merging can make. Sharing out calls makes
no difference, nor do counters of 32 bits, which fail if and only if a count is too large. -/
theorem graphs_count_calls :
    (∀ r s t : Recording, CallGraph.MergeLaws r.graph s.graph t.graph) ∧
    (∀ parts r labels, Groups parts r → parts.flatten.Perm labels →
      r.graph = labels.foldl CallGraph.record .empty) ∧
    (∀ (r : Recording) (w : WordGraph), r.words = some w ↔ w.Represents r.graph) ∧
    ∀ r : Recording,
      (∃ w, r.words = some w) ↔ ∀ label, r.calls.count label < 0x100000000 := by
  refine ⟨mergeLaws, fun parts r labels hGroups hPerm => ?_, hold_words, fun r => ?_⟩
  · rw [← graph_ofCalls, graph_eq_iff, hGroups.calls_eq, calls_ofCalls]
    exact hPerm
  · simp only [r.hold_words.exists_iff r.ascending_graph, count_graph]

/-- Four calls in three parts, of which the last two are merged first. -/
theorem graphs_count_calls_three_parts :
    ∃ (parts : List (List Label)) (r : Recording), parts = [[2]] ++ ([[7, 1]] ++ [[2]]) ∧
      Groups parts r ∧ parts.flatten.Perm [1, 2, 2, 7] ∧
      r.graph = [1, 2, 2, 7].foldl CallGraph.record .empty ∧
      r.graph.toList = [(1, 1), (2, 2), (7, 1)] ∧ ∃ w, r.words = some w := by
  have hGroups : Groups ([[2]] ++ ([[7, 1]] ++ [[2]]))
      (merge (ofCalls [2]) (merge (ofCalls [7, 1]) (ofCalls [2]))) :=
    .merge (.part _) (.merge (.part _) (.part _))
  obtain ⟨_, hShared, _, hWords⟩ := graphs_count_calls
  refine ⟨_, _, rfl, hGroups, by decide, hShared _ _ _ hGroups (by decide), by decide,
    (hWords _).mpr fun label => ?_⟩
  exact Nat.lt_of_le_of_lt List.count_le_length (by decide)

end Recording

end Hinting
