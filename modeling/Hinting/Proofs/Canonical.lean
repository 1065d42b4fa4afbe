import Hinting.Proofs.AnalysisRuns
import Hinting.Proofs.Coverage
import Mathlib.Data.List.Sort

/-!
# Equal maps and equal call graphs

Maps in ascending key order are equal when they give the same answers. Call graphs are
equal when they name the same functions and give every function the same calls.
-/

namespace Hinting

open Hinting.Action

namespace SortedMap

variable {α β γ : Type}

@[simp]
theorem keys_mapValues (m : SortedMap α β) (change : β → γ) :
    (m.mapValues change).keys = m.keys := by
  simp [SortedMap.mapValues, keys]

variable [Ord α]

theorem Ascending.mapValues {m : SortedMap α β} (h : m.Ascending) (change : β → γ) :
    (m.mapValues change).Ascending :=
  List.pairwise_map.mpr h

variable [Std.LawfulEqOrd α]

theorem Ascending.nodup_keys {m : SortedMap α β} (h : m.Ascending) : m.keys.Nodup := by
  refine List.pairwise_map.mpr (h.imp fun {a b} hLess hSame => ?_)
  rw [hSame, Std.compare_self] at hLess
  cases hLess

variable [Std.TransOrd α]

theorem Ascending.ext {m n : SortedMap α β} (hm : m.Ascending) (hn : n.Ascending)
    (h : ∀ key, m.get? key = n.get? key) : m = n := by
  have hIrrefl : Std.Irrefl fun a b : α × β => compare a.1 b.1 = .lt :=
    ⟨fun a hLess => by simp [Std.compare_self] at hLess⟩
  have hAntisymm : Std.Antisymm fun a b : α × β => compare a.1 b.1 = .lt :=
    ⟨fun a b hLess hGreater => by
      rw [← Std.OrientedCmp.gt_iff_lt, hLess] at hGreater
      cases hGreater⟩
  have hEntries : m.entries = n.entries := by
    refine List.Pairwise.eq_of_mem_iff hm hn fun entry => ?_
    rw [← hm.get?_eq_some_iff entry.1 entry.2, h, hn.get?_eq_some_iff]
  obtain ⟨entries⟩ := m
  exact congrArg SortedMap.mk hEntries

theorem Ascending.keys_eq {m : SortedMap α β} {n : SortedMap α γ} (hm : m.Ascending)
    (hn : n.Ascending) (h : ∀ key, (m.get? key).isSome = (n.get? key).isSome) :
    m.keys = n.keys := by
  have hUnits : m.mapValues (fun _ => ()) = n.mapValues fun _ => () := by
    refine (hm.mapValues _).ext (hn.mapValues _) fun key => ?_
    have hKey := h key
    rw [get?_mapValues, get?_mapValues]
    cases hFirst : m.get? key <;> cases hSecond : n.get? key <;> simp_all
  rw [← m.keys_mapValues, hUnits, keys_mapValues]

end SortedMap

namespace CallGraph

theorem ascending_merge {g : CallGraph} (h : g.counts.Ascending) (other : CallGraph) :
    (g.merge other).counts.Ascending := by
  obtain ⟨⟨entries⟩⟩ := other
  simp only [merge, toList]
  induction entries generalizing g with
  | nil => exact h
  | cons entry rest ih => exact ih (h.update entry.1 _)

theorem get?_counts (g : CallGraph) (label : Label) :
    g.counts.get? label = if label ∈ g.labels then some (g.count label) else none := by
  have hLabel := g.counts.contains_iff_mem_keys label
  rw [SortedMap.contains] at hLabel
  rw [labels, count]
  cases hCount : g.counts.get? label with
  | none => simp_all
  | some calls => simp_all

theorem ext_of_total {g h : CallGraph} (hg : g.counts.Ascending) (hh : h.counts.Ascending)
    (hLabels : ∀ label, label ∈ g.labels ↔ label ∈ h.labels)
    (hTotal : ∀ weight, g.total weight = h.total weight) : g = h := by
  have hCounts : g.counts = h.counts := by
    refine hg.ext hh fun label => ?_
    rw [get?_counts, get?_counts, ← total_indicator hg, ← total_indicator hh, hTotal]
    simp only [hLabels]
  obtain ⟨counts⟩ := g
  exact congrArg CallGraph.mk hCounts

theorem count_le_of_total {g h : CallGraph} (hg : g.counts.Ascending) (hh : h.counts.Ascending)
    (hTotal : ∀ weight, g.total weight ≤ h.total weight) (label : Label) :
    g.count label ≤ h.count label := by
  rw [← total_indicator hg, ← total_indicator hh]
  exact hTotal _

end CallGraph

theorem Font.ascending_calls_of_analyze {font : Font} {glyphs : Option (List String)}
    {options : RunOptions} {a : Analysis} (h : font.analyze glyphs options = .ok a) :
    a.calls.counts.Ascending := by
  have hFold (runs : List Run) {start : Analysis} (hStart : start.calls.counts.Ascending)
      (hOk : runs.foldlM Analysis.add start = .ok a) : a.calls.counts.Ascending := by
    induction runs generalizing start with
    | nil =>
      cases hOk
      exact hStart
    | cons run rest ih =>
      obtain ⟨next, hAdd, hRest⟩ := foldlM_cons_eq_ok_iff.mp hOk
      obtain ⟨called, _, rfl⟩ := Analysis.add_eq_ok hAdd
      exact ih (CallGraph.ascending_merge hStart run.calls) hRest
  exact hFold _ .empty h

end Hinting
