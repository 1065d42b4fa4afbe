import Hinting.Proofs.CountedCalls

/-!
# Glyph programs do not see each other

Every glyph program runs on the environment that the control value program has left. So
the analysis of two lists of glyph programs is put together from the analyses of each
list, and the order of the glyph programs does not matter.

An analysis is described by its runs in a way that is blind to their order. What it keeps
of one program is that of the last run of the program, but all runs of a glyph program
are the same.

The analysis of two lists needs room in its counters for the calls of both, with those of
the control value program counted once.
-/

namespace Hinting

open Hinting.Action

namespace Analysis

/-- What an analysis holds of its runs, whatever their order. -/
structure Collects (env : Environment) (runs : List Run) (a : Analysis) : Prop where
  graphics : a.graphics = env.graphics
  cvt : a.cvt = env.cvt
  total : ∀ weight, a.calls.total weight = (runs.map fun run => run.calls.total weight).sum
  peak : ∀ bound, a.peak ≤ bound ↔ ∀ run ∈ runs, run.peak ≤ bound

theorem Collects.add {env : Environment} {runs : List Run} {a b : Analysis}
    (h : a.Collects env runs) {r : Run} (hOk : a.add r = .ok b) : b.Collects env (runs ++ [r]) := by
  obtain ⟨called, _, rfl⟩ := add_eq_ok hOk
  refine ⟨h.graphics, h.cvt, fun weight => ?_, fun bound => ?_⟩
  · simp [h.total]
  · have hPeak := h.peak bound
    simp only [Nat.max_le, hPeak, List.forall_mem_append, List.forall_mem_singleton]

theorem Collects.foldlM {env : Environment} {runs done : List Run} {a b : Analysis}
    (h : a.Collects env done) (hOk : runs.foldlM Analysis.add a = .ok b) :
    b.Collects env (done ++ runs) := by
  induction runs generalizing a done with
  | nil =>
    cases hOk
    simpa using h
  | cons run rest ih =>
    obtain ⟨next, hAdd, hRest⟩ := foldlM_cons_eq_ok_iff.mp hOk
    simpa using ih (h.add hAdd) hRest

theorem exists_foldlM_add_iff (runs : List Run) (a : Analysis) :
    (∃ b, runs.foldlM Analysis.add a = .ok b) ↔
      ∀ run ∈ runs, ∃ called, run.result = .ok called := by
  induction runs generalizing a with
  | nil => exact iff_of_true ⟨a, rfl⟩ (by simp)
  | cons run rest ih =>
    rw [List.forall_mem_cons]
    constructor
    · rintro ⟨b, hOk⟩
      obtain ⟨next, hAdd, hRest⟩ := foldlM_cons_eq_ok_iff.mp hOk
      obtain ⟨called, hResult, _⟩ := add_eq_ok hAdd
      exact ⟨⟨called, hResult⟩, (ih next).mp ⟨b, hRest⟩⟩
    · rintro ⟨⟨called, hResult⟩, hRest⟩
      obtain ⟨b, hOk⟩ := (ih _).mpr hRest
      exact ⟨b, foldlM_cons_eq_ok_iff.mpr ⟨_, a.add_of_ok hResult, hOk⟩⟩

/-- How the analysis of two lists of glyph programs together follows from those of each
list, calls apart. -/
structure Joins (a b c : Analysis) : Prop where
  graphics : a.graphics = c.graphics ∧ b.graphics = c.graphics
  cvt : a.cvt = c.cvt ∧ b.cvt = c.cvt
  union : ∀ tag,
    c.programCalls.get? tag = (a.programCalls.get? tag).or (b.programCalls.get? tag)
  agree : ∀ tag called called', a.programCalls.get? tag = some called →
    b.programCalls.get? tag = some called' → called = called'
  peak : c.peak = max a.peak b.peak

end Analysis

namespace Font

variable {font : Font} {options : RunOptions}

theorem exists_analyze_iff (font : Font) (options : RunOptions) (glyphs : Option (List String)) :
    (∃ a, font.analyze glyphs options = .ok a) ↔
      ∀ run ∈ font.plannedRuns options glyphs, ∃ called, run.result = .ok called := by
  rw [analyze_eq_foldlM]
  exact Analysis.exists_foldlM_add_iff _ _

theorem collects_of_analyze {glyphs : Option (List String)} {a : Analysis}
    (h : font.analyze glyphs options = .ok a) :
    a.Collects (font.glyphEnvironment (font.controlValueRun? options))
      (font.plannedRuns options glyphs) := by
  rw [analyze_eq_foldlM] at h
  have hStart : Analysis.Collects (font.glyphEnvironment (font.controlValueRun? options)) []
      { graphics := (font.glyphEnvironment (font.controlValueRun? options)).graphics
        cvt := (font.glyphEnvironment (font.controlValueRun? options)).cvt } :=
    ⟨rfl, rfl, fun _ => rfl, fun bound => by simp⟩
  simpa using hStart.foldlM h

theorem mem_labels_iff_of_analyze {glyphs : Option (List String)} {a : Analysis}
    (h : font.analyze glyphs options = .ok a) (label : Label) :
    label ∈ a.calls.labels ↔ ∃ run ∈ font.plannedRuns options glyphs, label ∈ run.calls.labels := by
  have hLabels := (summarizes_of_analyze h).calls label
  rwa [analysisRuns_of_analyze h] at hLabels

theorem lastRun?_controlValueRun?_of_ne (font : Font) (options : RunOptions) {tag : String}
    (hTag : tag ≠ controlValueProgramTag) :
    lastRun? (font.controlValueRun? options).toList tag = none := by
  refine List.find?_eq_none.mpr fun run hRun => ?_
  rw [List.mem_reverse, Option.mem_toList] at hRun
  unfold controlValueRun? at hRun
  split at hRun
  · cases hRun
    rw [run_program]
    exact fun hEq => hTag (of_decide_eq_true hEq).symm
  · cases hRun

/-- What is kept of a glyph program is that of its run on the common environment. -/
theorem get?_programCalls_of_mem {glyphs : Option (List String)} {a : Analysis}
    (h : font.analyze glyphs options = .ok a) {tag : String}
    (hTag : tag ∈ font.selectedTags glyphs) :
    a.programCalls.get? tag = (font.run options tag
      (font.glyphEnvironment (font.controlValueRun? options))).result.toOption := by
  rw [(summarizes_of_analyze h).programCalls, lastRun?_of_mem_selectedTags h hTag, Option.bind_some]

/-- What is kept of any other program is that of the control value program. -/
theorem get?_programCalls_of_not_mem {glyphs : Option (List String)} {a : Analysis}
    (h : font.analyze glyphs options = .ok a) {tag : String}
    (hTag : tag ∉ font.selectedTags glyphs) :
    a.programCalls.get? tag =
      (lastRun? (font.controlValueRun? options).toList tag).bind (·.result.toOption) := by
  rw [(summarizes_of_analyze h).programCalls, analysisRuns_of_analyze h, lastRun?_append,
    lastRun?_map_run_of_not_mem hTag, Option.none_or]

section Lists

variable {front back : List String} {a b c e : Analysis}

theorem joins_programCalls (hFront : controlValueProgramTag ∉ front)
    (hBack : controlValueProgramTag ∉ back) (ha : font.analyze (some front) options = .ok a)
    (hb : font.analyze (some back) options = .ok b)
    (hc : font.analyze (some (front ++ back)) options = .ok c) (tag : String) :
    c.programCalls.get? tag = (a.programCalls.get? tag).or (b.programCalls.get? tag) ∧
      ∀ called called', a.programCalls.get? tag = some called →
        b.programCalls.get? tag = some called' → called = called' := by
  -- a program of either list is not the control value program, so where it is not selected
  -- nothing is kept of it
  have hAbsent {x : Analysis} {tags : List String} (hx : font.analyze (some tags) options = .ok x)
      (hTag : tag ∉ tags) (hOther : tag ≠ controlValueProgramTag) :
      x.programCalls.get? tag = none := by
    rw [get?_programCalls_of_not_mem hx hTag, lastRun?_controlValueRun?_of_ne font options hOther,
      Option.bind_none]
  by_cases hInFront : tag ∈ front
  · have hKept := get?_programCalls_of_mem hc (List.mem_append_left back hInFront)
    rw [← get?_programCalls_of_mem ha hInFront] at hKept
    by_cases hInBack : tag ∈ back
    · have hBoth := get?_programCalls_of_mem hb hInBack
      rw [← get?_programCalls_of_mem ha hInFront] at hBoth
      rw [hKept, hBoth, Option.or_self]
      exact ⟨rfl, fun _ _ h h' => Option.some.inj (h.symm.trans h')⟩
    · rw [hKept, hAbsent hb hInBack (fun hEq => hFront (hEq ▸ hInFront)), Option.or_none]
      exact ⟨rfl, fun _ _ _ h => nomatch h⟩
  · by_cases hInBack : tag ∈ back
    · have hKept := get?_programCalls_of_mem hc (List.mem_append_right front hInBack)
      rw [← get?_programCalls_of_mem hb hInBack] at hKept
      rw [hKept, hAbsent ha hInFront (fun hEq => hBack (hEq ▸ hInBack)), Option.none_or]
      exact ⟨rfl, fun _ _ h => nomatch h⟩
    · have hNeither : tag ∉ front ++ back := by simp [hInFront, hInBack]
      rw [get?_programCalls_of_not_mem ha hInFront, get?_programCalls_of_not_mem hb hInBack,
        get?_programCalls_of_not_mem hc hNeither, Option.or_self]
      exact ⟨rfl, fun _ _ h h' => Option.some.inj (h.symm.trans h')⟩

theorem joins_calls (ha : font.analyze (some front) options = .ok a)
    (hb : font.analyze (some back) options = .ok b)
    (hc : font.analyze (some (front ++ back)) options = .ok c)
    (he : font.analyze (some []) options = .ok e) :
    c.calls.merge e.calls = a.calls.merge b.calls := by
  refine CallGraph.ext_of_total (CallGraph.ascending_merge (ascending_calls_of_analyze hc) _)
    (CallGraph.ascending_merge (ascending_calls_of_analyze ha) _) (fun label => ?_) fun weight => ?_
  · simp only [CallGraph.mem_labels_merge, mem_labels_iff_of_analyze ha,
      mem_labels_iff_of_analyze hb, mem_labels_iff_of_analyze hc, mem_labels_iff_of_analyze he,
      plannedRuns, selectedTags, Option.getD_some, List.map_append, List.map_nil, List.append_nil,
      List.mem_append, or_and_right, exists_or]
    grind
  · simp only [CallGraph.total_merge, (collects_of_analyze ha).total,
      (collects_of_analyze hb).total, (collects_of_analyze hc).total,
      (collects_of_analyze he).total, plannedRuns, selectedTags, Option.getD_some,
      List.map_append, List.map_nil, List.append_nil, List.sum_append]
    omega

/-- The calls of the control value program are in every analysis. -/
theorem count_empty_le {tags : List String} (ha : font.analyze (some tags) options = .ok a)
    (he : font.analyze (some []) options = .ok e) (label : Label) :
    e.calls.count label ≤ a.calls.count label := by
  refine CallGraph.count_le_of_total (ascending_calls_of_analyze he)
    (ascending_calls_of_analyze ha) (fun weight => ?_) label
  simp only [(collects_of_analyze ha).total, (collects_of_analyze he).total, plannedRuns,
    selectedTags, Option.getD_some, List.map_append, List.map_nil, List.append_nil,
    List.sum_append]
  exact Nat.le_add_right _ _

theorem joins_count (ha : font.analyze (some front) options = .ok a)
    (hb : font.analyze (some back) options = .ok b)
    (hc : font.analyze (some (front ++ back)) options = .ok c)
    (he : font.analyze (some []) options = .ok e) (label : Label) :
    c.calls.count label + e.calls.count label = a.calls.count label + b.calls.count label := by
  have hCount {x y : Analysis} {tags others : List String}
      (hx : font.analyze (some tags) options = .ok x)
      (hy : font.analyze (some others) options = .ok y) :
      (x.calls.merge y.calls).count label = x.calls.count label + y.calls.count label :=
    CallGraph.count_merge_of_ascending (ascending_calls_of_analyze hx)
      (ascending_calls_of_analyze hy) label
  rw [← hCount hc he, joins_calls ha hb hc he, hCount ha hb]

theorem joins_peak (ha : font.analyze (some front) options = .ok a)
    (hb : font.analyze (some back) options = .ok b)
    (hc : font.analyze (some (front ++ back)) options = .ok c) :
    c.peak = max a.peak b.peak := by
  refine eq_of_forall_ge_iff fun bound => ?_
  simp only [Nat.max_le, (collects_of_analyze ha).peak, (collects_of_analyze hb).peak,
    (collects_of_analyze hc).peak, plannedRuns, selectedTags, Option.getD_some, List.map_append,
    List.forall_mem_append]
  tauto

theorem analyze_of_perm {tags others : List String} (hPerm : tags.Perm others)
    (h : font.analyze (some tags) options = .ok a) :
    font.analyze (some others) options = .ok a := by
  have hRuns : (font.plannedRuns options (some tags)).Perm
      (font.plannedRuns options (some others)) :=
    (hPerm.map _).append_left _
  obtain ⟨b, hb⟩ := (exists_analyze_iff font options (some others)).mpr fun run hRun =>
    succeeded_of_analyze h run (hRuns.mem_iff.mpr hRun)
  have hCollects := collects_of_analyze h
  have hCollects' := collects_of_analyze hb
  have hProgramCalls : b.programCalls = a.programCalls := by
    refine (summarizes_of_analyze hb).ascending.ext (summarizes_of_analyze h).ascending
      fun tag => ?_
    by_cases hTag : tag ∈ tags
    · rw [get?_programCalls_of_mem h hTag, get?_programCalls_of_mem hb (hPerm.mem_iff.mp hTag)]
    · rw [get?_programCalls_of_not_mem h hTag,
        get?_programCalls_of_not_mem hb fun hOther => hTag (hPerm.mem_iff.mpr hOther)]
  have hCalls : b.calls = a.calls := by
    refine CallGraph.ext_of_total (ascending_calls_of_analyze hb) (ascending_calls_of_analyze h)
      (fun label => ?_) fun weight => ?_
    · simp only [mem_labels_iff_of_analyze h, mem_labels_iff_of_analyze hb, hRuns.mem_iff]
    · rw [hCollects.total, hCollects'.total, (hRuns.map _).sum_nat]
  have hPeak : b.peak = a.peak := by
    refine eq_of_forall_ge_iff fun bound => ?_
    simp only [hCollects.peak, hCollects'.peak, hRuns.mem_iff]
  have hGraphics : b.graphics = a.graphics := hCollects'.graphics.trans hCollects.graphics.symm
  have hCvt : b.cvt = a.cvt := hCollects'.cvt.trans hCollects.cvt.symm
  obtain ⟨programCalls, calls, peak, graphics, cvt⟩ := b
  rw [hb, Except.ok.injEq, Analysis.mk.injEq]
  exact ⟨hProgramCalls, hCalls, hPeak, hGraphics, hCvt⟩

theorem joins (hFront : controlValueProgramTag ∉ front) (hBack : controlValueProgramTag ∉ back)
    (ha : font.analyze (some front) options = .ok a)
    (hb : font.analyze (some back) options = .ok b)
    (hc : font.analyze (some (front ++ back)) options = .ok c) : Analysis.Joins a b c := by
  have hJoined := joins_programCalls hFront hBack ha hb hc
  exact ⟨⟨(collects_of_analyze ha).graphics.trans (collects_of_analyze hc).graphics.symm,
      (collects_of_analyze hb).graphics.trans (collects_of_analyze hc).graphics.symm⟩,
    ⟨(collects_of_analyze ha).cvt.trans (collects_of_analyze hc).cvt.symm,
      (collects_of_analyze hb).cvt.trans (collects_of_analyze hc).cvt.symm⟩,
    fun tag => (hJoined tag).1, fun tag => (hJoined tag).2, joins_peak ha hb hc⟩

theorem exists_analyze_append_iff (font : Font) (options : RunOptions) (front back : List String) :
    (∃ c, font.analyze (some (front ++ back)) options = .ok c) ↔
      (∃ a, font.analyze (some front) options = .ok a) ∧
        ∃ b, font.analyze (some back) options = .ok b := by
  simp only [exists_analyze_iff, plannedRuns, selectedTags, Option.getD_some, List.map_append,
    List.forall_mem_append]
  tauto

theorem exists_analyze_empty (h : font.analyze (some front) options = .ok a) :
    ∃ e, font.analyze (some []) options = .ok e :=
  ((exists_analyze_append_iff font options [] front).mp ⟨a, h⟩).1

/-- The counters of two lists have room if and only if those of each list have, and the sums fit
when the calls of the control value program are counted once. -/
theorem exists_counters_append_iff (ha : font.analyze (some front) options = .ok a)
    (hb : font.analyze (some back) options = .ok b)
    (hc : font.analyze (some (front ++ back)) options = .ok c)
    (he : font.analyze (some []) options = .ok e) :
    (∃ z, font.counters (some (front ++ back)) options = some z) ↔
      ∃ x y v, font.counters (some front) options = some x ∧
        font.counters (some back) options = some y ∧ font.counters (some []) options = some v ∧
        ∀ label, (x.count label).toNat + (y.count label).toNat <
          0x100000000 + (v.count label).toNat := by
  have hSum := joins_count ha hb hc he
  have hFits {x y v : WordGraph} (hx : font.Analyzes (some front) options a x)
      (hy : font.Analyzes (some back) options b y) (hv : font.Analyzes (some []) options e v)
      (label : Label) : (x.count label).toNat + (y.count label).toNat <
        0x100000000 + (v.count label).toNat ↔ c.calls.count label < 0x100000000 := by
    rw [hx.represents.toNat_count, hy.represents.toNat_count, hv.represents.toNat_count, ← hSum,
      Nat.add_lt_add_iff_right]
  constructor
  · rintro ⟨z, hz⟩
    have hBelow {d : Analysis} {tags : List String} (hd : font.analyze (some tags) options = .ok d)
        (hLe : ∀ label, d.calls.count label ≤ c.calls.count label) :
        ∃ w, font.counters (some tags) options = some w := by
      obtain ⟨w, hw, _⟩ := (hold_counters hd).exists_le (ascending_calls_of_analyze hd)
        (hold_counters hc) hLe hz
      exact ⟨w, hw⟩
    obtain ⟨x, hx⟩ := hBelow ha fun label => by
      have hLe := count_empty_le hb he label
      have hSum := hSum label
      omega
    obtain ⟨y, hy⟩ := hBelow hb fun label => by
      have hLe := count_empty_le ha he label
      have hSum := hSum label
      omega
    obtain ⟨v, hv⟩ := hBelow he (count_empty_le hc he)
    exact ⟨x, y, v, hx, hy, hv, fun label => (hFits ⟨ha, hx⟩ ⟨hb, hy⟩ ⟨he, hv⟩ label).mpr
      (((hold_counters hc z).mp hz).count_lt label)⟩
  · rintro ⟨x, y, v, hx, hy, hv, hRoom⟩
    exact ((hold_counters hc).exists_iff (ascending_calls_of_analyze hc)).mpr fun label =>
      (hFits ⟨ha, hx⟩ ⟨hb, hy⟩ ⟨he, hv⟩ label).mp (hRoom label)

theorem merge_counters (ha : font.analyze (some front) options = .ok a)
    (hb : font.analyze (some back) options = .ok b)
    (hc : font.analyze (some (front ++ back)) options = .ok c)
    (he : font.analyze (some []) options = .ok e) :
    (font.counters (some (front ++ back)) options).merge (font.counters (some []) options) =
      (font.counters (some front) options).merge (font.counters (some back) options) := by
  have hHold {x y : Analysis} {tags others : List String}
      (hx : font.analyze (some tags) options = .ok x)
      (hy : font.analyze (some others) options = .ok y) :
      ((font.counters (some tags) options).merge (font.counters (some others) options)).Hold
        (x.calls.merge y.calls) :=
    (hold_counters hx).merge (ascending_calls_of_analyze hx) (hold_counters hy)
      (ascending_calls_of_analyze hy)
  have hWhole := hHold hc he
  rw [joins_calls ha hb hc he] at hWhole
  exact hWhole.unique (hHold ha hb)

theorem counters_of_perm {tags others : List String} (hPerm : tags.Perm others)
    (h : font.analyze (some tags) options = .ok a) :
    font.counters (some tags) options = font.counters (some others) options :=
  (hold_counters h).unique (hold_counters (analyze_of_perm hPerm h))

theorem analyzes_of_perm {tags others : List String} (hPerm : tags.Perm others) {w : WordGraph}
    (h : font.Analyzes (some tags) options a w) : font.Analyzes (some others) options a w :=
  ⟨analyze_of_perm hPerm h.ok, counters_of_perm hPerm h.ok ▸ h.counted⟩

end Lists

/-- The analysis of glyph programs is put together from those of their parts, and does not
depend on their order. -/
theorem analyze_append (font : Font) (options : RunOptions) {front back : List String}
    (hFront : controlValueProgramTag ∉ front) (hBack : controlValueProgramTag ∉ back) :
    ((∃ c z, font.Analyzes (some (front ++ back)) options c z) ↔
      ∃ a x b y e v, font.Analyzes (some front) options a x ∧
        font.Analyzes (some back) options b y ∧ font.Analyzes (some []) options e v ∧
        ∀ label, (x.count label).toNat + (y.count label).toNat <
          0x100000000 + (v.count label).toNat) ∧
    (∀ a b c, font.analyze (some front) options = .ok a →
      font.analyze (some back) options = .ok b →
      font.analyze (some (front ++ back)) options = .ok c → Analysis.Joins a b c) ∧
    (∀ a x b y c z, font.Analyzes (some front) options a x →
      font.Analyzes (some back) options b y → font.Analyzes (some (front ++ back)) options c z →
      x.Represents a.calls ∧ y.Represents b.calls ∧ z.Represents c.calls ∧
        ∃ e v, font.Analyzes (some []) options e v ∧ v.Represents e.calls ∧
          z.merge v = x.merge y) ∧
    ∀ tags, tags.Perm (front ++ back) → ∀ c z,
      font.Analyzes (some tags) options c z ↔
        font.Analyzes (some (front ++ back)) options c z := by
  refine ⟨⟨?_, ?_⟩, fun a b c => joins hFront hBack, ?_, fun tags hPerm c z => ?_⟩
  · rintro ⟨c, z, hc⟩
    obtain ⟨⟨a, ha⟩, b, hb⟩ := (exists_analyze_append_iff font options front back).mp ⟨c, hc.ok⟩
    obtain ⟨e, he⟩ := exists_analyze_empty ha
    obtain ⟨x, y, v, hx, hy, hv, hRoom⟩ :=
      (exists_counters_append_iff ha hb hc.ok he).mp ⟨z, hc.counted⟩
    exact ⟨a, x, b, y, e, v, ⟨ha, hx⟩, ⟨hb, hy⟩, ⟨he, hv⟩, hRoom⟩
  · rintro ⟨a, x, b, y, e, v, ha, hb, he, hRoom⟩
    obtain ⟨c, hc⟩ := (exists_analyze_append_iff font options front back).mpr ⟨⟨a, ha.ok⟩, b, hb.ok⟩
    obtain ⟨z, hz⟩ := (exists_counters_append_iff ha.ok hb.ok hc he.ok).mpr
      ⟨x, y, v, ha.counted, hb.counted, he.counted, hRoom⟩
    exact ⟨c, z, hc, hz⟩
  · intro a x b y c z ha hb hc
    obtain ⟨e, he⟩ := exists_analyze_empty ha.ok
    obtain ⟨_, _, v, _, _, hv, _⟩ :=
      (exists_counters_append_iff ha.ok hb.ok hc.ok he).mp ⟨z, hc.counted⟩
    have hEmpty : font.Analyzes (some []) options e v := ⟨he, hv⟩
    have hMerge := merge_counters ha.ok hb.ok hc.ok he
    rw [ha.counted, hb.counted, hc.counted, hv] at hMerge
    exact ⟨ha.represents, hb.represents, hc.represents, e, v, hEmpty, hEmpty.represents, hMerge⟩
  · exact ⟨analyzes_of_perm hPerm, analyzes_of_perm hPerm.symm⟩

/-- Both lists have the glyph program `B`, which calls the function that `A` has named in a
control value of its own copy. -/
theorem analyze_append_shared_glyph :
    ∃ (font : Font) (a b c : Analysis) (x y z : WordGraph), Font.load
        [("fpgm", "PUSHB[ ] 1 0 FDEF[ ] PUSHB[ ] 1 CALL[ ] ENDF[ ] FDEF[ ] ENDF[ ]"),
          ("prep", "PUSHB[ ] 0 CALL[ ]"), ("A", "PUSHB[ ] 0 1 WCVTP[ ] PUSHB[ ] 1 2 3 CLEAR[ ]"),
          ("B", "PUSHB[ ] 0 RCVT[ ] CALL[ ]")] [0] = .ok font ∧
      controlValueProgramTag ∉ ["A", "B"] ∧ controlValueProgramTag ∉ ["B"] ∧
      font.Analyzes (some ["A", "B"]) {} a x ∧ font.Analyzes (some ["B"]) {} b y ∧
      font.Analyzes (some ["A", "B", "B"]) {} c z ∧ z.counts.entries = [(0, 3), (1, 3)] ∧
      Analysis.Joins a b c ∧
      (∃ e v, font.Analyzes (some []) {} e v ∧ v.Represents e.calls ∧ z.merge v = x.merge y) ∧
      font.Analyzes (some ["B", "A", "B"]) {} c z := by
  have hEvaluated : ((Font.load
      [("fpgm", "PUSHB[ ] 1 0 FDEF[ ] PUSHB[ ] 1 CALL[ ] ENDF[ ] FDEF[ ] ENDF[ ]"),
        ("prep", "PUSHB[ ] 0 CALL[ ]"), ("A", "PUSHB[ ] 0 1 WCVTP[ ] PUSHB[ ] 1 2 3 CLEAR[ ]"),
        ("B", "PUSHB[ ] 0 RCVT[ ] CALL[ ]")] [0]).toOption.bind fun font =>
      (font.analyze (some ["A", "B", "B"]) {}).toOption.bind fun _ =>
        (font.counters (some ["A", "B", "B"]) {}).map (·.counts.entries)) =
          some [(0, 3), (1, 3)] := by
    decide +kernel
  obtain ⟨font, hFont, hRest⟩ := Option.bind_eq_some_iff.mp hEvaluated
  obtain ⟨c, hAnalysis, hRest⟩ := Option.bind_eq_some_iff.mp hRest
  obtain ⟨z, hCounters, hEntries⟩ := Option.map_eq_some_iff.mp hRest
  have hc : font.Analyzes (some ["A", "B", "B"]) {} c z := ⟨eq_ok_of_toOption hAnalysis, hCounters⟩
  have hFront : controlValueProgramTag ∉ ["A", "B"] := by decide
  have hBack : controlValueProgramTag ∉ ["B"] := by decide
  have hPerm : ["B", "A", "B"].Perm (["A", "B"] ++ ["B"]) := .swap "A" "B" ["B"]
  obtain ⟨hSucceeds, hJoins, hCounts, hOrder⟩ := font.analyze_append {} hFront hBack
  obtain ⟨a, x, b, y, _, _, ha, hb, _⟩ := hSucceeds.mp ⟨c, z, hc⟩
  obtain ⟨_, _, _, hMerged⟩ := hCounts a x b y c z ha hb hc
  exact ⟨font, a, b, c, x, y, z, eq_ok_of_toOption hFont, hFront, hBack, ha, hb, hc, hEntries,
    hJoins a b c ha.ok hb.ok hc.ok, hMerged, (hOrder _ hPerm c z).mpr hc⟩

end Font

end Hinting
