import Hinting.Proofs.AnalysisSimulation
import Hinting.Proofs.Loading
import Hinting.Proofs.Rebuilding
import Hinting.Proofs.Regions
import Hinting.Reduction

/-!
# Reduction is safe

A font that keeps the functions an analysis found called has the same analysis, and so has
the font that is loaded again from the tables of the reduction. Both serve as the font that
was analyzed: the first has the functions in use themselves, the second has them reread.

The control value program must not be selected as a glyph program, since an analysis then
keeps the calls of its second run only; and function bodies must not have operands behind
instructions other than pushes, since these become flags in the text of a table.
-/

namespace Hinting

open Hinting.Action

namespace FunctionTable

theorem get?_filter_label {t : FunctionTable} {keep : Label → Bool} {label : Label}
    (h : keep label = true) : (t.filter fun d => keep d.label).get? label = t.get? label := by
  rw [get?_filter_by_label, if_pos h]

theorem get?_of_rereadOf {t u : FunctionTable}
    (h : List.Forall₂ Definition.RereadOf t.definitions u.definitions) {label : Label}
    {d : Definition} (hLookup : u.get? label = some d) :
    ∃ e, t.get? label = some e ∧ e.RereadOf d := by
  rw [get?_eq_find?] at hLookup
  simp only [get?_eq_find?]
  generalize t.definitions = rebuilt, u.definitions = definitions at h hLookup
  induction h with
  | nil => cases hLookup
  | @cons e d rebuilt definitions hFirst _ ih =>
    rw [List.find?_cons] at hLookup ⊢
    rw [hFirst.label]
    split at hLookup
    · cases hLookup
      exact ⟨e, rfl, hFirst⟩
    · exact ih hLookup

end FunctionTable

namespace Font

theorem setCalled_keeps (font : Font) (tag : String) (called : LabelSet) :
    (font.setCalled tag called).functions = font.functions ∧
      (font.setCalled tag called).cvt = font.cvt := by
  unfold setCalled
  split
  · exact ⟨rfl, rfl⟩
  · exact ⟨rfl, rfl⟩

theorem setCalled_keys {font : Font} (h : font.programs.Ascending) (tag : String)
    (called : LabelSet) : (font.setCalled tag called).programs.Ascending ∧
      (font.setCalled tag called).programs.keys = font.programs.keys := by
  unfold setCalled
  split
  · rename_i program hProgram
    have hKey : tag ∈ font.programs.keys := by
      rw [← SortedMap.contains_iff_mem_keys, SortedMap.contains, hProgram]
      rfl
    exact ⟨h.insert _ _, h.keys_update hKey _⟩
  · exact ⟨h, rfl⟩

theorem withCalls_keeps (font : Font) (a : Analysis) :
    (font.withCalls a).functions = font.functions ∧ (font.withCalls a).cvt = font.cvt := by
  unfold withCalls
  generalize a.programCalls.entries = entries
  induction entries generalizing font with
  | nil => exact ⟨rfl, rfl⟩
  | cons entry rest ih =>
    obtain ⟨hFunctions, hCvt⟩ := setCalled_keeps font entry.1 entry.2
    rw [List.foldl_cons, (ih _).1, (ih _).2]
    exact ⟨hFunctions, hCvt⟩

theorem withCalls_keys {font : Font} (h : font.programs.Ascending) (a : Analysis) :
    (font.withCalls a).programs.keys = font.programs.keys := by
  unfold withCalls
  generalize a.programCalls.entries = entries
  induction entries generalizing font with
  | nil => rfl
  | cons entry rest ih =>
    obtain ⟨hAscending, hKeys⟩ := setCalled_keys h entry.1 entry.2
    rw [List.foldl_cons, ih hAscending, hKeys]

/-- A reduced font serves as the font it was made from. -/
theorem serves_reduce {font : Font} (h : font.programs.Ascending) {a : Analysis}
    (hCalls : a.programCalls.Ascending) (used : LabelSet) :
    Serves used ((font.withCalls a).reduce used) font where
  keys := withCalls_keys h a
  bodies tag := by
    rw [reduce, get?_withCalls font hCalls, Option.map_map]
    rfl
  cvt := (withCalls_keeps font a).2
  functions label d hUsed hLookup := by
    refine ⟨d, ?_, .refl d.body.block⟩
    rw [reduce, (withCalls_keeps font a).1, FunctionTable.get?_filter_label hUsed]
    exact hLookup

/-- A font whose functions in use were reread serves as the font before. -/
theorem serves_of_rereadOf {font : Font} {used : LabelSet} {functions : FunctionTable}
    (h : List.Forall₂ Definition.RereadOf functions.definitions
      (font.functions.filter fun d => used.contains d.label).definitions)
    (hFlags : ∀ d ∈ font.functions.definitions, ∀ s ∈ d.body.statements,
      s.kind = .push ∨ s.FlagsOnly) :
    Serves used { font with functions } font where
  keys := rfl
  bodies _ := rfl
  cvt := rfl
  functions label d hUsed hLookup := by
    rw [← FunctionTable.get?_filter_label hUsed] at hLookup
    obtain ⟨e, hRebuilt, hReread⟩ := FunctionTable.get?_of_rereadOf h hLookup
    refine ⟨e, hRebuilt, hReread.block.of_mem ?_⟩
    rintro _ s hs ⟨index, rfl⟩
    rw [FunctionTable.get?_eq_find?] at hLookup
    exact Statement.alike_reread
      (hFlags d (List.mem_of_mem_filter (List.mem_of_find?_eq_some hLookup)) s hs) index

theorem exists_readFrom_of_load {programs : List (String × String)} {cvt : List Int32}
    {font : Font} (h : load programs cvt = .ok font)
    (hData : ∀ text, (fontProgramTag, text) ∈ programs →
      Token.dataFollowsPushes false true (Token.words text) = true) :
    ∃ statements, font.functions.ReadFrom statements ∧ (∀ s ∈ statements, s.WellFormed) ∧
      Statement.InRegions (fun s => s.kind = .push ∨ s.FlagsOnly) false statements := by
  rcases (addPrograms_extends h).functions with hNone | ⟨text, statements, hMem, hRead, hTable⟩
  · rw [hNone]
    exact ⟨[], ⟨List.nodup_nil, List.forall_mem_nil _⟩, List.forall_mem_nil _, trivial⟩
  · exact ⟨statements, FunctionTable.readFrom_of_ofFontProgram hTable,
      wellFormed_of_readProgram hRead, inRegions_of_readProgram (hData text hMem) hRead⟩

/-- The analysis of a font is also that of the font reduced to functions that include those
found called, and that of the font loaded from the tables of the reduction. -/
theorem analyze_reduced {programs front back : List (String × String)} {cvt : List Int32}
    {font : Font} {glyphs : Option (List String)} {options : RunOptions} {a : Analysis}
    {used : LabelSet}
    (hData : ∀ text, (fontProgramTag, text) ∈ programs →
      Token.dataFollowsPushes false true (Token.words text) = true)
    (hGlyphs : ∀ tags, glyphs = some tags → controlValueProgramTag ∉ tags)
    (hLoad : load programs cvt = .ok font) (hAnalysis : font.analyze glyphs options = .ok a)
    (hUsed : ∀ label, a.calledFunctions.contains label = true → used.contains label = true)
    (hSplit : programs.filter (·.1 ≠ fontProgramTag) = front ++ back) :
    ((font.withCalls a).reduce used).analyze glyphs options = .ok a ∧
      ∃ rebuilt, load (front ++ (fontProgramTag, String.intercalate "\n"
          ((font.withCalls a).reducedTables used).fontProgram) :: back)
          ((font.withCalls a).reducedTables used).cvt = .ok rebuilt ∧
        rebuilt.analyze glyphs options = .ok a := by
  obtain ⟨hCvt, hAscending, _⟩ := addPrograms_extends hLoad
  have hSummary := summarizes_of_analyze hAnalysis
  have hNotSelected : controlValueProgramTag ∉ font.selectedTags glyphs := by
    cases glyphs with
    | none => simp [selectedTags, glyphTags]
    | some tags => exact hGlyphs tags rfl
  have hCalled : ∀ run ∈ font.analysisRuns options (font.controlValueRun? options) glyphs,
      ∀ label ∈ run.calls.labels, used.contains label = true := by
    intro run hRun label hLabel
    have hRerun : font.RerunCallsAll glyphs options := fun hTag => absurd hTag hNotSelected
    refine hUsed label ((Analysis.contains_calledFunctions_iff hSummary.ascending label).mpr ?_)
    exact ⟨run.program, contains_calledFunctions_of_mem hAnalysis hRerun hRun hLabel⟩
  refine ⟨(serves_reduce (hAscending .empty) hSummary.ascending used).analyze hAnalysis hCalled, ?_⟩
  obtain ⟨statements, hFrom, hWellFormed, hRegions⟩ := exists_readFrom_of_load hLoad hData
  obtain ⟨reread, functions, hRead, hTable, hReread⟩ :=
    FunctionTable.exists_rebuilt (hFrom.filter fun d => used.contains d.label) hWellFormed
  have hTables : (font.withCalls a).reducedTables used =
      ⟨(font.functions.filter fun d => used.contains d.label).assembly, cvt⟩ := by
    rw [reducedTables, tables, reduce, (withCalls_keeps font a).1, (withCalls_keeps font a).2, hCvt]
  rw [hTables]
  refine ⟨_, load_of_fontProgram hLoad hSplit hRead hTable, ?_⟩
  have hServes := serves_of_rereadOf hReread fun d hd =>
    (hFrom.definitions d hd).of_inRegions hRegions
  exact hServes.analyze hAnalysis hCalled

/-- One function is called only through another one, one is never called, and the bodies have
flags, both arms of a branch and pushes of several forms. -/
theorem analyze_reduced_nested_call :
    ∃ font a, load
        [("prep", "PUSHB[ ] 2 CALL[ ]"),
          ("fpgm", "NPUSHB[ ] 3 2 1 0 FDEF[ ] PUSHB[ ] 1 CALL[ ] ENDF[ ] FDEF[ ] SVTCA[1] " ++
            "PUSHW[ ] -7 +08 POP[ ] ENDF[ ] FDEF[ ] PUSH[ ] 6 5 IF[ ] SVTCA[0] ELSE[ ] " ++
            "MDRP[10100] EIF[ ] ENDF[ ] FDEF[ ] CALL[ ] ENDF[ ]"),
          ("A", "PUSHB[ ] 0 0 CALL[ ]")] [3, -4] = .ok font ∧
      font.analyze none { branchPolicy := .bothArms } = .ok a ∧
      font.functions.labels = [0, 1, 2, 3] ∧
      ((font.withCalls a).reduce a.calledFunctions).functions.labels = [0, 1, 2] ∧
      ((font.withCalls a).reduce a.calledFunctions).analyze none { branchPolicy := .bothArms } =
        .ok a ∧
      ∃ rebuilt, load ([("prep", "PUSHB[ ] 2 CALL[ ]")] ++ (fontProgramTag, String.intercalate "\n"
          ((font.withCalls a).reducedTables a.calledFunctions).fontProgram) ::
          [("A", "PUSHB[ ] 0 0 CALL[ ]")])
          ((font.withCalls a).reducedTables a.calledFunctions).cvt = .ok rebuilt ∧
        rebuilt.analyze none { branchPolicy := .bothArms } = .ok a := by
  have hEvaluated : ((load
      [("prep", "PUSHB[ ] 2 CALL[ ]"),
        ("fpgm", "NPUSHB[ ] 3 2 1 0 FDEF[ ] PUSHB[ ] 1 CALL[ ] ENDF[ ] FDEF[ ] SVTCA[1] " ++
          "PUSHW[ ] -7 +08 POP[ ] ENDF[ ] FDEF[ ] PUSH[ ] 6 5 IF[ ] SVTCA[0] ELSE[ ] " ++
          "MDRP[10100] EIF[ ] ENDF[ ] FDEF[ ] CALL[ ] ENDF[ ]"),
        ("A", "PUSHB[ ] 0 0 CALL[ ]")] [3, -4]).toOption.bind fun font =>
      (font.analyze none { branchPolicy := .bothArms }).toOption.map fun a =>
        (font.functions.labels,
          ((font.withCalls a).reduce a.calledFunctions).functions.labels)) =
        some ([0, 1, 2, 3], [0, 1, 2]) := by
    decide +kernel
  obtain ⟨font, hFont, hRest⟩ := Option.bind_eq_some_iff.mp hEvaluated
  obtain ⟨a, hAnalysis, hLabels⟩ := Option.map_eq_some_iff.mp hRest
  obtain ⟨hAll, hKept⟩ := Prod.mk.inj hLabels
  have hLoad := eq_ok_of_toOption hFont
  have hOk := eq_ok_of_toOption hAnalysis
  refine ⟨font, a, hLoad, hOk, hAll, hKept,
    analyze_reduced ?_ (by simp) hLoad hOk (fun _ h => h) ?_⟩
  · intro text hText
    simp only [List.mem_cons, Prod.mk.injEq, List.not_mem_nil, or_false] at hText
    rcases hText with ⟨hTag, _⟩ | ⟨_, rfl⟩ | ⟨hTag, _⟩
    · exact absurd hTag (by decide)
    · decide +kernel
    · exact absurd hTag (by decide)
  · decide +kernel

end Font

end Hinting
