import Hinting.Proofs.Canonical
import Hinting.Proofs.Extraction
import Hinting.Proofs.IndexedTable
import Hinting.Proofs.Loading
import Hinting.Reduction

/-!
# Reductions one after the other

Reducing a font to some functions and then to others is reducing it to those in both sets. So a
second reduction to the same set changes nothing, and the order of reductions does not matter.

A font with an indexed function table is reduced by way of the labels that are not in use, which
are removed, and the index is made anew if there are any. Fonts of this kind that stand for the
same font are equal, so that what holds of reductions holds for them as well, with their indexes.
-/

namespace Hinting

open Hinting.Action

/-- The elements that are in both sets. -/
def SortedSet.inter {α : Type} [Ord α] (s t : SortedSet α) : SortedSet α :=
  ⟨s.entries.filter fun entry => t.contains entry.1⟩

theorem SortedSet.contains_inter {α : Type} [Ord α] [Std.LawfulEqOrd α] (s t : SortedSet α)
    (a : α) : (inter s t).contains a = (s.contains a && t.contains a) := by
  rw [Bool.eq_iff_iff, Bool.and_eq_true, SortedMap.contains_iff_mem_keys,
    SortedMap.contains_iff_mem_keys s]
  simp only [SortedMap.keys, inter, List.mem_map, List.mem_filter]
  constructor
  · rintro ⟨entry, ⟨hEntry, hOther⟩, rfl⟩
    exact ⟨⟨entry, hEntry, rfl⟩, hOther⟩
  · rintro ⟨⟨entry, hEntry, rfl⟩, hOther⟩
    exact ⟨entry, ⟨hEntry, hOther⟩, rfl⟩

theorem SortedSet.contains_ofList {α : Type} [Ord α] [Std.LawfulEqOrd α] (as : List α) (a : α) :
    (ofList as).contains a = true ↔ a ∈ as := by
  rw [ofList, contains_foldl_add]
  exact or_iff_left Bool.false_ne_true

namespace Font

/-- What a font keeps when it is reduced. -/
structure Keeps (used : LabelSet) (font reduced : Font) : Prop where
  functions : ∀ d, d ∈ reduced.functions.definitions ↔
    d ∈ font.functions.definitions ∧ used.contains d.label = true
  order : reduced.functions.definitions.Sublist font.functions.definitions
  get : ∀ label, reduced.functions.get? label =
    if used.contains label = true then font.functions.get? label else none
  programs : reduced.programs = font.programs
  cvt : reduced.cvt = font.cvt

theorem keeps_reduce (font : Font) (used : LabelSet) : Keeps used font (font.reduce used) where
  functions _ := List.mem_filter
  order := List.filter_sublist
  get := font.functions.get?_filter_by_label used.contains
  programs := rfl
  cvt := rfl

theorem reduce_reduce (font : Font) (u v : LabelSet) :
    (font.reduce u).reduce v = font.reduce (u.inter v) := by
  have hFunctions : (font.functions.filter fun d => u.contains d.label).filter
      (fun d => v.contains d.label) = font.functions.filter fun d => (u.inter v).contains d.label := by
    rw [FunctionTable.filter, FunctionTable.filter, FunctionTable.filter, List.filter_filter]
    congr 1
    apply List.filter_congr
    intro d _
    rw [SortedSet.contains_inter, Bool.and_comm]
  rw [reduce, reduce, hFunctions]
  rfl

theorem reduce_congr (font : Font) {u v : LabelSet}
    (h : ∀ label, u.contains label = v.contains label) : font.reduce u = font.reduce v := by
  simp only [reduce, h]

theorem reduce_idem (font : Font) (u : LabelSet) : (font.reduce u).reduce u = font.reduce u := by
  rw [reduce_reduce]
  exact font.reduce_congr fun label => by rw [SortedSet.contains_inter, Bool.and_self]

theorem reduce_comm (font : Font) (u v : LabelSet) :
    (font.reduce u).reduce v = (font.reduce v).reduce u := by
  rw [reduce_reduce, reduce_reduce]
  exact font.reduce_congr fun label => by
    rw [SortedSet.contains_inter, SortedSet.contains_inter, Bool.and_comm]

end Font

/-- What a table has decides its index. -/
theorem IndexedTable.InStep.unique {x y : IndexedTable} {t : FunctionTable} (hx : x.InStep t)
    (hy : y.InStep t) : x = y := by
  have hFunctions : x.functions = y.functions := hx.functions.trans hy.functions.symm
  have hIndex : x.index = y.index :=
    hx.ascending.ext hy.ascending fun label => (hx.index label).trans (hy.index label).symm
  obtain ⟨functions, index⟩ := x
  obtain ⟨functions', index'⟩ := y
  rw [mk.injEq]
  exact ⟨hFunctions, hIndex⟩

/-- A font whose function table has an index. -/
structure IndexedFont where
  programs : SortedMap String Program := {}
  functions : IndexedTable := {}
  cvt : List Int32 := []

namespace IndexedFont

def tables (x : IndexedFont) : Tables :=
  ⟨FunctionTable.assembly ⟨x.functions.functions⟩, x.cvt⟩

def unused (x : IndexedFont) (used : LabelSet) : LabelSet :=
  SortedSet.ofList
    ((x.functions.functions.map Definition.label).filter fun label => !used.contains label)

def removeFunctions (x : IndexedFont) (labels : LabelSet) : IndexedFont :=
  { x with functions := (x.functions.retain fun d => !labels.contains d.label).2 }

def reduce (x : IndexedFont) (used : LabelSet) : IndexedFont :=
  x.removeFunctions (x.unused used)

def reducedTables (x : IndexedFont) (used : LabelSet) : Tables :=
  (x.reduce used).tables

/-- The programs and control values are those of a font, and the function tables come from the
same operations. -/
structure Represents (x : IndexedFont) (font : Font) : Prop where
  programs : x.programs = font.programs
  cvt : x.cvt = font.cvt
  functions : ∃ history, IndexedTable.after history = some x.functions ∧
    FunctionTable.after history = font.functions

section

variable {x y : IndexedFont} {font : Font}

theorem Represents.inStep (h : x.Represents font) : x.functions.InStep font.functions := by
  obtain ⟨history, hIndexed, hTable⟩ := h.functions
  obtain ⟨functions, hAfter, hInStep⟩ := IndexedTable.inStep_empty.foldlM_perform history
  rw [IndexedTable.after, hAfter] at hIndexed
  cases hIndexed
  rw [← hTable]
  exact hInStep

theorem Represents.unique (h : x.Represents font) (h' : y.Represents font) : x = y := by
  have hFunctions := h.inStep.unique h'.inStep
  obtain ⟨programs, functions, cvt⟩ := x
  obtain ⟨programs', functions', cvt'⟩ := y
  rw [mk.injEq]
  exact ⟨h.programs.trans h'.programs.symm, hFunctions, h.cvt.trans h'.cvt.symm⟩

theorem Represents.tables (h : x.Represents font) : x.tables = font.tables := by
  rw [IndexedFont.tables, h.inStep.functions, h.cvt]
  rfl

/-- Of the labels that a font has, those to be removed are the ones not in use. -/
theorem Represents.contains_unused (h : x.Represents font) (used : LabelSet) {d : Definition}
    (hd : d ∈ font.functions.definitions) :
    (!(x.unused used).contains d.label) = used.contains d.label := by
  have hLabel : d.label ∈ font.functions.definitions.map Definition.label := List.mem_map_of_mem hd
  have hUnused := SortedSet.contains_ofList ((x.functions.functions.map Definition.label).filter
    fun label => !used.contains label) d.label
  rw [List.mem_filter, h.inStep.functions, and_iff_right hLabel] at hUnused
  rw [unused, h.inStep.functions, Bool.eq_iff_iff.mpr hUnused, Bool.not_not]

theorem Represents.removeFunctions (h : x.Represents font) (labels : LabelSet) :
    (x.removeFunctions labels).Represents (font.removeFunctions labels) := by
  obtain ⟨history, hIndexed, hTable⟩ := h.functions
  refine ⟨h.programs, h.cvt, history ++ [.retain fun d => !labels.contains d.label], ?_, ?_⟩
  · exact IndexedTable.after_concat hIndexed _
  · rw [FunctionTable.after_concat, hTable]
    rfl

theorem Represents.reduce (h : x.Represents font) (used : LabelSet) :
    (x.reduce used).Represents (font.reduce used) := by
  -- removing what is not in use is keeping what is
  have hSame : font.removeFunctions (x.unused used) = font.reduce used := by
    rw [Font.removeFunctions, Font.reduce, FunctionTable.filter, FunctionTable.filter,
      List.filter_congr fun d hd => h.contains_unused used hd]
  rw [← hSame]
  exact h.removeFunctions (x.unused used)

end

theorem exists_represents_of_load {programs : List (String × String)} {cvt : List Int32}
    {font : Font} (h : Font.load programs cvt = .ok font) : ∃ x, Represents x font := by
  -- the last font program makes the whole table
  have hMade : ∃ history, FunctionTable.after history = font.functions := by
    rcases (Font.addPrograms_extends h).functions with hNone | ⟨_, statements, _, _, hTable⟩
    · exact ⟨[], hNone.symm⟩
    · obtain ⟨definitions, _, hInserted⟩ := FunctionTable.exists_definitions_of_ofFontProgram hTable
      refine ⟨definitions.map .insert, ?_⟩
      rw [hInserted, FunctionTable.after, List.foldl_map]
      rfl
  obtain ⟨history, hTable⟩ := hMade
  obtain ⟨functions, hIndexed, _⟩ := IndexedTable.inStep_empty.foldlM_perform history
  exact ⟨⟨font.programs, functions, font.cvt⟩, rfl, rfl, history, hIndexed, hTable⟩

/-- Reducing a font to one set and then to another is reducing it to the labels in both, and so it
is for the font with an index, which exists for every font that is loaded. -/
theorem reduce_reduce_eq_reduce_inter {programs : List (String × String)} {cvt : List Int32}
    {font : Font} (hLoad : Font.load programs cvt = .ok font) (u v : LabelSet) :
    (font.reduce u).reduce v = font.reduce (u.inter v) ∧
    (font.reduce u).reducedTables v = font.reducedTables (u.inter v) ∧
    (font.reduce u).reduce u = font.reduce u ∧
    (font.reduce u).reducedTables u = font.reducedTables u ∧
    (font.reduce u).reduce v = (font.reduce v).reduce u ∧
    (font.reduce u).reducedTables v = (font.reduce v).reducedTables u ∧
    font.Keeps u (font.reduce u) ∧
    (∃ x, Represents x font) ∧
    ∀ x, Represents x font →
      (x.reduce u).Represents (font.reduce u) ∧ x.reducedTables u = font.reducedTables u ∧
      (x.reduce u).reduce v = x.reduce (u.inter v) ∧
      (x.reduce u).reduce u = x.reduce u ∧
      (x.reduce u).reduce v = (x.reduce v).reduce u := by
  have hInter := font.reduce_reduce u v
  have hIdem := font.reduce_idem u
  have hComm := font.reduce_comm u v
  refine ⟨hInter, congrArg Font.tables hInter, hIdem, congrArg Font.tables hIdem, hComm,
    congrArg Font.tables hComm, font.keeps_reduce u, exists_represents_of_load hLoad, ?_⟩
  intro x hx
  refine ⟨hx.reduce u, (hx.reduce u).tables, ?_, ?_, ?_⟩
  · apply ((hx.reduce u).reduce v).unique
    rw [hInter]
    exact hx.reduce (u.inter v)
  · apply ((hx.reduce u).reduce u).unique
    rw [hIdem]
    exact hx.reduce u
  · apply ((hx.reduce u).reduce v).unique
    rw [hComm]
    exact (hx.reduce v).reduce u

/-- Both sets have labels that no function has, and the second set does not bring back the function
that the first one leaves out. -/
theorem reduce_reduce_eq_reduce_inter_foreign_labels :
    ∃ font x, Font.load
        [("fpgm", "PUSHB[ ] 3 2 1 FDEF[ ] PUSHB[ ] 7 ENDF[ ] FDEF[ ] ENDF[ ] FDEF[ ] RTG[ ] ENDF[ ]"),
          ("prep", "PUSHB[ ] 1 CALL[ ]")] [5] = .ok font ∧
      font.functions.labels = [1, 2, 3] ∧
      ((font.reduce (.ofList [3, 1, 9])).reduce (.ofList [8, 3, 2])).functions.labels = [3] ∧
      (font.reduce (.ofList [3, 1, 9])).reduce (.ofList [8, 3, 2]) =
        font.reduce (.inter (.ofList [3, 1, 9]) (.ofList [8, 3, 2])) ∧
      Represents x font ∧
      (x.reduce (.ofList [3, 1, 9])).reduce (.ofList [8, 3, 2]) =
        x.reduce (.inter (.ofList [3, 1, 9]) (.ofList [8, 3, 2])) := by
  have hEvaluated : ((Font.load
      [("fpgm", "PUSHB[ ] 3 2 1 FDEF[ ] PUSHB[ ] 7 ENDF[ ] FDEF[ ] ENDF[ ] FDEF[ ] RTG[ ] ENDF[ ]"),
        ("prep", "PUSHB[ ] 1 CALL[ ]")] [5]).toOption.map fun font =>
        (font.functions.labels,
          ((font.reduce (.ofList [3, 1, 9])).reduce (.ofList [8, 3, 2])).functions.labels)) =
      some ([1, 2, 3], [3]) := by
    decide +kernel
  obtain ⟨font, hFont, hSame⟩ := Option.map_eq_some_iff.mp hEvaluated
  obtain ⟨hLabels, hReduced⟩ := Prod.mk.inj hSame
  have hLoad := eq_ok_of_toOption hFont
  obtain ⟨hInter, _, _, _, _, _, _, ⟨x, hx⟩, hAll⟩ :=
    reduce_reduce_eq_reduce_inter hLoad (.ofList [3, 1, 9]) (.ofList [8, 3, 2])
  obtain ⟨_, _, hIndexed, _⟩ := hAll x hx
  exact ⟨font, x, hLoad, hLabels, hReduced, hInter, hx, hIndexed⟩

end IndexedFont

end Hinting
