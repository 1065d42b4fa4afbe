import Hinting.Proofs.AnalysisRuns
import Hinting.Proofs.FontProgram

/-!
# Loading fonts

A font program sets the function table and leaves the other programs alone; any other
program does the opposite. So the programs of a font do not depend on where its font
program stands, nor on whether there is one. All its bodies were linked.
-/

namespace Hinting

open Hinting.Action

/-- The body was linked from its statements. -/
def Body.Linked (b : Body) : Prop :=
  ofStatements b.tag b.statements = .ok b

theorem Body.linked_of_ofStatements {tag : String} {statements : List Statement} {b : Body}
    (h : ofStatements tag statements = .ok b) : b.Linked := by
  rw [Linked, statements_of_ofStatements h, ((ofStatements_eq_ok_iff tag statements b).mp h).1]
  exact h

theorem Body.Linked.regular {b : Body} (h : b.Linked) : b.block.Regular :=
  Block.regular_of_ofStatements ((ofStatements_eq_ok_iff _ _ b).mp h).2

def FunctionTable.Linked (t : FunctionTable) : Prop :=
  ∀ d ∈ t.definitions, d.body.Linked

theorem FunctionTable.linked_of_readFrom {t : FunctionTable} {statements : List Statement}
    (h : t.ReadFrom statements) : t.Linked :=
  fun d hd => Body.linked_of_ofStatements (h.definitions d hd).body

structure Font.Linked (font : Font) : Prop where
  programs : ∀ tag program, font.programs.get? tag = some program → program.body.Linked
  functions : font.functions.Linked

namespace Font

theorem addProgram_fontProgram_iff (font extended : Font) (text : String) :
    font.addProgram fontProgramTag text = .ok extended ↔ ∃ statements functions,
      readProgram fontProgramTag text = .ok statements ∧
      FunctionTable.ofFontProgram statements = .ok functions ∧
      extended = { font with functions } := by
  simp only [addProgram, if_true, except_bind_eq_ok_iff, except_mapError_eq_ok_iff]
  constructor
  · rintro ⟨statements, hRead, functions, hTable, hExtended⟩
    cases hExtended
    exact ⟨statements, functions, hRead, hTable, rfl⟩
  · rintro ⟨statements, functions, hRead, hTable, rfl⟩
    exact ⟨statements, hRead, functions, hTable, rfl⟩

theorem addProgram_iff_of_ne {tag : String} (hTag : tag ≠ fontProgramTag) (font extended : Font)
    (text : String) :
    font.addProgram tag text = .ok extended ↔ ∃ statements body,
      readProgram tag text = .ok statements ∧ Body.ofStatements tag statements = .ok body ∧
      extended = { font with programs := font.programs.insert tag { body } } := by
  simp only [addProgram, if_neg hTag, except_bind_eq_ok_iff, except_mapError_eq_ok_iff]
  constructor
  · rintro ⟨statements, hRead, body, hBody, hExtended⟩
    cases hExtended
    exact ⟨statements, body, hRead, hBody, rfl⟩
  · rintro ⟨statements, body, hRead, hBody, rfl⟩
    exact ⟨statements, hRead, body, hBody, rfl⟩

/-- Reading programs into a font, one after the other. -/
abbrev addPrograms (font : Font) (programs : List (String × String)) : Except FontError Font :=
  programs.foldlM (fun font (tag, text) => font.addProgram tag text) font

/-- What loading keeps, whatever the programs are. -/
structure Extends (programs : List (String × String)) (font extended : Font) : Prop where
  cvt : extended.cvt = font.cvt
  ascending : font.programs.Ascending → extended.programs.Ascending
  functions : extended.functions = font.functions ∨ ∃ text statements,
    (fontProgramTag, text) ∈ programs ∧ readProgram fontProgramTag text = .ok statements ∧
      FunctionTable.ofFontProgram statements = .ok extended.functions

theorem addPrograms_extends {programs : List (String × String)} {font extended : Font}
    (h : font.addPrograms programs = .ok extended) : Extends programs font extended := by
  induction programs generalizing font with
  | nil =>
    cases h
    exact ⟨rfl, id, .inl rfl⟩
  | cons entry rest ih =>
    obtain ⟨tag, text⟩ := entry
    obtain ⟨next, hFirst, hRest⟩ := foldlM_cons_eq_ok_iff.mp h
    obtain ⟨hCvt, hAscending, hFunctions⟩ := ih hRest
    have hLater : extended.functions = next.functions ∨ ∃ other statements,
        (fontProgramTag, other) ∈ (tag, text) :: rest ∧
        readProgram fontProgramTag other = .ok statements ∧
        FunctionTable.ofFontProgram statements = .ok extended.functions := by
      rcases hFunctions with hSame | ⟨other, statements, hMem, hRead⟩
      · exact .inl hSame
      · exact .inr ⟨other, statements, List.mem_cons_of_mem _ hMem, hRead⟩
    by_cases hTag : tag = fontProgramTag
    · subst hTag
      obtain ⟨statements, functions, hRead, hTable, rfl⟩ :=
        (addProgram_fontProgram_iff _ _ _).mp hFirst
      refine ⟨hCvt, hAscending, ?_⟩
      rcases hLater with hSame | hLater
      · exact .inr ⟨text, statements, List.mem_cons_self, hRead, hSame ▸ hTable⟩
      · exact .inr hLater
    · obtain ⟨statements, body, _, _, rfl⟩ := (addProgram_iff_of_ne hTag _ _ _).mp hFirst
      exact ⟨hCvt, fun hStart => hAscending (hStart.insert _ _), hLater⟩

/-- Every program of a font was there before, or it was read from one of the texts. -/
theorem addPrograms_programs {programs : List (String × String)} {font extended : Font}
    (h : font.addPrograms programs = .ok extended) {tag : String} {program : Program}
    (hProgram : extended.programs.get? tag = some program) :
    font.programs.get? tag = some program ∨ ∃ text statements,
      (tag, text) ∈ programs ∧ readProgram tag text = .ok statements ∧
        Body.ofStatements tag statements = .ok program.body := by
  induction programs generalizing font with
  | nil =>
    cases h
    exact .inl hProgram
  | cons entry rest ih =>
    obtain ⟨added, text⟩ := entry
    obtain ⟨next, hFirst, hRest⟩ := foldlM_cons_eq_ok_iff.mp h
    rcases ih hRest with hOld | ⟨other, statements, hMem, hRead⟩
    · by_cases hAdded : added = fontProgramTag
      · subst hAdded
        obtain ⟨statements, functions, _, _, rfl⟩ := (addProgram_fontProgram_iff _ _ _).mp hFirst
        exact .inl hOld
      · obtain ⟨statements, body, hRead, hBody, rfl⟩ :=
          (addProgram_iff_of_ne hAdded _ _ _).mp hFirst
        by_cases hTag : tag = added
        · subst hTag
          rw [SortedMap.get?_insert_self] at hOld
          cases hOld
          exact .inr ⟨text, statements, List.mem_cons_self, hRead, hBody⟩
        · rw [SortedMap.get?_insert_of_ne _ hTag] at hOld
          exact .inl hOld
    · exact .inr ⟨other, statements, List.mem_cons_of_mem _ hMem, hRead⟩

theorem exists_readProgram_of_load {programs : List (String × String)} {cvt : List Int32}
    {font : Font} (h : load programs cvt = .ok font) {tag : String} {program : Program}
    (hProgram : font.programs.get? tag = some program) :
    ∃ text statements, (tag, text) ∈ programs ∧ readProgram tag text = .ok statements ∧
      Body.ofStatements tag statements = .ok program.body := by
  rcases addPrograms_programs h hProgram with hOld | hRead
  · cases hOld
  · exact hRead

theorem linked_of_load {programs : List (String × String)} {cvt : List Int32} {font : Font}
    (h : load programs cvt = .ok font) : font.Linked := by
  constructor
  · intro tag program hProgram
    obtain ⟨text, statements, _, _, hBody⟩ := exists_readProgram_of_load h hProgram
    exact Body.linked_of_ofStatements hBody
  · rcases (addPrograms_extends h).functions with hNone | ⟨text, statements, _, _, hTable⟩
    · rw [hNone]
      exact List.forall_mem_nil _
    · exact FunctionTable.linked_of_readFrom (FunctionTable.readFrom_of_ofFontProgram hTable)

/-- Without its font programs a font has the same programs, with any function table. -/
theorem addPrograms_filter {programs : List (String × String)} {font extended : Font}
    (h : font.addPrograms programs = .ok extended) (functions : FunctionTable) :
    addPrograms { font with functions } (programs.filter (·.1 ≠ fontProgramTag)) =
      .ok { extended with functions } := by
  induction programs generalizing font with
  | nil =>
    cases h
    rfl
  | cons entry rest ih =>
    obtain ⟨tag, text⟩ := entry
    obtain ⟨next, hFirst, hRest⟩ := foldlM_cons_eq_ok_iff.mp h
    by_cases hTag : tag = fontProgramTag
    · subst hTag
      obtain ⟨statements, table, _, _, rfl⟩ := (addProgram_fontProgram_iff _ _ _).mp hFirst
      have hOthers := ih hRest
      rw [List.filter_cons_of_neg (by simp)]
      exact hOthers
    · obtain ⟨statements, body, hRead, hBody, rfl⟩ := (addProgram_iff_of_ne hTag _ _ _).mp hFirst
      rw [List.filter_cons_of_pos (by simpa using hTag)]
      exact foldlM_cons_eq_ok_iff.mpr
        ⟨_, (addProgram_iff_of_ne hTag _ _ _).mpr ⟨statements, body, hRead, hBody, rfl⟩, ih hRest⟩

/-- A font can be loaded with another font program, wherever that stands. -/
theorem load_of_fontProgram {programs front back : List (String × String)} {cvt : List Int32}
    {font : Font} (h : load programs cvt = .ok font)
    (hSplit : programs.filter (·.1 ≠ fontProgramTag) = front ++ back) {text : String}
    {statements : List Statement} {functions : FunctionTable}
    (hRead : readProgram fontProgramTag text = .ok statements)
    (hTable : FunctionTable.ofFontProgram statements = .ok functions) :
    load (front ++ (fontProgramTag, text) :: back) cvt = .ok { font with functions } := by
  have hOthers := addPrograms_filter h {}
  rw [hSplit] at hOthers
  obtain ⟨middle, hFront, hBack⟩ := foldlM_append_eq_ok_iff.mp hOthers
  have hKept : back.filter (·.1 ≠ fontProgramTag) = back := by
    refine List.filter_eq_self.mpr fun entry hEntry => ?_
    have hMem : entry ∈ programs.filter (·.1 ≠ fontProgramTag) := by
      rw [hSplit]
      exact List.mem_append_right front hEntry
    exact (List.mem_filter.mp hMem).2
  have hRest := addPrograms_filter hBack functions
  rw [hKept] at hRest
  refine foldlM_append_eq_ok_iff.mpr ⟨middle, hFront, foldlM_cons_eq_ok_iff.mpr ⟨_, ?_, hRest⟩⟩
  exact (addProgram_fontProgram_iff _ _ _).mpr ⟨statements, functions, hRead, hTable, rfl⟩

end Font

end Hinting
