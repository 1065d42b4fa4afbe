import Hinting.Proofs.Rebuilding
import Hinting.Proofs.Regions

/-!
# What a font program keeps when it is written and read

The text of a table gives a table with the same labels, whose functions have the same kinds of
statements, the same instructions and the same pushed values. Of the other operands only the
digits remain, run together as one flag text. So the values and flags of an instruction
survive just when that text denotes them, as it does where operands follow pushes only. They
do not survive in general: `SVTCA[ ] 1` is written as `SVTCA[1]`.
-/

namespace Hinting

open Hinting.Action

theorem Block.Related.forall₂_statements {R : Statement → Statement → Prop} {b c : Block}
    (h : Related R b c) : List.Forall₂ R b.statements c.statements := by
  induction h with
  | nil => exact .nil
  | step hs _ ih => exact .cons hs ih
  | cond hs _ hEif _ ihThen ihRest =>
    exact List.rel_append (.cons hs ihThen) (.cons hEif ihRest)
  | condElse hs _ hMid _ hEif _ ihThen ihElse ihRest =>
    exact List.rel_append (List.rel_append (.cons hs ihThen) (.cons hMid ihElse))
      (.cons hEif ihRest)

/-- Two functions whose statements correspond one by one. -/
def Definition.Corresponds (R : Statement → Statement → Prop) (d e : Definition) : Prop :=
  List.Forall₂ R d.body.statements e.body.statements

theorem Definition.RereadOf.corresponds {d e : Definition} (h : d.RereadOf e) :
    d.Corresponds Statement.RereadOf e :=
  h.block.forall₂_statements

namespace Statement

variable {s t : Statement}

/-- What a statement `t` becomes. -/
structure Rewritten (s t : Statement) : Prop where
  kind : s.kind = t.kind
  mnemonic : s.mnemonic = if t.kind = .push then .PUSH else t.mnemonic
  pushed : t.kind = .push → s.values = t.values
  digits : t.kind ≠ .push → s.operands = (Token.flagsOf t.bracketDigits).toList

/-- What a statement `t` ought to become. -/
structure Survives (s t : Statement) : Prop where
  kind : s.kind = t.kind
  mnemonic : s.mnemonic = if t.kind = .push then .PUSH else t.mnemonic
  values : s.values = t.values
  flags : t.kind ≠ .push → s.flags = t.flags

/-- The digits of the operands, run together, denote the values and the flags. -/
def DigitsTell (s : Statement) : Prop :=
  (Text.readWord? s.bracketDigits).toList = s.values ∧ flagBits s.bracketDigits = s.flags

theorem operands_reread (h : s.kind ≠ .push) (index : Nat) :
    (s.reread index).operands = (Token.flagsOf s.bracketDigits).toList := by
  rw [reread, if_neg h]

theorem values_of_flagsOf {digits : List Char} (h : s.operands = (Token.flagsOf digits).toList) :
    s.values = (Text.readWord? digits).toList := by
  rw [values, h]
  cases digits with
  | nil => rfl
  | cons c rest =>
    have hFlags : Token.flagsOf (c :: rest) = some (.numeral (String.ofList (c :: rest))) := rfl
    rw [hFlags, Option.toList_some, List.filterMap_cons, Operand.value?, String.toList_ofList]
    cases Text.readWord? (c :: rest) <;> rfl

theorem flags_of_flagsOf {digits : List Char} (h : s.operands = (Token.flagsOf digits).toList) :
    s.flags = flagBits digits := by
  rw [flags, h]
  cases digits with
  | nil => rfl
  | cons c rest =>
    have hFlags : Token.flagsOf (c :: rest) = some (.numeral (String.ofList (c :: rest))) := rfl
    rw [hFlags]
    exact congrArg flagBits String.toList_ofList

theorem RereadOf.rewritten (h : s.RereadOf t) : s.Rewritten t := by
  obtain ⟨index, rfl⟩ := h
  exact ⟨kind_reread t index, mnemonic_reread t index, fun hPush => values_reread hPush index,
    fun hKind => operands_reread hKind index⟩

theorem RereadOf.survives_iff (h : s.RereadOf t) :
    s.Survives t ↔ (t.kind ≠ .push → t.DigitsTell) := by
  have hRewritten := h.rewritten
  constructor
  · intro hSurvives hKind
    have hOperands := hRewritten.digits hKind
    refine ⟨?_, ?_⟩
    · rw [← values_of_flagsOf hOperands]
      exact hSurvives.values
    · rw [← flags_of_flagsOf hOperands]
      exact hSurvives.flags hKind
  · intro hDigits
    refine ⟨hRewritten.kind, hRewritten.mnemonic, ?_, ?_⟩
    · by_cases hKind : t.kind = .push
      · exact hRewritten.pushed hKind
      · rw [values_of_flagsOf (hRewritten.digits hKind)]
        exact (hDigits hKind).1
    · intro hKind
      rw [flags_of_flagsOf (hRewritten.digits hKind)]
      exact (hDigits hKind).2

theorem FlagsOnly.digitsTell (hKind : s.kind ≠ .push) (h : s.FlagsOnly) : s.DigitsTell := by
  have hOperands := operands_reread hKind 0
  rw [reread_of_flagsOnly hKind h] at hOperands
  exact ⟨(values_of_flagsOf hOperands).symm, (flags_of_flagsOf hOperands).symm⟩

end Statement

theorem forall₂_iff_forall_mem {α β : Type} {R P : α → β → Prop} {Q : β → Prop}
    (hPoint : ∀ a b, R a b → (P a b ↔ Q b)) {list : List α} {other : List β}
    (h : List.Forall₂ R list other) : List.Forall₂ P list other ↔ ∀ b ∈ other, Q b := by
  induction h with
  | nil => simp
  | cons hHead _ ih => rw [List.forall₂_cons, List.forall_mem_cons, hPoint _ _ hHead, ih]

namespace FunctionTable

/-- The text of the first table is read as the second one. -/
def Rebuilds (t rebuilt : FunctionTable) : Prop :=
  ∃ statements, readProgram fontProgramTag (String.intercalate "\n" t.assembly) = .ok statements ∧
    ofFontProgram statements = .ok rebuilt

theorem Rebuilds.unique {t a b : FunctionTable} (ha : t.Rebuilds a) (hb : t.Rebuilds b) :
    a = b := by
  obtain ⟨statements, hRead, hTable⟩ := ha
  obtain ⟨others, hRead', hTable'⟩ := hb
  cases hRead.symm.trans hRead'
  cases hTable.symm.trans hTable'
  rfl

theorem labels_of_rereadOf {t rebuilt : FunctionTable}
    (h : List.Forall₂ Definition.RereadOf rebuilt.definitions t.definitions) :
    rebuilt.labels = t.labels := by
  have hLabels := List.rel_map (fun d e (hReread : Definition.RereadOf d e) => hReread.label) h
  exact List.forall₂_eq_eq_eq ▸ hLabels

section

variable {text : String} {statements : List Statement} {t : FunctionTable}

theorem exists_rebuilds (hRead : readProgram fontProgramTag text = .ok statements)
    (hTable : ofFontProgram statements = .ok t) :
    ∃ rebuilt, t.Rebuilds rebuilt ∧
      List.Forall₂ Definition.RereadOf rebuilt.definitions t.definitions := by
  obtain ⟨reread, rebuilt, hAgain, hRebuilt, hReread⟩ :=
    exists_rebuilt (readFrom_of_ofFontProgram hTable) (wellFormed_of_readProgram hRead)
  exact ⟨rebuilt, ⟨reread, hAgain, hRebuilt⟩, hReread⟩

theorem exists_table_of_eq_some {α : Type} {f : FunctionTable → α} {a : α}
    (h : ((readProgram fontProgramTag text).toOption.bind fun statements =>
      (ofFontProgram statements).toOption.map f) = some a) :
    ∃ statements t, readProgram fontProgramTag text = .ok statements ∧
      ofFontProgram statements = .ok t ∧ f t = a := by
  obtain ⟨statements, hStatements, hRest⟩ := Option.bind_eq_some_iff.mp h
  obtain ⟨t, hTable, hValue⟩ := Option.map_eq_some_iff.mp hRest
  exact ⟨statements, t, eq_ok_of_toOption hStatements, eq_ok_of_toOption hTable, hValue⟩

/-- The text of a table keeps all its functions. -/
def RoundTrips (t : FunctionTable) : Prop :=
  ∃ rebuilt, t.Rebuilds rebuilt ∧ rebuilt.labels = t.labels ∧
    List.Forall₂ (Definition.Corresponds Statement.Survives) rebuilt.definitions t.definitions

theorem roundTrips_iff_digitsTell (hRead : readProgram fontProgramTag text = .ok statements)
    (hTable : ofFontProgram statements = .ok t) :
    t.RoundTrips ↔
      ∀ d ∈ t.definitions, ∀ s ∈ d.body.statements, s.kind ≠ .push → s.DigitsTell := by
  obtain ⟨rebuilt, hRebuilds, hReread⟩ := exists_rebuilds hRead hTable
  have hBody (d e : Definition) (h : d.RereadOf e) : d.Corresponds Statement.Survives e ↔
      ∀ s ∈ e.body.statements, s.kind ≠ .push → s.DigitsTell :=
    forall₂_iff_forall_mem (fun s t (hs : Statement.RereadOf s t) => hs.survives_iff) h.corresponds
  rw [← forall₂_iff_forall_mem hBody hReread]
  constructor
  · rintro ⟨other, hOther, _, hSurvives⟩
    rw [hRebuilds.unique hOther]
    exact hSurvives
  · intro hSurvives
    exact ⟨rebuilt, hRebuilds, labels_of_rereadOf hReread, hSurvives⟩

/-- The text of a table keeps labels, kinds, instructions and pushed values. It keeps the
values and flags of the other instructions just when the digits of their operands tell them;
it does so if operands follow pushes only. -/
theorem roundTrips_iff (hRead : readProgram fontProgramTag text = .ok statements)
    (hTable : ofFontProgram statements = .ok t) :
    (∃ rebuilt, t.Rebuilds rebuilt ∧ rebuilt.labels = t.labels ∧
      List.Forall₂ (Definition.Corresponds Statement.Rewritten) rebuilt.definitions
        t.definitions) ∧
    (t.RoundTrips ↔
      ∀ d ∈ t.definitions, ∀ s ∈ d.body.statements, s.kind ≠ .push → s.DigitsTell) ∧
    (Token.dataFollowsPushes false true (Token.words text) = true → t.RoundTrips) := by
  have hIff := roundTrips_iff_digitsTell hRead hTable
  refine ⟨?_, hIff, ?_⟩
  · obtain ⟨rebuilt, hRebuilds, hReread⟩ := exists_rebuilds hRead hTable
    refine ⟨rebuilt, hRebuilds, labels_of_rereadOf hReread, hReread.imp ?_⟩
    intro d e h
    exact h.corresponds.imp fun _ _ => Statement.RereadOf.rewritten
  · intro hData
    rw [hIff]
    intro d hd s hs hKind
    have hRegions := inRegions_of_readProgram hData hRead
    have hFlags := ((readFrom_of_ofFontProgram hTable).definitions d hd).of_inRegions hRegions s hs
    exact (hFlags.resolve_left hKind).digitsTell hKind

end

/-- A sign, leading zeros, a numeral too wide for a word, and flags. -/
theorem roundTrips_iff_push_forms :
    ∃ statements t, readProgram fontProgramTag
        "PUSHB[ ] 0 FDEF[ ] MDRP[01101] PUSHW[ ] -7 +08 99999999999 IF[ ] POP[ ] EIF[ ] ENDF[ ]" =
        .ok statements ∧
      ofFontProgram statements = .ok t ∧ t.labels = [0] ∧ t.RoundTrips := by
  have hEvaluated : ((readProgram fontProgramTag
      "PUSHB[ ] 0 FDEF[ ] MDRP[01101] PUSHW[ ] -7 +08 99999999999 IF[ ] POP[ ] EIF[ ] ENDF[ ]"
      ).toOption.bind fun statements => (ofFontProgram statements).toOption.map labels) =
      some [0] := by
    decide +kernel
  obtain ⟨statements, t, hRead, hTable, hLabels⟩ := exists_table_of_eq_some hEvaluated
  exact ⟨statements, t, hRead, hTable, hLabels,
    (roundTrips_iff hRead hTable).2.2 (by decide +kernel)⟩

/-- The operand behind `SVTCA[ ]` becomes its flag: the axis changes. -/
theorem not_roundTrips_of_trailing_operand :
    ∃ statements t, readProgram fontProgramTag "PUSHB[ ] 0 FDEF[ ] SVTCA[ ] 1 ENDF[ ]" =
        .ok statements ∧
      ofFontProgram statements = .ok t ∧ ¬t.RoundTrips := by
  have hEvaluated : ((readProgram fontProgramTag
      "PUSHB[ ] 0 FDEF[ ] SVTCA[ ] 1 ENDF[ ]").toOption.bind fun statements =>
        (ofFontProgram statements).toOption.map fun t =>
          t.definitions.map fun d => d.body.statements) = some [[⟨.SVTCA, [.word 1], 2⟩]] := by
    decide +kernel
  obtain ⟨statements, t, hRead, hTable, hBodies⟩ := exists_table_of_eq_some hEvaluated
  refine ⟨statements, t, hRead, hTable, ?_⟩
  rw [roundTrips_iff_digitsTell hRead hTable]
  intro hAll
  obtain ⟨d, rest, hDefinitions, hBody, _⟩ := List.map_eq_cons_iff.mp hBodies
  have hDigits := hAll d (by simp [hDefinitions]) ⟨.SVTCA, [.word 1], 2⟩ (by simp [hBody])
    (by decide)
  exact absurd hDigits.2 (by decide +kernel)

end FunctionTable

end Hinting
