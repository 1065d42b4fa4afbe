import Hinting.Proofs.RoundTrip
import Mathlib.Logic.Relation

/-!
# Font program text settles after one pass

Writing a table and reading it back may change operands once. A statement that has been
reread is in normal form: a plain `PUSH` of operands that read as themselves, or an
instruction with its flag digits. Rereading it changes its position only, and the position is
the one that it has in the text. So the table read first is read again from its own text.

The flow graph does not depend on operands and stays as it is from the start.
-/

namespace Hinting

namespace Block.Related

variable {R : Statement → Statement → Prop} {b c : Block}

theorem size_eq (h : Related R b c) : b.size = c.size := by
  induction h with
  | nil => rfl
  | step _ _ ih => rw [size, size, ih]
  | cond _ _ _ _ ihThen ihRest => rw [size, size, ihThen, ihRest]
  | condElse _ _ _ _ _ _ ihThen ihElse ihRest => rw [size, size, ihThen, ihElse, ihRest]

theorem entry?_eq (h : Related R b c) (start : Nat) (exit? : Option Nat) :
    b.entry? start exit? = c.entry? start exit? := by
  cases h <;> rfl

theorem successors_eq (h : Related R b c) (start : Nat) (exit? : Option Nat) :
    b.successors start exit? = c.successors start exit? := by
  induction h generalizing start exit? with
  | nil => rfl
  | step _ hRest ih => simp only [successors, hRest.entry?_eq, ih]
  | cond _ hThen _ hRest ihThen ihRest =>
    simp only [successors, hThen.size_eq, hThen.entry?_eq, hRest.entry?_eq, ihThen, ihRest]
  | condElse _ hThen _ hElse _ hRest ihThen ihElse ihRest =>
    simp only [successors, hThen.size_eq, hElse.size_eq, hThen.entry?_eq, hElse.entry?_eq,
      hRest.entry?_eq, ihThen, ihElse, ihRest]

theorem predecessors_eq (h : Related R b c) (start : Nat) (source? : Option Nat) :
    b.predecessors start source? = c.predecessors start source? := by
  induction h generalizing start source? with
  | nil => rfl
  | step _ _ ih => simp only [predecessors, ih]
  | cond _ hThen _ _ ihThen ihRest => simp only [predecessors, hThen.size_eq, ihThen, ihRest]
  | condElse _ hThen _ hElse _ _ ihThen ihElse ihRest =>
    simp only [predecessors, hThen.size_eq, hElse.size_eq, ihThen, ihElse, ihRest]

theorem branches_eq (h : Related R b c) (start : Nat) : b.branches start = c.branches start := by
  induction h generalizing start with
  | nil => rfl
  | step _ _ ih => simp only [branches, ih]
  | cond _ hThen _ _ ihThen ihRest => simp only [branches, hThen.size_eq, ihThen, ihRest]
  | condElse _ hThen _ hElse _ _ ihThen ihElse ihRest =>
    simp only [branches, hThen.size_eq, hElse.size_eq, ihThen, ihElse, ihRest]

end Block.Related

/-- Two functions with the same label and flow graph. -/
structure Definition.SameFlow (d e : Definition) : Prop where
  label : d.label = e.label
  successors : d.body.successorLists = e.body.successorLists
  predecessors : d.body.predecessorLists = e.body.predecessorLists
  branches : d.body.branches = e.body.branches

theorem Definition.RereadOf.sameFlow {d e : Definition} (h : d.RereadOf e) : d.SameFlow e :=
  ⟨h.label, h.block.successors_eq 0 none, h.block.predecessors_eq 0 none, h.block.branches_eq 0⟩

theorem Operand.reread_reread (o : Operand) : o.reread.reread = o.reread := by
  cases o with
  | word value => rfl
  | numeral text =>
    rw [reread]
    cases hValue : Text.readWord? text.toList with
    | some value => rfl
    | none => simp only [reread, hValue]

namespace Statement

theorem flagsOnly_reread {s : Statement} (h : s.kind ≠ .push) (index : Nat) :
    (s.reread index).FlagsOnly :=
  ⟨s.bracketDigits, fun _ hc => (List.mem_filter.mp hc).2, operands_reread h index⟩

theorem reread_reread (s : Statement) (earlier index : Nat) :
    (s.reread earlier).reread index = s.reread index := by
  by_cases hKind : s.kind = .push
  · have hAgain : (s.reread earlier).kind = .push := (kind_reread s earlier).trans hKind
    have hOperands : s.operands.map (Operand.reread ∘ Operand.reread) =
        s.operands.map Operand.reread := List.map_congr_left fun o _ => o.reread_reread
    rw [reread, if_pos hAgain, reread, if_pos hKind, reread, if_pos hKind, List.map_map, hOperands]
  · have hAgain : (s.reread earlier).kind ≠ .push := fun hPush =>
      hKind ((kind_reread s earlier).symm.trans hPush)
    rw [reread_of_flagsOnly hAgain (flagsOnly_reread hKind earlier), reread, if_neg hKind, reread,
      if_neg hKind]

/-- Two statements that are written alike. -/
def Twins (s t : Statement) : Prop :=
  ∀ index, s.reread index = t.reread index

theorem RereadOf.twins {s t : Statement} (h : s.RereadOf t) : s.Twins t := by
  obtain ⟨earlier, rfl⟩ := h
  exact reread_reread t earlier

theorem rereadFrom_eq_of_twins {statements others : List Statement}
    (h : List.Forall₂ Twins statements others) (index : Nat) :
    rereadFrom index statements = rereadFrom index others := by
  induction h generalizing index with
  | nil => rfl
  | cons hHead _ ih => simp [hHead index, ih]

end Statement

theorem Definition.RereadOf.twins_printed {d e : Definition} (h : d.RereadOf e) :
    List.Forall₂ Statement.Twins d.printed e.printed := by
  have hBody : List.Forall₂ Statement.Twins d.body.statements e.body.statements :=
    h.corresponds.imp fun _ _ => Statement.RereadOf.twins
  exact .cons (fun _ => rfl) (List.rel_append hBody (.cons (fun _ => rfl) .nil))

namespace FunctionTable

theorem twins_printed {t rebuilt : FunctionTable}
    (h : List.Forall₂ Definition.RereadOf rebuilt.definitions t.definitions) :
    List.Forall₂ Statement.Twins rebuilt.printed t.printed := by
  have hRegions : List.Forall₂ Statement.Twins (rebuilt.definitions.flatMap Definition.printed)
      (t.definitions.flatMap Definition.printed) :=
    List.rel_flatMap h fun _ _ => Definition.RereadOf.twins_printed
  have hEmpty : rebuilt.isEmpty = t.isEmpty := by
    cases hDefinitions : t.definitions with
    | nil =>
      rw [hDefinitions, List.forall₂_nil_right_iff] at h
      rw [isEmpty, isEmpty, h, hDefinitions]
    | cons e rest =>
      rw [hDefinitions] at h
      obtain ⟨d, others, _, _, hOthers⟩ := List.forall₂_cons_right_iff.mp h
      rw [isEmpty, isEmpty, hOthers, hDefinitions]
      rfl
  unfold printed
  rw [hEmpty, labels_of_rereadOf h]
  split
  · exact .nil
  · exact .cons (fun _ => rfl) hRegions

/-- A table that was read from the text of another is read again from its own text. -/
theorem Rebuilds.again {t rebuilt : FunctionTable} {statements : List Statement}
    (h : t.Rebuilds rebuilt) (hFrom : t.ReadFrom statements)
    (hWellFormed : ∀ s ∈ statements, s.WellFormed)
    (hReread : List.Forall₂ Definition.RereadOf rebuilt.definitions t.definitions) :
    rebuilt.Rebuilds rebuilt := by
  obtain ⟨reread, hRead, hTable⟩ := h
  have hFirst : reread = Statement.rereadFrom 0 t.printed := by
    rw [assembly_eq, readProgram_assembly _ (wellFormed_printed hFrom hWellFormed)] at hRead
    exact (Except.ok.inj hRead).symm
  have hSecond : Statement.rereadFrom 0 rebuilt.printed = reread := by
    rw [hFirst]
    exact Statement.rereadFrom_eq_of_twins (twins_printed hReread) 0
  have hPrinted := wellFormed_printed (readFrom_of_ofFontProgram hTable)
    (wellFormed_of_readProgram hRead)
  refine ⟨reread, ?_, hTable⟩
  rw [assembly_eq, readProgram_assembly _ hPrinted, hSecond]

/-- The text of a table can be read; this keeps labels and flow graphs, and from there on
writing and reading change nothing. -/
theorem exists_stable {text : String} {statements : List Statement} {t : FunctionTable}
    (hRead : readProgram fontProgramTag text = .ok statements)
    (hTable : ofFontProgram statements = .ok t) :
    ∃ rebuilt, t.Rebuilds rebuilt ∧ rebuilt.labels = t.labels ∧
      List.Forall₂ Definition.SameFlow rebuilt.definitions t.definitions ∧
      rebuilt.Rebuilds rebuilt ∧
      ∀ later, Relation.ReflTransGen Rebuilds rebuilt later →
        later = rebuilt ∧ later.assembly = rebuilt.assembly := by
  obtain ⟨rebuilt, hRebuilds, hReread⟩ := exists_rebuilds hRead hTable
  have hAgain := hRebuilds.again (readFrom_of_ofFontProgram hTable)
    (wellFormed_of_readProgram hRead) hReread
  refine ⟨rebuilt, hRebuilds, labels_of_rereadOf hReread,
    hReread.imp fun _ _ => Definition.RereadOf.sameFlow, hAgain, ?_⟩
  intro later hLater
  have hSame : later = rebuilt := by
    induction hLater with
    | refl => rfl
    | tail _ hStep ih =>
      rw [ih] at hStep
      exact hStep.unique hAgain
  exact ⟨hSame, congrArg assembly hSame⟩

/-- The sign and the gap between `01` and `-7` are lost in the first pass. -/
theorem exists_stable_trailing_operands :
    ∃ statements t rebuilt, readProgram fontProgramTag
        "PUSHB[ ] 0 FDEF[ ] MDRP[01] -7 PUSHW[ ] +08 IF[ ] CALL[ ] 1 EIF[ ] ENDF[ ]" =
        .ok statements ∧
      ofFontProgram statements = .ok t ∧ t.Rebuilds rebuilt ∧
      t.assembly = ["PUSH[ ]", "0", "FDEF[ ]", "MDRP[01-7]", "PUSH[ ]", "8", "IF[ ]", "CALL[1]",
        "EIF[ ]", "ENDF[ ]"] ∧
      rebuilt.assembly = ["PUSH[ ]", "0", "FDEF[ ]", "MDRP[017]", "PUSH[ ]", "8", "IF[ ]",
        "CALL[1]", "EIF[ ]", "ENDF[ ]"] ∧
      rebuilt.Rebuilds rebuilt := by
  have hEvaluated : ((readProgram fontProgramTag
      "PUSHB[ ] 0 FDEF[ ] MDRP[01] -7 PUSHW[ ] +08 IF[ ] CALL[ ] 1 EIF[ ] ENDF[ ]").toOption.bind
      fun statements => (ofFontProgram statements).toOption.map assembly) =
      some ["PUSH[ ]", "0", "FDEF[ ]", "MDRP[01-7]", "PUSH[ ]", "8", "IF[ ]", "CALL[1]", "EIF[ ]",
        "ENDF[ ]"] := by
    decide +kernel
  obtain ⟨statements, t, hRead, hTable, hAssembly⟩ := exists_table_of_eq_some hEvaluated
  obtain ⟨rebuilt, hRebuilds, _, _, hAgain, _⟩ := exists_stable hRead hTable
  have hSecond : ((readProgram fontProgramTag (String.intercalate "\n"
      ["PUSH[ ]", "0", "FDEF[ ]", "MDRP[01-7]", "PUSH[ ]", "8", "IF[ ]", "CALL[1]", "EIF[ ]",
        "ENDF[ ]"])).toOption.bind fun statements =>
      (ofFontProgram statements).toOption.map assembly) =
      some ["PUSH[ ]", "0", "FDEF[ ]", "MDRP[017]", "PUSH[ ]", "8", "IF[ ]", "CALL[1]", "EIF[ ]",
        "ENDF[ ]"] := by
    decide +kernel
  rw [← hAssembly] at hSecond
  obtain ⟨reread, other, hReread, hOther, hLines⟩ := exists_table_of_eq_some hSecond
  have hSame : rebuilt = other := hRebuilds.unique ⟨reread, hReread, hOther⟩
  subst hSame
  exact ⟨statements, t, rebuilt, hRead, hTable, hRebuilds, hAssembly, hLines, hAgain⟩

end FunctionTable

end Hinting
