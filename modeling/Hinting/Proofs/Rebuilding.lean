import Hinting.Proofs.FontProgram

/-!
# Function tables that are written and read again

The text of a table that was read from a font program can be read: it gives a table with
the same labels in the same order, whose bodies have the shape of the old ones with every
statement reread. The labels are pushed in reverse order, so that each region takes its own;
as no label stands twice in a table, each region adds a function at the end.
-/

namespace Hinting

open Hinting.Action

/-- A function that was read from the text of another. -/
structure Definition.RereadOf (d e : Definition) : Prop where
  label : d.label = e.label
  tag : d.body.tag = e.body.tag
  block : Block.Related Statement.RereadOf d.body.block e.body.block

theorem Definition.ReadFrom.exists_reread {statements : List Statement} {d : Definition}
    (h : d.ReadFrom statements) (index : Nat) :
    ∃ body, Body.ofStatements fontProgramTag (Statement.rereadFrom index d.body.statements) =
      .ok body ∧ Definition.RereadOf ⟨d.label, body⟩ d := by
  obtain ⟨hTag, hBlock⟩ := (Body.ofStatements_eq_ok_iff _ _ _).mp h.body
  have hKind (s t : Statement) (hReread : s.RereadOf t) : s.kind = t.kind := by
    obtain ⟨index, rfl⟩ := hReread
    exact Statement.kind_reread t index
  obtain ⟨block, hOk, hRelated⟩ :=
    Block.ofStatements_related hKind (Statement.rereadOf_rereadFrom index _) hBlock
  exact ⟨⟨fontProgramTag, block⟩, (Body.ofStatements_eq_ok_iff _ _ _).mpr ⟨rfl, hOk⟩,
    rfl, hTag.symm, hRelated⟩

/-- The statements that the text of a function stands for. -/
def Definition.printed (d : Definition) : List Statement :=
  ⟨.FDEF, [], 0⟩ :: (d.body.statements ++ [⟨.ENDF, [], 0⟩])

namespace FunctionTable

/-- The statements that the text of a table stands for. -/
def printed (t : FunctionTable) : List Statement :=
  if t.isEmpty then []
  else ⟨.PUSH, t.labels.reverse.map Operand.word, 0⟩ :: t.definitions.flatMap Definition.printed

theorem assembly_eq (t : FunctionTable) : t.assembly = t.printed.flatMap Statement.assembly := by
  have hRegion (d : Definition) : "FDEF[ ]" :: d.body.assembly ++ ["ENDF[ ]"] =
      d.printed.flatMap Statement.assembly := by
    simp only [Definition.printed, List.flatMap_cons, List.flatMap_append, List.flatMap_nil,
      Body.assembly]
    rfl
  unfold assembly printed
  split
  · rfl
  · have hPush : Statement.assembly ⟨.PUSH, t.labels.reverse.map Operand.word, 0⟩ =
        pushHeader t.size :: t.labels.reverse.map Text.wordText := by
      rw [Statement.assembly_of_push rfl]
      simp [size, labels, Operand.text]
    rw [List.flatMap_cons, hPush, List.flatMap_assoc, funext hRegion]

theorem wellFormed_printed {statements : List Statement} {t : FunctionTable}
    (h : t.ReadFrom statements) (hWellFormed : ∀ s ∈ statements, s.WellFormed) :
    ∀ s ∈ t.printed, s.WellFormed := by
  have hRegion : ∀ d ∈ t.definitions, ∀ s ∈ d.printed, s.WellFormed := by
    intro d hd s hs
    rw [Definition.printed, List.mem_cons, List.mem_append, List.mem_singleton] at hs
    rcases hs with rfl | hs | rfl
    · simp [Statement.WellFormed]
    · exact hWellFormed s ((h.definitions d hd).mem hs)
    · simp [Statement.WellFormed]
  intro s hs
  unfold printed at hs
  split at hs
  · cases hs
  · rcases List.mem_cons.mp hs with rfl | hs
    · simp [Statement.WellFormed, Operand.WellFormed]
    · obtain ⟨d, hd, hs⟩ := List.mem_flatMap.mp hs
      exact hRegion d hd s hs

theorem foldlM_read_inside {statements : List Statement} (h : ∀ s ∈ statements, s.InBody)
    (table : FunctionTable) (labels : List Label) (fdef : Statement) (body : List Statement) :
    statements.foldlM Reader.read ⟨table, labels, some (fdef, body)⟩ =
      .ok ⟨table, labels, some (fdef, statements.reverse ++ body)⟩ := by
  induction statements generalizing body with
  | nil => rfl
  | cons s rest ih =>
    have hs := h s List.mem_cons_self
    refine foldlM_cons_eq_ok_iff.mpr ⟨⟨table, labels, some (fdef, s :: body)⟩, ?_, ?_⟩
    · exact (read_eq_ok_iff _ _ _).mpr ⟨hs.not_idef, .inside rfl hs.not_defStart hs.not_defEnd⟩
    · rw [ih fun other hOther => h other (List.mem_cons_of_mem s hOther)]
      simp

theorem foldlM_read_printed {statements : List Statement} {d : Definition}
    (h : d.ReadFrom statements) (index : Nat) (table : FunctionTable) (labels : List Label) :
    ∃ e : Definition, (Statement.rereadFrom index d.printed).foldlM Reader.read
      ⟨table, d.label :: labels, none⟩ = .ok ⟨table.insert e, labels, none⟩ ∧ e.RereadOf d := by
  obtain ⟨body, hBody, hReread⟩ := h.exists_reread (index + 1)
  have hInBody : ∀ s ∈ Statement.rereadFrom (index + 1) d.body.statements, s.InBody := by
    intro s hs
    obtain ⟨⟨t, position⟩, hMem, rfl⟩ := List.mem_map.mp hs
    exact (h.inBody t (List.fst_mem_of_mem_zipIdx hMem)).reread position
  have hFdef : (Statement.reread ⟨.FDEF, [], 0⟩ index).mnemonic ≠ .IDEF := by
    rw [Statement.mnemonic_reread]
    decide
  have hEndf (position : Nat) : (Statement.reread ⟨.ENDF, [], 0⟩ position).mnemonic ≠ .IDEF := by
    rw [Statement.mnemonic_reread]
    decide
  refine ⟨⟨d.label, body⟩, ?_, hReread⟩
  rw [Definition.printed, Statement.rereadFrom_cons, Statement.rereadFrom_append,
    Statement.rereadFrom_cons]
  refine foldlM_cons_eq_ok_iff.mpr ⟨_, (read_eq_ok_iff _ _ _).mpr ⟨hFdef, .defStart rfl rfl⟩, ?_⟩
  refine foldlM_append_eq_ok_iff.mpr ⟨_, foldlM_read_inside hInBody _ _ _ _, ?_⟩
  refine foldlM_cons_eq_ok_iff.mpr ⟨_, (read_eq_ok_iff _ _ _).mpr
    ⟨hEndf _, .defEnd rfl rfl rfl ?_⟩, rfl⟩
  rw [List.append_nil, List.reverse_reverse]
  exact hBody

theorem foldlM_read_flatMap_printed {statements : List Statement} {definitions : List Definition}
    (h : ∀ d ∈ definitions, d.ReadFrom statements) (index : Nat) {table : FunctionTable}
    (hNodup : (table.labels ++ definitions.map Definition.label).Nodup) :
    ∃ rebuilt, (Statement.rereadFrom index (definitions.flatMap Definition.printed)).foldlM
      Reader.read ⟨table, definitions.map Definition.label, none⟩ =
        .ok ⟨⟨table.definitions ++ rebuilt⟩, [], none⟩ ∧
      List.Forall₂ Definition.RereadOf rebuilt definitions := by
  induction definitions generalizing index table with
  | nil => exact ⟨[], by rw [List.append_nil]; rfl, .nil⟩
  | cons d rest ih =>
    obtain ⟨e, hFirst, hReread⟩ := foldlM_read_printed (h d List.mem_cons_self) index table
      (rest.map Definition.label)
    -- a label that stood there already would put the function in an earlier place
    have hNew : e.label ∉ table.labels := by
      rw [hReread.label]
      exact fun hMem => (List.nodup_append.mp hNodup).2.2 _ hMem _ (by simp) rfl
    have hNext : ((⟨table.definitions ++ [e]⟩ : FunctionTable).labels ++
        rest.map Definition.label).Nodup := by
      simpa [labels, hReread.label] using hNodup
    obtain ⟨rebuilt, hRest, hRebuilt⟩ := ih (fun other hOther => h other (by simp [hOther]))
      (index + d.printed.length) hNext
    refine ⟨e :: rebuilt, ?_, .cons hReread hRebuilt⟩
    rw [List.flatMap_cons, Statement.rereadFrom_append]
    refine foldlM_append_eq_ok_iff.mpr ⟨_, hFirst, ?_⟩
    rw [insert_of_not_mem hNew, hRest, List.append_assoc, List.singleton_append]

theorem read_push (labels : List Label) :
    Reader.read {} (Statement.reread ⟨.PUSH, labels.reverse.map Operand.word, 0⟩ 0) =
      .ok ⟨{}, labels, none⟩ := by
  have hValues : Statement.values ⟨.PUSH, labels.reverse.map Operand.word, 0⟩ = labels.reverse := by
    rw [Statement.values, List.filterMap_map]
    exact List.filterMap_some
  have hReads := Reads.push (r := {})
    (s := Statement.reread ⟨.PUSH, labels.reverse.map Operand.word, 0⟩ 0) rfl rfl
  rw [Statement.values_reread rfl, hValues, List.reverse_reverse, List.append_nil] at hReads
  have hPush : (Statement.reread ⟨.PUSH, labels.reverse.map Operand.word, 0⟩ 0).mnemonic = .PUSH :=
    rfl
  refine (read_eq_ok_iff _ _ _).mpr ⟨?_, hReads⟩
  rw [hPush]
  decide

/-- The text of a table that was read from a font program is read as a table with the same
labels in the same order and with the functions reread. -/
theorem exists_rebuilt {statements : List Statement} {t : FunctionTable}
    (h : t.ReadFrom statements) (hWellFormed : ∀ s ∈ statements, s.WellFormed) :
    ∃ reread rebuilt,
      readProgram fontProgramTag (String.intercalate "\n" t.assembly) = .ok reread ∧
      ofFontProgram reread = .ok rebuilt ∧
      List.Forall₂ Definition.RereadOf rebuilt.definitions t.definitions := by
  rw [assembly_eq, readProgram_assembly _ (wellFormed_printed h hWellFormed)]
  refine ⟨Statement.rereadFrom 0 t.printed, ?_⟩
  unfold printed
  split
  · rename_i hEmpty
    refine ⟨{}, rfl, rfl, ?_⟩
    rw [List.isEmpty_iff.mp hEmpty]
    exact .nil
  · have hNodup : (({} : FunctionTable).labels ++ t.definitions.map Definition.label).Nodup :=
      h.nodup
    obtain ⟨rebuilt, hRead, hRebuilt⟩ := foldlM_read_flatMap_printed h.definitions 1 hNodup
    refine ⟨⟨rebuilt⟩, rfl, except_bind_eq_ok_iff.mpr ⟨⟨⟨rebuilt⟩, [], none⟩, ?_, rfl⟩, hRebuilt⟩
    rw [Statement.rereadFrom_cons]
    refine foldlM_cons_eq_ok_iff.mpr ⟨⟨{}, t.labels, none⟩, ?_, hRead⟩
    exact read_push t.labels

end FunctionTable

end Hinting
