import Hinting.FunctionTable
import Hinting.Proofs.BlockReading
import Hinting.Proofs.Rereading

/-!
# Font programs that are written and read again

The table read from a font program has each label once, and each of its bodies was
read from a region of the program. Its text reads as a table with the same labels in the
same order, whose bodies have the shape of the old ones and their statements reread.
-/

namespace Hinting

open Hinting.Action

namespace FunctionTable

theorem get?_eq_find? (t : FunctionTable) (label : Label) :
    t.get? label = t.definitions.find? fun d => d.label == label :=
  List.find?_eq_bind_findIdx?_getElem?.symm

theorem mem_of_get? {t : FunctionTable} {label : Label} {d : Definition}
    (h : t.get? label = some d) : d ∈ t.definitions ∧ d.label = label := by
  rw [get?_eq_find?] at h
  have hLabel := List.find?_some h
  exact ⟨List.mem_of_find?_eq_some h, eq_of_beq hLabel⟩

theorem position?_eq_none_iff (t : FunctionTable) (label : Label) :
    t.position? label = none ↔ label ∉ t.labels := by
  simp [position?, labels, List.findIdx?_eq_none_iff]

theorem insert_of_not_mem {t : FunctionTable} {d : Definition} (h : d.label ∉ t.labels) :
    t.insert d = ⟨t.definitions ++ [d]⟩ := by
  rw [insert, (position?_eq_none_iff t d.label).mpr h]

theorem labels_insert_of_mem {t : FunctionTable} {d : Definition} (h : d.label ∈ t.labels) :
    (t.insert d).labels = t.labels := by
  unfold insert
  cases hPosition : t.position? d.label with
  | none => exact absurd h ((position?_eq_none_iff t d.label).mp hPosition)
  | some position =>
    obtain ⟨hBound, hLabel, _⟩ := List.findIdx?_eq_some_iff_getElem.mp hPosition
    have hInside : position < (t.definitions.map Definition.label).length := by simpa using hBound
    have hSelf : (t.definitions.map Definition.label)[position] = d.label := by
      rw [List.getElem_map]
      exact eq_of_beq hLabel
    simp only [labels, List.map_set]
    rw [← hSelf, List.set_getElem_self]

theorem nodup_labels_insert {t : FunctionTable} (h : t.labels.Nodup) (d : Definition) :
    (t.insert d).labels.Nodup := by
  by_cases hLabel : d.label ∈ t.labels
  · rw [labels_insert_of_mem hLabel]
    exact h
  · rw [insert_of_not_mem hLabel, labels, List.map_append]
    exact List.nodup_append.mpr ⟨h, by simp, by
      simpa [labels] using fun other hOther hEq => hLabel (List.mem_map.mpr ⟨other, hOther, hEq⟩)⟩

theorem mem_insert {t : FunctionTable} {d other : Definition}
    (h : other ∈ (t.insert d).definitions) : other ∈ t.definitions ∨ other = d := by
  unfold insert at h
  split at h
  · exact List.mem_or_eq_of_mem_set h
  · simpa using h

/-- A function is added at the end, or it takes the place of the one it redefines. -/
theorem insert_cases (t : FunctionTable) (d : Definition) :
    d.label ∉ t.labels ∧ t.insert d = ⟨t.definitions ++ [d]⟩ ∨
    ∃ front old back, t.definitions = front ++ old :: back ∧ old.label = d.label ∧
      (∀ other ∈ front, other.label ≠ d.label) ∧ t.insert d = ⟨front ++ d :: back⟩ := by
  cases hPosition : t.position? d.label with
  | none =>
    have hLabel := (position?_eq_none_iff t d.label).mp hPosition
    exact .inl ⟨hLabel, insert_of_not_mem hLabel⟩
  | some position =>
    obtain ⟨hBound, hLabel, hFirst⟩ := List.findIdx?_eq_some_iff_getElem.mp hPosition
    obtain ⟨front, back, hSplit, hLength, hSet⟩ := @List.exists_of_set _ _ d _ hBound
    refine .inr ⟨front, _, back, hSplit, eq_of_beq hLabel, ?_, ?_⟩
    · intro other hOther
      obtain ⟨i, hi, rfl⟩ := List.getElem_of_mem hOther
      have hSame : t.definitions[i]? = some front[i] := by
        rw [hSplit, List.getElem?_append_left hi, List.getElem?_eq_getElem hi]
      obtain ⟨_, hSame⟩ := List.getElem?_eq_some_iff.mp hSame
      have hNot := hFirst i (hLength ▸ hi)
      rw [hSame] at hNot
      exact fun h => hNot (beq_iff_eq.mpr h)
    · simp only [insert, hPosition, hSet]

theorem labels_insert (t : FunctionTable) (d : Definition) : (t.insert d).labels =
    if d.label ∈ t.labels then t.labels else t.labels ++ [d.label] := by
  by_cases hLabel : d.label ∈ t.labels
  · rw [if_pos hLabel, labels_insert_of_mem hLabel]
  · rw [if_neg hLabel, insert_of_not_mem hLabel, labels, List.map_append]
    rfl

theorem get?_insert (t : FunctionTable) (d : Definition) (label : Label) :
    (t.insert d).get? label = if d.label = label then some d else t.get? label := by
  rw [get?_eq_find?, get?_eq_find?]
  rcases insert_cases t d with ⟨hNew, hInsert⟩ | ⟨front, old, back, hSplit, hOld, hFront, hInsert⟩
  · rw [hInsert, List.find?_append]
    by_cases hLabel : d.label = label
    · have hNone : t.definitions.find? (fun d => d.label == label) = none := by
        rw [List.find?_eq_none]
        intro other hOther hSame
        exact hNew (List.mem_map.mpr ⟨other, hOther, (eq_of_beq hSame).trans hLabel.symm⟩)
      simp [hNone, hLabel]
    · simp [hLabel]
  · rw [hInsert, hSplit, List.find?_append, List.find?_append]
    by_cases hLabel : d.label = label
    · have hNone : front.find? (fun d => d.label == label) = none := by
        rw [List.find?_eq_none]
        intro other hOther hSame
        exact hFront other hOther ((eq_of_beq hSame).trans hLabel.symm)
      simp [hNone, hLabel]
    · have hOther : ¬old.label = label := hOld ▸ hLabel
      simp [hLabel, hOther]

/-- Keeping functions by their labels hides the other labels and changes no function. -/
theorem get?_filter_by_label (t : FunctionTable) (keep : Label → Bool) (label : Label) :
    (t.filter fun d => keep d.label).get? label =
      if keep label = true then t.get? label else none := by
  rw [get?_eq_find?, get?_eq_find?, filter, List.find?_filter]
  by_cases hKeep : keep label = true
  · rw [if_pos hKeep]
    congr 1
    funext d
    by_cases hLabel : d.label = label
    · simp [hLabel, hKeep]
    · simp [hLabel]
  · rw [if_neg hKeep, List.find?_eq_none]
    intro d _ hd
    obtain ⟨hKept, hLabel⟩ := of_decide_eq_true hd
    exact hKeep (eq_of_beq hLabel ▸ hKept)

/-- What reading one statement does, once it defines no instruction. -/
inductive Reads (r : Reader) (s : Statement) : Reader → Prop
  | push : r.current? = none → s.kind = .push →
      Reads r s ⟨r.table, s.values.reverse ++ r.labels, none⟩
  | defStart : r.current? = none → s.kind = .defStart →
      Reads r s ⟨r.table, r.labels, some (s, [])⟩
  | outside : r.current? = none → s.kind ≠ .push → s.kind ≠ .defStart → s.kind ≠ .defEnd →
      Reads r s r
  | inside {fdef : Statement} {statements : List Statement} :
      r.current? = some (fdef, statements) → s.kind ≠ .defStart → s.kind ≠ .defEnd →
      Reads r s ⟨r.table, r.labels, some (fdef, s :: statements)⟩
  | defEnd {fdef : Statement} {statements : List Statement} {label : Label} {labels : List Label}
      {body : Body} : r.current? = some (fdef, statements) → s.kind = .defEnd →
      r.labels = label :: labels →
      Body.ofStatements fontProgramTag statements.reverse = .ok body →
      Reads r s ⟨r.table.insert ⟨label, body⟩, labels, none⟩

theorem close_eq_ok_iff (r q : Reader) (fdef : Statement) (statements : List Statement) :
    r.close fdef statements = .ok q ↔ ∃ label labels body, r.labels = label :: labels ∧
      Body.ofStatements fontProgramTag statements = .ok body ∧
      q = ⟨r.table.insert ⟨label, body⟩, labels, none⟩ := by
  unfold Reader.close
  cases hLabels : r.labels with
  | nil => simp
  | cons label labels =>
    cases hBody : Body.ofStatements fontProgramTag statements with
    | error error => simp
    | ok body => simp [eq_comm]

theorem read_eq_ok_iff (r q : Reader) (s : Statement) :
    r.read s = .ok q ↔ s.mnemonic ≠ .IDEF ∧ Reads r s q := by
  unfold Reader.read
  by_cases hIdef : s.mnemonic = .IDEF
  · rw [if_pos hIdef]
    constructor
    · intro h
      cases h
    · exact fun h => absurd hIdef h.1
  · rw [if_neg hIdef, and_iff_right hIdef]
    cases hCurrent : r.current? with
    | none =>
      constructor
      · intro h
        cases hKind : s.kind with
        | push => rw [hKind] at h; cases h; exact .push hCurrent hKind
        | defStart => rw [hKind] at h; cases h; exact .defStart hCurrent hKind
        | defEnd => rw [hKind] at h; cases h
        | generic | ifStart | elseStart | ifEnd | jump =>
          rw [hKind] at h
          cases h
          exact .outside hCurrent (by simp [hKind]) (by simp [hKind]) (by simp [hKind])
      · intro h
        cases h with
        | push _ hKind => rw [hKind]
        | defStart _ hKind => rw [hKind]
        | outside _ hPush hStart hEnd => cases hKind : s.kind <;> simp_all
        | inside hOpen => simp [hCurrent] at hOpen
        | defEnd hOpen => simp [hCurrent] at hOpen
    | some current =>
      obtain ⟨fdef, statements⟩ := current
      constructor
      · intro h
        cases hKind : s.kind with
        | defStart => rw [hKind] at h; cases h
        | defEnd =>
          rw [hKind] at h
          obtain ⟨label, labels, body, hLabels, hBody, rfl⟩ := (close_eq_ok_iff _ _ _ _).mp h
          exact .defEnd hCurrent hKind hLabels hBody
        | push | generic | ifStart | elseStart | ifEnd | jump =>
          rw [hKind] at h
          cases h
          exact .inside hCurrent (by simp [hKind]) (by simp [hKind])
      · intro h
        cases h with
        | push hClosed | defStart hClosed | outside hClosed => simp [hCurrent] at hClosed
        | inside hOpen hStart hEnd =>
          rw [hCurrent] at hOpen
          cases hOpen
          cases hKind : s.kind <;> simp_all
        | defEnd hOpen hKind hLabels hBody =>
          rw [hCurrent] at hOpen
          cases hOpen
          rw [hKind]
          exact (close_eq_ok_iff _ _ _ _).mpr ⟨_, _, _, hLabels, hBody, rfl⟩

end FunctionTable

/-- A statement that may stand in the body of a function. -/
structure Statement.InBody (s : Statement) : Prop where
  not_defStart : s.kind ≠ .defStart
  not_defEnd : s.kind ≠ .defEnd
  not_idef : s.mnemonic ≠ .IDEF

theorem Statement.InBody.reread {s : Statement} (h : s.InBody) (index : Nat) :
    (s.reread index).InBody := by
  refine ⟨?_, ?_, ?_⟩
  · simpa using h.not_defStart
  · simpa using h.not_defEnd
  · rw [mnemonic_reread]
    split
    · decide
    · exact h.not_idef

/-- The function was read from a region of a font program. -/
structure Definition.ReadFrom (statements : List Statement) (d : Definition) : Prop where
  body : Body.ofStatements fontProgramTag d.body.statements = .ok d.body
  region : ∃ front fdef back, statements = front ++ fdef :: (d.body.statements ++ back) ∧
    fdef.kind = .defStart
  inBody : ∀ s ∈ d.body.statements, s.InBody

theorem Definition.ReadFrom.append {statements : List Statement} {d : Definition}
    (h : d.ReadFrom statements) (more : List Statement) : d.ReadFrom (statements ++ more) := by
  obtain ⟨front, fdef, back, rfl, hStart⟩ := h.region
  exact ⟨h.body, ⟨front, fdef, back ++ more, by simp, hStart⟩, h.inBody⟩

theorem Definition.ReadFrom.mem {statements : List Statement} {d : Definition}
    (h : d.ReadFrom statements) {s : Statement} (hs : s ∈ d.body.statements) : s ∈ statements := by
  obtain ⟨front, fdef, back, rfl, _⟩ := h.region
  simp [hs]

theorem Body.ofStatements_eq_ok_iff (tag : String) (statements : List Statement) (b : Body) :
    ofStatements tag statements = .ok b ↔
      b.tag = tag ∧ Block.ofStatements statements = .ok b.block := by
  obtain ⟨tag', block⟩ := b
  unfold ofStatements
  cases Block.ofStatements statements with
  | error error => simp
  | ok block => simp [eq_comm]

theorem Body.statements_of_ofStatements {tag : String} {statements : List Statement} {b : Body}
    (h : ofStatements tag statements = .ok b) : b.statements = statements :=
  Block.statements_of_ofStatements ((ofStatements_eq_ok_iff tag statements b).mp h).2

namespace FunctionTable

/-- The table was read from regions of a font program. -/
structure ReadFrom (statements : List Statement) (t : FunctionTable) : Prop where
  nodup : t.labels.Nodup
  definitions : ∀ d ∈ t.definitions, d.ReadFrom statements

theorem ReadFrom.filter {statements : List Statement} {t : FunctionTable}
    (h : t.ReadFrom statements) (keep : Definition → Bool) :
    (t.filter keep).ReadFrom statements :=
  ⟨h.nodup.sublist (List.filter_sublist.map Definition.label),
    fun d hd => h.definitions d (List.mem_of_mem_filter hd)⟩

/-- What a reader holds comes from the statements read. -/
structure Reader.ReadFrom (statements : List Statement) (r : Reader) : Prop where
  table : r.table.ReadFrom statements
  current : ∀ fdef body, r.current? = some (fdef, body) →
    (∃ front, statements = front ++ fdef :: body.reverse) ∧ fdef.kind = .defStart ∧
      ∀ s ∈ body, s.InBody

theorem Reads.readFrom {r q : Reader} {s : Statement} (h : Reads r s q)
    (hIdef : s.mnemonic ≠ .IDEF) {statements : List Statement} (hReader : r.ReadFrom statements) :
    q.ReadFrom (statements ++ [s]) := by
  have hTable : r.table.ReadFrom (statements ++ [s]) :=
    ⟨hReader.table.nodup, fun d hd => (hReader.table.definitions d hd).append [s]⟩
  cases h with
  | push hClosed hKind => exact ⟨hTable, by simp⟩
  | defStart hClosed hKind =>
    refine ⟨hTable, ?_⟩
    rintro fdef body hOpen
    cases hOpen
    exact ⟨⟨statements, rfl⟩, hKind, by simp⟩
  | outside hClosed => exact ⟨hTable, by simp [hClosed]⟩
  | inside hOpen hStart hEnd =>
    obtain ⟨⟨front, rfl⟩, hFdef, hBody⟩ := hReader.current _ _ hOpen
    refine ⟨hTable, ?_⟩
    rintro fdef body hOpen
    cases hOpen
    refine ⟨⟨front, by simp⟩, hFdef, ?_⟩
    intro other hOther
    rcases List.mem_cons.mp hOther with rfl | hOther
    · exact ⟨hStart, hEnd, hIdef⟩
    · exact hBody other hOther
  | @defEnd fdef inner label labels body hOpen hKind hLabels hBuilt =>
    obtain ⟨⟨front, rfl⟩, hFdef, hBody⟩ := hReader.current _ _ hOpen
    have hStatements := Body.statements_of_ofStatements hBuilt
    have hDefinition : Definition.ReadFrom (front ++ fdef :: inner.reverse ++ [s])
        ⟨label, body⟩ := by
      refine ⟨?_, ⟨front, fdef, [s], ?_, hFdef⟩, ?_⟩
      · rw [hStatements]
        exact hBuilt
      · simp [hStatements]
      · intro other hOther
        rw [hStatements] at hOther
        exact hBody other (List.mem_reverse.mp hOther)
    refine ⟨⟨nodup_labels_insert hTable.nodup _, ?_⟩, by simp⟩
    intro d hd
    rcases mem_insert hd with hd | rfl
    · exact hTable.definitions d hd
    · exact hDefinition

theorem readFrom_of_foldlM {statements : List Statement} {r q : Reader} {seen : List Statement}
    (hReader : r.ReadFrom seen) (h : statements.foldlM Reader.read r = .ok q) :
    q.ReadFrom (seen ++ statements) := by
  induction statements generalizing r seen with
  | nil =>
    cases h
    rw [List.append_nil]
    exact hReader
  | cons s rest ih =>
    obtain ⟨next, hRead, hRest⟩ := foldlM_cons_eq_ok_iff.mp h
    obtain ⟨hIdef, hReads⟩ := (read_eq_ok_iff r next s).mp hRead
    have hNext := ih (hReads.readFrom hIdef hReader) hRest
    rwa [List.append_assoc, List.singleton_append] at hNext

/-- The functions of a font program were read from its regions. -/
theorem readFrom_of_ofFontProgram {statements : List Statement} {t : FunctionTable}
    (h : ofFontProgram statements = .ok t) : t.ReadFrom statements := by
  obtain ⟨r, hRead, hFinish⟩ := except_bind_eq_ok_iff.mp h
  have hStart : Reader.ReadFrom [] {} := ⟨⟨List.nodup_nil, by simp⟩, by simp⟩
  have hEnd := readFrom_of_foldlM hStart hRead
  unfold Reader.finish at hFinish
  split at hFinish
  · cases hFinish
    exact hEnd.table
  · cases hFinish

end FunctionTable

end Hinting
