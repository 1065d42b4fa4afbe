import Hinting.Proofs.FontProgram
import Mathlib.Data.List.Induction

/-!
# Which functions a font program defines

A font program is accepted when it defines no instruction, its FDEF and ENDF come in turn, a
label is left for every definition, and what stands in a definition can be linked. Places in the
program are given by what stands in front of them.

The labels are those of a machine that executes the program: a push outside of definitions
pushes its values, and an FDEF pops the label of its function and passes over the statements up to
the ENDF. Reading takes the label only at the ENDF. That makes no difference, since in
between nothing is pushed.
-/

namespace Hinting

open Hinting.Action

namespace Statement

theorem kind_eq_defStart_iff (s : Statement) : s.kind = .defStart ↔ s.mnemonic = .FDEF := by
  obtain ⟨m, operands, index⟩ := s
  cases m <;> simp [kind, Mnemonic.kind]

theorem kind_eq_defEnd_iff (s : Statement) : s.kind = .defEnd ↔ s.mnemonic = .ENDF := by
  obtain ⟨m, operands, index⟩ := s
  cases m <;> simp [kind, Mnemonic.kind]

end Statement

namespace FontProgram

def count (m : Mnemonic) (statements : List Statement) : Nat :=
  statements.countP fun s => s.mnemonic = m

/-- Whether a place with the given statements in front of it is outside of all definitions. -/
abbrev Outside (front : List Statement) : Prop :=
  count .FDEF front = count .ENDF front

def outsideValuesFrom (front : List Statement) : List Statement → List Label
  | [] => []
  | s :: rest =>
    (if s.kind = .push ∧ Outside front then s.values else []) ++
      outsideValuesFrom (front ++ [s]) rest

/-- The values of all pushes outside of definitions, in order. -/
def outsideValues (statements : List Statement) : List Label :=
  outsideValuesFrom [] statements

def frontsFrom (m : Mnemonic) (front : List Statement) : List Statement → List (List Statement)
  | [] => []
  | s :: rest => (if s.mnemonic = m then [front] else []) ++ frontsFrom m (front ++ [s]) rest

/-- What stands in front of each statement of one instruction, in order. -/
def fronts (m : Mnemonic) (statements : List Statement) : List (List Statement) :=
  frontsFrom m [] statements

/-- What stands in front of an FDEF and in front of its ENDF. -/
abbrev Region := List Statement × List Statement

/-- The statements strictly between the FDEF and the ENDF. -/
def Region.inner (region : Region) : List Statement :=
  region.2.drop (region.1.length + 1)

/-- The definitions in order: the first FDEF with the first ENDF, and so on. -/
def regions (statements : List Statement) : List Region :=
  (fronts .FDEF statements).zip (fronts .ENDF statements)

/-- The instructions that begin and end definitions, in order. -/
def boundaries (statements : List Statement) : List Mnemonic :=
  (statements.map Statement.mnemonic).filter fun m => m = .FDEF ∨ m = .ENDF

/-- FDEF and ENDF in turn, from an FDEF on, with every definition closed. -/
inductive Alternates : List Mnemonic → Prop
  | nil : Alternates []
  | region {rest : List Mnemonic} : Alternates rest → Alternates (.FDEF :: .ENDF :: rest)

/-- The font programs from which functions can be read. -/
structure Accepted (statements : List Statement) : Prop where
  not_idef : ∀ s ∈ statements, s.mnemonic ≠ .IDEF
  alternates : Alternates (boundaries statements)
  labelled : ∀ front ∈ fronts .ENDF statements, count .ENDF front < (outsideValues front).length
  linked : ∀ region ∈ regions statements,
    ∃ body, Body.ofStatements fontProgramTag region.inner = .ok body

/-- A machine that executes a font program. -/
structure Machine where
  /-- The values from the top down. -/
  stack : List Label := []
  /-- Whether the machine is in a definition, which it passes over. -/
  defining : Bool := false

def Machine.step (x : Machine) (s : Statement) : Machine :=
  if x.defining then { x with defining := s.mnemonic ≠ .ENDF }
  else if s.mnemonic = .FDEF then ⟨x.stack.tail, true⟩
  else if s.kind = .push then { x with stack := s.values.foldl (fun stack v => v :: stack) x.stack }
  else x

def Machine.after (statements : List Statement) : Machine :=
  statements.foldl Machine.step {}

/-- The function of a definition: it has the label on top of the machine's stack at the FDEF, and
the statements up to the ENDF. -/
structure Defines (region : Region) (d : Definition) : Prop where
  label : (Machine.after region.1).stack.head? = some d.label
  statements : d.body.statements = region.inner
  body : Body.ofStatements fontProgramTag region.inner = .ok d.body

section Places

variable (m : Mnemonic) (s : Statement) (front statements more : List Statement)

theorem count_concat :
    count m (statements ++ [s]) = count m statements + if s.mnemonic = m then 1 else 0 := by
  simp [count, List.countP_append, List.countP_singleton]

theorem frontsFrom_append : frontsFrom m front (statements ++ more) =
    frontsFrom m front statements ++ frontsFrom m (front ++ statements) more := by
  induction statements generalizing front with
  | nil => simp [frontsFrom]
  | cons s rest ih => simp [frontsFrom, ih]

@[simp]
theorem fronts_append :
    fronts m (statements ++ more) = fronts m statements ++ frontsFrom m statements more :=
  frontsFrom_append m [] statements more

theorem fronts_concat : fronts m (statements ++ [s]) =
    fronts m statements ++ if s.mnemonic = m then [statements] else [] := by
  rw [fronts_append, frontsFrom, frontsFrom, List.append_nil]

theorem length_frontsFrom : (frontsFrom m front statements).length = count m statements := by
  induction statements generalizing front with
  | nil => rfl
  | cons s rest ih =>
    rw [frontsFrom, List.length_append, ih, count, count, List.countP_cons, Nat.add_comm]
    by_cases hs : s.mnemonic = m
    · simp [hs]
    · simp [hs]

theorem length_fronts : (fronts m statements).length = count m statements :=
  length_frontsFrom m [] statements

theorem outsideValuesFrom_append : outsideValuesFrom front (statements ++ more) =
    outsideValuesFrom front statements ++ outsideValuesFrom (front ++ statements) more := by
  induction statements generalizing front with
  | nil => simp [outsideValuesFrom]
  | cons s rest ih => simp [outsideValuesFrom, ih]

theorem outsideValues_concat : outsideValues (statements ++ [s]) = outsideValues statements ++
    if s.kind = .push ∧ Outside statements then s.values else [] := by
  rw [outsideValues, outsideValuesFrom_append, outsideValuesFrom, outsideValuesFrom,
    List.append_nil]
  rfl

@[simp]
theorem boundaries_append :
    boundaries (statements ++ more) = boundaries statements ++ boundaries more := by
  rw [boundaries, List.map_append, List.filter_append]
  rfl

@[simp]
theorem after_concat : Machine.after (statements ++ [s]) = (Machine.after statements).step s := by
  rw [Machine.after, List.foldl_append]
  rfl

end Places

theorem Alternates.concat {front : List Mnemonic} (h : Alternates front) :
    Alternates (front ++ [.FDEF, .ENDF]) := by
  induction h with
  | nil => exact .region .nil
  | region _ ih => exact .region ih

theorem Alternates.of_append {front back : List Mnemonic} (h : Alternates front)
    (h' : Alternates (front ++ back)) : Alternates back := by
  induction h with
  | nil => exact h'
  | region _ ih =>
    cases h' with
    | region h' => exact ih h'

section Machine

variable {x : Machine} {s : Statement}

theorem Machine.step_push (hx : x.defining = false) (hs : s.kind = .push) :
    x.step s = ⟨s.values.reverse ++ x.stack, false⟩ := by
  have hFdef : s.mnemonic ≠ .FDEF := fun h => by
    rw [← Statement.kind_eq_defStart_iff, hs] at h
    cases h
  simp [step, hx, hFdef, hs]

theorem Machine.step_defStart (hx : x.defining = false) (hs : s.mnemonic = .FDEF) :
    x.step s = ⟨x.stack.tail, true⟩ := by
  simp [step, hx, hs]

theorem Machine.step_outside (hx : x.defining = false) (hPush : s.kind ≠ .push)
    (hStart : s.mnemonic ≠ .FDEF) : x.step s = x := by
  simp [step, hx, hPush, hStart]

theorem Machine.step_inside (hx : x.defining = true) (hEnd : s.mnemonic ≠ .ENDF) :
    x.step s = x := by
  obtain ⟨stack, defining⟩ := x
  simp_all [step]

theorem Machine.step_defEnd (hx : x.defining = true) (hs : s.mnemonic = .ENDF) :
    x.step s = ⟨x.stack, false⟩ := by
  simp [step, hx, hs]

end Machine

section Inner

/-- A statement that neither begins nor ends a definition. -/
structure Inner (s : Statement) : Prop where
  not_defStart : s.mnemonic ≠ .FDEF
  not_defEnd : s.mnemonic ≠ .ENDF

theorem inner_of_kind {s : Statement} (hStart : s.kind ≠ .defStart) (hEnd : s.kind ≠ .defEnd) :
    Inner s :=
  ⟨mt s.kind_eq_defStart_iff.mpr hStart, mt s.kind_eq_defEnd_iff.mpr hEnd⟩

variable {s : Statement} (h : Inner s) (seen : List Statement)
include h

theorem Inner.boundaries_concat : boundaries (seen ++ [s]) = boundaries seen := by
  rw [boundaries_append]
  simp [boundaries, h.not_defStart, h.not_defEnd]

theorem Inner.starts_concat : fronts .FDEF (seen ++ [s]) = fronts .FDEF seen := by
  rw [fronts_concat, if_neg h.not_defStart, List.append_nil]

theorem Inner.stops_concat : fronts .ENDF (seen ++ [s]) = fronts .ENDF seen := by
  rw [fronts_concat, if_neg h.not_defEnd, List.append_nil]

theorem Inner.count_defEnd_concat : count .ENDF (seen ++ [s]) = count .ENDF seen := by
  rw [count_concat, if_neg h.not_defEnd]
  rfl

theorem Inner.outside_concat : Outside (seen ++ [s]) ↔ Outside seen := by
  rw [Outside, count_concat, count_concat, if_neg h.not_defStart, if_neg h.not_defEnd]
  rfl

theorem Inner.regions_concat : regions (seen ++ [s]) = regions seen := by
  rw [regions, h.starts_concat, h.stops_concat]
  rfl

end Inner

/-- Statements that end in an open definition, with `front` in front of its FDEF. -/
structure Opened (seen front : List Statement) : Prop where
  outside : Outside front
  alternates : Alternates (boundaries front)
  boundaries : boundaries seen = boundaries front ++ [.FDEF]
  starts : fronts .FDEF seen = fronts .FDEF front ++ [front]
  stops : fronts .ENDF seen = fronts .ENDF front

namespace Opened

variable {seen front : List Statement} {s : Statement}

theorem of_defStart (hOutside : Outside front)
    (hAlternates : Alternates (FontProgram.boundaries front)) (hs : s.mnemonic = .FDEF) :
    Opened (front ++ [s]) front := by
  have hEnd : s.mnemonic ≠ .ENDF := by simp [hs]
  refine ⟨hOutside, hAlternates, ?_, ?_, ?_⟩
  · rw [boundaries_append]
    simp [FontProgram.boundaries, hs]
  · rw [fronts_concat, if_pos hs]
  · rw [fronts_concat, if_neg hEnd, List.append_nil]

theorem concat (h : Opened seen front) (hs : Inner s) : Opened (seen ++ [s]) front :=
  ⟨h.outside, h.alternates, (hs.boundaries_concat seen).trans h.boundaries,
    (hs.starts_concat seen).trans h.starts, (hs.stops_concat seen).trans h.stops⟩

theorem count_defStart (h : Opened seen front) : count .FDEF seen = count .ENDF seen + 1 := by
  rw [← length_fronts, ← length_fronts, h.starts, h.stops, List.length_append, length_fronts,
    length_fronts, h.outside, List.length_singleton]

theorem not_outside (h : Opened seen front) : ¬Outside seen := by
  rw [Outside, h.count_defStart]
  omega

theorem length_fronts_eq (h : Opened seen front) :
    (fronts .FDEF front).length = (fronts .ENDF front).length := by
  rw [length_fronts, length_fronts, h.outside]

theorem regions_eq (h : Opened seen front) : regions seen = regions front := by
  rw [regions, h.starts, h.stops, ← List.append_nil (fronts .ENDF front),
    List.zip_append h.length_fronts_eq, List.zip_nil_right, List.append_nil]
  rfl

theorem regions_defEnd (h : Opened seen front) (hs : s.mnemonic = .ENDF) (back : List Statement) :
    ∃ later, regions (seen ++ s :: back) = regions seen ++ (front, seen) :: later := by
  have hStart : s.mnemonic ≠ .FDEF := by simp [hs]
  rw [h.regions_eq, regions, fronts_append, fronts_append, h.starts, h.stops, frontsFrom,
    frontsFrom, if_neg hStart, if_pos hs, List.append_assoc, List.zip_append h.length_fronts_eq]
  exact ⟨_, rfl⟩

theorem regions_concat (h : Opened seen front) (hs : s.mnemonic = .ENDF) :
    regions (seen ++ [s]) = regions seen ++ [(front, seen)] := by
  have hStart : s.mnemonic ≠ .FDEF := by simp [hs]
  rw [h.regions_eq, regions, fronts_concat, fronts_concat, h.starts, h.stops, if_neg hStart,
    if_pos hs, List.append_nil, List.zip_append h.length_fronts_eq]
  rfl

theorem alternates_concat (h : Opened seen front) (hs : s.mnemonic = .ENDF) :
    Alternates (FontProgram.boundaries (seen ++ [s])) := by
  have hEnd : FontProgram.boundaries [s] = [.ENDF] := by simp [FontProgram.boundaries, hs]
  rw [boundaries_append, h.boundaries, hEnd, List.append_assoc]
  exact h.alternates.concat

end Opened

theorem exists_mem_of_forall₂ {regions : List Region} {definitions : List Definition}
    (h : List.Forall₂ Defines regions definitions) {region : Region} (hRegion : region ∈ regions) :
    ∃ d ∈ definitions, Defines region d := by
  induction h with
  | nil => cases hRegion
  | cons hHead _ ih =>
    rcases List.mem_cons.mp hRegion with rfl | hRegion
    · exact ⟨_, List.mem_cons_self, hHead⟩
    · obtain ⟨d, hd, hDefines⟩ := ih hRegion
      exact ⟨d, List.mem_cons_of_mem _ hd, hDefines⟩

end FontProgram

namespace FunctionTable

open FontProgram

/-- What a reader holds when it has read some statements. -/
structure Reader.Follows (seen : List Statement) (r : Reader) : Prop where
  not_idef : ∀ s ∈ seen, s.mnemonic ≠ .IDEF
  labelled : ∀ front ∈ fronts .ENDF seen, count .ENDF front < (outsideValues front).length
  counted : r.labels.length + count .ENDF seen = (outsideValues seen).length
  outside : r.current? = none → Outside seen ∧ Alternates (boundaries seen) ∧
    Machine.after seen = ⟨r.labels, false⟩
  opened : ∀ fdef inner, r.current? = some (fdef, inner) → ∃ front,
    seen = front ++ fdef :: inner.reverse ∧ Opened seen front ∧
    -- the machine has popped the label that the reader still holds
    Machine.after front = ⟨r.labels, false⟩ ∧ Machine.after seen = ⟨r.labels.tail, true⟩
  definitions : ∃ definitions, List.Forall₂ Defines (regions seen) definitions ∧
    r.table = definitions.foldl FunctionTable.insert {}

theorem Reader.follows_start : Reader.Follows [] {} where
  not_idef := by simp
  labelled := by simp [fronts, frontsFrom]
  counted := rfl
  outside _ := ⟨rfl, .nil, rfl⟩
  opened := by simp
  definitions := ⟨[], .nil, rfl⟩

section Step

variable {r q : Reader} {seen : List Statement} {s : Statement}

theorem Reader.Follows.not_idef_concat (h : r.Follows seen) (hIdef : s.mnemonic ≠ .IDEF) :
    ∀ other ∈ seen ++ [s], other.mnemonic ≠ .IDEF := by
  rw [List.forall_mem_append, List.forall_mem_singleton]
  exact ⟨h.not_idef, hIdef⟩

/-- A statement outside of definitions changes the labels at most. -/
theorem Reader.Follows.outside_concat (h : r.Follows seen) (hIdef : s.mnemonic ≠ .IDEF)
    (hClosed : r.current? = none) (hInner : Inner s) {labels : List Label}
    (hCounted : labels.length + count .ENDF seen = (outsideValues (seen ++ [s])).length)
    (hMachine : Machine.after (seen ++ [s]) = ⟨labels, false⟩) :
    Reader.Follows (seen ++ [s]) ⟨r.table, labels, none⟩ := by
  obtain ⟨hOutside, hAlternates, _⟩ := h.outside hClosed
  refine ⟨h.not_idef_concat hIdef, ?_, ?_, fun _ => ⟨?_, ?_, hMachine⟩, by simp, ?_⟩
  · rw [hInner.stops_concat]
    exact h.labelled
  · rw [hInner.count_defEnd_concat]
    exact hCounted
  · exact (hInner.outside_concat seen).mpr hOutside
  · rw [hInner.boundaries_concat]
    exact hAlternates
  · rw [hInner.regions_concat]
    exact h.definitions

theorem Reader.Follows.defStart (h : r.Follows seen) (hIdef : s.mnemonic ≠ .IDEF)
    (hClosed : r.current? = none) (hKind : s.kind = .defStart) :
    Reader.Follows (seen ++ [s]) ⟨r.table, r.labels, some (s, [])⟩ := by
  obtain ⟨hOutside, hAlternates, hMachine⟩ := h.outside hClosed
  have hStart : s.mnemonic = .FDEF := s.kind_eq_defStart_iff.mp hKind
  have hOpened : Opened (seen ++ [s]) seen := .of_defStart hOutside hAlternates hStart
  have hDefining : (Machine.after seen).defining = false := by rw [hMachine]
  refine ⟨h.not_idef_concat hIdef, ?_, ?_, by simp, ?_, ?_⟩
  · rw [hOpened.stops]
    exact h.labelled
  · have hCounted := h.counted
    rw [outsideValues_concat, count_concat]
    simpa [hKind, hStart] using hCounted
  · rintro fdef inner hOpen
    cases hOpen
    refine ⟨seen, rfl, hOpened, hMachine, ?_⟩
    rw [after_concat, Machine.step_defStart hDefining hStart, hMachine]
  · rw [hOpened.regions_eq]
    exact h.definitions

/-- A statement in a definition, be it a push, leaves no label. -/
theorem Reader.Follows.inside (h : r.Follows seen) (hIdef : s.mnemonic ≠ .IDEF) {fdef : Statement}
    {inner : List Statement} (hOpen : r.current? = some (fdef, inner)) (hInner : Inner s) :
    Reader.Follows (seen ++ [s]) ⟨r.table, r.labels, some (fdef, s :: inner)⟩ := by
  obtain ⟨front, hSeen, hOpened, hFront, hMachine⟩ := h.opened fdef inner hOpen
  have hDefining : (Machine.after seen).defining = true := by rw [hMachine]
  refine ⟨h.not_idef_concat hIdef, ?_, ?_, by simp, ?_, ?_⟩
  · rw [hInner.stops_concat]
    exact h.labelled
  · have hCounted := h.counted
    rw [outsideValues_concat, hInner.count_defEnd_concat]
    simpa [hOpened.not_outside] using hCounted
  · rintro fdef inner hOpen'
    cases hOpen'
    refine ⟨front, by simp [hSeen], hOpened.concat hInner, hFront, ?_⟩
    rw [after_concat, Machine.step_inside hDefining hInner.not_defEnd, hMachine]
  · rw [hInner.regions_concat]
    exact h.definitions

/-- The ENDF takes the label that the machine has popped at the FDEF. -/
theorem Reader.Follows.defEnd (h : r.Follows seen) (hIdef : s.mnemonic ≠ .IDEF) {fdef : Statement}
    {inner : List Statement} (hOpen : r.current? = some (fdef, inner)) (hKind : s.kind = .defEnd)
    {label : Label} {labels : List Label} {body : Body} (hLabels : r.labels = label :: labels)
    (hBody : Body.ofStatements fontProgramTag inner.reverse = .ok body) :
    Reader.Follows (seen ++ [s]) ⟨r.table.insert ⟨label, body⟩, labels, none⟩ := by
  obtain ⟨front, hSeen, hOpened, hFront, hMachine⟩ := h.opened fdef inner hOpen
  have hEnd : s.mnemonic = .ENDF := s.kind_eq_defEnd_iff.mp hKind
  have hDefining : (Machine.after seen).defining = true := by rw [hMachine]
  have hCounted := h.counted
  rw [hLabels, List.length_cons] at hCounted
  refine ⟨h.not_idef_concat hIdef, ?_, ?_, fun _ => ⟨?_, ?_, ?_⟩, by simp, ?_⟩
  · rw [fronts_concat, if_pos hEnd, List.forall_mem_append, List.forall_mem_singleton]
    exact ⟨h.labelled, by omega⟩
  · rw [outsideValues_concat, count_concat, if_pos hEnd, if_neg (by simp [hKind]),
      List.append_nil, ← hCounted]
    exact (Nat.add_right_comm _ 1 _).symm
  · rw [Outside, count_concat, count_concat, if_pos hEnd, if_neg (by simp [hEnd])]
    exact hOpened.count_defStart
  · exact hOpened.alternates_concat hEnd
  · rw [after_concat, Machine.step_defEnd hDefining hEnd, hMachine, hLabels]
    rfl
  · obtain ⟨definitions, hDefines, hTable⟩ := h.definitions
    have hInner : Region.inner (front, seen) = inner.reverse := by
      simp [Region.inner, hSeen]
    have hDefined : Defines (front, seen) ⟨label, body⟩ := by
      refine ⟨?_, ?_, ?_⟩
      · rw [hFront, hLabels]
        rfl
      · rw [hInner]
        exact Body.statements_of_ofStatements hBody
      · rw [hInner]
        exact hBody
    refine ⟨definitions ++ [⟨label, body⟩], ?_, ?_⟩
    · rw [hOpened.regions_concat hEnd]
      exact List.rel_append hDefines (.cons hDefined .nil)
    · rw [List.foldl_append, ← hTable]
      rfl

theorem Reads.follows (h : Reads r s q) (hIdef : s.mnemonic ≠ .IDEF) (hReader : r.Follows seen) :
    q.Follows (seen ++ [s]) := by
  cases h with
  | push hClosed hKind =>
    obtain ⟨hOutside, _, hMachine⟩ := hReader.outside hClosed
    have hDefining : (Machine.after seen).defining = false := by rw [hMachine]
    have hInner : Inner s := inner_of_kind (by simp [hKind]) (by simp [hKind])
    apply hReader.outside_concat hIdef hClosed hInner
    · rw [outsideValues_concat, if_pos ⟨hKind, hOutside⟩, List.length_append, List.length_append,
        List.length_reverse, ← hReader.counted, Nat.add_assoc, Nat.add_comm]
    · rw [after_concat, Machine.step_push hDefining hKind, hMachine]
  | defStart hClosed hKind => exact hReader.defStart hIdef hClosed hKind
  | outside hClosed hPush hStart hEnd =>
    obtain ⟨_, _, hMachine⟩ := hReader.outside hClosed
    have hDefining : (Machine.after seen).defining = false := by rw [hMachine]
    have hInner : Inner s := inner_of_kind hStart hEnd
    have hSame : r = ⟨r.table, r.labels, none⟩ := by rw [← hClosed]
    rw [hSame]
    apply hReader.outside_concat hIdef hClosed hInner
    · rw [outsideValues_concat, if_neg fun hBoth => hPush hBoth.1, List.append_nil]
      exact hReader.counted
    · rw [after_concat, Machine.step_outside hDefining hPush hInner.not_defStart, hMachine]
  | inside hOpen hStart hEnd => exact hReader.inside hIdef hOpen (inner_of_kind hStart hEnd)
  | defEnd hOpen hKind hLabels hBody => exact hReader.defEnd hIdef hOpen hKind hLabels hBody

end Step

theorem follows_of_foldlM {statements : List Statement} {r q : Reader} {seen : List Statement}
    (hReader : r.Follows seen) (h : statements.foldlM Reader.read r = .ok q) :
    q.Follows (seen ++ statements) := by
  induction statements generalizing r seen with
  | nil =>
    cases h
    rw [List.append_nil]
    exact hReader
  | cons s rest ih =>
    obtain ⟨next, hRead, hRest⟩ := foldlM_cons_eq_ok_iff.mp h
    obtain ⟨hIdef, hReads⟩ := (read_eq_ok_iff r next s).mp hRead
    have hNext := ih (hReads.follows hIdef hReader) hRest
    rwa [List.append_assoc, List.singleton_append] at hNext

/-- In a program that is accepted, a reader can read on wherever it is. -/
theorem Reader.Follows.exists_reads {r : Reader} {front back : List Statement} {s : Statement}
    (hReader : r.Follows front) (h : Accepted (front ++ s :: back)) : ∃ q, Reads r s q := by
  have hAlternates := h.alternates
  rw [boundaries_append] at hAlternates
  cases hCurrent : r.current? with
  | none =>
    obtain ⟨_, hFront, _⟩ := hReader.outside hCurrent
    have hBack := hFront.of_append hAlternates
    cases hKind : s.kind with
    | push => exact ⟨_, .push hCurrent hKind⟩
    | defStart => exact ⟨_, .defStart hCurrent hKind⟩
    | defEnd =>
      -- what follows whole definitions begins with an FDEF
      have hEnd : s.mnemonic = .ENDF := s.kind_eq_defEnd_iff.mp hKind
      rw [boundaries, List.map_cons, hEnd, List.filter_cons_of_pos (by simp)] at hBack
      cases hBack
    | generic | ifStart | elseStart | ifEnd | jump =>
      exact ⟨r, .outside hCurrent (by simp [hKind]) (by simp [hKind]) (by simp [hKind])⟩
  | some current =>
    obtain ⟨fdef, inner⟩ := current
    obtain ⟨start, hSeen, hOpened, _, _⟩ := hReader.opened _ _ hCurrent
    rw [hOpened.boundaries, List.append_assoc] at hAlternates
    have hBack := hOpened.alternates.of_append hAlternates
    cases hKind : s.kind with
    | defStart =>
      have hStart : s.mnemonic = .FDEF := s.kind_eq_defStart_iff.mp hKind
      rw [boundaries, List.map_cons, hStart, List.filter_cons_of_pos (by simp)] at hBack
      cases hBack
    | defEnd =>
      have hEnd : s.mnemonic = .ENDF := s.kind_eq_defEnd_iff.mp hKind
      obtain ⟨later, hRegions⟩ := hOpened.regions_defEnd hEnd back
      have hInner : Region.inner (start, front) = inner.reverse := by
        simp [Region.inner, hSeen]
      obtain ⟨body, hBody⟩ := h.linked (start, front) (by simp [hRegions])
      rw [hInner] at hBody
      have hLabelled := h.labelled front (by simp [fronts_append, frontsFrom, hEnd])
      have hCounted := hReader.counted
      cases hLabels : r.labels with
      | nil =>
        rw [hLabels, List.length_nil] at hCounted
        omega
      | cons label labels => exact ⟨_, .defEnd hCurrent hKind hLabels hBody⟩
    | push | generic | ifStart | elseStart | ifEnd | jump =>
      exact ⟨_, .inside hCurrent (by simp [hKind]) (by simp [hKind])⟩

theorem exists_foldlM_of_accepted {statements : List Statement} {r : Reader}
    {seen : List Statement} (hReader : r.Follows seen) (h : Accepted (seen ++ statements)) :
    ∃ q, statements.foldlM Reader.read r = .ok q := by
  induction statements generalizing r seen with
  | nil => exact ⟨r, rfl⟩
  | cons s rest ih =>
    have hIdef : s.mnemonic ≠ .IDEF := h.not_idef s (by simp)
    obtain ⟨next, hReads⟩ := hReader.exists_reads h
    rw [← List.singleton_append, ← List.append_assoc] at h
    obtain ⟨q, hRest⟩ := ih (hReads.follows hIdef hReader) h
    exact ⟨q, foldlM_cons_eq_ok_iff.mpr
      ⟨next, (read_eq_ok_iff r next s).mpr ⟨hIdef, hReads⟩, hRest⟩⟩

theorem ofFontProgram_eq_ok_iff (statements : List Statement) (t : FunctionTable) :
    ofFontProgram statements = .ok t ↔ ∃ r : Reader,
      statements.foldlM Reader.read {} = .ok r ∧ r.current? = none ∧ r.table = t := by
  rw [ofFontProgram, except_bind_eq_ok_iff]
  refine exists_congr fun r => and_congr_right fun _ => ?_
  unfold Reader.finish
  cases r.current? with
  | none => simp
  | some current => simp

theorem exists_definitions_of_ofFontProgram {statements : List Statement} {t : FunctionTable}
    (h : ofFontProgram statements = .ok t) :
    ∃ definitions, List.Forall₂ Defines (regions statements) definitions ∧
      t = definitions.foldl insert {} := by
  obtain ⟨r, hRead, _, rfl⟩ := (ofFontProgram_eq_ok_iff statements t).mp h
  exact (follows_of_foldlM Reader.follows_start hRead).definitions

theorem Reader.Follows.accepted {r : Reader} {statements : List Statement}
    (h : r.Follows statements) (hClosed : r.current? = none) : Accepted statements := by
  obtain ⟨definitions, hDefines, _⟩ := h.definitions
  refine ⟨h.not_idef, (h.outside hClosed).2.1, h.labelled, ?_⟩
  intro region hRegion
  obtain ⟨d, _, hd⟩ := exists_mem_of_forall₂ hDefines hRegion
  exact ⟨d.body, hd.body⟩

theorem Reader.Follows.closed {r : Reader} {statements : List Statement}
    (h : r.Follows statements) (hAccepted : Accepted statements) : r.current? = none := by
  cases hCurrent : r.current? with
  | none => rfl
  | some current =>
    obtain ⟨fdef, inner⟩ := current
    obtain ⟨front, _, hOpened, _⟩ := h.opened fdef inner hCurrent
    have hAlternates := hAccepted.alternates
    rw [hOpened.boundaries] at hAlternates
    have hBack := hOpened.alternates.of_append hAlternates
    cases hBack

/-- Functions inserted in order: each label stands where it came first. -/
theorem labels_foldl_insert (definitions : List Definition) :
    (definitions.foldl insert {}).labels = (definitions.map Definition.label).eraseDups := by
  induction definitions using List.reverseRecOn with
  | nil => rfl
  | append_singleton front d ih =>
    rw [List.foldl_append, List.foldl_cons, List.foldl_nil, labels_insert, ih, List.map_append,
      List.eraseDups_append]
    by_cases hLabel : d.label ∈ front.map Definition.label
    · rw [if_pos (List.mem_eraseDups.mpr hLabel), List.map_singleton, List.removeAll,
        List.filter_cons_of_neg (by simpa using hLabel), List.filter_nil, List.eraseDups_nil,
        List.append_nil]
    · rw [if_neg (mt List.mem_eraseDups.mp hLabel), List.map_singleton, List.removeAll,
        List.filter_cons_of_pos (by simpa using hLabel), List.filter_nil]
      rfl

/-- Functions inserted in order: each label has the function that came last. -/
theorem get?_foldl_insert (definitions : List Definition) (label : Label) :
    (definitions.foldl insert {}).get? label =
      definitions.reverse.find? fun d => d.label == label := by
  induction definitions using List.reverseRecOn with
  | nil => rfl
  | append_singleton front d ih =>
    rw [List.foldl_append, List.foldl_cons, List.foldl_nil, get?_insert, ih, List.reverse_append,
      List.reverse_singleton, List.singleton_append]
    by_cases hLabel : d.label = label
    · rw [if_pos hLabel, List.find?_cons_of_pos (by simpa using hLabel)]
    · rw [if_neg hLabel, List.find?_cons_of_neg (by simpa using hLabel)]

/-- Functions can be read from exactly the programs that are accepted, and the table has the
functions of the definitions, inserted in order. -/
theorem ofFontProgram_matches_machine (statements : List Statement) :
    ((∃ t, ofFontProgram statements = .ok t) ↔ Accepted statements) ∧
    ∀ t, ofFontProgram statements = .ok t →
      ∃ definitions, List.Forall₂ Defines (regions statements) definitions ∧
        t = definitions.foldl insert {} ∧
        t.labels = (definitions.map Definition.label).eraseDups ∧
        ∀ label, t.get? label = definitions.reverse.find? fun d => d.label == label := by
  refine ⟨⟨?_, ?_⟩, ?_⟩
  · rintro ⟨t, h⟩
    obtain ⟨r, hRead, hClosed, _⟩ := (ofFontProgram_eq_ok_iff statements t).mp h
    exact (follows_of_foldlM Reader.follows_start hRead).accepted hClosed
  · intro h
    obtain ⟨r, hRead⟩ := exists_foldlM_of_accepted Reader.follows_start h
    have hClosed := (follows_of_foldlM Reader.follows_start hRead).closed h
    exact ⟨r.table, (ofFontProgram_eq_ok_iff statements r.table).mpr ⟨r, hRead, hClosed, rfl⟩⟩
  · intro t h
    obtain ⟨definitions, hDefines, hTable⟩ := exists_definitions_of_ofFontProgram h
    refine ⟨definitions, hDefines, hTable, ?_, ?_⟩
    · rw [hTable]
      exact labels_foldl_insert definitions
    · rw [hTable]
      exact get?_foldl_insert definitions

/-- A label is left over, a definition has a push, and a function is defined again. -/
theorem ofFontProgram_matches_machine_redefined : ∃ statements t definitions,
    readProgram "fpgm" ("PUSHB[ ] 9 2 1 FDEF[ ] PUSHB[ ] 7 ENDF[ ] FDEF[ ] ENDF[ ] " ++
      "PUSHB[ ] 1 FDEF[ ] RTG[ ] ENDF[ ]") = .ok statements ∧
    ofFontProgram statements = .ok t ∧ Accepted statements ∧
    List.Forall₂ Defines (regions statements) definitions ∧
    (regions statements).map (fun region => (Machine.after region.1).stack) =
      [[1, 2, 9], [2, 9], [1, 9]] ∧
    t = definitions.foldl insert {} ∧ t.labels = [1, 2] := by
  have hEvaluated : ((readProgram "fpgm"
      ("PUSHB[ ] 9 2 1 FDEF[ ] PUSHB[ ] 7 ENDF[ ] FDEF[ ] ENDF[ ] " ++
        "PUSHB[ ] 1 FDEF[ ] RTG[ ] ENDF[ ]")).toOption.bind fun statements =>
        (ofFontProgram statements).toOption.map fun t =>
          ((regions statements).map (fun region => (Machine.after region.1).stack), t.labels)) =
      some ([[1, 2, 9], [2, 9], [1, 9]], [1, 2]) := by
    decide +kernel
  obtain ⟨statements, hRead, hRest⟩ := Option.bind_eq_some_iff.mp hEvaluated
  obtain ⟨t, hTable, hSame⟩ := Option.map_eq_some_iff.mp hRest
  obtain ⟨hStacks, hLabels⟩ := Prod.mk.inj hSame
  have hOk := eq_ok_of_toOption hTable
  obtain ⟨hAccepted, hTables⟩ := ofFontProgram_matches_machine statements
  obtain ⟨definitions, hDefines, hInserted, _⟩ := hTables t hOk
  exact ⟨statements, t, definitions, eq_ok_of_toOption hRead, hOk, hAccepted.mp ⟨t, hOk⟩, hDefines,
    hStacks, hInserted, hLabels⟩

end FunctionTable

end Hinting
