import Hinting.Block
import Hinting.Proofs.Action
import Mathlib.Data.List.Forall2

/-!
# Reading statements as a block

The block read from statements has them as its statements. Which block is read depends
on the kinds of the statements only: lists of statements that correspond, each to one
of its own kind, are read as blocks of one shape whose statements correspond.
-/

namespace Hinting

open Hinting.Action

/-- Kinds of statements that have no part in branches. -/
def Kind.isSimple : Kind → Bool
  | .generic | .defStart | .defEnd | .push => true
  | .ifStart | .elseStart | .ifEnd | .jump _ => false

namespace Block

/-- What reading one statement does. -/
inductive Reads (r : Reader) (s : Statement) : Reader → Prop
  | ifStart : s.kind = .ifStart → Reads r s ⟨⟨r.closed, s, none⟩ :: r.opened, []⟩
  | elseStart {before : List Block} {ifStatement : Statement} {outer : List OpenIf} :
      s.kind = .elseStart → r.opened = ⟨before, ifStatement, none⟩ :: outer →
      Reads r s ⟨⟨before, ifStatement, some (joinReversed r.closed, s)⟩ :: outer, []⟩
  | ifEnd {o : OpenIf} {outer : List OpenIf} : s.kind = .ifEnd → r.opened = o :: outer →
      Reads r s ⟨outer, o.close (joinReversed r.closed) s :: o.before⟩
  | simple : s.kind.isSimple = true → Reads r s ⟨r.opened, .step s .nil :: r.closed⟩

theorem read_eq_ok_iff (r q : Reader) (s : Statement) : r.read s = .ok q ↔ Reads r s q := by
  constructor
  · intro h
    unfold Reader.read at h
    cases hKind : s.kind with
    | jump form =>
      rw [hKind] at h
      cases h
    | ifStart =>
      rw [hKind] at h
      cases h
      exact .ifStart hKind
    | elseStart =>
      cases hOpened : r.opened with
      | nil =>
        rw [hKind, hOpened] at h
        cases h
      | cons o outer =>
        obtain ⟨before, ifStatement, thenArm?⟩ := o
        cases thenArm? with
        | none =>
          rw [hKind, hOpened] at h
          cases h
          exact .elseStart hKind hOpened
        | some arm =>
          rw [hKind, hOpened] at h
          cases h
    | ifEnd =>
      cases hOpened : r.opened with
      | nil =>
        rw [hKind, hOpened] at h
        cases h
      | cons o outer =>
        rw [hKind, hOpened] at h
        cases h
        exact .ifEnd hKind hOpened
    | generic | defStart | defEnd | push =>
      rw [hKind] at h
      cases h
      exact .simple (by rw [hKind]; rfl)
  · intro h
    unfold Reader.read
    cases h with
    | ifStart hKind => simp only [hKind]
    | elseStart hKind hOpened => simp only [hKind, hOpened]
    | ifEnd hKind hOpened => simp only [hKind, hOpened]
    | simple hKind => cases hEq : s.kind <;> simp_all [Kind.isSimple]

@[simp]
theorem statements_append (b c : Block) :
    (b.append c).statements = b.statements ++ c.statements := by
  induction b with
  | nil => rfl
  | step s rest ih => simp [append, statements, ih]
  | cond s thenArm eif rest _ ih => simp [append, statements, ih]
  | condElse s thenArm mid elseArm eif rest _ _ ih => simp [append, statements, ih]

theorem statements_joinReversed (blocks : List Block) :
    (joinReversed blocks).statements = blocks.reverse.flatMap statements := by
  have hFold (last : Block) : (blocks.foldl (fun rest block => block.append rest) last).statements =
      blocks.reverse.flatMap statements ++ last.statements := by
    induction blocks generalizing last with
    | nil => rfl
    | cons b blocks ih => simp [ih]
  rw [joinReversed, hFold]
  exact List.append_nil _

/-- The statements read into an open IF and in front of it. -/
def OpenIf.seen (o : OpenIf) : List Statement :=
  o.before.reverse.flatMap statements ++ o.ifStatement ::
    match o.thenArm? with
    | none => []
    | some (thenArm, mid) => thenArm.statements ++ [mid]

def Reader.seen (r : Reader) : List Statement :=
  r.opened.reverse.flatMap OpenIf.seen ++ r.closed.reverse.flatMap statements

theorem Reads.seen {r q : Reader} {s : Statement} (h : Reads r s q) : q.seen = r.seen ++ [s] := by
  cases h with
  | ifStart hKind => simp [Reader.seen, OpenIf.seen]
  | elseStart hKind hOpened =>
    simp [Reader.seen, OpenIf.seen, hOpened, statements_joinReversed]
  | @ifEnd o outer hKind hOpened =>
    obtain ⟨before, ifStatement, thenArm?⟩ := o
    cases thenArm? with
    | none => simp [Reader.seen, OpenIf.seen, OpenIf.close, hOpened, statements,
        statements_joinReversed]
    | some arm => simp [Reader.seen, OpenIf.seen, OpenIf.close, hOpened, statements,
        statements_joinReversed]
  | simple hKind => simp [Reader.seen, statements]

theorem seen_of_foldlM {statements : List Statement} {r q : Reader}
    (h : statements.foldlM Reader.read r = .ok q) : q.seen = r.seen ++ statements := by
  induction statements generalizing r with
  | nil =>
    cases h
    exact (List.append_nil _).symm
  | cons s rest ih =>
    obtain ⟨next, hRead, hRest⟩ := foldlM_cons_eq_ok_iff.mp h
    rw [ih hRest, ((read_eq_ok_iff r next s).mp hRead).seen, List.append_assoc,
      List.singleton_append]

theorem finish_eq_ok_iff (r : Reader) (b : Block) :
    r.finish = .ok b ↔ r.opened = [] ∧ b = joinReversed r.closed := by
  obtain ⟨opened, closed⟩ := r
  cases opened with
  | nil =>
    constructor
    · intro h
      cases h
      exact ⟨rfl, rfl⟩
    · rintro ⟨_, rfl⟩
      rfl
  | cons o outer =>
    constructor
    · intro h
      cases h
    · rintro ⟨h, _⟩
      cases h

theorem statements_of_ofStatements {statements : List Statement} {b : Block}
    (h : ofStatements statements = .ok b) : b.statements = statements := by
  obtain ⟨r, hRead, hFinish⟩ := except_bind_eq_ok_iff.mp h
  obtain ⟨hOpened, rfl⟩ := (finish_eq_ok_iff r b).mp hFinish
  have hSeen := seen_of_foldlM hRead
  simp only [Reader.seen, hOpened, List.reverse_nil, List.flatMap_nil, List.nil_append] at hSeen
  rw [statements_joinReversed, hSeen]

/-- Every statement is of the kind that its place in the block asks for. -/
def Regular : Block → Prop
  | .nil => True
  | .step s rest => s.kind.isSimple = true ∧ rest.Regular
  | .cond s thenArm eif rest =>
    s.kind = .ifStart ∧ thenArm.Regular ∧ eif.kind = .ifEnd ∧ rest.Regular
  | .condElse s thenArm mid elseArm eif rest =>
    s.kind = .ifStart ∧ thenArm.Regular ∧ mid.kind = .elseStart ∧ elseArm.Regular ∧
      eif.kind = .ifEnd ∧ rest.Regular

theorem Regular.append {b c : Block} (hb : b.Regular) (hc : c.Regular) : (b.append c).Regular := by
  induction b with
  | nil => exact hc
  | step s rest ih => exact ⟨hb.1, ih hb.2⟩
  | cond s thenArm eif rest _ ih =>
    obtain ⟨hIf, hThen, hEif, hRest⟩ := hb
    exact ⟨hIf, hThen, hEif, ih hRest⟩
  | condElse s thenArm mid elseArm eif rest _ _ ih =>
    obtain ⟨hIf, hThen, hMid, hElse, hEif, hRest⟩ := hb
    exact ⟨hIf, hThen, hMid, hElse, hEif, ih hRest⟩

theorem regular_joinReversed {blocks : List Block} (h : ∀ b ∈ blocks, b.Regular) :
    (joinReversed blocks).Regular := by
  have hFold {last : Block} (hLast : last.Regular) :
      (blocks.foldl (fun rest block => block.append rest) last).Regular := by
    induction blocks generalizing last with
    | nil => exact hLast
    | cons b blocks ih =>
      rw [List.forall_mem_cons] at h
      exact ih h.2 (h.1.append hLast)
  exact hFold trivial

structure OpenIf.Regular (o : OpenIf) : Prop where
  before : ∀ b ∈ o.before, b.Regular
  kind : o.ifStatement.kind = .ifStart
  thenArm : ∀ arm mid, o.thenArm? = some (arm, mid) → arm.Regular ∧ mid.kind = .elseStart

theorem OpenIf.Regular.close {o : OpenIf} (h : o.Regular) {arm : Block} (hArm : arm.Regular)
    {eif : Statement} (hEif : eif.kind = .ifEnd) : (o.close arm eif).Regular := by
  obtain ⟨before, ifStatement, thenArm?⟩ := o
  cases thenArm? with
  | none => exact ⟨h.kind, hArm, hEif, trivial⟩
  | some thenArm =>
    obtain ⟨hThen, hMid⟩ := h.thenArm thenArm.1 thenArm.2 rfl
    exact ⟨h.kind, hThen, hMid, hArm, hEif, trivial⟩

structure Reader.Regular (r : Reader) : Prop where
  opened : ∀ o ∈ r.opened, o.Regular
  closed : ∀ b ∈ r.closed, b.Regular

theorem Reads.regular {r q : Reader} {s : Statement} (h : Reads r s q) (hr : r.Regular) :
    q.Regular := by
  obtain ⟨hOpened, hClosed⟩ := hr
  cases h with
  | ifStart hKind =>
    refine ⟨List.forall_mem_cons.mpr ⟨⟨hClosed, hKind, ?_⟩, hOpened⟩, by simp⟩
    intro arm mid h
    cases h
  | elseStart hKind hFirst =>
    rw [hFirst, List.forall_mem_cons] at hOpened
    refine ⟨List.forall_mem_cons.mpr ⟨⟨hOpened.1.before, hOpened.1.kind, ?_⟩, hOpened.2⟩, by simp⟩
    intro arm mid h
    cases h
    exact ⟨regular_joinReversed hClosed, hKind⟩
  | ifEnd hKind hFirst =>
    rw [hFirst, List.forall_mem_cons] at hOpened
    refine ⟨hOpened.2, List.forall_mem_cons.mpr ⟨?_, hOpened.1.before⟩⟩
    exact hOpened.1.close (regular_joinReversed hClosed) hKind
  | simple hKind => exact ⟨hOpened, List.forall_mem_cons.mpr ⟨⟨hKind, trivial⟩, hClosed⟩⟩

theorem regular_of_foldlM {statements : List Statement} {r q : Reader}
    (h : statements.foldlM Reader.read r = .ok q) (hr : r.Regular) : q.Regular := by
  induction statements generalizing r with
  | nil =>
    cases h
    exact hr
  | cons s rest ih =>
    obtain ⟨next, hRead, hRest⟩ := foldlM_cons_eq_ok_iff.mp h
    exact ih hRest (((read_eq_ok_iff r next s).mp hRead).regular hr)

theorem regular_of_ofStatements {statements : List Statement} {b : Block}
    (h : ofStatements statements = .ok b) : b.Regular := by
  obtain ⟨r, hRead, hFinish⟩ := except_bind_eq_ok_iff.mp h
  obtain ⟨_, rfl⟩ := (finish_eq_ok_iff r b).mp hFinish
  have hStart : Reader.Regular {} := ⟨by simp, by simp⟩
  exact regular_joinReversed (regular_of_foldlM hRead hStart).closed

/-- Blocks of one shape whose statements are related. -/
inductive Related (R : Statement → Statement → Prop) : Block → Block → Prop
  | nil : Related R .nil .nil
  | step {s t : Statement} {rest tail : Block} : R s t → Related R rest tail →
      Related R (.step s rest) (.step t tail)
  | cond {s t eif end' : Statement} {thenArm arm rest tail : Block} : R s t →
      Related R thenArm arm → R eif end' → Related R rest tail →
      Related R (.cond s thenArm eif rest) (.cond t arm end' tail)
  | condElse {s t mid other eif end' : Statement} {thenArm arm elseArm otherArm rest tail : Block} :
      R s t → Related R thenArm arm → R mid other → Related R elseArm otherArm → R eif end' →
      Related R rest tail →
      Related R (.condElse s thenArm mid elseArm eif rest)
        (.condElse t arm other otherArm end' tail)

section Related

variable {R : Statement → Statement → Prop}

theorem Related.refl (h : ∀ s, R s s) (b : Block) : Related R b b := by
  induction b with
  | nil => exact .nil
  | step s rest ih => exact .step (h s) ih
  | cond s thenArm eif rest ihThen ihRest => exact .cond (h s) ihThen (h eif) ihRest
  | condElse s thenArm mid elseArm eif rest ihThen ihElse ihRest =>
    exact .condElse (h s) ihThen (h mid) ihElse (h eif) ihRest

theorem Related.of_mem {S : Statement → Statement → Prop} {b c : Block} (h : Related R b c)
    (hMem : ∀ s, ∀ t ∈ c.statements, R s t → S s t) : Related S b c := by
  induction h with
  | nil => exact .nil
  | step hs _ ih =>
    simp only [statements, List.forall_mem_cons] at hMem
    exact .step ((hMem _).1 hs) (ih fun s => (hMem s).2)
  | cond hs _ hEif _ ihThen ihRest =>
    simp only [statements, List.forall_mem_cons, List.forall_mem_append] at hMem
    exact .cond ((hMem _).1.1 hs) (ihThen fun s => (hMem s).1.2) ((hMem _).2.1 hEif)
      (ihRest fun s => (hMem s).2.2)
  | condElse hs _ hMid _ hEif _ ihThen ihElse ihRest =>
    simp only [statements, List.forall_mem_cons, List.forall_mem_append] at hMem
    exact .condElse ((hMem _).1.1.1 hs) (ihThen fun s => (hMem s).1.1.2) ((hMem _).1.2.1 hMid)
      (ihElse fun s => (hMem s).1.2.2) ((hMem _).2.1 hEif) (ihRest fun s => (hMem s).2.2)

theorem Related.append {b c b' c' : Block} (h : Related R b c) (h' : Related R b' c') :
    Related R (b.append b') (c.append c') := by
  induction h with
  | nil => exact h'
  | step hs _ ih => exact .step hs ih
  | cond hs hThen hEif _ _ ih => exact .cond hs hThen hEif ih
  | condElse hs hThen hMid hElse hEif _ _ _ ih => exact .condElse hs hThen hMid hElse hEif ih

theorem Related.joinReversed {bs cs : List Block} (h : List.Forall₂ (Related R) bs cs) :
    Related R (joinReversed bs) (joinReversed cs) := by
  have hFold {last last' : Block} (hLast : Related R last last') :
      Related R (bs.foldl (fun rest block => block.append rest) last)
        (cs.foldl (fun rest block => block.append rest) last') := by
    induction h generalizing last last' with
    | nil => exact hLast
    | cons hHead _ ih => exact ih (hHead.append hLast)
  exact hFold .nil

inductive OpenIf.Related (R : Statement → Statement → Prop) : OpenIf → OpenIf → Prop
  | thenArm {before before' : List Block} {s t : Statement} :
      List.Forall₂ (Block.Related R) before before' → R s t →
      OpenIf.Related R ⟨before, s, none⟩ ⟨before', t, none⟩
  | elseArm {before before' : List Block} {s t mid mid' : Statement} {arm arm' : Block} :
      List.Forall₂ (Block.Related R) before before' → R s t → Block.Related R arm arm' →
      R mid mid' → OpenIf.Related R ⟨before, s, some (arm, mid)⟩ ⟨before', t, some (arm', mid')⟩

theorem OpenIf.Related.before {o o' : OpenIf} (h : OpenIf.Related R o o') :
    List.Forall₂ (Block.Related R) o.before o'.before := by
  cases h with
  | thenArm hBefore => exact hBefore
  | elseArm hBefore => exact hBefore

theorem OpenIf.Related.close {o o' : OpenIf} (h : OpenIf.Related R o o') {arm arm' : Block}
    (hArm : Block.Related R arm arm') {eif eif' : Statement} (hEif : R eif eif') :
    Block.Related R (o.close arm eif) (o'.close arm' eif') := by
  cases h with
  | thenArm _ hIf => exact .cond hIf hArm hEif .nil
  | elseArm _ hIf hThen hMid => exact .condElse hIf hThen hMid hArm hEif .nil

structure Reader.Related (R : Statement → Statement → Prop) (r q : Reader) : Prop where
  opened : List.Forall₂ (OpenIf.Related R) r.opened q.opened
  closed : List.Forall₂ (Block.Related R) r.closed q.closed

theorem Reads.related {r r' q' : Reader} {s s' : Statement} (h : Reads r' s' q')
    (hReader : Reader.Related R r r') (hs : R s s') (hKind : s.kind = s'.kind) :
    ∃ q, Reads r s q ∧ Reader.Related R q q' := by
  obtain ⟨hOpen, hClosed⟩ := hReader
  cases h with
  | ifStart hStart =>
    exact ⟨_, .ifStart (hKind.trans hStart), .cons (.thenArm hClosed hs) hOpen, .nil⟩
  | elseStart hStart hOpened =>
    rw [hOpened] at hOpen
    obtain ⟨o, outer, hFirst, hOuter, hEq⟩ := List.forall₂_cons_right_iff.mp hOpen
    obtain ⟨before, ifStatement, thenArm?⟩ := o
    cases hFirst with
    | thenArm hBefore hIf =>
      exact ⟨_, .elseStart (hKind.trans hStart) hEq,
        .cons (.elseArm hBefore hIf (.joinReversed hClosed) hs) hOuter, .nil⟩
  | ifEnd hEnd hOpened =>
    rw [hOpened] at hOpen
    obtain ⟨o, outer, hFirst, hOuter, hEq⟩ := List.forall₂_cons_right_iff.mp hOpen
    exact ⟨_, .ifEnd (hKind.trans hEnd) hEq, hOuter,
      .cons (hFirst.close (.joinReversed hClosed) hs) hFirst.before⟩
  | simple hSimple =>
    exact ⟨_, .simple (hKind ▸ hSimple), hOpen, .cons (.step hs .nil) hClosed⟩

theorem foldlM_read_related (hKind : ∀ s t, R s t → s.kind = t.kind)
    {statements statements' : List Statement} (h : List.Forall₂ R statements statements')
    {r r' q' : Reader} (hReader : Reader.Related R r r')
    (hRead : statements'.foldlM Reader.read r' = .ok q') :
    ∃ q, statements.foldlM Reader.read r = .ok q ∧ Reader.Related R q q' := by
  induction h generalizing r r' with
  | nil =>
    cases hRead
    exact ⟨r, rfl, hReader⟩
  | cons hs _ ih =>
    obtain ⟨next', hFirst, hRest⟩ := foldlM_cons_eq_ok_iff.mp hRead
    obtain ⟨next, hNext, hRelated⟩ :=
      ((read_eq_ok_iff _ _ _).mp hFirst).related hReader hs (hKind _ _ hs)
    obtain ⟨q, hLast, hEnd⟩ := ih hRelated hRest
    exact ⟨q, foldlM_cons_eq_ok_iff.mpr ⟨next, (read_eq_ok_iff _ _ _).mpr hNext, hLast⟩, hEnd⟩

/-- Statements that correspond to those of a block are read as a block of its shape. -/
theorem ofStatements_related (hKind : ∀ s t, R s t → s.kind = t.kind)
    {statements statements' : List Statement} (h : List.Forall₂ R statements statements')
    {b' : Block} (hOk : ofStatements statements' = .ok b') :
    ∃ b, ofStatements statements = .ok b ∧ Related R b b' := by
  obtain ⟨q', hRead, hFinish⟩ := except_bind_eq_ok_iff.mp hOk
  obtain ⟨hOpened, rfl⟩ := (finish_eq_ok_iff q' b').mp hFinish
  have hStart : Reader.Related R {} {} := ⟨.nil, .nil⟩
  obtain ⟨q, hRead, hOpen, hClosed⟩ := foldlM_read_related hKind h hStart hRead
  rw [hOpened, List.forall₂_nil_right_iff] at hOpen
  exact ⟨_, except_bind_eq_ok_iff.mpr ⟨q, hRead, (finish_eq_ok_iff q _).mpr ⟨hOpen, rfl⟩⟩,
    .joinReversed hClosed⟩

end Related

end Block

end Hinting
