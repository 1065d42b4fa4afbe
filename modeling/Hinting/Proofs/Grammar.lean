import Hinting.Proofs.FontProgram

/-!
# The grammar of bodies

`Derivable` is the grammar of the statement lists that can be linked:

  S ::= empty | other S | IF S EIF S | IF S ELSE S EIF S

where `other` is any statement but an IF, ELSE, EIF or jump. The reader accepts what the
grammar derives. What it has read can always be completed, by an EIF for each open IF, so
a statement that it refuses is the first one that no continuation repairs.
-/

namespace Hinting

open Hinting.Action

namespace Block

inductive Derivable : List Statement → Prop
  | nil : Derivable []
  | other {s : Statement} {rest : List Statement} : s.kind.isSimple = true → Derivable rest →
      Derivable (s :: rest)
  | cond {s eif : Statement} {thenArm rest : List Statement} : s.kind = .ifStart →
      Derivable thenArm → eif.kind = .ifEnd → Derivable rest →
      Derivable (s :: (thenArm ++ eif :: rest))
  | condElse {s mid eif : Statement} {thenArm elseArm rest : List Statement} :
      s.kind = .ifStart → Derivable thenArm → mid.kind = .elseStart → Derivable elseArm →
      eif.kind = .ifEnd → Derivable rest →
      Derivable (s :: (thenArm ++ mid :: (elseArm ++ eif :: rest)))

def TwoArms (statements : List Statement) : Prop :=
  ∃ thenArm mid elseArm, statements = thenArm ++ mid :: elseArm ∧ Derivable thenArm ∧
    mid.kind = .elseStart ∧ Derivable elseArm

/-- What may stand between an IF and its EIF. -/
def Arms (statements : List Statement) : Prop :=
  Derivable statements ∨ TwoArms statements

/-- The IF in front of these statements has its EIF among them. -/
def Closed (statements : List Statement) : Prop :=
  ∃ arms eif rest, statements = arms ++ eif :: rest ∧ Arms arms ∧ eif.kind = .ifEnd

def IfsClosed : List Statement → Prop
  | [] => True
  | s :: rest => (s.kind = .ifStart → Closed rest) ∧ IfsClosed rest

/-- Why `s` cannot stand behind `front`. -/
inductive Misplaced (front : List Statement) (s : Statement) : BuildCause → Prop
  | jump {form : Jump} : s.kind = .jump form →
      Misplaced front s (.unsupportedControlTransfer s.mnemonic)
  | unmatchedElse : s.kind = .elseStart → Derivable front → Misplaced front s .unmatchedElse
  | unmatchedEif : s.kind = .ifEnd → Derivable front → Misplaced front s .unmatchedEif
  | duplicateElse {before arms : List Statement} {ifStatement : Statement} :
      s.kind = .elseStart → front = before ++ ifStatement :: arms →
      ifStatement.kind = .ifStart → TwoArms arms → Misplaced front s .duplicateElse

theorem derivable_of_regular {b : Block} (h : b.Regular) : Derivable b.statements := by
  induction b with
  | nil => exact .nil
  | step s rest ih => exact .other h.1 (ih h.2)
  | cond s thenArm eif rest ihThen ihRest =>
    obtain ⟨hIf, hThen, hEif, hRest⟩ := h
    exact .cond hIf (ihThen hThen) hEif (ihRest hRest)
  | condElse s thenArm mid elseArm eif rest ihThen ihElse ihRest =>
    obtain ⟨hIf, hThen, hMid, hElse, hEif, hRest⟩ := h
    have hDerived := Derivable.condElse hIf (ihThen hThen) hMid (ihElse hElse) hEif (ihRest hRest)
    simpa [statements] using hDerived

/-- Reading a derivable list leaves the open IFs as they are. -/
theorem Derivable.exists_foldlM {l : List Statement} (h : Derivable l) (r : Reader) :
    ∃ closed, l.foldlM Reader.read r = .ok ⟨r.opened, closed⟩ := by
  induction h generalizing r with
  | nil => exact ⟨r.closed, rfl⟩
  | other hSimple _ ih =>
    obtain ⟨closed, hRest⟩ := ih _
    exact ⟨closed, foldlM_cons_eq_ok_iff.mpr
      ⟨_, (read_eq_ok_iff _ _ _).mpr (.simple hSimple), hRest⟩⟩
  | cond hIf _ hEif _ ihThen ihRest =>
    obtain ⟨_, hThen⟩ := ihThen _
    obtain ⟨closed, hRest⟩ := ihRest _
    refine ⟨closed, foldlM_cons_eq_ok_iff.mpr
      ⟨_, (read_eq_ok_iff _ _ _).mpr (.ifStart hIf), foldlM_append_eq_ok_iff.mpr ⟨_, hThen, ?_⟩⟩⟩
    exact foldlM_cons_eq_ok_iff.mpr ⟨_, (read_eq_ok_iff _ _ _).mpr (.ifEnd hEif rfl), hRest⟩
  | condElse hIf _ hMid _ hEif _ ihThen ihElse ihRest =>
    obtain ⟨_, hThen⟩ := ihThen _
    obtain ⟨_, hElse⟩ := ihElse _
    obtain ⟨closed, hRest⟩ := ihRest _
    refine ⟨closed, foldlM_cons_eq_ok_iff.mpr
      ⟨_, (read_eq_ok_iff _ _ _).mpr (.ifStart hIf), foldlM_append_eq_ok_iff.mpr ⟨_, hThen, ?_⟩⟩⟩
    refine foldlM_cons_eq_ok_iff.mpr
      ⟨_, (read_eq_ok_iff _ _ _).mpr (.elseStart hMid rfl), foldlM_append_eq_ok_iff.mpr
        ⟨_, hElse, ?_⟩⟩
    exact foldlM_cons_eq_ok_iff.mpr ⟨_, (read_eq_ok_iff _ _ _).mpr (.ifEnd hEif rfl), hRest⟩

theorem exists_ofStatements_iff (l : List Statement) :
    (∃ b, ofStatements l = .ok b) ↔ Derivable l := by
  constructor
  · rintro ⟨b, h⟩
    rw [← statements_of_ofStatements h]
    exact derivable_of_regular (regular_of_ofStatements h)
  · intro h
    obtain ⟨blocks, hRead⟩ := h.exists_foldlM {}
    exact ⟨_, except_bind_eq_ok_iff.mpr ⟨_, hRead, (finish_eq_ok_iff _ _).mpr ⟨rfl, rfl⟩⟩⟩

theorem Derivable.not_jump {l : List Statement} (h : Derivable l) :
    ∀ s ∈ l, ∀ form, s.kind ≠ .jump form := by
  induction h with
  | nil => simp
  | other hSimple _ ih =>
    rw [List.forall_mem_cons]
    refine ⟨fun form hKind => ?_, ih⟩
    rw [hKind] at hSimple
    cases hSimple
  | cond hIf _ hEif _ ihThen ihRest =>
    rw [List.forall_mem_cons, List.forall_mem_append, List.forall_mem_cons]
    exact ⟨by simp [hIf], ihThen, by simp [hEif], ihRest⟩
  | condElse hIf _ hMid _ hEif _ ihThen ihElse ihRest =>
    rw [List.forall_mem_cons, List.forall_mem_append, List.forall_mem_cons, List.forall_mem_append,
      List.forall_mem_cons]
    exact ⟨by simp [hIf], ihThen, by simp [hMid], ihElse, by simp [hEif], ihRest⟩

section Unambiguous

variable {s t : Statement} {front back front' back' : List Statement}

/-- At the end of a derivable list no IF is open, so neither an ELSE nor an EIF can follow. -/
theorem Derivable.not_append_cons (h : Derivable front)
    (hStop : s.kind = .elseStart ∨ s.kind = .ifEnd) : ¬Derivable (front ++ s :: back) := by
  intro hAll
  obtain ⟨blocks, hRead⟩ := h.exists_foldlM {}
  obtain ⟨_, hReadAll⟩ := hAll.exists_foldlM {}
  obtain ⟨r, hFront, hBack⟩ := foldlM_append_eq_ok_iff.mp hReadAll
  cases hRead.symm.trans hFront
  obtain ⟨q, hNext, _⟩ := foldlM_cons_eq_ok_iff.mp hBack
  cases (read_eq_ok_iff _ _ _).mp hNext with
  | ifStart hKind => simp [hKind] at hStop
  | elseStart _ hOpened => cases hOpened
  | ifEnd _ hOpened => cases hOpened
  | simple hKind => rcases hStop with hStop | hStop <;> rw [hStop] at hKind <;> cases hKind

theorem Derivable.append_cons_inj (h : Derivable front) (h' : Derivable front')
    (hs : s.kind = .elseStart ∨ s.kind = .ifEnd) (ht : t.kind = .elseStart ∨ t.kind = .ifEnd)
    (hEq : front ++ s :: back = front' ++ t :: back') : front = front' ∧ s = t ∧ back = back' := by
  rcases List.append_eq_append_iff.mp hEq with ⟨between, rfl, hRest⟩ | ⟨between, rfl, hRest⟩
  · cases between with
    | nil =>
      cases hRest
      exact ⟨(List.append_nil front).symm, rfl, rfl⟩
    | cons u between =>
      cases hRest
      exact absurd h' (h.not_append_cons hs)
  · cases between with
    | nil =>
      cases hRest
      exact ⟨List.append_nil front', rfl, rfl⟩
    | cons u between =>
      cases hRest
      exact absurd h (h'.not_append_cons ht)

theorem Arms.not_closed (h : Arms back) : ¬Closed back := by
  -- both readings agree on the first ELSE or EIF that belongs to no IF among the statements
  rintro ⟨arms, eif, rest, rfl, hArms, hEif⟩
  rcases h with h | ⟨thenArm, mid, elseArm, hEq, hThen, hMid, hElse⟩
  · rcases hArms with hArms | ⟨thenArm, mid, elseArm, rfl, hThen, hMid, _⟩
    · exact hArms.not_append_cons (.inr hEif) h
    · rw [List.append_assoc] at h
      exact hThen.not_append_cons (.inl hMid) h
  · rcases hArms with hArms | ⟨thenArm', mid', elseArm', rfl, hThen', hMid', hElse'⟩
    · obtain ⟨_, rfl, _⟩ := hArms.append_cons_inj hThen (.inr hEif) (.inl hMid) hEq
      cases hMid.symm.trans hEif
    · rw [List.append_assoc] at hEq
      obtain ⟨_, _, rfl⟩ := hThen'.append_cons_inj hThen (.inl hMid') (.inl hMid) hEq
      exact hElse'.not_append_cons (.inr hEif) hElse

end Unambiguous

section Closing

variable {front back : List Statement}

theorem Closed.append (h : Closed front) (back : List Statement) : Closed (front ++ back) := by
  obtain ⟨arms, eif, rest, rfl, hArms, hEif⟩ := h
  exact ⟨arms, eif, rest ++ back, by simp, hArms, hEif⟩

theorem IfsClosed.append (h : IfsClosed front) (h' : IfsClosed back) :
    IfsClosed (front ++ back) := by
  induction front with
  | nil => exact h'
  | cons s rest ih => exact ⟨fun hKind => (h.1 hKind).append back, ih h.2⟩

theorem Derivable.ifsClosed (h : Derivable front) : IfsClosed front := by
  induction h with
  | nil => trivial
  | other hSimple _ ih =>
    refine ⟨fun hKind => ?_, ih⟩
    rw [hKind] at hSimple
    cases hSimple
  | @cond s eif thenArm rest _ hThen hEif _ ihThen ihRest =>
    refine ⟨fun _ => ⟨thenArm, eif, rest, rfl, .inl hThen, hEif⟩, ihThen.append ⟨?_, ihRest⟩⟩
    simp [hEif]
  | @condElse s mid eif thenArm elseArm rest _ hThen hMid hElse hEif _ ihThen ihElse ihRest =>
    refine ⟨fun _ => ⟨thenArm ++ mid :: elseArm, eif, rest, by simp,
      .inr ⟨thenArm, mid, elseArm, rfl, hThen, hMid, hElse⟩, hEif⟩, ?_⟩
    have hEnd : IfsClosed (eif :: rest) := ⟨by simp [hEif], ihRest⟩
    exact ihThen.append ⟨by simp [hMid], ihElse.append hEnd⟩

theorem Arms.ifsClosed (h : Arms front) : IfsClosed front := by
  rcases h with h | ⟨thenArm, mid, elseArm, rfl, hThen, hMid, hElse⟩
  · exact h.ifsClosed
  · exact hThen.ifsClosed.append ⟨by simp [hMid], hElse.ifsClosed⟩

end Closing

section Reading

variable {front : List Statement} {r : Reader}

theorem regular_of_read (h : front.foldlM Reader.read {} = .ok r) : r.Regular :=
  regular_of_foldlM h ⟨by simp, by simp⟩

theorem seen_of_read (h : front.foldlM Reader.read {} = .ok r) : r.seen = front :=
  seen_of_foldlM h

theorem derivable_closed (h : front.foldlM Reader.read {} = .ok r) :
    Derivable (r.closed.reverse.flatMap statements) := by
  rw [← statements_joinReversed]
  exact derivable_of_regular (regular_joinReversed (regular_of_read h).closed)

theorem derivable_of_opened_nil (h : front.foldlM Reader.read {} = .ok r)
    (hOpened : r.opened = []) : Derivable front := by
  have hSeen := seen_of_read h
  rw [Reader.seen, hOpened] at hSeen
  rw [← hSeen]
  exact derivable_closed h

/-- What stands behind the innermost open IF. -/
theorem arms_of_opened_cons (h : front.foldlM Reader.read {} = .ok r) {o : OpenIf}
    {outer : List OpenIf} (hOpened : r.opened = o :: outer) :
    ∃ before arms, front = before ++ o.ifStatement :: arms ∧ o.ifStatement.kind = .ifStart ∧
      if o.thenArm?.isSome then TwoArms arms else Derivable arms := by
  have hSeen := seen_of_read h
  have hClosed := derivable_closed h
  have hOpen : o.Regular := (regular_of_read h).opened o (by rw [hOpened]; exact List.mem_cons_self)
  obtain ⟨before, ifStatement, thenArm?⟩ := o
  refine ⟨outer.reverse.flatMap OpenIf.seen ++ before.reverse.flatMap statements, ?_⟩
  rw [← hSeen, Reader.seen, hOpened]
  cases thenArm? with
  | none =>
    exact ⟨r.closed.reverse.flatMap statements, by simp [OpenIf.seen], hOpen.kind, hClosed⟩
  | some arm =>
    obtain ⟨hArm, hMid⟩ := hOpen.thenArm arm.1 arm.2 rfl
    refine ⟨arm.1.statements ++ arm.2 :: r.closed.reverse.flatMap statements,
      by simp [OpenIf.seen], hOpen.kind, ?_⟩
    exact ⟨arm.1.statements, arm.2, _, rfl, derivable_of_regular hArm, hMid, hClosed⟩

theorem misplaced_of_read_eq_error (h : front.foldlM Reader.read {} = .ok r) {s : Statement}
    {e : Statement × BuildCause} (hError : r.read s = .error e) :
    e.1 = s ∧ Misplaced front s e.2 := by
  unfold Reader.read at hError
  cases hKind : s.kind with
  | generic | ifStart | defStart | defEnd | push =>
    rw [hKind] at hError
    cases hError
  | jump form =>
    rw [hKind] at hError
    cases hError
    exact ⟨rfl, .jump hKind⟩
  | elseStart =>
    cases hOpened : r.opened with
    | nil =>
      rw [hKind, hOpened] at hError
      cases hError
      exact ⟨rfl, .unmatchedElse hKind (derivable_of_opened_nil h hOpened)⟩
    | cons o outer =>
      obtain ⟨_, arms, hFront, hIf, hArms⟩ := arms_of_opened_cons h hOpened
      obtain ⟨before, ifStatement, thenArm?⟩ := o
      cases thenArm? with
      | none =>
        rw [hKind, hOpened] at hError
        cases hError
      | some arm =>
        rw [hKind, hOpened] at hError
        cases hError
        exact ⟨rfl, .duplicateElse hKind hFront hIf hArms⟩
  | ifEnd =>
    cases hOpened : r.opened with
    | nil =>
      rw [hKind, hOpened] at hError
      cases hError
      exact ⟨rfl, .unmatchedEif hKind (derivable_of_opened_nil h hOpened)⟩
    | cons o outer =>
      rw [hKind, hOpened] at hError
      cases hError

theorem exists_completion (r : Reader) :
    ∃ (more : List Statement) (q : Reader), more.foldlM Reader.read r = .ok q ∧ q.opened = [] := by
  obtain ⟨opened, closed⟩ := r
  induction opened generalizing closed with
  | nil => exact ⟨[], _, rfl, rfl⟩
  | cons o outer ih =>
    obtain ⟨more, q, hRead, hOpened⟩ :=
      ih (o.close (joinReversed closed) ⟨.EIF, [], 0⟩ :: o.before)
    exact ⟨⟨.EIF, [], 0⟩ :: more, q, hRead, hOpened⟩

theorem exists_derivable_append (h : front.foldlM Reader.read {} = .ok r) :
    ∃ more, Derivable (front ++ more) := by
  obtain ⟨more, q, hMore, hOpened⟩ := exists_completion r
  exact ⟨more, derivable_of_opened_nil (foldlM_append_eq_ok_iff.mpr ⟨r, h, hMore⟩) hOpened⟩

theorem not_derivable_of_read_eq_error (h : front.foldlM Reader.read {} = .ok r) {s : Statement}
    {e : Statement × BuildCause} (hError : r.read s = .error e) (more : List Statement) :
    ¬Derivable (front ++ s :: more) := by
  intro hAll
  obtain ⟨_, hRead⟩ := hAll.exists_foldlM {}
  obtain ⟨q, hFront, hRest⟩ := foldlM_append_eq_ok_iff.mp hRead
  cases h.symm.trans hFront
  obtain ⟨_, hNext, _⟩ := foldlM_cons_eq_ok_iff.mp hRest
  cases hError.symm.trans hNext

end Reading

end Block

namespace Body

def Accepted (tag : String) (statements : List Statement) : Prop :=
  ∃ b, ofStatements tag statements = .ok b

theorem accepted_iff (tag : String) (statements : List Statement) :
    Accepted tag statements ↔ Block.Derivable statements := by
  rw [← Block.exists_ofStatements_iff]
  constructor
  · rintro ⟨b, h⟩
    exact ⟨b.block, ((ofStatements_eq_ok_iff tag statements b).mp h).2⟩
  · rintro ⟨block, h⟩
    exact ⟨⟨tag, block⟩, (ofStatements_eq_ok_iff tag statements _).mpr ⟨rfl, h⟩⟩

/-- Who is to blame for a list: the first statement that no continuation repairs or, when the
list is only unfinished, the last IF that has no EIF. -/
inductive Blamed (tag : String) (statements : List Statement) : BuildError → Prop
  | misplaced {front back : List Statement} {s : Statement} {cause : BuildCause} :
      statements = front ++ s :: back → Block.Misplaced front s cause →
      (∃ more, Accepted tag (front ++ more)) → (∀ more, ¬Accepted tag (front ++ s :: more)) →
      Blamed tag statements ⟨tag, none, some (s.id tag), cause⟩
  | unfinished {front back : List Statement} {s : Statement} :
      statements = front ++ s :: back → s.kind = .ifStart → ¬Block.Closed back →
      Block.IfsClosed back → (∃ more, Accepted tag (statements ++ more)) →
      Blamed tag statements ⟨tag, none, some (s.id tag), .unterminatedIf⟩

theorem blamed_of_ofStatements {tag : String} {statements : List Statement} {e : BuildError}
    (h : ofStatements tag statements = .error e) : Blamed tag statements e := by
  unfold ofStatements Block.ofStatements at h
  cases hRead : statements.foldlM Block.Reader.read {} with
  | error refused =>
    rw [hRead] at h
    cases h
    obtain ⟨front, s, back, r, hStatements, hFront, hError⟩ := exists_of_foldlM_eq_error hRead
    obtain ⟨hBlamed, hMisplaced⟩ := Block.misplaced_of_read_eq_error hFront hError
    rw [hBlamed]
    refine .misplaced hStatements hMisplaced ?_ ?_
    · obtain ⟨more, hMore⟩ := Block.exists_derivable_append hFront
      exact ⟨more, (accepted_iff tag _).mpr hMore⟩
    · intro more hAccepted
      rw [accepted_iff] at hAccepted
      exact Block.not_derivable_of_read_eq_error hFront hError more hAccepted
  | ok r =>
    rw [hRead] at h
    cases hOpened : r.opened with
    | nil =>
      simp [Block.Reader.finish, hOpened, bind, Except.bind] at h
    | cons o outer =>
      obtain ⟨before, arms, hStatements, hIf, hArms⟩ := Block.arms_of_opened_cons hRead hOpened
      have hBoth : Block.Arms arms := by
        split at hArms
        · exact .inr hArms
        · exact .inl hArms
      obtain ⟨more, hMore⟩ := Block.exists_derivable_append hRead
      have hError : e = ⟨tag, none, some (o.ifStatement.id tag), .unterminatedIf⟩ := by
        simpa [Block.Reader.finish, hOpened, bind, Except.bind, eq_comm] using h
      rw [hError]
      exact .unfinished hStatements hIf hBoth.not_closed hBoth.ifsClosed
        ⟨more, (accepted_iff tag _).mpr hMore⟩

/-- A list is linked just when the grammar derives it, and a refusal names the first statement
that cannot be repaired or the innermost IF left open. -/
theorem accepted_iff_derivable (tag : String) (statements : List Statement) :
    (Accepted tag statements ↔
      (∀ s ∈ statements, s.mnemonic ≠ .JMPR ∧ s.mnemonic ≠ .JROT ∧ s.mnemonic ≠ .JROF) ∧
        Block.Derivable statements) ∧
      ∀ e, ofStatements tag statements = .error e → Blamed tag statements e := by
  refine ⟨?_, fun e => blamed_of_ofStatements⟩
  rw [accepted_iff]
  constructor
  · intro h
    refine ⟨fun s hs => ?_, h⟩
    have hJump := h.not_jump s hs
    refine ⟨?_, ?_, ?_⟩
    · intro hMnemonic
      exact hJump .relative (congrArg Mnemonic.kind hMnemonic)
    · intro hMnemonic
      exact hJump .onTrue (congrArg Mnemonic.kind hMnemonic)
    · intro hMnemonic
      exact hJump .onFalse (congrArg Mnemonic.kind hMnemonic)
  · exact fun h => h.2

/-- A second ELSE behind a nested branch that has one of its own. -/
theorem accepted_iff_derivable_second_else :
    ofStatements "glyf" ([Mnemonic.IF, .IF, .ELSE, .EIF, .ELSE, .POP, .ELSE, .EIF].zipIdx.map
        fun entry => { mnemonic := entry.1, index := entry.2 }) =
        .error ⟨"glyf", none, some ⟨"glyf", some 6⟩, .duplicateElse⟩ ∧
      Blamed "glyf" ([Mnemonic.IF, .IF, .ELSE, .EIF, .ELSE, .POP, .ELSE, .EIF].zipIdx.map
        fun entry => { mnemonic := entry.1, index := entry.2 })
        ⟨"glyf", none, some ⟨"glyf", some 6⟩, .duplicateElse⟩ :=
  ⟨rfl, (accepted_iff_derivable "glyf" _).2 _ rfl⟩

end Body

end Hinting
