import Hinting.Proofs.Branches
import Hinting.Proofs.FontProgram

/-!
# Linking in one pass

A linker goes over the statements once and adds edges as it goes. An edge to the next
statement is added right away, unless an ELSE or an EIF comes next; the edges around the
arms of an IF are added when its EIF is reached. Positions are plain numbers here: every
access and every subtraction is checked.

A list is refused for the same statement and cause as by `Body.ofStatements`, and no check
on a position ever fails.
-/

namespace Hinting

/-- An IF that waits for its EIF. -/
structure PendingIf where
  ifPosition : Nat
  elsePosition? : Option Nat

inductive LinkError
  | refused (e : BuildError)
  /-- There is no statement at some position. -/
  | outOfRange

/-- A flow graph as it is laid down: adjacency lists by position, and the branches. -/
structure LinkedGraph where
  successorLists : List (List Nat)
  predecessorLists : List (List Nat)
  branches : List Branch

/-- The edges in the order in which they are added, the branches in the order of their EIFs,
and the IFs that wait, innermost first. -/
structure Linker where
  edges : List (Nat × Nat) := []
  branches : List Branch := []
  pending : List PendingIf := []

namespace Linker

def outgoing (edges : List (Nat × Nat)) (i : Nat) : List Nat :=
  (edges.filter fun edge => edge.1 = i).map Prod.snd

def incoming (edges : List (Nat × Nat)) (j : Nat) : List Nat :=
  (edges.filter fun edge => edge.2 = j).map Prod.fst

variable (tag : String) (size position : Nat) (s : Statement) (l : Linker)

def link (source target : Nat) : Except LinkError Linker :=
  if source < size ∧ target < size then .ok { l with edges := l.edges ++ [(source, target)] }
  else .error .outOfRange

/-- The position in front of another one. -/
def before : Nat → Except LinkError Nat
  | 0 => .error .outOfRange
  | position + 1 => .ok position

/-- Whether control passes on to the rest by itself. -/
def fallsTo : List Statement → Bool
  | [] => false
  | next :: _ => next.kind ≠ .elseStart ∧ next.kind ≠ .ifEnd

def refusal (cause : BuildCause) : LinkError :=
  .refused ⟨tag, none, some (s.id tag), cause⟩

/-- Links the end of an ELSE arm to the EIF at `position`. -/
def closeElse : Option Nat → Except LinkError Linker
  | none => .ok l
  | some _ => do
    let elseEnd ← before position
    l.link size elseEnd position

/-- Links the arms of an IF to the EIF at `position`. -/
def close (p : PendingIf) (outer : List PendingIf) : Except LinkError Linker := do
  let thenEnd ← before (p.elsePosition?.getD position)
  let l ← l.link size thenEnd position
  let l ← l.link size p.ifPosition (p.elsePosition?.getD position)
  let l ← l.closeElse size position p.elsePosition?
  .ok ⟨l.edges, l.branches ++ [⟨p.ifPosition, p.elsePosition?, position⟩], outer⟩

/-- What the statement at `position` does to the IFs that wait. -/
def turn : Except LinkError Linker :=
  match s.kind, l.pending with
  | .ifStart, pending => .ok { l with pending := ⟨position, none⟩ :: pending }
  | .elseStart, [] => .error (refusal tag s .unmatchedElse)
  | .elseStart, ⟨ifPosition, none⟩ :: outer =>
    .ok { l with pending := ⟨ifPosition, some position⟩ :: outer }
  | .elseStart, ⟨_, some _⟩ :: _ => .error (refusal tag s .duplicateElse)
  | .ifEnd, [] => .error (refusal tag s .unmatchedEif)
  | .ifEnd, p :: outer => l.close size position p outer
  | _, _ => .ok l

/-- Links the statement at `position` to the one at the head of `rest`. -/
def pass (rest : List Statement) : Except LinkError Linker :=
  if fallsTo rest then l.link size position (position + 1) else .ok l

/-- Reads the statement at `position`, in front of `rest`. -/
def read (rest : List Statement) : Except LinkError Linker :=
  match s.kind with
  | .jump _ => .error (refusal tag s (.unsupportedControlTransfer s.mnemonic))
  | _ => do
    let l ← l.pass size position rest
    l.turn tag size position s

def readFrom (position : Nat) : List Statement → Linker → Except LinkError Linker
  | [], l => .ok l
  | s :: rest, l => do
    let l ← l.read tag size position s rest
    readFrom (position + 1) rest l

/-- The graph laid down. A statement with two edges to the same one is listed there once. -/
def graph : LinkedGraph :=
  ⟨(List.range size).map (outgoing l.edges),
    (List.range size).map fun j => (incoming l.edges j).eraseDups,
    l.branches.mergeSort fun a b => a.ifPosition ≤ b.ifPosition⟩

/-- The graph, once no IF waits. -/
def finish (statements : List Statement) : Except LinkError LinkedGraph :=
  match l.pending with
  | [] => .ok (l.graph statements.length)
  | p :: _ =>
    match statements[p.ifPosition]? with
    | some s => .error (refusal tag s .unterminatedIf)
    | none => .error .outOfRange

def run (statements : List Statement) : Except LinkError LinkedGraph := do
  let l ← readFrom tag statements.length 0 statements {}
  l.finish tag statements

section Steps

variable {tag size position s l}

theorem link_of_lt {source target : Nat} (hSource : source < size) (hTarget : target < size) :
    l.link size source target = .ok { l with edges := l.edges ++ [(source, target)] } :=
  if_pos ⟨hSource, hTarget⟩

theorem before_of_pos (h : 0 < position) : before position = .ok (position - 1) := by
  cases position with
  | zero => exact absurd h (Nat.lt_irrefl 0)
  | succ position => rfl

/-- The edge to the next statement. -/
def fall (position : Nat) (falls : Bool) : List (Nat × Nat) :=
  if falls then [(position, position + 1)] else []

/-- The edges that the EIF of a branch adds. -/
def closing (branch : Branch) : List (Nat × Nat) :=
  [(branch.elsePosition?.getD branch.eifPosition - 1, branch.eifPosition),
    (branch.ifPosition, branch.elsePosition?.getD branch.eifPosition)] ++
  (branch.elsePosition?.map fun _ => (branch.eifPosition - 1, branch.eifPosition)).toList

theorem close_eq_ok {p : PendingIf} (hIf : p.ifPosition < position)
    (hElse : ∀ mid, p.elsePosition? = some mid → p.ifPosition < mid ∧ mid < position)
    (hSize : position < size) (outer : List PendingIf) :
    l.close size position p outer =
      .ok ⟨l.edges ++ closing ⟨p.ifPosition, p.elsePosition?, position⟩,
        l.branches ++ [⟨p.ifPosition, p.elsePosition?, position⟩], outer⟩ := by
  obtain ⟨ifPosition, elsePosition?⟩ := p
  simp only at hIf hElse
  have hBefore := @before_of_pos position (by omega)
  have hEnd (l : Linker) := link_of_lt (l := l) (show position - 1 < size by omega) hSize
  have hIfEdge (l : Linker) := link_of_lt (l := l) (show ifPosition < size by omega) hSize
  unfold close closeElse
  cases elsePosition? with
  | none => simp [hBefore, hEnd, hIfEdge, closing, bind, Except.bind]
  | some mid =>
    obtain ⟨hMid, hPosition⟩ := hElse mid rfl
    have hThenBefore := @before_of_pos mid (by omega)
    have hThenEnd (l : Linker) := link_of_lt (l := l) (show mid - 1 < size by omega) hSize
    have hElseEdge (l : Linker) :=
      link_of_lt (l := l) (show ifPosition < size by omega) (show mid < size by omega)
    simp [hThenBefore, hThenEnd, hElseEdge, hBefore, hEnd, closing, bind, Except.bind]

theorem read_of_jump {form : Jump} (h : s.kind = .jump form) (rest : List Statement) :
    l.read tag size position s rest =
      .error (refusal tag s (.unsupportedControlTransfer s.mnemonic)) := by
  simp only [read, h]

theorem pass_eq_ok {rest : List Statement} (hSize : position + rest.length < size) :
    l.pass size position rest =
      .ok { l with edges := l.edges ++ fall position (fallsTo rest) } := by
  unfold pass fall
  cases rest with
  | nil => simp [fallsTo]
  | cons next rest =>
    rw [List.length_cons] at hSize
    rw [link_of_lt (by omega) (by omega)]
    split
    · rfl
    · simp

theorem read_of_not_jump (h : ∀ form, s.kind ≠ .jump form) {rest : List Statement}
    (hSize : position + rest.length < size) :
    l.read tag size position s rest =
      { l with edges := l.edges ++ fall position (fallsTo rest) }.turn tag size position s := by
  unfold read
  rw [pass_eq_ok hSize]
  cases hKind : s.kind with
  | jump form => exact absurd hKind (h form)
  | generic | ifStart | elseStart | ifEnd | defStart | defEnd | push => rfl

end Steps

section Refusals

variable {tag : String} {size position : Nat} {s : Statement} {l : Linker}
  {statements : List Statement}

/-- An IF that waits and the open IF of the reader that it stands for. -/
structure Waits (statements : List Statement) (position : Nat) (p : PendingIf)
    (o : Block.OpenIf) : Prop where
  ifStatement : statements[p.ifPosition]? = some o.ifStatement
  ifPosition : p.ifPosition < position
  elsePosition : ∀ mid, p.elsePosition? = some mid → p.ifPosition < mid ∧ mid < position
  arm : p.elsePosition?.isSome = o.thenArm?.isSome

theorem Waits.next {p : PendingIf} {o : Block.OpenIf} (h : Waits statements position p o) :
    Waits statements (position + 1) p o where
  ifStatement := h.ifStatement
  ifPosition := Nat.lt_succ_of_lt h.ifPosition
  elsePosition mid hMid := by
    obtain ⟨hIf, hPosition⟩ := h.elsePosition mid hMid
    exact ⟨hIf, Nat.lt_succ_of_lt hPosition⟩
  arm := h.arm

theorem forall₂_next {pending : List PendingIf} {opened : List Block.OpenIf}
    (h : List.Forall₂ (Waits statements position) pending opened) :
    List.Forall₂ (Waits statements (position + 1)) pending opened :=
  h.imp fun _ _ => Waits.next

/-- The linker follows the reader of blocks. -/
def Follows (tag : String) (statements : List Statement) (position : Nat)
    (read : Except (Statement × BuildCause) Block.Reader) (linked : Except LinkError Linker) :
    Prop :=
  (∀ e, read = .error e → linked = .error (refusal tag e.1 e.2)) ∧
    ∀ r, read = .ok r → ∃ l, linked = .ok l ∧
      List.Forall₂ (Waits statements position) l.pending r.opened

theorem turn_follows (hJump : ∀ form, s.kind ≠ .jump form)
    (hStatement : statements[position]? = some s) (hSize : position < size) {r : Block.Reader}
    (h : List.Forall₂ (Waits statements position) l.pending r.opened) :
    Follows tag statements (position + 1) (r.read s) (l.turn tag size position s) := by
  obtain ⟨edges, branches, pending⟩ := l
  obtain ⟨opened, closed⟩ := r
  unfold Follows Block.Reader.read turn
  cases hKind : s.kind with
  | jump form => exact absurd hKind (hJump form)
  | generic | defStart | defEnd | push => simpa using forall₂_next h
  | ifStart =>
    have hWaits : Waits statements (position + 1) ⟨position, none⟩ ⟨closed, s, none⟩ :=
      ⟨hStatement, Nat.lt_succ_self position, by simp, rfl⟩
    simpa using ⟨hWaits, forall₂_next h⟩
  | elseStart =>
    cases h with
    | nil => simp
    | @cons p o pending opened hWaits hOuter =>
      obtain ⟨ifPosition, elsePosition?⟩ := p
      obtain ⟨before, ifStatement, thenArm?⟩ := o
      have hArm := hWaits.arm
      cases elsePosition? <;> cases thenArm? <;> cases hArm
      · have hWaits' : Waits statements (position + 1) ⟨ifPosition, some position⟩
            ⟨before, ifStatement, some (Block.joinReversed closed, s)⟩ :=
          ⟨hWaits.ifStatement, hWaits.next.ifPosition, by
            rintro mid ⟨⟩
            exact ⟨hWaits.ifPosition, Nat.lt_succ_self position⟩, rfl⟩
        simpa using ⟨hWaits', forall₂_next hOuter⟩
      · simp
  | ifEnd =>
    cases h with
    | nil => simp
    | cons hWaits hOuter =>
      simpa [close_eq_ok hWaits.ifPosition hWaits.elsePosition hSize] using forall₂_next hOuter

theorem read_follows {rest : List Statement} (hStatement : statements[position]? = some s)
    (hSize : position + rest.length < size) {r : Block.Reader}
    (h : List.Forall₂ (Waits statements position) l.pending r.opened) :
    Follows tag statements (position + 1) (r.read s) (l.read tag size position s rest) := by
  by_cases hJump : ∀ form, s.kind ≠ .jump form
  · rw [read_of_not_jump hJump hSize]
    exact turn_follows hJump hStatement (by omega) h
  · obtain ⟨form, hKind⟩ := Classical.not_forall_not.mp hJump
    rw [read_of_jump hKind]
    simp [Follows, Block.Reader.read, hKind]

theorem readFrom_follows {front rest : List Statement} (hStatements : front ++ rest = statements)
    (hSize : front.length + rest.length ≤ size) {r : Block.Reader}
    (h : List.Forall₂ (Waits statements front.length) l.pending r.opened) :
    Follows tag statements (front.length + rest.length) (rest.foldlM Block.Reader.read r)
      (readFrom tag size front.length rest l) := by
  induction rest generalizing front l r with
  | nil => simpa [Follows, readFrom, pure, Except.pure] using h
  | cons s rest ih =>
    rw [List.length_cons] at hSize
    have hStatement : statements[front.length]? = some s := by
      rw [← hStatements, List.getElem?_append_right (Nat.le_refl _), Nat.sub_self]
      rfl
    have hFollows : Follows tag statements (front.length + 1) (r.read s)
        (l.read tag size front.length s rest) := read_follows hStatement (by omega) h
    rw [List.foldlM_cons, readFrom]
    cases hRead : r.read s with
    | error e =>
      rw [hFollows.1 e hRead]
      simp [Follows, bind, Except.bind]
    | ok q =>
      obtain ⟨l', hLinked, hWaits⟩ := hFollows.2 q hRead
      rw [hLinked]
      change Follows tag statements (front.length + (rest.length + 1))
        (rest.foldlM Block.Reader.read q) (readFrom tag size (front.length + 1) rest l')
      have hRest := @ih l' (front ++ [s]) (by simpa using hStatements)
        (by rw [List.length_append, List.length_singleton]; omega) q (by simpa using hWaits)
      rwa [List.length_append, List.length_singleton, Nat.add_assoc, Nat.add_comm 1] at hRest

theorem run_of_refused {e : Statement × BuildCause} (h : Block.ofStatements statements = .error e) :
    run tag statements = .error (refusal tag e.1 e.2) := by
  have hFollows := @readFrom_follows tag statements.length {} statements [] statements rfl
    (by simp) {} .nil
  unfold Block.ofStatements at h
  unfold run
  cases hRead : statements.foldlM Block.Reader.read {} with
  | error e' =>
    rw [hRead] at h
    cases h
    have hLinked := hFollows.1 e hRead
    rw [List.length_nil] at hLinked
    rw [hLinked]
    rfl
  | ok r =>
    rw [hRead] at h
    obtain ⟨l, hLinked, hWaits⟩ := hFollows.2 r hRead
    rw [List.length_nil] at hLinked
    rw [hLinked]
    obtain ⟨opened, closed⟩ := r
    obtain ⟨edges, branches, pending⟩ := l
    cases hWaits with
    | nil => cases h
    | @cons p o pending opened hWaits hOuter =>
      cases h
      change finish tag ⟨edges, branches, p :: pending⟩ statements = _
      simp only [finish, hWaits.ifStatement]

end Refusals

end Linker

end Hinting
