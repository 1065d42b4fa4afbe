import Hinting.Block

/-!
# Control flow of a block

Statements are numbered by their positions. Control passes from each statement to
the next one, except around the arms of an IF: the IF has two successors, its THEN
arm and its ELSE (or its EIF when there is no ELSE), and the last statement of
either arm passes on to the EIF. An empty arm is passed over.
-/

namespace Hinting

/-- The positions of an IF, of its ELSE if it has one, and of its EIF. -/
structure Branch where
  ifPosition : Nat
  elsePosition? : Option Nat
  eifPosition : Nat
deriving DecidableEq

namespace Block

/-- Where control goes that arrives at a block starting at `start` and leaves it
towards `exit?`. -/
def entry? (start : Nat) (exit? : Option Nat) : Block → Option Nat
  | .nil => exit?
  | _ => some start

/-- The successors of each statement of a block that starts at `start` and is left
towards `exit?`. -/
def successors (start : Nat) (exit? : Option Nat) : Block → List (List Nat)
  | .nil => []
  | .step _ rest =>
    (rest.entry? (start + 1) exit?).toList :: rest.successors (start + 1) exit?
  | .cond _ thenArm _ rest =>
    let eif := start + thenArm.size + 1
    ((thenArm.entry? (start + 1) (some eif)).toList ++ [eif]) ::
      thenArm.successors (start + 1) (some eif) ++
      (rest.entry? (eif + 1) exit?).toList :: rest.successors (eif + 1) exit?
  | .condElse _ thenArm _ elseArm _ rest =>
    let mid := start + thenArm.size + 1
    let eif := mid + elseArm.size + 1
    ((thenArm.entry? (start + 1) (some eif)).toList ++ [mid]) ::
      thenArm.successors (start + 1) (some eif) ++
      (elseArm.entry? (mid + 1) (some eif)).toList ::
      elseArm.successors (mid + 1) (some eif) ++
      (rest.entry? (eif + 1) exit?).toList :: rest.successors (eif + 1) exit?

/-- The predecessors of each statement of a block that starts at `start` and is
entered from `source?`. The THEN arm's end comes first at an EIF. -/
def predecessors (start : Nat) (source? : Option Nat) : Block → List (List Nat)
  | .nil => []
  | .step _ rest => source?.toList :: rest.predecessors (start + 1) (some start)
  | .cond _ thenArm _ rest =>
    let eif := start + thenArm.size + 1
    source?.toList :: thenArm.predecessors (start + 1) (some start) ++
      (if thenArm.size = 0 then [start] else [start + thenArm.size, start]) ::
      rest.predecessors (eif + 1) (some eif)
  | .condElse _ thenArm _ elseArm _ rest =>
    let mid := start + thenArm.size + 1
    let eif := mid + elseArm.size + 1
    source?.toList :: thenArm.predecessors (start + 1) (some start) ++
      [start] :: elseArm.predecessors (mid + 1) (some mid) ++
      [start + thenArm.size, mid + elseArm.size] ::
      rest.predecessors (eif + 1) (some eif)

/-- The branches of a block that starts at `start`, in the order of their IFs. -/
def branches (start : Nat) : Block → List Branch
  | .nil => []
  | .step _ rest => rest.branches (start + 1)
  | .cond _ thenArm _ rest =>
    let eif := start + thenArm.size + 1
    ⟨start, none, eif⟩ :: thenArm.branches (start + 1) ++ rest.branches (eif + 1)
  | .condElse _ thenArm _ elseArm _ rest =>
    let mid := start + thenArm.size + 1
    let eif := mid + elseArm.size + 1
    ⟨start, some mid, eif⟩ :: thenArm.branches (start + 1) ++ elseArm.branches (mid + 1) ++
      rest.branches (eif + 1)

end Block

end Hinting
