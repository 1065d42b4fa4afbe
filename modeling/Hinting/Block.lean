import Hinting.BuildError

/-!
# Blocks

A block is a statement sequence in which every IF is closed by its EIF, with at
most one ELSE between them. The constructors are the rules of that grammar.

`Block.ofStatements` reads a flat statement list from left to right. It keeps the
IFs still open, each with what stood in front of it, and stops at the first
statement that no continuation could repair. A list that ends with an open IF is
blamed on the innermost one.
-/

namespace Hinting

inductive Block
  | nil
  | step (statement : Statement) (rest : Block)
  | cond (ifStatement : Statement) (thenArm : Block) (eif : Statement) (rest : Block)
  | condElse (ifStatement : Statement) (thenArm : Block) (elseStatement : Statement)
      (elseArm : Block) (eif : Statement) (rest : Block)
deriving DecidableEq

namespace Block

/-- The statements in program order. -/
def statements : Block → List Statement
  | .nil => []
  | .step s rest => s :: rest.statements
  | .cond s thenArm eif rest => s :: thenArm.statements ++ eif :: rest.statements
  | .condElse s thenArm mid elseArm eif rest =>
    s :: thenArm.statements ++ mid :: elseArm.statements ++ eif :: rest.statements

/-- The number of statements. -/
def size : Block → Nat
  | .nil => 0
  | .step _ rest => rest.size + 1
  | .cond _ thenArm _ rest => thenArm.size + rest.size + 2
  | .condElse _ thenArm _ elseArm _ rest => thenArm.size + elseArm.size + rest.size + 3

def append : Block → Block → Block
  | .nil, last => last
  | .step s rest, last => .step s (rest.append last)
  | .cond s thenArm eif rest, last => .cond s thenArm eif (rest.append last)
  | .condElse s thenArm mid elseArm eif rest, last =>
    .condElse s thenArm mid elseArm eif (rest.append last)

/-- Joins blocks of which the last one comes first. -/
def joinReversed (blocks : List Block) : Block :=
  blocks.foldl (fun rest block => block.append rest) .nil

/-- An IF still open: what stood in front of it in its own arm, last first, and
its THEN arm with the ELSE once that has come. -/
structure OpenIf where
  before : List Block
  ifStatement : Statement
  thenArm? : Option (Block × Statement)

/-- The state of the reader: the open IFs, innermost first, and the closed blocks
of the innermost arm, last first. -/
structure Reader where
  opened : List OpenIf := []
  closed : List Block := []

/-- The block that an EIF completes. -/
def OpenIf.close (o : OpenIf) (arm : Block) (eif : Statement) : Block :=
  match o.thenArm? with
  | none => .cond o.ifStatement arm eif .nil
  | some (thenArm, mid) => .condElse o.ifStatement thenArm mid arm eif .nil

/-- Reads one statement, or blames it. -/
def Reader.read (r : Reader) (s : Statement) : Except (Statement × BuildCause) Reader :=
  match s.kind, r.opened with
  | .jump _, _ => .error (s, .unsupportedControlTransfer s.mnemonic)
  | .ifStart, opened => .ok ⟨⟨r.closed, s, none⟩ :: opened, []⟩
  | .elseStart, [] => .error (s, .unmatchedElse)
  | .elseStart, ⟨before, ifStatement, none⟩ :: outer =>
    .ok ⟨⟨before, ifStatement, some (joinReversed r.closed, s)⟩ :: outer, []⟩
  | .elseStart, ⟨_, _, some _⟩ :: _ => .error (s, .duplicateElse)
  | .ifEnd, [] => .error (s, .unmatchedEif)
  | .ifEnd, o :: outer => .ok ⟨outer, o.close (joinReversed r.closed) s :: o.before⟩
  | _, opened => .ok ⟨opened, .step s .nil :: r.closed⟩

/-- The block read, once no IF is open. -/
def Reader.finish (r : Reader) : Except (Statement × BuildCause) Block :=
  match r.opened with
  | [] => .ok (joinReversed r.closed)
  | o :: _ => .error (o.ifStatement, .unterminatedIf)

/-- Reads a statement list as a block, or names the statement at fault. -/
def ofStatements (statements : List Statement) : Except (Statement × BuildCause) Block := do
  let reader ← statements.foldlM Reader.read {}
  reader.finish

end Block

end Hinting
