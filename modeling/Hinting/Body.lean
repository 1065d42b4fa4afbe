import Hinting.Flow

/-!
# Bodies

A body is the block of a program or function together with the tag of the
program text it came from. Its flow graph is that of the block; the entry is
statement zero.
-/

namespace Hinting

structure Body where
  tag : String
  block : Block
deriving DecidableEq

namespace Body

/-- Links the statements of the program `tag`. -/
def ofStatements (tag : String) (statements : List Statement) : Except BuildError Body :=
  match Block.ofStatements statements with
  | .ok block => .ok ⟨tag, block⟩
  | .error (s, cause) => .error ⟨tag, none, some (s.id tag), cause⟩

variable (b : Body)

def statements : List Statement :=
  b.block.statements

def size : Nat :=
  b.block.size

def isEmpty : Bool :=
  b.size == 0

/-- The position of the first statement. -/
def entry? : Option Nat :=
  if b.size = 0 then none else some 0

/-- The successors of all statements. -/
def successorLists : List (List Nat) :=
  b.block.successors 0 none

/-- The predecessors of all statements. -/
def predecessorLists : List (List Nat) :=
  b.block.predecessors 0 none

/-- The successors of one statement; a position outside the body has none. -/
def successors (position : Nat) : List Nat :=
  b.successorLists[position]?.getD []

/-- The predecessors of one statement; a position outside the body has none. -/
def predecessors (position : Nat) : List Nat :=
  b.predecessorLists[position]?.getD []

def branches : List Branch :=
  b.block.branches 0

/-- The branch whose IF stands at a position. -/
def branch? (ifPosition : Nat) : Option Branch :=
  b.branches.find? fun branch => branch.ifPosition == ifPosition

/-- The identifier of the statement at a position of a list. -/
def idIn (tag : String) (statements : List Statement) (position : Nat) : StatementId :=
  ⟨tag, statements[position]?.map Statement.index⟩

/-- The identifier of the statement at a position. -/
def statementId (position : Nat) : StatementId :=
  idIn b.tag b.statements position

/-- The positions that can be reached from `source`. Every edge leads forward, so
one pass in program order sees each statement after all that lead to it. -/
def reachableFrom (source : Nat) : List Nat :=
  b.successorLists.zipIdx.foldl
    (fun reached (targets, position) =>
      if reached.contains position then reached ++ targets else reached)
    [source]

/-- Whether control can pass from `source` to `target`. A walk may be empty; there
is no answer for any other walk from outside the body. -/
def reaches? (source target : Nat) : Option Bool :=
  if source = target then some true
  else if source < b.size then some ((b.reachableFrom source).contains target)
  else none

/-- The assembly lines of all statements. -/
def assembly : List String :=
  b.statements.flatMap Statement.assembly

/-- The line of one statement in a dump: indented, with its successors unless
control just passes to the next statement. `name` gives the identifiers. -/
def dumpLine (name : Nat → StatementId) (depth position : Nat) (s : Statement)
    (targets : List Nat) : String :=
  let targetText :=
    if targets = [position + 1] then ""
    else if targets.isEmpty then " -> (end)"
    else " -> " ++ String.intercalate ", " (targets.map fun target => (name target).text)
  String.ofList (List.replicate (3 * depth) ' ') ++ (name position).text ++ " " ++ s.text ++
    targetText ++ "\n"

/-- The lines of a dump. `depth` counts the arms that are open, and one more. -/
def dumpLines (name : Nat → StatementId) :
    (depth position : Nat) → List (Statement × List Nat) → List String
  | _, _, [] => []
  | depth, position, (s, targets) :: rest =>
    let lineDepth := if s.kind = .elseStart ∨ s.kind = .ifEnd then max (depth - 1) 1 else depth
    let nextDepth := if s.kind = .ifStart ∨ s.kind = .elseStart then lineDepth + 1 else lineDepth
    dumpLine name lineDepth position s targets :: dumpLines name nextDepth (position + 1) rest

/-- The statements with their identifiers, indented by nesting. -/
def dump : String :=
  let statements := b.statements
  String.join (dumpLines (idIn b.tag statements) 1 0 (statements.zip b.successorLists))

end Body

end Hinting
