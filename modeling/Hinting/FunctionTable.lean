import Hinting.Body

/-!
# Function tables

The font program defines the functions of a font: it pushes labels and then has
one FDEF to ENDF region for each. A region takes the last label pushed and not
yet taken, as each FDEF would pop its function number. Defining a label again
replaces the earlier function in its place.

A table can be written back as font program text: one push with the labels in
reverse order, then the regions in table order.
-/

namespace Hinting

/-- The tag of the font program. -/
def fontProgramTag : String := "fpgm"

/-- A function with its label. -/
structure Definition where
  label : Label
  body : Body
deriving DecidableEq

/-- Functions in order of definition. -/
structure FunctionTable where
  definitions : List Definition := []
deriving DecidableEq

namespace FunctionTable

variable (t : FunctionTable)

def size : Nat :=
  t.definitions.length

def isEmpty : Bool :=
  t.definitions.isEmpty

/-- The labels in table order. -/
def labels : List Label :=
  t.definitions.map Definition.label

/-- Where the function with a label stands. -/
def position? (label : Label) : Option Nat :=
  t.definitions.findIdx? fun d => d.label == label

def get? (label : Label) : Option Definition :=
  (t.position? label).bind fun position => t.definitions[position]?

def contains (label : Label) : Bool :=
  (t.position? label).isSome

/-- Adds a function at the end, or in the place of the one it redefines. -/
def insert (d : Definition) : FunctionTable :=
  match t.position? d.label with
  | some position => ⟨t.definitions.set position d⟩
  | none => ⟨t.definitions ++ [d]⟩

/-- Keeps some functions, in order. -/
def filter (keep : Definition → Bool) : FunctionTable :=
  ⟨t.definitions.filter keep⟩

/-- The labels of the functions that filtering drops, in order. -/
def dropped (keep : Definition → Bool) : List Label :=
  (t.definitions.filter fun d => !keep d).map Definition.label

/-- The font program text that defines the functions. -/
def assembly : List String :=
  if t.isEmpty then []
  else
    pushHeader t.size :: t.labels.reverse.map Text.wordText ++
      t.definitions.flatMap fun d => "FDEF[ ]" :: d.body.assembly ++ ["ENDF[ ]"]

/-- The state of reading a font program. -/
structure Reader where
  table : FunctionTable := {}
  /-- Labels pushed and not yet taken, the last one first. -/
  labels : List Label := []
  /-- The open FDEF and the statements after it, the last one first. -/
  current? : Option (Statement × List Statement) := none

/-- An error at a statement of the font program. -/
def blame (s : Statement) (cause : BuildCause) : BuildError :=
  ⟨fontProgramTag, none, some (s.id fontProgramTag), cause⟩

/-- Completes the function that started at `fdef`. -/
def Reader.close (r : Reader) (fdef : Statement) (statements : List Statement) :
    Except BuildError Reader :=
  match r.labels with
  | [] => .error (blame fdef .missingFunctionLabel)
  | label :: labels =>
    match Body.ofStatements fontProgramTag statements with
    | .ok body => .ok ⟨r.table.insert ⟨label, body⟩, labels, none⟩
    | .error error => .error { error with function := some label }

/-- Reads one statement of the font program. -/
def Reader.read (r : Reader) (s : Statement) : Except BuildError Reader :=
  if s.mnemonic = .IDEF then .error (blame s .instructionDefinition)
  else
    match r.current?, s.kind with
    | none, .push => .ok { r with labels := s.values.reverse ++ r.labels }
    | none, .defStart => .ok { r with current? := some (s, []) }
    | none, .defEnd => .error (blame s .unmatchedEndf)
    | none, _ => .ok r
    | some _, .defStart => .error (blame s .nestedDefinition)
    | some (fdef, statements), .defEnd => r.close fdef statements.reverse
    | some (fdef, statements), _ => .ok { r with current? := some (fdef, s :: statements) }

/-- The table read, once no definition is open. -/
def Reader.finish (r : Reader) : Except BuildError FunctionTable :=
  match r.current? with
  | none => .ok r.table
  | some (fdef, _) => .error (blame fdef .unterminatedDefinition)

/-- Reads the functions that a font program defines. -/
def ofFontProgram (statements : List Statement) : Except BuildError FunctionTable := do
  let reader ← statements.foldlM Reader.read {}
  reader.finish

end FunctionTable

end Hinting
