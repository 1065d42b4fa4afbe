import Hinting.FunctionTable
import Hinting.Graphics
import Hinting.Log
import Hinting.ValueStack

/-!
# Environments

What a run carries from statement to statement: the stack, the graphics state, the
control values, the storage area and the functions that calls refer to.

A write through an unknown index may have hit any place, so every place becomes
unknown, in the storage area also those that were never written.
-/

namespace Hinting

structure Environment where
  stack : ValueStack := {}
  graphics : GraphicsState := {}
  cvt : List Value := []
  /-- The storage locations written so far. -/
  storage : SortedMap Nat Value := {}
  /-- What the other locations hold. -/
  unwritten : Value := .known 0
  functions : FunctionTable := {}
deriving DecidableEq

namespace Environment

/-- The environment in which a font's programs start. -/
def initial (functions : FunctionTable) (cvt : List Int32) : Environment :=
  { cvt := cvt.map .known, functions }

variable (env : Environment)

/-- The place of a control value. -/
def cvtPlace (index : Int32) : Except Fault Nat :=
  if 0 ≤ index.toInt ∧ index.toInt < env.cvt.length then .ok index.toInt.toNat
  else .error (.invalidCvtIndex index)

def readCvt : Value → Except Fault Value
  | .unknown => .ok .unknown
  | .known index => do
    let place ← env.cvtPlace index
    return env.cvt[place]?.getD .unknown

def writeCvt (index value : Value) : Except Fault Environment :=
  match index with
  | .unknown => .ok { env with cvt := env.cvt.map fun _ => .unknown }
  | .known index => do
    let place ← env.cvtPlace index
    return { env with cvt := env.cvt.set place value }

/-- The location that an index denotes. -/
def storagePlace (index : Int32) : Except Fault Nat :=
  if 0 ≤ index.toInt then .ok index.toInt.toNat else .error (.invalidStorageIndex index)

def readStorage : Value → Except Fault Value
  | .unknown => .ok .unknown
  | .known index => do
    let place ← storagePlace index
    return (env.storage.get? place).getD env.unwritten

def writeStorage (index value : Value) : Except Fault Environment :=
  match index with
  | .unknown =>
    .ok { env with storage := env.storage.mapValues fun _ => .unknown, unwritten := .unknown }
  | .known index => do
    let place ← storagePlace index
    return { env with storage := env.storage.insert place value }

/-- What is reported about a control value write. -/
def writeCvtLog : Value → List LogRecord
  | .unknown => [.cvtWriteThroughUnknownIndex]
  | .known _ => []

/-- What is reported about a storage write. -/
def writeStorageLog : Value → List LogRecord
  | .unknown => [.storageWriteThroughUnknownIndex]
  | .known _ => []

/-- Values with their places, each behind a space. -/
def placesText (places : List (Nat × Value)) : String :=
  String.join (places.map fun (place, value) => " " ++ toString place ++ "=" ++ value.text)

def dump : String :=
  env.graphics.dump ++
    "\nstack (" ++ toString env.stack.depth ++ "):" ++
    String.join (env.stack.bottomUp.map fun value => " " ++ value.text) ++
    "\ncvt:" ++ placesText (env.cvt.zipIdx.map fun (value, place) => (place, value)) ++
    "\nstorage:" ++ placesText env.storage.entries

end Environment

end Hinting
