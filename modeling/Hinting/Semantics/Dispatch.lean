import Hinting.Semantics.Arithmetic
import Hinting.Semantics.Points
import Hinting.Semantics.Registers

/-!
# The effect of each statement

`Statement.perform` applies a statement to an environment. Calls only fetch their
target here; entering the function is left to the run.
-/

namespace Hinting

namespace EnvAction

/-- The label that a call target stands for. -/
def callTarget : Value → EnvAction Label
  | .known label => return label
  | .unknown => throw .unresolvedCallTarget

/-- Takes operands and pushes results about which nothing is known. -/
def takeAndPush (pops pushes : Nat) : EnvAction Unit := do
  discard pops
  pushUnknown pushes

/-- Pops a location and reads there. -/
def readAt (read : Value → EnvAction Value) : EnvAction Unit := do
  let location ← pop
  let value ← read location
  push value

/-- Pops a value and a location and writes there. -/
def writeAt (write : Value → Value → EnvAction Unit) : EnvAction Unit := do
  let value ← pop
  let location ← pop
  write location value

end EnvAction

open EnvAction StackAction in
/-- Applies a statement. The result is the function to call next, if any. -/
def Statement.perform (axisCount : Nat) (s : Statement) : EnvAction (Option Label) :=
  match s.mnemonic with
  -- Flow of control
  | .IF => do
    let _ ← EnvAction.pop
    return none
  | .ELSE | .EIF => return none
  | .JMPR | .JROT | .JROF => throw (.unsupportedControlTransfer s.mnemonic)
  | .CALL => do
    let target ← EnvAction.pop
    return some (← callTarget target)
  | .LOOPCALL => do
    let target ← EnvAction.pop
    let _ ← EnvAction.pop
    return some (← callTarget target)
  | .FDEF | .ENDF | .IDEF => throw (.definitionInProgram s.mnemonic)
  -- Stack
  | .PUSH | .PUSHB | .PUSHW | .NPUSHB | .NPUSHW =>
    effect (onStack (modify (·.pushWords s.values)))
  | .DUP => effect (onStack dup)
  | .POP => effect (EnvAction.discard 1)
  | .CLEAR => effect (onStack (modify (·.clear)))
  | .SWAP => effect (onStack swap)
  | .DEPTH => effect (onStack (modify fun stack => stack.push (.known (Int32.ofNat stack.depth))))
  | .CINDEX => effect (onStack copyIndex)
  | .MINDEX => effect (onStack moveIndex)
  | .ROLL => effect (onStack roll)
  -- Arithmetic and logic
  | .LT => binaryEffect (Value.compare fun a b => a < b)
  | .LTEQ => binaryEffect (Value.compare fun a b => a ≤ b)
  | .GT => binaryEffect (Value.compare fun a b => b < a)
  | .GTEQ => binaryEffect (Value.compare fun a b => b ≤ a)
  | .EQ => binaryEffect (Value.compare fun a b => a = b)
  | .NEQ => binaryEffect (Value.compare fun a b => a ≠ b)
  | .ODD => roundingEffect Value.isOdd
  | .EVEN => roundingEffect Value.isEven
  | .AND => binaryEffect Value.conjunction
  | .OR => binaryEffect Value.disjunction
  | .NOT => unaryEffect Value.negation
  | .ADD => binaryEffect (Value.combine fun a b => a + b)
  | .SUB => binaryEffect (Value.combine fun a b => a - b)
  | .DIV => binaryEffect Value.quotient
  | .MUL => binaryEffect Value.product
  | .ABS => unaryEffect Value.magnitude
  | .NEG => unaryEffect (Value.map fun a => -a)
  | .FLOOR => unaryEffect (Value.map FixedPoint.floor)
  | .CEILING => unaryEffect (Value.map FixedPoint.ceil)
  | .MAX => binaryEffect (Value.combine max)
  | .MIN => binaryEffect (Value.combine min)
  -- Storage and control values
  | .RS => effect (readAt readStorage)
  | .WS => effect (writeAt writeStorage)
  | .RCVT => effect (readAt readCvt)
  | .WCVTP => effect (writeAt writeCvt)
  | .WCVTF => effect (writeAt fun location _ => writeCvt location .unknown)
  -- Vectors
  | .SVTCA => effect (setGraphics (·.setVectors (flagAxis s.flags)))
  | .SPVTCA => effect (setGraphics (·.setProjection (flagAxis s.flags)))
  | .SFVTCA => effect (setGraphics fun g => { g with freedom := flagAxis s.flags })
  | .SPVTL => effect (vectorToLine fun g => { g with projection := .custom })
  | .SFVTL => effect (vectorToLine fun g => { g with freedom := .custom })
  | .SDPVTL => effect (vectorToLine (·.setProjection .custom))
  | .SPVFS => effect do
    let axis ← popAxis
    setGraphics (·.setProjection axis)
  | .SFVFS => effect do
    let axis ← popAxis
    setGraphics fun g => { g with freedom := axis }
  | .GPV => effect (pushAxis (·.projection))
  | .GFV => effect (pushAxis (·.freedom))
  | .SFVTPV => effect (setGraphics fun g => { g with freedom := g.projection })
  -- Other registers
  | .SRP0 => effect (popInto fun point g => { g with rp0 := point })
  | .SRP1 => effect (popInto fun point g => { g with rp1 := point })
  | .SRP2 => effect (popInto fun point g => { g with rp2 := point })
  | .SZP0 => effect (setZone fun zone g => { g with zp0 := zone })
  | .SZP1 => effect (setZone fun zone g => { g with zp1 := zone })
  | .SZP2 => effect (setZone fun zone g => { g with zp2 := zone })
  | .SZPS => effect (setZone fun zone g => { g with zp0 := zone, zp1 := zone, zp2 := zone })
  | .SLOOP => effect setLoopCounter
  | .RTG => effect (setRoundMode .grid)
  | .RTHG => effect (setRoundMode .halfGrid)
  | .RTDG => effect (setRoundMode .doubleGrid)
  | .RDTG => effect (setRoundMode .downToGrid)
  | .RUTG => effect (setRoundMode .upToGrid)
  | .ROFF => effect (setRoundMode .off)
  | .SROUND => effect (setSuperRounding .super)
  | .S45ROUND => effect (setSuperRounding .super45)
  | .SMD => effect (popInto fun distance g => { g with minDistance := distance })
  | .SCVTCI => effect (popInto fun cutIn g => { g with controlValueCutIn := cutIn })
  | .SSWCI => effect (popInto fun cutIn g => { g with singleWidthCutIn := cutIn })
  | .SSW => effect setSingleWidth
  | .SDB => effect (popInto fun base g => { g with deltaBase := base })
  | .SDS => effect (popInto fun shift g => { g with deltaShift := shift })
  | .FLIPON => effect (setGraphics fun g => { g with autoFlip := true })
  | .FLIPOFF => effect (setGraphics fun g => { g with autoFlip := false })
  | .SCANCTRL => effect (popInto fun control g => { g with scanControl := control })
  | .SCANTYPE => effect (popInto fun type g => { g with scanType := type })
  | .INSTCTRL => effect setInstructControl
  -- Point movement
  | .MDAP => effect (popInto touch)
  | .MIAP => effect do
    let point ← popPointByCvt
    setGraphics (touch point)
  | .MDRP => effect (popInto fun point => moveRelative point (movesReference s.flags))
  | .MIRP => effect do
    let point ← popPointByCvt
    setGraphics (moveRelative point (movesReference s.flags))
  | .MSIRP => effect do
    let _ ← EnvAction.pop
    let point ← EnvAction.pop
    setGraphics (moveRelative point (s.flags &&& 1 ≠ 0))
  | .SHP | .SHPIX | .IP | .ALIGNRP | .FLIPPT => effect (loopPoints s.mnemonic)
  | .DELTAP1 | .DELTAP2 | .DELTAP3 | .DELTAC1 | .DELTAC2 | .DELTAC3 =>
    effect (deltaPairs s.mnemonic)
  -- Measurements and queries
  | .GETVARIATION => effect (pushUnknown axisCount)
  | .MPPEM | .MPS | .GC | .GETINFO | .ROUND | .NROUND | .MD | .UTP | .SHC | .SHZ | .SANGW | .AA
  | .DEBUG | .SCFS | .ALIGNPTS | .FLIPRGON | .FLIPRGOFF | .ISECT | .IUP =>
    effect (match s.mnemonic.stackEffect? with
      | some (pops, pushes) => takeAndPush pops pushes
      | none => return)
where
  effect (action : EnvAction Unit) : EnvAction (Option Label) := do
    action
    return none
  unaryEffect (f : Value → Value) : EnvAction (Option Label) :=
    effect (onStack (unary f))
  binaryEffect (f : Value → Value → Value) : EnvAction (Option Label) :=
    effect (onStack (binary f))
  roundingEffect (f : Rounding → Value → Value) : EnvAction (Option Label) :=
    effect do onStack (unary (f (← get).graphics.rounding))

/-- What is reported when a statement is applied: that it is, and any write through
an unknown index. -/
def Statement.performLog (s : Statement) (tag : String) (stack : ValueStack) : List LogRecord :=
  .dispatching (s.id tag) s ::
    match s.mnemonic, stack.values with
    | .WS, _ :: location :: _ => Environment.writeStorageLog location
    | .WCVTP, _ :: location :: _ | .WCVTF, _ :: location :: _ =>
      Environment.writeCvtLog location
    | _, _ => []

end Hinting
