import Hinting.FixedPoint
import Hinting.Value

/-!
# Graphics state

The registers that instructions consult and change. A numeric register is unknown
once it was set from an unknown value.
-/

namespace Hinting

/-- The direction of a projection or freedom vector, as far as it is tracked. -/
inductive Axis
  | x | y | custom
deriving DecidableEq

namespace Axis

/-- The components of the unit vector as 2.14 fixed-point words. -/
def components : Axis → Value × Value
  | .x => (.known 0x4000, .known 0)
  | .y => (.known 0, .known 0x4000)
  | .custom => (.unknown, .unknown)

def ofComponents (x y : Value) : Axis :=
  if x = .known 0x4000 ∧ y = .known 0 then .x
  else if x = .known 0 ∧ y = .known 0x4000 then .y
  else .custom

def text : Axis → String
  | .x => "X"
  | .y => "Y"
  | .custom => "Custom"

end Axis

inductive RoundMode
  | grid | halfGrid | doubleGrid | downToGrid | upToGrid | off | super | super45
deriving DecidableEq

namespace RoundMode

def text : RoundMode → String
  | .grid => "Grid"
  | .halfGrid => "HalfGrid"
  | .doubleGrid => "DoubleGrid"
  | .downToGrid => "DownToGrid"
  | .upToGrid => "UpToGrid"
  | .off => "Off"
  | .super => "Super"
  | .super45 => "Super45"

/-- Whether the mode is one of those that a selector refines. -/
def hasSelector : RoundMode → Bool
  | .super | .super45 => true
  | _ => false

end RoundMode

/-- How distances are rounded. The selector gives period, phase and threshold of
the super modes. -/
structure Rounding where
  mode : RoundMode := .grid
  selector : Value := .unknown
deriving DecidableEq

namespace Rounding

/-- Rounds the magnitude of a distance and keeps its sign, never crossing zero. -/
def symmetric (f : Int32 → Int32) (distance : Int32) : Int32 :=
  if 0 ≤ distance then max (f distance) 0 else min (-f (-distance)) 0

/-- Rounds a distance. What the super modes give is unknown. -/
def round (r : Rounding) (distance : Int32) : Value :=
  match r.mode with
  | .grid => .known (symmetric FixedPoint.round distance)
  | .halfGrid => .known (symmetric (fun d => FixedPoint.floor d + 32) distance)
  | .doubleGrid => .known (symmetric FixedPoint.roundHalf distance)
  | .downToGrid => .known (symmetric FixedPoint.floor distance)
  | .upToGrid => .known (symmetric FixedPoint.ceil distance)
  | .off => .known distance
  | .super | .super45 => .unknown

end Rounding

structure GraphicsState where
  projection : Axis := .x
  dualProjection : Axis := .x
  freedom : Axis := .x
  rounding : Rounding := {}
  rp0 : Value := .known 0
  rp1 : Value := .known 0
  rp2 : Value := .known 0
  zp0 : Value := .known 1
  zp1 : Value := .known 1
  zp2 : Value := .known 1
  loopCounter : Value := .known 1
  /-- One pixel at first. -/
  minDistance : Value := .known 64
  /-- Seventeen sixteenths of a pixel at first. -/
  controlValueCutIn : Value := .known 68
  singleWidthCutIn : Value := .known 0
  singleWidth : Value := .known 0
  deltaBase : Value := .known 9
  deltaShift : Value := .known 3
  autoFlip : Bool := true
  instructControl : Value := .known 0
  scanControl : Value := .known 0
  scanType : Value := .known 0
deriving DecidableEq

namespace GraphicsState

variable (g : GraphicsState)

/-- Sets the projection vector together with its dual. -/
def setProjection (axis : Axis) : GraphicsState :=
  { g with projection := axis, dualProjection := axis }

/-- Sets all three vectors. -/
def setVectors (axis : Axis) : GraphicsState :=
  { g.setProjection axis with freedom := axis }

/-- The registers, one or a few a line. -/
def dumpLines : List String :=
  [ "projection vector: " ++ g.projection.text,
    "dual projection vector: " ++ g.dualProjection.text,
    "freedom vector: " ++ g.freedom.text,
    "round state: " ++ g.rounding.mode.text ++
      (if g.rounding.mode.hasSelector then " (" ++ g.rounding.selector.text ++ ")" else ""),
    "rp0: " ++ g.rp0.text ++ ", rp1: " ++ g.rp1.text ++ ", rp2: " ++ g.rp2.text,
    "zp0: " ++ g.zp0.text ++ ", zp1: " ++ g.zp1.text ++ ", zp2: " ++ g.zp2.text,
    "loop: " ++ g.loopCounter.text,
    "minimum distance: " ++ g.minDistance.text,
    "control value cut-in: " ++ g.controlValueCutIn.text,
    "single width: " ++ g.singleWidth.text ++ " (cut-in " ++ g.singleWidthCutIn.text ++ ")",
    "delta base: " ++ g.deltaBase.text ++ ", delta shift: " ++ g.deltaShift.text,
    "auto flip: " ++ (if g.autoFlip then "true" else "false"),
    "instruct control: " ++ g.instructControl.text,
    "scan control: " ++ g.scanControl.text ++ ", scan type: " ++ g.scanType.text ]

def dump : String :=
  String.intercalate "\n" g.dumpLines

end GraphicsState

end Hinting
