import Hinting.Semantics.EnvAction

/-!
# Instructions that move points

Outlines are not tracked. The instructions take their operands and update the
reference points and the loop counter.
-/

namespace Hinting.EnvAction

/-- Makes a point the first two reference points. -/
def touch (point : Value) (g : GraphicsState) : GraphicsState :=
  { g with rp0 := point, rp1 := point }

/-- Moves a point relative to the first reference point, which may follow it. -/
def moveRelative (point : Value) (follow : Bool) (g : GraphicsState) : GraphicsState :=
  { g with rp0 := if follow then point else g.rp0, rp1 := g.rp0, rp2 := point }

/-- Pops a control value index and a point; the index has to be valid. -/
def popPointByCvt : EnvAction Value := do
  let index ← pop
  let point ← pop
  let _ ← readCvt index
  return point

/-- The flag by which MDRP and MIRP move the first reference point. -/
def movesReference (flags : UInt8) : Bool :=
  flags &&& 0x10 ≠ 0

/-- The number that a counter stands for, which has to be known. A negative one counts as zero. -/
def countOf (mnemonic : Mnemonic) : Value → EnvAction Nat
  | .known count => return count.toInt.toNat
  | .unknown => throw (.unresolvedOperand mnemonic)

/-- Takes as many points as the loop counter says and resets it. -/
def loopPoints (mnemonic : Mnemonic) : EnvAction Unit := do
  if mnemonic = .SHPIX then
    let _ ← pop
  let count ← countOf mnemonic (← get).graphics.loopCounter
  discard count
  setGraphics fun g => { g with loopCounter := .known 1 }

/-- Takes as many pairs as the top value says. -/
def deltaPairs (mnemonic : Mnemonic) : EnvAction Unit := do
  let count ← countOf mnemonic (← pop)
  discard (2 * count)

end Hinting.EnvAction
