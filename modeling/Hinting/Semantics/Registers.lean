import Hinting.Semantics.EnvAction

/-!
# Instructions on the graphics state
-/

namespace Hinting.EnvAction

/-- The axis that the flag of a vector instruction selects. -/
def flagAxis (flags : UInt8) : Axis :=
  if flags &&& 1 ≠ 0 then .x else .y

/-- Drops the two points of a line and sets vectors along it. -/
def vectorToLine (set : GraphicsState → GraphicsState) : EnvAction Unit := do
  discard 2
  setGraphics set

/-- Pops the components of a vector. -/
def popAxis : EnvAction Axis := do
  let y ← pop
  let x ← pop
  return Axis.ofComponents x y

/-- Pushes the components of a vector. -/
def pushAxis (vector : GraphicsState → Axis) : EnvAction Unit := do
  let (x, y) := (vector (← get).graphics).components
  push x
  push y

/-- Pops a zone, which is the twilight zone 0 or the glyph zone 1. -/
def popZone : EnvAction Value := do
  match ← pop with
  | .unknown => return .unknown
  | .known zone =>
    if zone = 0 ∨ zone = 1 then return .known zone else throw (.invalidZoneIndex zone)

/-- Pops a zone for some of the zone pointers. -/
def setZone (set : Value → GraphicsState → GraphicsState) : EnvAction Unit := do
  let zone ← popZone
  setGraphics (set zone)

/-- Pops the loop counter, of which only sixteen bits count. -/
def setLoopCounter : EnvAction Unit := do
  match ← pop with
  | .unknown => setGraphics fun g => { g with loopCounter := .unknown }
  | .known count =>
    if count < 0 then throw .negativeLoopCounter
    else setGraphics fun g => { g with loopCounter := .known (min count 0xFFFF) }

/-- Sets a rounding mode that needs no selector. -/
def setRoundMode (mode : RoundMode) : EnvAction Unit :=
  setGraphics fun g => { g with rounding := { g.rounding with mode } }

/-- Pops the selector of a super rounding mode. -/
def setSuperRounding (mode : RoundMode) : EnvAction Unit :=
  popInto fun selector g => { g with rounding := { mode, selector } }

/-- Drops an index of the font's own units, whose scaled value is unknown. -/
def setSingleWidth : EnvAction Unit :=
  popInto fun _ g => { g with singleWidth := .unknown }

/-- The flag of the instruct control register that a selector stands for. -/
def controlFlag? (selector : Int32) : Option Int32 :=
  if selector = 1 then some 1
  else if selector = 2 then some 2
  else if selector = 3 then some 4
  else none

/-- Sets or clears one flag of the instruct control register. A selector that
stands for no flag, or a value that is neither zero nor the flag, has no effect. -/
def changeControl (selector value : Int32) (control : Value) : Value :=
  match controlFlag? selector with
  | none => control
  | some flag =>
    if value = 0 ∨ value = flag then control.map fun word => (word &&& ~~~flag) ||| value
    else control

/-- Pops a selector and a value for the instruct control register. -/
def setInstructControl : EnvAction Unit := do
  let selector ← pop
  let value ← pop
  setGraphics fun g =>
    match selector, value with
    | .known selector, .known value =>
      { g with instructControl := changeControl selector value g.instructControl }
    | _, _ => { g with instructControl := .unknown }

end Hinting.EnvAction
