import Hinting.Proofs.ReachedEnvironments
import Hinting.Proofs.StatementEffects

/-!
# What an environment can hold

Zone pointers, the loop counter and the instruct control register are set only after a check, and
the single width only ever loses its first value. Writes change neither the number of control
values nor leave the range of storage locations. No statement breaks these bounds, also when it
fails after it has done some of its work, so they hold wherever runs come by.
-/

namespace Hinting

open Hinting.Action

/-- The registers with bounds keep to them. -/
structure GraphicsState.InRange (g : GraphicsState) : Prop where
  zp0 : g.zp0.Within 0 1
  zp1 : g.zp1.Within 0 1
  zp2 : g.zp2.Within 0 1
  loopCounter : g.loopCounter.Within 0 0xFFFF
  instructControl : g.instructControl.Within 0 7
  singleWidth : g.singleWidth.Within 0 0

/-- All that is bounded in an environment with `size` control values. -/
structure Environment.InRange (size : Nat) (env : Environment) : Prop where
  graphics : env.graphics.InRange
  cvt : env.cvt.length = size
  storage : ∀ place ∈ env.storage.keys, place < 0x80000000
  stack : env.stack.depth ≤ env.stack.peak

theorem GraphicsState.inRange_default : ({} : GraphicsState).InRange :=
  ⟨by decide, by decide, by decide, by decide, by decide, by decide⟩

namespace EnvAction

theorem mem_range_of_within {word : Int32} (h : (Value.known word).Within 0 7) :
    word ∈ (List.range 8).map Int32.ofNat := by
  obtain ⟨hLow, hHigh⟩ := h
  refine List.mem_map.mpr ⟨word.toInt.toNat, List.mem_range.mpr (by omega), ?_⟩
  apply Int32.toInt_inj.mp
  rw [Int32.toInt_ofNat_of_lt (by omega), Int.toNat_of_nonneg hLow]

theorem controlFlag?_mem {selector flag : Int32} (h : controlFlag? selector = some flag) :
    flag ∈ ([1, 2, 4] : List Int32) := by
  unfold controlFlag? at h
  split at h
  · cases h
    decide
  · split at h
    · cases h
      decide
    · split at h
      · cases h
        decide
      · cases h

theorem within_changeControl {control : Value} (h : control.Within 0 7)
    (selector value : Int32) : (changeControl selector value control).Within 0 7 := by
  -- three flags and eight settings of them
  have hAll : (((List.range 8).map Int32.ofNat).all fun word => [1, 2, 4].all fun flag : Int32 =>
      [0, flag].all fun value => (Value.known (word &&& ~~~flag ||| value)).Within 0 7) = true := by
    decide
  unfold changeControl
  split
  · exact h
  · rename_i flag hFlag
    split
    · rename_i hValue
      cases control with
      | unknown => trivial
      | known word =>
        simp only [List.all_eq_true, decide_eq_true_eq] at hAll
        exact hAll word (mem_range_of_within h) flag (controlFlag?_mem hFlag) value
          (by simpa using hValue)
    · exact h

end EnvAction

theorem GraphicsState.InRange.sets {g changed : GraphicsState} (h : g.InRange) {s : Statement}
    (hSets : s.Sets g changed) : changed.InRange := by
  cases hSets with
  | vectors | freedom | others => exact { h with }
  | zones h0 h1 h2 =>
    refine { h with zp0 := ?_, zp1 := ?_, zp2 := ?_ }
    · exact h0.elim (fun hSame => hSame ▸ h.zp0) id
    · exact h1.elim (fun hSame => hSame ▸ h.zp1) id
    · exact h2.elim (fun hSame => hSame ▸ h.zp2) id
  | loopCounter hCount => exact { h with loopCounter := hCount }
  | control selector value =>
    exact { h with instructControl := EnvAction.within_changeControl h.instructControl _ _ }
  | forgetControl => exact { h with instructControl := trivial }
  | forgetWidth => exact { h with singleWidth := trivial }

theorem Environment.InRange.alters {size : Nat} {env after : Environment} (h : env.InRange size)
    {s : Statement} (hAlters : s.Alters env after) (hStack : after.stack.Sound) :
    after.InRange size := by
  cases hAlters with
  | stack => exact { h with stack := hStack }
  | graphics _ hSets => exact { h with graphics := h.graphics.sets hSets, stack := hStack }
  | cvt _ hLength => exact { h with cvt := hLength.trans h.cvt, stack := hStack }
  | storage _ _ hKeys =>
    exact { h with
      storage := fun place hPlace => (hKeys place hPlace).elim (h.storage place) id
      stack := hStack }

theorem Statement.perform_inRange (s : Statement) (axisCount size : Nat) :
    Moves (fun env after => env.InRange size → after.InRange size) (s.perform axisCount) := by
  intro env h
  exact h.alters (s.perform_alters axisCount env) ((s.perform_turns axisCount env).sound h.stack)

theorem Font.initialEnvironment_inRange (font : Font) :
    font.initialEnvironment.InRange font.cvt.length where
  graphics := GraphicsState.inRange_default
  cvt := List.length_map _
  storage := List.forall_mem_nil _
  stack := Nat.le_refl 0

/-- Whatever programs are run, in whatever order and however they end, no bound of an environment
is broken on the way. -/
theorem Font.inRange_of_reaches (font : Font) {orders : List (Session × String)}
    {env : Environment} (h : font.Reaches orders env) : env.InRange font.cvt.length :=
  h.invariant font.initialEnvironment_inRange fun s axisCount =>
    s.perform_inRange axisCount font.cvt.length

/-- Both programs fail at a value that a register does not take, the first one after it has set the
others. -/
theorem Font.inRange_of_reaches_failed_runs :
    ∃ (font : Font) (run : Run),
      Font.load
        [("A", "PUSHW[ ] 70000 SLOOP[ ] PUSHB[ ] 4 3 INSTCTRL[ ] PUSHB[ ] 0 SZPS[ ] " ++
          "PUSHB[ ] 5 SSW[ ] PUSHB[ ] 7 9 WS[ ] PUSHB[ ] 1 2 SZP1[ ]"),
          ("B", "MPPEM[ ] SZP0[ ] PUSHW[ ] -1 SLOOP[ ]")] [3] = .ok font ∧
      run ∈ font.runsInTurn font.initialEnvironment [({}, "A"), ({}, "B")] ∧ run.failed = true ∧
      run.env.graphics =
        { zp0 := .unknown, zp1 := .known 0, zp2 := .known 0, loopCounter := .known 0xFFFF,
          instructControl := .known 4, singleWidth := .unknown } ∧
      run.env.storage.keys = [7] ∧ run.env.stack = ⟨[.known 1], 2⟩ ∧ run.env.InRange 1 := by
  have hEvaluated : ((Font.load
      [("A", "PUSHW[ ] 70000 SLOOP[ ] PUSHB[ ] 4 3 INSTCTRL[ ] PUSHB[ ] 0 SZPS[ ] " ++
        "PUSHB[ ] 5 SSW[ ] PUSHB[ ] 7 9 WS[ ] PUSHB[ ] 1 2 SZP1[ ]"),
        ("B", "MPPEM[ ] SZP0[ ] PUSHW[ ] -1 SLOOP[ ]")] [3]).toOption.bind fun font =>
          (font.runsInTurn font.initialEnvironment [({}, "A"), ({}, "B")])[1]?.map fun run =>
            (font.cvt.length, run.failed, run.env.graphics, run.env.storage.keys, run.env.stack)) =
      some (1, true,
        { zp0 := .unknown, zp1 := .known 0, zp2 := .known 0, loopCounter := .known 0xFFFF,
          instructControl := .known 4, singleWidth := .unknown }, [7], ⟨[.known 1], 2⟩) := by
    decide +kernel
  obtain ⟨font, hFont, hRest⟩ := Option.bind_eq_some_iff.mp hEvaluated
  obtain ⟨run, hRun, hValues⟩ := Option.map_eq_some_iff.mp hRest
  obtain ⟨hSize, hOthers⟩ := Prod.mk.inj hValues
  obtain ⟨hFailed, hOthers⟩ := Prod.mk.inj hOthers
  obtain ⟨hGraphics, hOthers⟩ := Prod.mk.inj hOthers
  obtain ⟨hStorage, hStack⟩ := Prod.mk.inj hOthers
  have hMem := List.mem_of_getElem? hRun
  exact ⟨font, run, eq_ok_of_toOption hFont, hMem, hFailed, hGraphics, hStorage, hStack,
    hSize ▸ font.inRange_of_reaches (.ended hMem)⟩

end Hinting
