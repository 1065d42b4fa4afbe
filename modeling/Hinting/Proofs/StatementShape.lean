import Hinting.Proofs.Precision
import Hinting.Proofs.StackDepth

/-!
# What statements are made of

A statement takes operands off the stack and looks at registers, control values or storage. Then
it does one last thing: it works on the stack, sets registers, writes to a control value or to a
storage location, asks for a call or fails. `Statement.Parallel` says so once for all instructions,
with two environments side by side of which the first one may know more.

A property of actions that is closed under these steps holds of every statement. What statements do
to stacks, registers, faults and functions is shown that way, in modules of their own.
-/

namespace Hinting

open Hinting.Action

/-- The faults that applying an instruction can meet. -/
inductive Fault.Meets (m : Mnemonic) : Fault → Prop
  | stackUnderflow : Meets m .stackUnderflow
  | unresolvedCallTarget : m = .CALL ∨ m = .LOOPCALL → Meets m .unresolvedCallTarget
  | unresolvedOperand : Meets m (.unresolvedOperand m)
  | invalidCvtIndex (index : Int32) : Meets m (.invalidCvtIndex index)
  | invalidStorageIndex (index : Int32) : Meets m (.invalidStorageIndex index)
  | invalidZoneIndex (index : Int32) : Meets m (.invalidZoneIndex index)
  | negativeLoopCounter : Meets m .negativeLoopCounter
  | definitionInProgram : m = .FDEF ∨ m = .ENDF ∨ m = .IDEF → Meets m (.definitionInProgram m)
  | unsupportedControlTransfer : m = .JMPR ∨ m = .JROT ∨ m = .JROF →
      Meets m (.unsupportedControlTransfer m)

namespace StackAction

variable {m : Mnemonic}

theorem pop_meets : Raises (Fault.Meets m) pop := by
  intro s e t h
  unfold pop at h
  split at h
  · cases h
    exact .stackUnderflow
  · cases h

theorem push_meets (value : Value) : Raises (Fault.Meets m) (push value) :=
  .modify _ _

theorem discard_meets (count : Nat) : Raises (Fault.Meets m) (discard count) := by
  intro s e t h
  unfold discard at h
  split at h
  · cases h
  · cases h
    exact .stackUnderflow

theorem dup_meets : Raises (Fault.Meets m) dup := by
  intro s e t h
  unfold dup at h
  split at h
  · cases h
  · cases h
    exact .stackUnderflow

theorem copyFrom_meets (index : Int32) : Raises (Fault.Meets m) (copyFrom index) := by
  intro s e t h
  unfold copyFrom at h
  split at h
  · cases h
  · cases h
    exact .stackUnderflow

theorem moveFrom_meets (index : Int32) : Raises (Fault.Meets m) (moveFrom index) := by
  intro s e t h
  unfold moveFrom at h
  split at h
  · cases h
  · cases h
    exact .stackUnderflow

theorem forget_meets : Raises (Fault.Meets m) forget := by
  intro s e t h
  unfold forget at h
  split at h
  · cases h
    exact .stackUnderflow
  · cases h

/-- What a statement can do to the stack at last: it takes values off before it puts values on, and
the only fault it can meet is that there are too few. -/
structure Ends (m : Mnemonic) (x : StackAction Unit) : Prop where
  meets : Raises (Fault.Meets m) x
  turns : Turns id x

theorem ends_pushAll (values : ValueStack → List Value) :
    Ends m (modify fun stack => stack.pushAll (values stack)) :=
  ⟨.modify _ _, fun s => (s.rises_pushAll _).turns⟩

theorem ends_clear : Ends m (modify (·.clear)) :=
  ⟨.modify _ _, fun s => s.falls_clear.turns⟩

theorem ends_unary (f : Value → Value) : Ends m (unary f) :=
  ⟨pop_meets.bind fun _ => push_meets _, unary_turns f⟩

theorem ends_binary (f : Value → Value → Value) : Ends m (binary f) :=
  ⟨pop_meets.bind fun _ => pop_meets.bind fun _ => push_meets _, binary_turns f⟩

theorem ends_dup : Ends m dup :=
  ⟨dup_meets, dup_puts.turns⟩

theorem ends_swap : Ends m swap :=
  ⟨pop_meets.bind fun _ => pop_meets.bind fun _ => (push_meets _).bind fun _ => push_meets _,
    swap_turns⟩

theorem ends_roll : Ends m roll :=
  ⟨pop_meets.bind fun _ => pop_meets.bind fun _ => pop_meets.bind fun _ =>
    (push_meets _).bind fun _ => (push_meets _).bind fun _ => push_meets _, roll_turns⟩

theorem ends_copyIndex : Ends m copyIndex := by
  refine ⟨pop_meets.bind fun value => ?_, copyIndex_turns⟩
  cases value with
  | known index => exact copyFrom_meets index
  | unknown => exact push_meets _

theorem ends_moveIndex : Ends m moveIndex := by
  refine ⟨pop_meets.bind fun value => ?_, moveIndex_takes.turns⟩
  cases value with
  | known index => exact moveFrom_meets index
  | unknown => exact forget_meets

end StackAction

/-- Unknown, or known to lie between two bounds. -/
def Value.Within (low high : Int) : Value → Prop
  | .unknown => True
  | .known word => low ≤ word.toInt ∧ word.toInt ≤ high

instance (low high : Int) : (value : Value) → Decidable (value.Within low high)
  | .unknown => .isTrue trivial
  | .known word => inferInstanceAs (Decidable (low ≤ word.toInt ∧ word.toInt ≤ high))

namespace Statement

/-- The instructions that set the projection vector. -/
def setsProjection (s : Statement) : Bool :=
  [.SVTCA, .SPVTCA, .SPVTL, .SDPVTL, .SPVFS].contains s.mnemonic

/-- What a statement can make of the graphics state. -/
inductive Sets (s : Statement) (g : GraphicsState) : GraphicsState → Prop
  | vectors (projection dualProjection freedom : Axis) : s.setsProjection = true →
      Sets s g { g with projection, dualProjection, freedom }
  | freedom (freedom : Axis) : Sets s g { g with freedom }
  | zones {zp0 zp1 zp2 : Value} : zp0 = g.zp0 ∨ zp0.Within 0 1 → zp1 = g.zp1 ∨ zp1.Within 0 1 →
      zp2 = g.zp2 ∨ zp2.Within 0 1 → Sets s g { g with zp0, zp1, zp2 }
  | loopCounter {loopCounter : Value} : loopCounter.Within 0 0xFFFF →
      Sets s g { g with loopCounter }
  | control (selector value : Int32) : Sets s g
      { g with instructControl := EnvAction.changeControl selector value g.instructControl }
  | forgetControl : Sets s g { g with instructControl := .unknown }
  | forgetWidth : Sets s g { g with singleWidth := .unknown }
  /-- These registers take any value. -/
  | others (rounding : Rounding) (rp0 rp1 rp2 minDistance controlValueCutIn singleWidthCutIn
        deltaBase deltaShift scanControl scanType : Value) (autoFlip : Bool) :
      Sets s g { g with
        rounding, rp0, rp1, rp2, minDistance, controlValueCutIn, singleWidthCutIn, deltaBase,
        deltaShift, scanControl, scanType, autoFlip }

open perform (effect)

/-- What a statement does on two environments of which the first one may know more. Where only one
side fails, the other one goes on like any statement. -/
inductive Parallel (s : Statement) :
    EnvAction (Option Label) → EnvAction (Option Label) → Prop
  | done (target : Option Label) : Parallel s (pure target) (pure target)
  | fail {fault : Fault} : Fault.Meets s.mnemonic fault → Parallel s (throw fault) (throw fault)
  | failFirst {fault : Fault} {y : EnvAction (Option Label)} : Fault.Meets s.mnemonic fault →
      fault.Revealed → Parallel s y y → Parallel s (throw fault) y
  | failSecond {fault : Fault} {x : EnvAction (Option Label)} : Fault.Meets s.mnemonic fault →
      Parallel s x x → Parallel s x (throw fault)
  | pop {x y : Value → EnvAction (Option Label)} :
      (∀ a b, a.Below b → Parallel s (x a) (y b)) →
      Parallel s (EnvAction.pop >>= x) (EnvAction.pop >>= y)
  | discard (count : Nat) {x y : EnvAction (Option Label)} : Parallel s x y →
      Parallel s (EnvAction.discard count >>= fun _ => x) (EnvAction.discard count >>= fun _ => y)
  | readCvt {a b : Value} {x y : Value → EnvAction (Option Label)} : a.Below b →
      (∀ c d, c.Below d → Parallel s (x c) (y d)) →
      Parallel s (EnvAction.readCvt a >>= x) (EnvAction.readCvt b >>= y)
  | readStorage {a b : Value} {x y : Value → EnvAction (Option Label)} : a.Below b →
      (∀ c d, c.Below d → Parallel s (x c) (y d)) →
      Parallel s (EnvAction.readStorage a >>= x) (EnvAction.readStorage b >>= y)
  | graphics {x y : GraphicsState → EnvAction (Option Label)} :
      (∀ g h, g.Below h → Parallel s (x g) (y h)) →
      Parallel s (get >>= fun env => x env.graphics) (get >>= fun env => y env.graphics)
  | stack {x y : StackAction Unit} : StackAction.Refines Eq x y → x.Ends s.mnemonic →
      y.Ends s.mnemonic →
      Parallel s (effect (EnvAction.onStack x)) (effect (EnvAction.onStack y))
  | setGraphics {f g : GraphicsState → GraphicsState} :
      (∀ u v, u.Below v → (f u).Below (g v)) → (∀ u, s.Sets u (f u)) → (∀ v, s.Sets v (g v)) →
      Parallel s (effect (EnvAction.setGraphics f)) (effect (EnvAction.setGraphics g))
  | writeCvt {a b v w : Value} : a.Below b → v.Below w →
      Parallel s (effect (EnvAction.writeCvt a v)) (effect (EnvAction.writeCvt b w))
  | writeStorage {a b v w : Value} : a.Below b → v.Below w →
      Parallel s (effect (EnvAction.writeStorage a v)) (effect (EnvAction.writeStorage b w))

@[simp]
theorem effect_bind {α : Type} (x : EnvAction α) (f : α → EnvAction Unit) :
    effect (x >>= f) = x >>= fun a => effect (f a) :=
  bind_assoc x f _

namespace Parallel

variable {s : Statement}

open EnvAction

theorem pushAll {values : ValueStack → List Value}
    (h : ∀ u v, u.Below v → List.Forall₂ Value.Below (values u) (values v)) :
    s.Parallel (effect (onStack (modify fun stack => stack.pushAll (values stack))))
      (effect (onStack (modify fun stack => stack.pushAll (values stack)))) :=
  .stack (.modify fun u v huv => huv.pushAll (h u v huv)) (StackAction.ends_pushAll _)
    (StackAction.ends_pushAll _)

theorem push {a b : Value} (h : a.Below b) :
    s.Parallel (effect (EnvAction.push a)) (effect (EnvAction.push b)) :=
  .stack (StackAction.push_refines h) (StackAction.ends_pushAll _) (StackAction.ends_pushAll _)

theorem unary {f : Value → Value} (h : ∀ a b, a.Below b → (f a).Below (f b)) :
    s.Parallel (perform.unaryEffect f) (perform.unaryEffect f) :=
  .stack (StackAction.unary_refines h) (StackAction.ends_unary f) (StackAction.ends_unary f)

theorem binary {f : Value → Value → Value}
    (h : ∀ a b c d, a.Below b → c.Below d → (f a c).Below (f b d)) :
    s.Parallel (perform.binaryEffect f) (perform.binaryEffect f) :=
  .stack (StackAction.binary_refines h) (StackAction.ends_binary f) (StackAction.ends_binary f)

theorem roundsTo (residue : Int) :
    s.Parallel (perform.roundingEffect (Value.roundsTo · residue))
      (perform.roundingEffect (Value.roundsTo · residue)) := by
  have hUnary {g h : GraphicsState} (hgh : g.Below h) :
      s.Parallel (perform.unaryEffect (Value.roundsTo g.rounding residue))
        (perform.unaryEffect (Value.roundsTo h.rounding residue)) :=
    .stack (StackAction.unary_refines fun _ _ hab => hab.roundsTo hgh.roundMode residue)
      (StackAction.ends_unary _) (StackAction.ends_unary _)
  rw [perform.roundingEffect, effect_bind]
  exact .graphics fun g h hgh => hUnary hgh

theorem registers {f : GraphicsState → GraphicsState}
    (hBelow : ∀ u v, u.Below v → (f u).Below (f v)) (hSets : ∀ u, s.Sets u (f u)) :
    s.Parallel (effect (EnvAction.setGraphics f)) (effect (EnvAction.setGraphics f)) :=
  .setGraphics hBelow hSets hSets

theorem popInto {f : Value → GraphicsState → GraphicsState}
    (hBelow : ∀ a b u v, a.Below b → u.Below v → (f a u).Below (f b v))
    (hSets : ∀ a u, s.Sets u (f a u)) :
    s.Parallel (effect (EnvAction.popInto f)) (effect (EnvAction.popInto f)) := by
  rw [EnvAction.popInto, effect_bind]
  exact .pop fun a b hab => .setGraphics (fun u v => hBelow a b u v hab) (hSets a) (hSets b)

theorem discardThen (count : Nat) {x y : EnvAction Unit}
    (h : s.Parallel (effect x) (effect y)) :
    s.Parallel (effect (EnvAction.discard count >>= fun _ => x))
      (effect (EnvAction.discard count >>= fun _ => y)) := by
  rw [effect_bind, effect_bind]
  exact .discard count h

theorem popAxis {f : Axis → GraphicsState → GraphicsState}
    (hBelow : ∀ a b u v, a.Below b → u.Below v → (f a u).Below (f b v))
    (hSets : ∀ a u, s.Sets u (f a u)) :
    s.Parallel (effect (EnvAction.popAxis >>= fun axis => EnvAction.setGraphics (f axis)))
      (effect (EnvAction.popAxis >>= fun axis => EnvAction.setGraphics (f axis))) := by
  simp only [effect_bind, EnvAction.popAxis, bind_assoc, pure_bind]
  exact .pop fun _ _ hy => .pop fun _ _ hx => .setGraphics
    (fun u v => hBelow _ _ u v (Axis.below_ofComponents hx hy)) (hSets _) (hSets _)

theorem push_push (a b : Value) :
    (EnvAction.push a >>= fun _ => EnvAction.push b) =
      onStack (modify fun stack => stack.pushAll [b, a]) := by
  funext env
  have hStack : (env.stack.push a).push b = env.stack.pushAll [b, a] := by
    simp [ValueStack.push, ValueStack.pushAll, Nat.max_assoc]
  exact congrArg (fun stack => EStateM.Result.ok () { env with stack }) hStack

theorem pushAxis {vector : GraphicsState → Axis}
    (h : ∀ u v, u.Below v → (vector u).Below (vector v)) :
    s.Parallel (effect (EnvAction.pushAxis vector)) (effect (EnvAction.pushAxis vector)) := by
  have hPush {a b : Axis} (hab : a.Below b) : s.Parallel
      (effect (EnvAction.push a.components.1 >>= fun _ => EnvAction.push a.components.2))
      (effect (EnvAction.push b.components.1 >>= fun _ => EnvAction.push b.components.2)) := by
    obtain ⟨hx, hy⟩ := hab.components
    rw [push_push, push_push]
    exact .stack (.modify fun u v huv => huv.pushAll (.cons hy (.cons hx .nil)))
      (StackAction.ends_pushAll _) (StackAction.ends_pushAll _)
  rw [EnvAction.pushAxis, effect_bind]
  exact .graphics fun u v huv => hPush (h u v huv)

theorem setZone {f : Value → GraphicsState → GraphicsState}
    (hBelow : ∀ a b u v, a.Below b → u.Below v → (f a u).Below (f b v))
    (hSets : ∀ a u, a.Within 0 1 → s.Sets u (f a u)) :
    s.Parallel (effect (EnvAction.setZone f)) (effect (EnvAction.setZone f)) := by
  simp only [EnvAction.setZone, EnvAction.popZone, effect_bind, bind_assoc]
  have hForget {a : Value} (ha : a.Within 0 1) :
      s.Parallel (effect (EnvAction.setGraphics (f a)))
        (effect (EnvAction.setGraphics (f .unknown))) :=
    .setGraphics (fun u v => hBelow a .unknown u v (Value.below_unknown a)) (fun u => hSets a u ha)
      fun u => hSets .unknown u trivial
  refine .pop fun a b hab => ?_
  cases a with
  | unknown =>
    obtain rfl := (Value.unknown_below_iff b).mp hab
    exact hForget trivial
  | known zone =>
    by_cases hZone : zone = 0 ∨ zone = 1
    · have hWithin : (Value.known zone).Within 0 1 := by
        rcases hZone with rfl | rfl <;> decide
      simp only [if_pos hZone]
      rcases hab with rfl | rfl
      · exact hForget hWithin
      · simp only [if_pos hZone]
        exact .registers (fun u v => hBelow _ _ u v (.refl _)) fun u => hSets _ u hWithin
    · simp only [if_neg hZone]
      rcases hab with rfl | rfl
      · exact .failFirst (.invalidZoneIndex zone) (.invalidZoneIndex zone) (hForget trivial)
      · simp only [if_neg hZone]
        exact .fail (.invalidZoneIndex zone)

theorem within_min_of_nonneg {count : Int32} (h : ¬count < 0) :
    (Value.known (min count 0xFFFF)).Within 0 0xFFFF := by
  have hMin : min count 0xFFFF = if count ≤ 0xFFFF then count else 0xFFFF := rfl
  rw [hMin]
  split
  · rename_i hLe
    exact ⟨Int.not_lt.mp fun hLess => h (Int32.lt_iff_toInt_lt.mpr hLess),
      Int32.le_iff_toInt_le.mp hLe⟩
  · decide

theorem setLoopCounter :
    s.Parallel (effect EnvAction.setLoopCounter) (effect EnvAction.setLoopCounter) := by
  have hSet {a b : Value} (hab : a.Below b) (ha : a.Within 0 0xFFFF) (hb : b.Within 0 0xFFFF) :
      s.Parallel (effect (EnvAction.setGraphics fun g => { g with loopCounter := a }))
        (effect (EnvAction.setGraphics fun g => { g with loopCounter := b })) :=
    .setGraphics (fun _ _ h => { h with loopCounter := hab }) (fun _ => .loopCounter ha)
      fun _ => .loopCounter hb
  rw [EnvAction.setLoopCounter, effect_bind]
  refine .pop fun a b hab => ?_
  cases a with
  | unknown =>
    obtain rfl := (Value.unknown_below_iff b).mp hab
    exact hSet (.refl _) trivial trivial
  | known count =>
    by_cases hCount : count < 0
    · simp only [if_pos hCount]
      rcases hab with rfl | rfl
      · exact .failFirst .negativeLoopCounter .negativeLoopCounter (hSet (.refl _) trivial trivial)
      · simp only [if_pos hCount]
        exact .fail .negativeLoopCounter
    · have hWithin := within_min_of_nonneg hCount
      simp only [if_neg hCount]
      rcases hab with rfl | rfl
      · exact hSet (Value.below_unknown _) hWithin trivial
      · simp only [if_neg hCount]
        exact hSet (.refl _) hWithin hWithin

theorem changeControl_below {a b : Value} (h : a.Below b) (selector value : Int32) :
    (changeControl selector value a).Below (changeControl selector value b) := by
  unfold changeControl
  split
  · exact h
  · split
    · exact h.map _
    · exact h

theorem popTwo {f : Value → Value → GraphicsState → GraphicsState}
    (hBelow : ∀ a b c d u v, a.Below b → c.Below d → u.Below v → (f a c u).Below (f b d v))
    (hSets : ∀ a c u, s.Sets u (f a c u)) :
    s.Parallel
      (effect do
        let first ← EnvAction.pop
        let second ← EnvAction.pop
        EnvAction.setGraphics (f first second))
      (effect do
        let first ← EnvAction.pop
        let second ← EnvAction.pop
        EnvAction.setGraphics (f first second)) := by
  simp only [effect_bind]
  exact .pop fun a b hab => .pop fun c d hcd =>
    .setGraphics (fun u v => hBelow a b c d u v hab hcd) (hSets a c) (hSets b d)

/-- An unknown selector or value makes the register unknown, also where the known ones
have no effect. -/
theorem setInstructControl :
    s.Parallel (effect EnvAction.setInstructControl) (effect EnvAction.setInstructControl) := by
  refine popTwo (fun a b c d u v hab hcd huv => ?_) fun selector value g => ?_
  · cases b with
    | unknown => cases a <;> cases c <;> exact { huv with instructControl := Value.below_unknown _ }
    | known selector =>
      rw [(Value.below_known_iff a selector).mp hab]
      cases d with
      | unknown => cases c <;> exact { huv with instructControl := Value.below_unknown _ }
      | known value =>
        rw [(Value.below_known_iff c value).mp hcd]
        exact { huv with instructControl := changeControl_below huv.instructControl selector value }
  · cases selector with
    | unknown => exact .forgetControl
    | known selector =>
      cases value with
      | unknown => exact .forgetControl
      | known value => exact .control selector value

theorem popPointByCvt {f : Value → GraphicsState → GraphicsState}
    (hBelow : ∀ a b u v, a.Below b → u.Below v → (f a u).Below (f b v))
    (hSets : ∀ a u, s.Sets u (f a u)) :
    s.Parallel (effect (EnvAction.popPointByCvt >>= fun point => EnvAction.setGraphics (f point)))
      (effect (EnvAction.popPointByCvt >>= fun point => EnvAction.setGraphics (f point))) := by
  simp only [effect_bind, EnvAction.popPointByCvt, bind_assoc, pure_bind]
  exact .pop fun _ _ hIndex => .pop fun a b hab => .readCvt hIndex fun _ _ _ =>
    .setGraphics (fun u v => hBelow a b u v hab) (hSets a) (hSets b)

theorem countOf {a b : Value} (hab : a.Below b) {x : Nat → EnvAction (Option Label)}
    (h : ∀ count, s.Parallel (x count) (x count)) :
    s.Parallel (EnvAction.countOf s.mnemonic a >>= x) (EnvAction.countOf s.mnemonic b >>= x) := by
  cases b with
  | known count =>
    rw [(Value.below_known_iff a count).mp hab]
    exact h _
  | unknown =>
    cases a with
    | known count => exact .failSecond .unresolvedOperand (h _)
    | unknown => exact .fail .unresolvedOperand

theorem loopPoints {m : Mnemonic} (hMnemonic : s.mnemonic = m) :
    s.Parallel (effect (EnvAction.loopPoints m)) (effect (EnvAction.loopPoints m)) := by
  subst hMnemonic
  have hReset : s.Parallel
      (effect (EnvAction.setGraphics fun g => { g with loopCounter := .known 1 }))
      (effect (EnvAction.setGraphics fun g => { g with loopCounter := .known 1 })) :=
    .registers (fun _ _ h => { h with loopCounter := .refl _ }) fun _ => .loopCounter (by decide)
  have hRest : s.Parallel
      (effect do
        let count ← EnvAction.countOf s.mnemonic (← get).graphics.loopCounter
        EnvAction.discard count
        EnvAction.setGraphics fun g => { g with loopCounter := .known 1 })
      (effect do
        let count ← EnvAction.countOf s.mnemonic (← get).graphics.loopCounter
        EnvAction.discard count
        EnvAction.setGraphics fun g => { g with loopCounter := .known 1 }) := by
    simp only [effect_bind]
    exact .graphics fun u v huv => countOf huv.loopCounter fun count => .discard count hReset
  unfold EnvAction.loopPoints
  by_cases hPixels : s.mnemonic = .SHPIX
  · simp only [if_pos hPixels]
    rw [effect_bind]
    exact .pop fun _ _ _ => hRest
  · simp only [if_neg hPixels]
    exact hRest

theorem deltaPairs {m : Mnemonic} (hMnemonic : s.mnemonic = m) :
    s.Parallel (effect (EnvAction.deltaPairs m)) (effect (EnvAction.deltaPairs m)) := by
  subst hMnemonic
  simp only [EnvAction.deltaPairs, effect_bind]
  exact .pop fun _ _ hab => countOf hab fun count => .discard (2 * count) (.done none)

theorem callTarget (hMnemonic : s.mnemonic = .CALL ∨ s.mnemonic = .LOOPCALL) {a b : Value}
    (hab : a.Below b) :
    s.Parallel (EnvAction.callTarget a >>= fun label => pure (some label))
      (EnvAction.callTarget b >>= fun label => pure (some label)) := by
  cases b with
  | known label =>
    rw [(Value.below_known_iff a label).mp hab]
    exact .done (some label)
  | unknown =>
    cases a with
    | known label => exact .failSecond (.unresolvedCallTarget hMnemonic) (.done (some label))
    | unknown => exact .fail (.unresolvedCallTarget hMnemonic)

theorem readAt {read : Value → EnvAction Value}
    (h : ∀ {a b : Value} {x y : Value → EnvAction (Option Label)}, a.Below b →
      (∀ c d, c.Below d → s.Parallel (x c) (y d)) → s.Parallel (read a >>= x) (read b >>= y)) :
    s.Parallel (effect (EnvAction.readAt read)) (effect (EnvAction.readAt read)) := by
  simp only [EnvAction.readAt, effect_bind]
  exact .pop fun _ _ hab => h hab fun _ _ => push

theorem writeAt {write : Value → Value → EnvAction Unit}
    (h : ∀ a b v w, a.Below b → v.Below w →
      s.Parallel (effect (write a v)) (effect (write b w))) :
    s.Parallel (effect (EnvAction.writeAt write)) (effect (EnvAction.writeAt write)) := by
  simp only [EnvAction.writeAt, effect_bind]
  exact .pop fun v w hvw => .pop fun a b hab => h a b v w hab hvw

theorem takeAndPush (pops pushes : Nat) :
    s.Parallel (effect (EnvAction.takeAndPush pops pushes))
      (effect (EnvAction.takeAndPush pops pushes)) :=
  .discardThen pops (.pushAll fun _ _ _ => List.forall₂_same.mpr fun _ _ => .refl _)

theorem touch_below {a b : Value} {s t : GraphicsState} (hab : a.Below b) (h : s.Below t) :
    (touch a s).Below (touch b t) :=
  { h with rp0 := hab, rp1 := hab }

theorem moveRelative_below {a b : Value} {s t : GraphicsState} (follow : Bool) (hab : a.Below b)
    (h : s.Below t) : (moveRelative a follow s).Below (moveRelative b follow t) := by
  cases follow with
  | true => exact { h with rp0 := hab, rp1 := h.rp0, rp2 := hab }
  | false => exact { h with rp0 := h.rp0, rp1 := h.rp0, rp2 := hab }

end Parallel

open EnvAction Parallel in
theorem perform_parallel (axisCount : Nat) (s : Statement) :
    s.Parallel (s.perform axisCount) (s.perform axisCount) := by
  unfold perform
  cases hMnemonic : s.mnemonic
  case IF => exact .pop fun _ _ _ => .done none
  case ELSE | EIF => exact .done none
  case JMPR | JROT | JROF =>
    exact .fail (by rw [hMnemonic]; exact .unsupportedControlTransfer (by simp))
  case FDEF | ENDF | IDEF =>
    exact .fail (by rw [hMnemonic]; exact .definitionInProgram (by simp))
  case CALL => exact .pop fun _ _ hab => callTarget (.inl hMnemonic) hab
  case LOOPCALL => exact .pop fun _ _ hab => .pop fun _ _ _ => callTarget (.inr hMnemonic) hab
  case PUSH | PUSHB | PUSHW | NPUSHB | NPUSHW | GETVARIATION =>
    exact pushAll fun _ _ _ => List.forall₂_same.mpr fun _ _ => .refl _
  case DEPTH => exact pushAll fun _ _ h => .cons (h.depth ▸ .refl _) .nil
  case CLEAR =>
    exact .stack (.modify fun _ _ h => ⟨.nil, h.peak⟩) StackAction.ends_clear StackAction.ends_clear
  case POP => exact .discard 1 (.done none)
  case DUP => exact .stack StackAction.dup_refines StackAction.ends_dup StackAction.ends_dup
  case SWAP => exact .stack StackAction.swap_refines StackAction.ends_swap StackAction.ends_swap
  case ROLL => exact .stack StackAction.roll_refines StackAction.ends_roll StackAction.ends_roll
  case CINDEX =>
    exact .stack StackAction.copyIndex_refines StackAction.ends_copyIndex StackAction.ends_copyIndex
  case MINDEX =>
    exact .stack StackAction.moveIndex_refines StackAction.ends_moveIndex StackAction.ends_moveIndex
  case LT | LTEQ | GT | GTEQ | EQ | NEQ | ADD | SUB | DIV | MUL | MAX | MIN =>
    exact binary fun _ _ _ _ hab hcd => hab.zipWith hcd _
  case AND => exact binary fun _ _ _ _ hab hcd => hab.conjunction hcd
  case OR => exact binary fun _ _ _ _ hab hcd => hab.disjunction hcd
  case NOT | ABS | NEG | FLOOR | CEILING => exact unary fun _ _ h => h.map _
  case ODD | EVEN => exact roundsTo _
  case RS => exact readAt .readStorage
  case RCVT => exact readAt .readCvt
  case WS => exact writeAt fun _ _ _ _ => .writeStorage
  case WCVTP => exact writeAt fun _ _ _ _ => .writeCvt
  case WCVTF => exact writeAt fun _ _ _ _ hab _ => .writeCvt hab (.refl _)
  case SVTCA =>
    exact registers
      (fun _ _ h =>
        { h with projection := .inr rfl, dualProjection := .inr rfl, freedom := .inr rfl })
      fun _ => .vectors _ _ _ (by simp [setsProjection, hMnemonic])
  case SPVTCA =>
    exact registers
      (fun _ _ h => { h with projection := .inr rfl, dualProjection := .inr rfl })
      fun _ => .vectors _ _ _ (by simp [setsProjection, hMnemonic])
  case SFVTCA =>
    exact registers (fun _ _ h => { h with freedom := .inr rfl }) fun _ => .freedom _
  case SPVTL =>
    exact discardThen 2 (registers (fun _ _ h => { h with projection := .inr rfl })
      fun _ => .vectors _ _ _ (by simp [setsProjection, hMnemonic]))
  case SFVTL =>
    exact discardThen 2 (registers (fun _ _ h => { h with freedom := .inr rfl })
      fun _ => .freedom _)
  case SDPVTL =>
    exact discardThen 2 (registers
      (fun _ _ h => { h with projection := .inr rfl, dualProjection := .inr rfl })
      fun _ => .vectors _ _ _ (by simp [setsProjection, hMnemonic]))
  case SPVFS =>
    exact popAxis
      (fun _ _ _ _ hAxis h => { h with projection := hAxis, dualProjection := hAxis })
      fun _ _ => .vectors _ _ _ (by simp [setsProjection, hMnemonic])
  case SFVFS =>
    exact popAxis (fun _ _ _ _ hAxis h => { h with freedom := hAxis }) fun _ _ => .freedom _
  case GPV => exact pushAxis fun _ _ h => h.projection
  case GFV => exact pushAxis fun _ _ h => h.freedom
  case SFVTPV =>
    exact registers (fun _ _ h => { h with freedom := h.projection }) fun _ => .freedom _
  case SRP0 => exact popInto (fun _ _ _ _ hab h => { h with rp0 := hab }) fun _ _ => .others ..
  case SRP1 => exact popInto (fun _ _ _ _ hab h => { h with rp1 := hab }) fun _ _ => .others ..
  case SRP2 => exact popInto (fun _ _ _ _ hab h => { h with rp2 := hab }) fun _ _ => .others ..
  case SZP0 =>
    exact setZone (fun _ _ _ _ hab h => { h with zp0 := hab })
      fun _ _ h => .zones (.inr h) (.inl rfl) (.inl rfl)
  case SZP1 =>
    exact setZone (fun _ _ _ _ hab h => { h with zp1 := hab })
      fun _ _ h => .zones (.inl rfl) (.inr h) (.inl rfl)
  case SZP2 =>
    exact setZone (fun _ _ _ _ hab h => { h with zp2 := hab })
      fun _ _ h => .zones (.inl rfl) (.inl rfl) (.inr h)
  case SZPS =>
    exact setZone (fun _ _ _ _ hab h => { h with zp0 := hab, zp1 := hab, zp2 := hab })
      fun _ _ h => .zones (.inr h) (.inr h) (.inr h)
  case SLOOP => exact setLoopCounter
  case RTG | RTHG | RTDG | RDTG | RUTG | ROFF =>
    exact registers (fun _ _ h => { h with roundMode := rfl }) fun _ => .others ..
  case SROUND | S45ROUND =>
    exact popInto (fun _ _ _ _ hab h => { h with roundMode := rfl, roundSelector := hab })
      fun _ _ => .others ..
  case SMD =>
    exact popInto (fun _ _ _ _ hab h => { h with minDistance := hab }) fun _ _ => .others ..
  case SCVTCI =>
    exact popInto (fun _ _ _ _ hab h => { h with controlValueCutIn := hab }) fun _ _ => .others ..
  case SSWCI =>
    exact popInto (fun _ _ _ _ hab h => { h with singleWidthCutIn := hab }) fun _ _ => .others ..
  case SSW =>
    exact popInto (fun _ _ _ _ _ h => { h with singleWidth := .refl _ }) fun _ _ => .forgetWidth
  case SDB =>
    exact popInto (fun _ _ _ _ hab h => { h with deltaBase := hab }) fun _ _ => .others ..
  case SDS =>
    exact popInto (fun _ _ _ _ hab h => { h with deltaShift := hab }) fun _ _ => .others ..
  case FLIPON | FLIPOFF =>
    exact registers (fun _ _ h => { h with autoFlip := rfl }) fun _ => .others ..
  case SCANCTRL =>
    exact popInto (fun _ _ _ _ hab h => { h with scanControl := hab }) fun _ _ => .others ..
  case SCANTYPE =>
    exact popInto (fun _ _ _ _ hab h => { h with scanType := hab }) fun _ _ => .others ..
  case INSTCTRL => exact setInstructControl
  case MDAP => exact popInto (fun _ _ _ _ => touch_below) fun _ _ => .others ..
  case MIAP => exact popPointByCvt (fun _ _ _ _ => touch_below) fun _ _ => .others ..
  case MDRP => exact popInto (fun _ _ _ _ => moveRelative_below _) fun _ _ => .others ..
  case MIRP => exact popPointByCvt (fun _ _ _ _ => moveRelative_below _) fun _ _ => .others ..
  case MSIRP =>
    exact popTwo (fun _ _ _ _ _ _ _ => moveRelative_below _) fun _ _ _ => .others ..
  case SHP | SHPIX | IP | ALIGNRP | FLIPPT => exact loopPoints hMnemonic
  case DELTAP1 | DELTAP2 | DELTAP3 | DELTAC1 | DELTAC2 | DELTAC3 => exact deltaPairs hMnemonic
  -- measurements take and push as many values as their stack effect says
  all_goals exact takeAndPush _ _

/-- A property of actions that every step of a statement keeps. -/
structure Closed (s : Statement) (Q : EnvAction (Option Label) → Prop) : Prop where
  done : ∀ target, Q (pure target)
  fail : ∀ fault, Fault.Meets s.mnemonic fault → Q (throw fault)
  pop : ∀ x, (∀ value, Q (x value)) → Q (EnvAction.pop >>= x)
  discard : ∀ count x, Q x → Q (EnvAction.discard count >>= fun _ => x)
  readCvt : ∀ index x, (∀ value, Q (x value)) → Q (EnvAction.readCvt index >>= x)
  readStorage : ∀ index x, (∀ value, Q (x value)) → Q (EnvAction.readStorage index >>= x)
  graphics : ∀ x : GraphicsState → EnvAction (Option Label), (∀ g, Q (x g)) →
    Q (get >>= fun env => x env.graphics)
  stack : ∀ x : StackAction Unit, x.Ends s.mnemonic → Q (effect (EnvAction.onStack x))
  setGraphics : ∀ f, (∀ g, s.Sets g (f g)) → Q (effect (EnvAction.setGraphics f))
  writeCvt : ∀ index value, Q (effect (EnvAction.writeCvt index value))
  writeStorage : ∀ index value, Q (effect (EnvAction.writeStorage index value))

theorem Parallel.of_closed {s : Statement} {Q : EnvAction (Option Label) → Prop} (hQ : s.Closed Q)
    {x y : EnvAction (Option Label)} (h : s.Parallel x y) : Q x ∧ Q y := by
  induction h with
  | done target => exact ⟨hQ.done target, hQ.done target⟩
  | fail hMeets => exact ⟨hQ.fail _ hMeets, hQ.fail _ hMeets⟩
  | failFirst hMeets _ _ ih => exact ⟨hQ.fail _ hMeets, ih.2⟩
  | failSecond hMeets _ ih => exact ⟨ih.1, hQ.fail _ hMeets⟩
  | pop _ ih =>
    exact ⟨hQ.pop _ fun a => (ih a a (.refl a)).1, hQ.pop _ fun a => (ih a a (.refl a)).2⟩
  | discard count _ ih => exact ⟨hQ.discard count _ ih.1, hQ.discard count _ ih.2⟩
  | readCvt _ _ ih =>
    exact ⟨hQ.readCvt _ _ fun a => (ih a a (.refl a)).1,
      hQ.readCvt _ _ fun a => (ih a a (.refl a)).2⟩
  | readStorage _ _ ih =>
    exact ⟨hQ.readStorage _ _ fun a => (ih a a (.refl a)).1,
      hQ.readStorage _ _ fun a => (ih a a (.refl a)).2⟩
  | graphics _ ih =>
    exact ⟨hQ.graphics _ fun g => (ih g g (.refl g)).1, hQ.graphics _ fun g => (ih g g (.refl g)).2⟩
  | stack _ hx hy => exact ⟨hQ.stack _ hx, hQ.stack _ hy⟩
  | setGraphics _ hx hy => exact ⟨hQ.setGraphics _ hx, hQ.setGraphics _ hy⟩
  | writeCvt _ _ => exact ⟨hQ.writeCvt _ _, hQ.writeCvt _ _⟩
  | writeStorage _ _ => exact ⟨hQ.writeStorage _ _, hQ.writeStorage _ _⟩

theorem perform_of_closed {s : Statement} {Q : EnvAction (Option Label) → Prop} (hQ : s.Closed Q)
    (axisCount : Nat) : Q (s.perform axisCount) :=
  ((s.perform_parallel axisCount).of_closed hQ).1

end Statement

end Hinting
