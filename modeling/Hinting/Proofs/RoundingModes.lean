import Hinting.Proofs.WordArithmetic
import Mathlib.Algebra.Order.Floor.Div

/-!
# Rounding modes

Every mode that needs no selector rounds the magnitude of a distance to a grid and keeps the sign.
The magnitude is moved up by a bias, cut off to a multiple of a unit and moved up by an offset. Bias
and offset together are smaller than the unit, so what is on the grid already stays where it is, and
the unit divides the limit of words.

The words of the modes agree with the integers while the bias can be added. Closer to the limits of
words they overflow, and then only the clamp at zero and the multiples are left.
-/

namespace Hinting

structure Grid where
  unit : Nat
  bias : Nat
  offset : Nat
  stays : bias + offset < unit
  divides : unit ∣ 0x80000000

namespace Grid

variable (g : Grid)

/-- The place on the grid to which a magnitude is rounded. -/
def place (m : Nat) : Nat :=
  g.unit * ((m + g.bias) / g.unit) + g.offset

/-- The same on words, which can overflow. -/
def word (x : Int32) : Int32 :=
  FixedPoint.floorTo g.unit (x + Int32.ofNat g.bias) + Int32.ofNat g.offset

theorem unit_pos : 0 < g.unit :=
  Nat.zero_lt_of_lt g.stays

theorem place_mono {m n : Nat} (h : m ≤ n) : g.place m ≤ g.place n :=
  Nat.add_le_add_right
    (Nat.mul_le_mul_left _ (Nat.div_le_div_right (Nat.add_le_add_right h _))) _

theorem place_place (m : Nat) : g.place (g.place m) = g.place m := by
  have hRest : (g.offset + g.bias) / g.unit = 0 :=
    Nat.div_eq_of_lt (Nat.add_comm _ _ ▸ g.stays)
  have hQuotient : (g.place m + g.bias) / g.unit = (m + g.bias) / g.unit := by
    rw [place, Nat.add_assoc, Nat.mul_add_div g.unit_pos, hRest, Nat.add_zero]
  rw [place, hQuotient, ← place]

/-- Below the limit of words there is room for a whole unit above each of its multiples. -/
theorem mul_div_add_lt {m rest : Nat} (hm : m < 0x80000000) (hRest : rest < g.unit) :
    g.unit * (m / g.unit) + rest < 0x80000000 := by
  obtain ⟨count, hCount⟩ := g.divides
  have hBelow : m / g.unit < count := Nat.div_lt_of_lt_mul (hCount ▸ hm)
  calc g.unit * (m / g.unit) + rest
      < g.unit * (m / g.unit + 1) := Nat.add_lt_add_left hRest _
    _ ≤ g.unit * count := Nat.mul_le_mul_left _ hBelow
    _ = 0x80000000 := hCount.symm

/-- Rounding does not leave the magnitudes to which the bias can be added. -/
theorem place_add_bias_lt {m : Nat} (h : m + g.bias < 0x80000000) :
    g.place m + g.bias < 0x80000000 := by
  rw [place, Nat.add_assoc]
  exact g.mul_div_add_lt h (Nat.add_comm _ _ ▸ g.stays)

theorem toInt_ofNat_of_lt {n : Nat} (h : n < g.unit) : (Int32.ofNat n).toInt = n :=
  Int32.toInt_ofNat_of_lt (Nat.lt_of_lt_of_le h (Nat.le_of_dvd (by decide) g.divides))

theorem toInt_word {x : Int32} {m : Nat} (hx : x.toInt = m) (h : m + g.bias < 0x80000000) :
    (g.word x).toInt = g.place m := by
  have hStays := g.stays
  have hBias : (Int32.ofNat g.bias).toInt = g.bias := g.toInt_ofNat_of_lt (by omega)
  have hOffset : (Int32.ofNat g.offset).toInt = g.offset := g.toInt_ofNat_of_lt (by omega)
  have hSum : (x + Int32.ofNat g.bias).toInt = (m + g.bias : Nat) := by
    rw [FitsWord.toInt_add, hx, hBias, Int.natCast_add]
    exact ⟨by omega, by omega⟩
  have hFloor : (FixedPoint.floorTo g.unit (x + Int32.ofNat g.bias)).toInt =
      (g.unit * ((m + g.bias) / g.unit) : Nat) := by
    rw [FixedPoint.toInt_floorTo g.unit_pos g.divides, hSum, Int.natCast_mul, Int.natCast_ediv]
  have hPlace := g.place_add_bias_lt h
  rw [place] at hPlace
  rw [word, FitsWord.toInt_add, hFloor, hOffset, place, Int.natCast_add]
  exact ⟨by omega, by omega⟩

/-- A grid without offset holds multiples of its unit only, also where words overflow. -/
theorem dvd_toInt_word (h : g.offset = 0) (x : Int32) : (g.unit : Int) ∣ (g.word x).toInt := by
  have hZero : Int32.ofNat 0 = 0 := rfl
  rw [word, h, hZero, Int32.add_zero, FixedPoint.toInt_floorTo g.unit_pos g.divides]
  exact Int.dvd_mul_right _ _

end Grid

namespace Rounding

/-- A magnitude with the sign of a distance. Zero counts as positive. -/
def towards (d : Int) (m : Nat) : Int :=
  if 0 ≤ d then m else -m

theorem symmetric_sameSide (f : Int32 → Int32) (d : Int32) :
    (0 ≤ d → 0 ≤ symmetric f d) ∧ (d < 0 → symmetric f d ≤ 0) := by
  unfold symmetric
  split
  · rename_i hd
    refine ⟨fun _ => ?_, fun hNeg => absurd hd (Int32.not_le.mpr hNeg)⟩
    rw [Int32.le_iff_toInt_le, toInt_max]
    exact Int.le_max_right _ _
  · rename_i hd
    refine ⟨fun hPos => absurd hPos hd, fun _ => ?_⟩
    rw [Int32.le_iff_toInt_le, toInt_min]
    exact Int.min_le_right _ _

theorem dvd_toInt_symmetric {unit : Int} (hUnit : unit ∣ 0x100000000) {f : Int32 → Int32}
    (h : ∀ x, unit ∣ (f x).toInt) (d : Int32) : unit ∣ (symmetric f d).toInt := by
  have hZero : unit ∣ (0 : Int32).toInt := Int.dvd_zero _
  unfold symmetric
  split
  · rw [toInt_max, Int.max_def]
    split
    · exact hZero
    · exact h d
  · rw [toInt_min, Int.min_def]
    split
    · exact dvd_toInt_neg hUnit (h _)
    · exact hZero

/-- What is known of a rounding at the magnitude of a distance decides it at the distance. -/
theorem toInt_symmetric {f : Int32 → Int32} {d : Int32} {n : Nat}
    (hd : d.toInt.natAbs < 0x80000000)
    (h : ∀ m : Int32, m.toInt = d.toInt.natAbs → (f m).toInt = n) :
    (symmetric f d).toInt = towards d.toInt n := by
  have hZero : (0 : Int32).toInt = 0 := rfl
  unfold symmetric towards
  simp only [Int32.le_iff_toInt_le, hZero]
  split
  · rename_i hPos
    rw [toInt_max, h d (Int.natAbs_of_nonneg hPos).symm, hZero]
    exact Int.max_eq_left (Int.natCast_nonneg n)
  · rename_i hNeg
    have hMagnitude : (-d).toInt = d.toInt.natAbs := by
      rw [FitsWord.toInt_neg ⟨by omega, by omega⟩]
      omega
    have hRounded := h (-d) hMagnitude
    have hUpper := (fitsWord_toInt (f (-d))).upper
    rw [toInt_min, FitsWord.toInt_neg ⟨by omega, by omega⟩, hRounded, hZero]
    exact Int.min_eq_left (by omega)

theorem symmetric_self (d : Int32) : symmetric (fun x => x) d = d := by
  apply Int32.toInt_inj.mp
  unfold symmetric
  split
  · rename_i hd
    rw [toInt_max]
    exact Int.max_eq_left (Int32.le_iff_toInt_le.mp hd)
  · rename_i hd
    rw [toInt_min, Int32.neg_neg]
    exact Int.min_eq_left (Int32.le_iff_toInt_le.mp (Int32.le_of_lt (Int32.not_le.mp hd)))

end Rounding

namespace Grid

open Rounding

variable (g : Grid) {d e : Int32}

theorem toInt_symmetric_word (h : d.toInt.natAbs + g.bias < 0x80000000) :
    (symmetric g.word d).toInt = towards d.toInt (g.place d.toInt.natAbs) :=
  toInt_symmetric (Nat.lt_of_le_of_lt (Nat.le_add_right _ _) h) fun _ hm => g.toInt_word hm h

theorem symmetric_word_mono (hd : d.toInt.natAbs + g.bias < 0x80000000)
    (he : e.toInt.natAbs + g.bias < 0x80000000) (h : d ≤ e) :
    symmetric g.word d ≤ symmetric g.word e := by
  rw [Int32.le_iff_toInt_le] at h ⊢
  rw [g.toInt_symmetric_word hd, g.toInt_symmetric_word he, towards, towards]
  split
  · rename_i hPos
    rw [if_pos (Int.le_trans hPos h)]
    exact Int.ofNat_le.mpr (g.place_mono (by omega))
  · split
    · omega
    · exact Int.neg_le_neg (Int.ofNat_le.mpr (g.place_mono (by omega)))

theorem symmetric_word_idem (h : d.toInt.natAbs + g.bias < 0x80000000) :
    symmetric g.word (symmetric g.word d) = symmetric g.word d := by
  have hRounded := g.toInt_symmetric_word h
  have hMagnitude : (symmetric g.word d).toInt.natAbs = g.place d.toInt.natAbs := by
    rw [hRounded, towards]
    split <;> omega
  have hAgain := g.toInt_symmetric_word (hMagnitude ▸ g.place_add_bias_lt h)
  rw [hMagnitude, g.place_place] at hAgain
  apply Int32.toInt_inj.mp
  -- only a distance that is rounded to zero can change its sign
  rw [hAgain, hRounded, towards, towards]
  split <;> split <;> omega

end Grid

namespace RoundMode

/-- The grid of a mode that needs no selector. -/
def grid? : RoundMode → Option Grid
  | .grid => some ⟨64, 32, 0, by decide, by decide⟩
  | .halfGrid => some ⟨64, 0, 32, by decide, by decide⟩
  | .doubleGrid => some ⟨32, 16, 0, by decide, by decide⟩
  | .downToGrid => some ⟨64, 0, 0, by decide, by decide⟩
  | .upToGrid => some ⟨64, 63, 0, by decide, by decide⟩
  | .off => some ⟨1, 0, 0, by decide, by decide⟩
  | .super | .super45 => none

/-- What a mode makes of a magnitude when words have no limits. -/
def magnitude? (m : Nat) : RoundMode → Option Nat
  | .grid => some (64 * ((m + 32) / 64))
  | .halfGrid => some (64 * (m / 64) + 32)
  | .doubleGrid => some (32 * ((m + 16) / 32))
  | .downToGrid => some (64 * (m / 64))
  | .upToGrid => some (64 * (m ⌈/⌉ 64))
  | .off => some m
  | .super | .super45 => none

/-- What a mode makes of a distance when words have no limits. -/
def distance? (mode : RoundMode) (d : Int) : Option Int :=
  (mode.magnitude? d.natAbs).map (Rounding.towards d)

theorem magnitude?_eq (mode : RoundMode) (m : Nat) :
    mode.magnitude? m = mode.grid?.map fun g => g.place m := by
  cases mode with
  | off => simp [magnitude?, grid?, Grid.place]
  | upToGrid => simp [magnitude?, grid?, Grid.place, Nat.ceilDiv_eq_add_pred_div]
  | _ => rfl

theorem exists_grid {mode : RoundMode} (h : mode.hasSelector = false) :
    ∃ g, mode.grid? = some g := by
  cases mode with
  | super | super45 => cases h
  | _ => exact ⟨_, rfl⟩

theorem exists_grid_of_pixels {mode : RoundMode} (h : mode ∈ [.grid, .downToGrid, .upToGrid]) :
    ∃ g, mode.grid? = some g ∧ g.unit = 64 ∧ g.offset = 0 := by
  cases mode with
  | grid | downToGrid | upToGrid => exact ⟨_, rfl, rfl, rfl⟩
  | _ => simp at h

theorem bias_lt {mode : RoundMode} {g : Grid} (h : mode.grid? = some g) : g.bias < 64 := by
  cases mode <;> cases h <;> decide

end RoundMode

namespace Rounding

variable {r : Rounding} {g : Grid}

theorem symmetric_congr {f f' : Int32 → Int32} (h : ∀ x, f x = f' x) (d : Int32) :
    symmetric f d = symmetric f' d := by
  rw [funext h]

theorem round_eq (h : r.mode.grid? = some g) (d : Int32) :
    r.round d = .known (symmetric g.word d) := by
  obtain ⟨mode, selector⟩ := r
  -- a bias or an offset of zero adds nothing
  cases mode with
  | grid | doubleGrid | upToGrid =>
    cases h
    exact congrArg Value.known (symmetric_congr (fun x => (Int32.add_zero _).symm) d)
  | halfGrid =>
    cases h
    exact congrArg Value.known (symmetric_congr
      (fun x => congrArg (FixedPoint.floor · + 32) (Int32.add_zero x).symm) d)
  | downToGrid =>
    cases h
    exact congrArg Value.known (symmetric_congr (fun x =>
      (congrArg FixedPoint.floor (Int32.add_zero x).symm).trans (Int32.add_zero _).symm) d)
  | off =>
    cases h
    have hWord (x : Int32) : x = FixedPoint.floorTo 1 (x + 0) + 0 := by
      rw [Int32.add_zero, Int32.add_zero, FixedPoint.floorTo_one]
    exact congrArg Value.known ((symmetric_self d).symm.trans (symmetric_congr hWord d))
  | super | super45 => cases h

theorem exists_multiple (h : r.mode.grid? = some g) (hOffset : g.offset = 0) (d : Int32) :
    ∃ w, r.round d = .known w ∧ (g.unit : Int) ∣ w.toInt := by
  have hUnit : (g.unit : Int) ∣ 0x100000000 :=
    Int.dvd_trans (Int.ofNat_dvd.mpr g.divides) (by decide)
  exact ⟨_, round_eq h d, dvd_toInt_symmetric hUnit (g.dvd_toInt_word hOffset) d⟩

theorem exists_pixels (h : r.mode ∈ [.grid, .downToGrid, .upToGrid]) (d : Int32) :
    ∃ w, r.round d = .known w ∧ 64 ∣ w.toInt := by
  obtain ⟨g, hGrid, hUnit, hOffset⟩ := RoundMode.exists_grid_of_pixels h
  obtain ⟨w, hRound, hDvd⟩ := exists_multiple hGrid hOffset d
  exact ⟨w, hRound, by rwa [hUnit] at hDvd⟩

/-- Distances from which every bias keeps away from the limits of words. -/
def Inner (d : Int32) : Prop :=
  d.toInt.natAbs ≤ 0x80000000 - 64

instance (d : Int32) : Decidable (Inner d) :=
  inferInstanceAs (Decidable (d.toInt.natAbs ≤ 0x80000000 - 64))

theorem Inner.add_bias_lt {d : Int32} (hd : Inner d) (h : r.mode.grid? = some g) :
    d.toInt.natAbs + g.bias < 0x80000000 := by
  have hBias := RoundMode.bias_lt h
  unfold Inner at hd
  omega

theorem known?_round {d : Int32} (hd : Inner d) :
    (r.round d).known?.map Int32.toInt = r.mode.distance? d.toInt := by
  rw [RoundMode.distance?, RoundMode.magnitude?_eq]
  cases h : r.mode.grid? with
  | some g =>
    rw [round_eq h]
    exact congrArg some (g.toInt_symmetric_word (hd.add_bias_lt h))
  | none =>
    obtain ⟨mode, selector⟩ := r
    cases mode with
    | super | super45 => rfl
    | _ => cases h

/-- Multiples of a pixel are odd or even, and never both. -/
theorem odd_or_even {odd even : Statement} (hOdd : odd.mnemonic = .ODD)
    (hEven : even.mnemonic = .EVEN) {env : Environment} {d : Int32} {rest : List Value}
    (hMode : env.graphics.rounding.mode ∈ [.grid, .downToGrid, .upToGrid])
    (hStack : env.stack.values = .known d :: rest) (axisCount : Nat) :
    ∃ b : Bool,
      odd.perform axisCount env = .ok none (env.answering rest (.known (Value.bit b))) ∧
      even.perform axisCount env = .ok none (env.answering rest (.known (Value.bit !b))) := by
  obtain ⟨w, hRound, hDvd⟩ := exists_pixels hMode d
  have hResidue (residue : Int) : Value.roundsTo env.graphics.rounding residue (.known d) =
      .known (Value.bit (w.toInt % 128 = residue)) := by
    rw [Value.roundsTo, hRound, Value.map]
  have hOpposite : decide (w.toInt % 128 = 0) = !decide (w.toInt % 128 = 64) := by
    rw [← decide_not, decide_eq_decide]
    omega
  have hPerformOdd : odd.perform axisCount = Statement.perform.roundingEffect Value.isOdd := by
    unfold Statement.perform
    rw [hOdd]
  have hPerformEven : even.perform axisCount = Statement.perform.roundingEffect Value.isEven := by
    unfold Statement.perform
    rw [hEven]
  refine ⟨w.toInt % 128 = 64, ?_, ?_⟩
  · rw [hPerformOdd, Statement.roundingEffect_of_values _ hStack, Value.isOdd, hResidue]
  · rw [hPerformEven, Statement.roundingEffect_of_values _ hStack, Value.isEven, hResidue,
      hOpposite]

/-- For all distances the modes give multiples of their units and keep the sign. Away from the
limits of words they give what the integers give, in order, and leave alone what they gave. -/
theorem round_laws :
    (∀ (r : Rounding) (d : Int32),
      (r.mode ∈ [.grid, .downToGrid, .upToGrid] → ∃ w, r.round d = .known w ∧ 64 ∣ w.toInt) ∧
      (r.mode = .doubleGrid → ∃ w, r.round d = .known w ∧ 32 ∣ w.toInt) ∧
      (r.mode ∈ [.grid, .halfGrid, .doubleGrid, .downToGrid, .upToGrid] →
        ∃ w, r.round d = .known w ∧ (0 ≤ d → 0 ≤ w) ∧ (d < 0 → w ≤ 0))) ∧
    (∀ (odd even : Statement) (env : Environment) (d : Int32) (rest : List Value),
      odd.mnemonic = .ODD → even.mnemonic = .EVEN →
      env.graphics.rounding.mode ∈ [.grid, .downToGrid, .upToGrid] →
      env.stack.values = .known d :: rest → ∀ axisCount, ∃ b : Bool,
        odd.perform axisCount env = .ok none (env.answering rest (.known (Value.bit b))) ∧
        even.perform axisCount env = .ok none (env.answering rest (.known (Value.bit !b)))) ∧
    (∀ (r : Rounding) (d : Int32), Inner d →
      (r.round d).known?.map Int32.toInt = r.mode.distance? d.toInt) ∧
    (∀ (r : Rounding) (d e : Int32), r.mode.hasSelector = false → Inner d → Inner e → d ≤ e →
      ∃ v w, r.round d = .known v ∧ r.round e = .known w ∧ v ≤ w) ∧
    ∀ (r : Rounding) (d : Int32), r.mode.hasSelector = false → Inner d →
      ∃ w, r.round d = .known w ∧ r.round w = .known w := by
  refine ⟨fun r d => ⟨fun h => exists_pixels h d, fun h => ?_, fun h => ?_⟩,
    fun odd even env d rest hOdd hEven => odd_or_even hOdd hEven, fun r d => known?_round,
    fun r d e h hd he hLe => ?_, fun r d h hd => ?_⟩
  · exact exists_multiple (congrArg RoundMode.grid? h) rfl d
  · have hSelector : r.mode.hasSelector = false := by
      obtain ⟨mode, selector⟩ := r
      cases mode with
      | super | super45 => simp at h
      | _ => rfl
    obtain ⟨g, hGrid⟩ := RoundMode.exists_grid hSelector
    exact ⟨_, round_eq hGrid d, symmetric_sameSide g.word d⟩
  · obtain ⟨g, hGrid⟩ := RoundMode.exists_grid h
    exact ⟨_, _, round_eq hGrid d, round_eq hGrid e,
      g.symmetric_word_mono (hd.add_bias_lt hGrid) (he.add_bias_lt hGrid) hLe⟩
  · obtain ⟨g, hGrid⟩ := RoundMode.exists_grid h
    refine ⟨_, round_eq hGrid d, (round_eq hGrid _).trans ?_⟩
    rw [g.symmetric_word_idem (hd.add_bias_lt hGrid)]

/-- Beyond the last pixel rounding up overflows and is clamped. The least word is its own magnitude,
and half a pixel is added to the last one. -/
theorem round_laws_at_limits :
    (Rounding.mk .upToGrid .unknown).round 0x7FFFFFFF = .known 0 ∧
    (∃ w, (Rounding.mk .upToGrid .unknown).round 0x7FFFFFFF = .known w ∧ 64 ∣ w.toInt) ∧
    (∃ w, (Rounding.mk .doubleGrid .unknown).round Int32.minValue = .known w ∧ 32 ∣ w.toInt) ∧
    (∃ w, (Rounding.mk .halfGrid .unknown).round Int32.minValue = .known w ∧
      (0 ≤ Int32.minValue → 0 ≤ w) ∧ (Int32.minValue < 0 → w ≤ 0)) ∧
    (∃ b : Bool,
      (Statement.mk .ODD [] 0).perform 0 { stack := ⟨[.known Int32.minValue], 1⟩ } =
        .ok none { stack := ⟨[.known (Value.bit b)], 1⟩ } ∧
      (Statement.mk .EVEN [] 1).perform 0 { stack := ⟨[.known Int32.minValue], 1⟩ } =
        .ok none { stack := ⟨[.known (Value.bit !b)], 1⟩ }) ∧
    ((Rounding.mk .upToGrid .unknown).round (-0x7FFFFFC0)).known?.map Int32.toInt =
      some (-0x7FFFFFC0) ∧
    (∃ v w, (Rounding.mk .halfGrid .unknown).round (-1) = .known v ∧
      (Rounding.mk .halfGrid .unknown).round 0 = .known w ∧ v ≤ w) ∧
    (Rounding.mk .halfGrid .unknown).round 0x7FFFFFC0 = .known 0x7FFFFFE0 ∧
    ∃ w, (Rounding.mk .halfGrid .unknown).round 0x7FFFFFC0 = .known w ∧
      (Rounding.mk .halfGrid .unknown).round w = .known w := by
  obtain ⟨hAll, hOddEven, hExact, hMono, hIdem⟩ := round_laws
  refine ⟨by decide, (hAll _ _).1 (by decide), (hAll _ _).2.1 rfl, (hAll _ _).2.2 (by decide),
    hOddEven _ _ { stack := ⟨[.known Int32.minValue], 1⟩ } _ _ rfl rfl (by decide) rfl 0, ?_,
    hMono _ _ _ rfl (by decide) (by decide) (by decide), by decide, hIdem _ _ rfl (by decide)⟩
  exact (hExact _ _ (by decide)).trans (by decide)

end Rounding

end Hinting
