import Hinting.Semantics.Dispatch

/-!
# Arithmetic on words

A word stands for an integer, and arithmetic on words follows arithmetic on integers modulo
`0x100000000`. As long as the integers stay within the bounds of a word, nothing is reduced.
Rounding down to a power of two clears the low bits of a word.

Statements that compute replace their operands on the stack by the result and touch nothing else.
-/

namespace Hinting

/-- The integers that words stand for. -/
structure FitsWord (n : Int) : Prop where
  lower : -0x80000000 ≤ n
  upper : n < 0x80000000

theorem fitsWord_toInt (x : Int32) : FitsWord x.toInt :=
  ⟨x.le_toInt, x.toInt_lt⟩

theorem FitsWord.toInt_ofInt {n : Int} (h : FitsWord n) : (Int32.ofInt n).toInt = n :=
  Int32.toInt_ofInt_of_le h.lower h.upper

theorem FitsWord.toInt_add {x y : Int32} (h : FitsWord (x.toInt + y.toInt)) :
    (x + y).toInt = x.toInt + y.toInt := by
  rw [Int32.toInt_add]
  exact Int.bmod_eq_of_le h.lower h.upper

theorem FitsWord.toInt_neg {x : Int32} (h : FitsWord (-x.toInt)) : (-x).toInt = -x.toInt := by
  rw [Int32.toInt_neg]
  exact Int.bmod_eq_of_le h.lower h.upper

/-- A word stands for the integer it was made from, up to a multiple of `0x100000000`. -/
theorem dvd_sub_toInt_ofInt (n : Int) : 0x100000000 ∣ n - (Int32.ofInt n).toInt := by
  rw [Int32.toInt_ofInt]
  exact Int.dvd_self_sub_bmod

theorem dvd_toInt_neg {unit : Int} (hUnit : unit ∣ 0x100000000) {x : Int32} (h : unit ∣ x.toInt) :
    unit ∣ (-x).toInt := by
  have hReduced := Int.dvd_trans hUnit (dvd_sub_toInt_ofInt (-x.toInt))
  rw [Int32.ofInt_neg, Int32.ofInt_toInt] at hReduced
  exact (Int.dvd_iff_dvd_of_dvd_sub hReduced).mp (Int.dvd_neg.mpr h)

theorem toInt_max (x y : Int32) : (max x y).toInt = max x.toInt y.toInt := by
  have hMax : max x y = if x ≤ y then y else x := rfl
  rw [hMax, Int.max_def, apply_ite Int32.toInt]
  simp only [Int32.le_iff_toInt_le]

theorem toInt_min (x y : Int32) : (min x y).toInt = min x.toInt y.toInt := by
  have hMin : min x y = if x ≤ y then x else y := rfl
  rw [hMin, Int.min_def, apply_ite Int32.toInt]
  simp only [Int32.le_iff_toInt_le]

namespace FixedPoint

/-- The bounds of a word are multiples of the unit, so rounding down does not leave them. -/
theorem toInt_floorTo {unit : Nat} (hUnit : 0 < unit) (hDvd : unit ∣ 0x80000000) (x : Int32) :
    (floorTo unit x).toInt = unit * (x.toInt / unit) := by
  obtain ⟨count, hCount⟩ := hDvd
  obtain ⟨hLower, hUpper⟩ := fitsWord_toInt x
  have hPos : (0 : Int) < unit := Int.natCast_pos.mpr hUnit
  have hLimit : (unit : Int) * -count = -0x80000000 := by
    rw [Int.mul_neg, ← Int.natCast_mul, ← hCount]
    rfl
  apply FitsWord.toInt_ofInt
  constructor
  · rw [← hLimit]
    refine Int.mul_le_mul_of_nonneg_left ?_ (Int.le_of_lt hPos)
    rw [Int.le_ediv_iff_mul_le hPos, Int.mul_comm, hLimit]
    exact hLower
  · exact Int.lt_of_le_of_lt (Int.mul_ediv_self_le (Int.ne_of_gt hPos)) hUpper

theorem floorTo_one (x : Int32) : floorTo 1 x = x := by
  rw [floorTo, Int.ediv_one, Int.one_mul, Int32.ofInt_toInt]

theorem and_not_eq_shift (x : BitVec 32) (k : Nat) :
    x &&& ~~~BitVec.ofNat 32 (1 <<< k - 1) = x.sshiftRight k <<< k := by
  apply BitVec.eq_of_getLsbD_eq
  intro i hi
  simp only [Nat.one_shiftLeft, BitVec.getLsbD_and, BitVec.getLsbD_not, BitVec.getLsbD_ofNat,
    Nat.testBit_two_pow_sub_one, BitVec.getLsbD_shiftLeft, BitVec.getLsbD_sshiftRight, hi,
    decide_true, Bool.true_and]
  by_cases h : i < k
  · simp [h]
  · have hBack : k + (i - k) = i := by omega
    have hIn : i - k < 32 := by omega
    simp [h, hBack, hIn, hi]

/-- Rounding down to a power of two clears the bits below it. -/
theorem floorTo_eq_and (k : Nat) (x : Int32) :
    floorTo (1 <<< k : Nat) x = x &&& ~~~Int32.ofNat (1 <<< k - 1) := by
  have hShift : BitVec.ofInt 32 (x.toInt / (1 <<< k : Nat)) = x.toBitVec.sshiftRight k := by
    rw [Nat.one_shiftLeft, ← Int.shiftRight_eq_div_pow]
    rfl
  have hUnit : BitVec.ofInt 32 (1 <<< k : Nat) = BitVec.twoPow 32 k := by
    rw [BitVec.ofInt_natCast, Nat.one_shiftLeft]
    apply BitVec.eq_of_toNat_eq
    rw [BitVec.toNat_ofNat, BitVec.toNat_twoPow]
  apply Int32.toBitVec_inj.mp
  calc (floorTo (1 <<< k : Nat) x).toBitVec
      = BitVec.ofInt 32 (x.toInt / (1 <<< k : Nat)) * BitVec.ofInt 32 (1 <<< k : Nat) := by
        rw [floorTo, Int32.toBitVec_ofInt, Int.mul_comm, BitVec.ofInt_mul]
    _ = x.toBitVec.sshiftRight k <<< k := by
        rw [hShift, hUnit, BitVec.shiftLeft_eq_mul_twoPow]
    _ = x.toBitVec &&& ~~~BitVec.ofNat 32 (1 <<< k - 1) := (and_not_eq_shift _ k).symm

end FixedPoint

/-- The environment once the operands of a statement, above `rest`, were replaced by its result. -/
def Environment.answering (env : Environment) (rest : List Value) (result : Value) : Environment :=
  { env with stack := ValueStack.push { env.stack with values := rest } result }

namespace Statement

variable {env : Environment} {rest : List Value} {a b : Value}

theorem roundingEffect_of_values (f : Rounding → Value → Value)
    (h : env.stack.values = a :: rest) :
    perform.roundingEffect f env = .ok none (env.answering rest (f env.graphics.rounding a)) := by
  obtain ⟨⟨values, peak⟩, graphics, cvt, storage, unwritten, functions⟩ := env
  cases h
  rfl

theorem binaryEffect_of_values (f : Value → Value → Value)
    (h : env.stack.values = b :: a :: rest) :
    perform.binaryEffect f env = .ok none (env.answering rest (f a b)) := by
  obtain ⟨⟨values, peak⟩, graphics, cvt, storage, unwritten, functions⟩ := env
  cases h
  rfl

end Statement

end Hinting
