import Hinting.Proofs.WordArithmetic
import Mathlib.Data.Rat.Floor
import Mathlib.Tactic.Linarith

/-!
# Products and quotients of fixed-point words

A product over a divisor is rounded to the nearest integer or cut off towards zero, and only then
reduced to a word. The computation works on magnitudes and puts the sign in afterwards. The
integers that it meets on the way fit into words of 64 bits.
-/

namespace Hinting

/-- The integer closest to a number. Of two that are equally close it is the one further from
zero. -/
def Nearest (x : ℚ) (q : Int) : Prop :=
  ∀ k : Int, k ≠ q → |x - q| < |x - k| ∨ |x - q| = |x - k| ∧ |k| < |q|

/-- A number cut off towards zero. -/
def truncated (x : ℚ) : Int :=
  if 0 ≤ x then ⌊x⌋ else ⌈x⌉

theorem Nearest.unique {x : ℚ} {p q : Int} (hp : Nearest x p) (hq : Nearest x q) : p = q := by
  by_contra hNe
  obtain hLess | ⟨hSame, hLess⟩ := hp q (Ne.symm hNe)
  · obtain hLess' | ⟨hSame', _⟩ := hq p hNe
    · exact lt_asymm hLess hLess'
    · exact hLess.ne hSame'.symm
  · obtain hLess' | ⟨_, hLess'⟩ := hq p hNe
    · exact hLess'.ne hSame.symm
    · exact lt_asymm hLess hLess'

theorem Nearest.neg {x : ℚ} {q : Int} (h : Nearest x q) : Nearest (-x) (-q) := by
  have hFlip (k : Int) : |-x - k| = |x - (-k : Int)| := by
    rw [← abs_neg]
    congr 1
    push_cast
    ring
  intro k hk
  rw [hFlip, hFlip, neg_neg, abs_neg, ← abs_neg k]
  exact h (-k) fun hSame => hk (by rw [← hSame, neg_neg])

theorem truncated_neg (x : ℚ) : truncated (-x) = -truncated x := by
  rcases lt_trichotomy x 0 with hx | rfl | hx
  · rw [truncated, truncated, if_pos (by linarith), if_neg (by linarith), Int.floor_neg]
  · simp [truncated]
  · rw [truncated, truncated, if_neg (by linarith), if_pos (by linarith), Int.ceil_neg]

/-- Distances from a quotient compare like distances from the dividend to the multiples of the
divisor. -/
theorem abs_div_sub (m n : Nat) (hn : 0 < n) (k : Int) :
    |(m : ℚ) / n - k| = ((|m - n * k| : Int) : ℚ) / n := by
  have hPos : (0 : ℚ) < n := Nat.cast_pos.mpr hn
  have hScaled : (m : ℚ) / n - k = (m - n * k) / n := by
    rw [sub_div, mul_div_cancel_left₀ _ hPos.ne']
  rw [hScaled, abs_div, abs_of_pos hPos]
  push_cast
  rfl

/-- With a remainder of at most half the divisor, no other multiple of the divisor is closer. -/
theorem abs_lt_or_tie {r t c : Int} (hLow : -c ≤ 2 * r) (hHigh : 2 * r < c)
    (ht : c ≤ t ∨ t ≤ -c) : |r| < |r - t| ∨ |r| = |r - t| ∧ t = -c ∧ 2 * r = -c := by
  rcases ht with ht | ht
  · left
    rw [abs_of_nonpos (show r - t ≤ 0 by omega)]
    rcases abs_cases r with ⟨hr, _⟩ | ⟨hr, _⟩ <;> omega
  · rw [abs_of_nonneg (show 0 ≤ r - t by omega)]
    rcases abs_cases r with ⟨hr, _⟩ | ⟨hr, _⟩ <;> omega

/-- A bias of half the divisor rounds a quotient to the nearest integer, a half upwards. -/
theorem nearest_div (m n : Nat) (hn : 0 < n) :
    Nearest ((m : ℚ) / n) (((m + n / 2) / n : Nat) : Int) := by
  have hPos : (0 : ℚ) < n := Nat.cast_pos.mpr hn
  have hFloor := Nat.mul_div_le (m + n / 2) n
  have hNext := Nat.lt_mul_div_succ (m + n / 2) hn
  generalize (m + n / 2) / n = q at hFloor hNext ⊢
  rw [Nat.mul_add_one] at hNext
  have hProduct : (n : Int) * q = (n * q : Nat) := (Int.natCast_mul n q).symm
  intro k hk
  have hSplit : (m : Int) - n * k = (m - n * q) - n * (k - q) := by ring
  have hStep : (n : Int) ≤ n * (k - q) ∨ (n : Int) * (k - q) ≤ -n := by
    rcases lt_or_gt_of_ne hk with hLess | hLess
    · right
      have hLe : (n : Int) * (k - q) ≤ n * -1 :=
        Int.mul_le_mul_of_nonneg_left (by omega) (Int.natCast_nonneg n)
      rwa [mul_neg_one] at hLe
    · left
      have hLe : (n : Int) * 1 ≤ n * (k - q) :=
        Int.mul_le_mul_of_nonneg_left (by omega) (Int.natCast_nonneg n)
      rwa [mul_one] at hLe
  rw [abs_div_sub m n hn, abs_div_sub m n hn, hSplit, div_lt_div_iff_of_pos_right hPos,
    Int.cast_lt, div_left_inj' hPos.ne', Int.cast_inj]
  refine (abs_lt_or_tie (by omega) (by omega) hStep).imp_right fun ⟨hSame, hDown, hHalf⟩ => ?_
  -- the other integer of a tie is the one below
  have hBelow : k - q = -1 := by
    have hn' : (n : Int) ≠ 0 := by omega
    exact mul_left_cancel₀ hn' (by rw [hDown, mul_neg_one])
  have hq : q ≠ 0 := by
    rintro rfl
    omega
  refine ⟨hSame, ?_⟩
  rw [abs_of_nonneg (show 0 ≤ k by omega), Nat.abs_cast]
  omega

namespace FixedPoint

variable (a b c : Int32)

/-- The quotient of two integers to the nearest integer, by magnitudes. -/
def signedQuotient (product divisor : Int) : Int :=
  if (product < 0) ≠ (divisor < 0) then -nearestQuotient product divisor
  else nearestQuotient product divisor

theorem nearestQuotient_eq (p c : Int) :
    nearestQuotient p c = ((p.natAbs + c.natAbs / 2) / c.natAbs : Nat) :=
  rfl

/-- The sign of a quotient is negative if exactly one sign is. -/
theorem intCast_div (p c : Int) :
    (p : ℚ) / c = if (p < 0) ≠ (c < 0) then -((p.natAbs : ℚ) / c.natAbs)
      else (p.natAbs : ℚ) / c.natAbs := by
  rw [Nat.cast_natAbs, Nat.cast_natAbs]
  by_cases hp : p < 0
  · by_cases hc : c < 0
    · simp [hp, hc, abs_of_neg]
    · simp [hp, hc, abs_of_neg, abs_of_nonneg (not_lt.mp hc), neg_div]
  · by_cases hc : c < 0
    · simp [hp, hc, abs_of_neg, abs_of_nonneg (not_lt.mp hp), div_neg]
    · simp [hp, hc, abs_of_nonneg (not_lt.mp hp), abs_of_nonneg (not_lt.mp hc)]

theorem nearest_signedQuotient (p : Int) {c : Int} (hc : c ≠ 0) :
    Nearest ((p : ℚ) / c) (signedQuotient p c) := by
  have hMagnitude := nearest_div p.natAbs c.natAbs (Int.natAbs_pos.mpr hc)
  rw [intCast_div, signedQuotient, nearestQuotient_eq]
  split
  · exact hMagnitude.neg
  · exact hMagnitude

theorem truncated_div (p c : Int) : truncated ((p : ℚ) / c) = p.tdiv c := by
  have hNat (m n : Nat) : truncated ((m : ℚ) / n) = (m : Int).tdiv n := by
    rw [truncated, if_pos (by positivity), Rat.floor_natCast_div_natCast, ← Int.ofNat_tdiv]
    rfl
  -- both sides are odd in the dividend and in the divisor
  obtain ⟨m, rfl | rfl⟩ := p.eq_nat_or_neg
  · obtain ⟨n, rfl | rfl⟩ := c.eq_nat_or_neg
    · simp [hNat]
    · simp [div_neg, truncated_neg, hNat]
  · obtain ⟨n, rfl | rfl⟩ := c.eq_nat_or_neg
    · simp [neg_div, truncated_neg, hNat]
    · simp [hNat]

/-- A word is determined by an integer to which it is congruent. -/
theorem eq_ofInt_iff (w : Int32) (n : Int) : w = Int32.ofInt n ↔ 0x100000000 ∣ n - w.toInt := by
  constructor
  · rintro rfl
    exact dvd_sub_toInt_ofInt n
  · intro h
    apply Int32.toInt_inj.mp
    obtain ⟨hLower, hUpper⟩ := fitsWord_toInt w
    obtain ⟨hLower', hUpper'⟩ := fitsWord_toInt (Int32.ofInt n)
    have hReduced := dvd_sub_toInt_ofInt n
    omega

theorem toInt_ne_zero_iff {c : Int32} : c.toInt ≠ 0 ↔ c ≠ 0 :=
  not_congr (Int32.toInt_inj (y := 0))

theorem toInt_neg_of_ne {x : Int32} (hx : x ≠ Int32.minValue) : (-x).toInt = -x.toInt := by
  have hMin : x.toInt ≠ -0x80000000 := fun h => hx (Int32.toInt_inj.mp h)
  obtain ⟨hLower, hUpper⟩ := fitsWord_toInt x
  exact FitsWord.toInt_neg ⟨by omega, by omega⟩

theorem neg_eq_zero_iff {c : Int32} : -c = 0 ↔ c = 0 := by
  rw [← Int32.neg_inj, Int32.neg_neg]
  rfl

/-- A product over a divisor, for any way to divide integers. -/
def mulDivBy (divide : Int → Int → Int) (a b c : Int32) : Option Int32 :=
  if c = 0 then none else some (Int32.ofInt (divide (a.toInt * b.toInt) c.toInt))

theorem mulDiv_eq_mulDivBy : mulDiv a b c = mulDivBy signedQuotient a b c :=
  rfl

theorem mulDivTruncated_eq_mulDivBy : mulDivTruncated a b c = mulDivBy Int.tdiv a b c :=
  rfl

section MulDivBy

variable {divide : Int → Int → Int} {a b c : Int32}

theorem mulDivBy_of_ne_zero (hc : c ≠ 0) :
    mulDivBy divide a b c = some (Int32.ofInt (divide (a.toInt * b.toInt) c.toInt)) :=
  if_neg hc

theorem mulDivBy_eq_none_iff : mulDivBy divide a b c = none ↔ c = 0 := by
  by_cases hc : c = 0
  · exact iff_of_true (if_pos hc) hc
  · rw [mulDivBy_of_ne_zero hc]
    exact iff_of_false (Option.some_ne_none _) hc

theorem mulDivBy_eq_some_iff {w : Int32} :
    mulDivBy divide a b c = some w ↔
      c ≠ 0 ∧ 0x100000000 ∣ divide (a.toInt * b.toInt) c.toInt - w.toInt := by
  by_cases hc : c = 0
  · rw [mulDivBy_eq_none_iff.mpr hc]
    exact iff_of_false (Option.some_ne_none w).symm fun h => h.1 hc
  · rw [mulDivBy_of_ne_zero hc, Option.some_inj, eq_comm, eq_ofInt_iff, and_iff_right hc]

theorem mulDivBy_neg_left (ha : a ≠ Int32.minValue)
    (h : ∀ p d : Int, d ≠ 0 → divide (-p) d = -divide p d) :
    mulDivBy divide (-a) b c = (mulDivBy divide a b c).map (-·) := by
  by_cases hc : c = 0
  · rw [mulDivBy_eq_none_iff.mpr hc, mulDivBy_eq_none_iff.mpr hc]
    rfl
  · rw [mulDivBy_of_ne_zero hc, mulDivBy_of_ne_zero hc, toInt_neg_of_ne ha, Int.neg_mul,
      h _ _ (toInt_ne_zero_iff.mpr hc), Int32.ofInt_neg]
    rfl

theorem mulDivBy_neg_right (hMin : c ≠ Int32.minValue)
    (h : ∀ p d : Int, d ≠ 0 → divide p (-d) = -divide p d) :
    mulDivBy divide a b (-c) = (mulDivBy divide a b c).map (-·) := by
  by_cases hc : c = 0
  · rw [mulDivBy_eq_none_iff.mpr hc, mulDivBy_eq_none_iff.mpr (neg_eq_zero_iff.mpr hc)]
    rfl
  · rw [mulDivBy_of_ne_zero hc, mulDivBy_of_ne_zero (mt neg_eq_zero_iff.mp hc),
      toInt_neg_of_ne hMin, h _ _ (toInt_ne_zero_iff.mpr hc), Int32.ofInt_neg]
    rfl

end MulDivBy

theorem mulDiv_eq_none_iff : mulDiv a b c = none ↔ c = 0 := by
  rw [mulDiv_eq_mulDivBy, mulDivBy_eq_none_iff]

theorem mulDivTruncated_eq_none_iff : mulDivTruncated a b c = none ↔ c = 0 := by
  rw [mulDivTruncated_eq_mulDivBy, mulDivBy_eq_none_iff]

theorem mulDiv_eq_some_iff (w : Int32) :
    mulDiv a b c = some w ↔ c ≠ 0 ∧ ∃ q : Int,
      Nearest (a.toInt * b.toInt / c.toInt) q ∧ 0x100000000 ∣ q - w.toInt := by
  rw [mulDiv_eq_mulDivBy, mulDivBy_eq_some_iff, and_congr_right_iff]
  intro hc
  have hNearest := nearest_signedQuotient (a.toInt * b.toInt) (toInt_ne_zero_iff.mpr hc)
  rw [Int.cast_mul] at hNearest
  constructor
  · exact fun hDvd => ⟨_, hNearest, hDvd⟩
  · rintro ⟨q, hq, hDvd⟩
    rwa [hNearest.unique hq]

theorem mulDivTruncated_eq_some_iff (w : Int32) :
    mulDivTruncated a b c = some w ↔ c ≠ 0 ∧
      0x100000000 ∣ truncated (a.toInt * b.toInt / c.toInt) - w.toInt := by
  rw [mulDivTruncated_eq_mulDivBy, mulDivBy_eq_some_iff, ← Int.cast_mul, truncated_div]

theorem mulDiv_comm : mulDiv a b c = mulDiv b a c := by
  rw [mulDiv, mulDiv, Int.mul_comm]

/-- The nearest integer is the only one, so it changes its sign with the dividend. -/
theorem signedQuotient_neg (p d : Int) (hd : d ≠ 0) :
    signedQuotient (-p) d = -signedQuotient p d := by
  have hNegated := nearest_signedQuotient (-p) hd
  rw [Int.cast_neg, neg_div] at hNegated
  exact hNegated.unique (nearest_signedQuotient p hd).neg

/-- An exact result as a word of 64 bits, unless it overflows. -/
def wide? (n : Int) : Option Int64 :=
  if Int64.minValue.toInt ≤ n ∧ n ≤ Int64.maxValue.toInt then some (Int64.ofInt n) else none

/-- `mulDiv` in words of 64 bits before the last reduction. Every result is checked. -/
def mulDivWide? (a b c : Int32) : Option Int64 := do
  let product ← wide? (a.toInt64.toInt * b.toInt64.toInt)
  let dividend ← wide? product.toInt.natAbs
  let divisor ← wide? c.toInt64.toInt.natAbs
  let half ← wide? (divisor.toInt.tdiv 2)
  let sum ← wide? (dividend.toInt + half.toInt)
  let quotient ← wide? (sum.toInt.tdiv divisor.toInt)
  if (product < 0) ≠ (c.toInt64 < 0) then wide? (-quotient.toInt) else some quotient

/-- `mulDivTruncated` in the same way. -/
def mulDivTruncatedWide? (a b c : Int32) : Option Int64 := do
  let product ← wide? (a.toInt64.toInt * b.toInt64.toInt)
  wide? (product.toInt.tdiv c.toInt64.toInt)

theorem exists_wide? {n : Int} (h : n.natAbs ≤ 0x7FFFFFFFFFFFFFFF) :
    ∃ w, wide? n = some w ∧ w.toInt = n := by
  have hMin : Int64.minValue.toInt = -0x8000000000000000 := rfl
  have hMax : Int64.maxValue.toInt = 0x7FFFFFFFFFFFFFFF := rfl
  refine ⟨Int64.ofInt n, if_pos ⟨by omega, by omega⟩, ?_⟩
  have hLower : -0x8000000000000000 ≤ n := by omega
  have hUpper : n < 0x8000000000000000 := by omega
  exact Int64.toInt_ofInt_of_le hLower hUpper

theorem natAbs_toInt_le (x : Int32) : x.toInt.natAbs ≤ 0x80000000 := by
  obtain ⟨hLower, hUpper⟩ := fitsWord_toInt x
  omega

theorem natAbs_product_le : (a.toInt * b.toInt).natAbs ≤ 0x4000000000000000 := by
  rw [Int.natAbs_mul]
  exact Nat.mul_le_mul (natAbs_toInt_le a) (natAbs_toInt_le b)

theorem toInt32_eq (w : Int64) : w.toInt32 = Int32.ofInt w.toInt := by
  rw [← Int64.toInt32_ofInt, Int64.ofInt_toInt]

/-- No step of the computation overflows, and its last one is the reduction to a word. -/
theorem exists_mulDivWide? (hc : c ≠ 0) :
    ∃ q, mulDivWide? a b c = some q ∧ mulDiv a b c = some q.toInt32 := by
  have hZero : (0 : Int64).toInt = 0 := rfl
  have hProductLe := natAbs_product_le a b
  have hDivisorLe := natAbs_toInt_le c
  rw [mulDiv_eq_mulDivBy, mulDivBy_of_ne_zero hc, signedQuotient, nearestQuotient_eq]
  simp only [mulDivWide?, Int32.toInt_toInt64, Int64.lt_iff_toInt_lt, hZero, Option.bind_eq_bind]
  generalize a.toInt * b.toInt = p at hProductLe ⊢
  generalize c.toInt = d at hDivisorLe ⊢
  have hQuotientLe : (p.natAbs + d.natAbs / 2) / d.natAbs ≤ 0x7FFFFFFFFFFFFFFF :=
    (Nat.div_le_self _ _).trans (by omega)
  obtain ⟨product, hProduct, hProductInt⟩ := exists_wide? (n := p) (by omega)
  obtain ⟨dividend, hDividend, hDividendInt⟩ := exists_wide? (n := p.natAbs) (by omega)
  obtain ⟨divisor, hDivisor, hDivisorInt⟩ := exists_wide? (n := d.natAbs) (by omega)
  obtain ⟨half, hHalf, hHalfInt⟩ := exists_wide? (n := (d.natAbs / 2 : Nat)) (by omega)
  obtain ⟨sum, hSum, hSumInt⟩ := exists_wide? (n := (p.natAbs + d.natAbs / 2 : Nat)) (by omega)
  obtain ⟨quotient, hQuotient, hQuotientInt⟩ :=
    exists_wide? (n := ((p.natAbs + d.natAbs / 2) / d.natAbs : Nat)) hQuotientLe
  obtain ⟨negated, hNegated, hNegatedInt⟩ :=
    exists_wide? (n := -((p.natAbs + d.natAbs / 2) / d.natAbs : Nat))
      (by rwa [Int.natAbs_neg, Int.natAbs_natCast])
  have hHalve : (d.natAbs : Int).tdiv 2 = (d.natAbs / 2 : Nat) := rfl
  simp only [hProduct, hProductInt, hDividend, hDividendInt, hDivisor, hDivisorInt, hHalve, hHalf,
    hHalfInt, ← Int.natCast_add, hSum, hSumInt, ← Int.ofNat_tdiv, hQuotient, hQuotientInt,
    Option.bind_some]
  split
  · exact ⟨negated, hNegated, by rw [toInt32_eq, hNegatedInt]⟩
  · exact ⟨quotient, rfl, by rw [toInt32_eq, hQuotientInt]⟩

theorem exists_mulDivTruncatedWide? (hc : c ≠ 0) :
    ∃ q, mulDivTruncatedWide? a b c = some q ∧ mulDivTruncated a b c = some q.toInt32 := by
  have hProductLe := natAbs_product_le a b
  obtain ⟨product, hProduct, hProductInt⟩ := exists_wide? (n := a.toInt * b.toInt) (by omega)
  have hQuotientLe := Int.natAbs_tdiv_le_natAbs (a.toInt * b.toInt) c.toInt
  obtain ⟨quotient, hQuotient, hQuotientInt⟩ :=
    exists_wide? (n := (a.toInt * b.toInt).tdiv c.toInt) (by omega)
  refine ⟨quotient, ?_, ?_⟩
  · simp only [mulDivTruncatedWide?, Int32.toInt_toInt64, Option.bind_eq_bind, hProduct,
      Option.bind_some, hProductInt, hQuotient]
  · rw [mulDivTruncated_eq_mulDivBy, mulDivBy_of_ne_zero hc, toInt32_eq, hQuotientInt]

/-- The pixels for which a word stands. -/
def pixels (x : Int32) : ℚ :=
  x.toInt / 64

end FixedPoint

namespace Value

open FixedPoint

theorem zipWith_neg {f : Int32 → Int32 → Option Int32} {a b c d : Int32}
    (h : f a b = (f c d).map (-·)) :
    zipWith f (.known a) (.known b) = (zipWith f (.known c) (.known d)).map (-·) := by
  rw [zipWith, zipWith, h]
  cases f c d with
  | none => rfl
  | some word => rfl

theorem zipWith_eq_known_iff {f : Int32 → Int32 → Option Int32} {a b w : Int32} :
    zipWith f (.known a) (.known b) = .known w ↔ f a b = some w := by
  rw [zipWith]
  cases f a b with
  | none => simp
  | some word => simp

theorem zipWith_eq_unknown_iff {f : Int32 → Int32 → Option Int32} {a b : Int32} :
    zipWith f (.known a) (.known b) = .unknown ↔ f a b = none := by
  rw [zipWith]
  cases f a b with
  | none => simp
  | some word => simp

theorem product_comm (a b : Value) : product a b = product b a := by
  cases a with
  | known a =>
    cases b with
    | known b =>
      have hComm : mulDiv a b 64 = mulDiv b a 64 := mulDiv_comm a b 64
      rw [product, zipWith, zipWith, hComm]
    | unknown => rfl
  | unknown =>
    cases b with
    | known b => rfl
    | unknown => rfl

theorem exists_product (a b : Int32) :
    ∃ w q, product (.known a) (.known b) = .known w ∧
      Nearest (64 * (pixels a * pixels b)) q ∧ 0x100000000 ∣ q - w.toInt := by
  have hNe : (64 : Int32) ≠ 0 := by decide
  have hUnits : 64 * (pixels a * pixels b) = a.toInt * b.toInt / (64 : Int32).toInt := by
    have hUnit : ((64 : Int32).toInt : ℚ) = 64 := rfl
    rw [pixels, pixels, hUnit]
    ring
  have hSome : mulDiv a b 64 ≠ none := mt (mulDiv_eq_none_iff a b 64).mp hNe
  obtain ⟨w, hw⟩ := Option.ne_none_iff_exists'.mp hSome
  obtain ⟨_, q, hNearest, hDvd⟩ := (mulDiv_eq_some_iff a b 64 w).mp hw
  exact ⟨w, q, zipWith_eq_known_iff.mpr hw, hUnits ▸ hNearest, hDvd⟩

theorem quotient_eq_known_iff (a b w : Int32) :
    quotient (.known a) (.known b) = .known w ↔
      b ≠ 0 ∧ 0x100000000 ∣ truncated (64 * (pixels a / pixels b)) - w.toInt := by
  have hUnits : 64 * (pixels a / pixels b) = a.toInt * (64 : Int32).toInt / b.toInt := by
    have hUnit : ((64 : Int32).toInt : ℚ) = 64 := rfl
    rw [pixels, pixels, hUnit, div_div_div_cancel_right₀ (by norm_num)]
    ring
  rw [quotient, zipWith_eq_known_iff, mulDivTruncated_eq_some_iff, hUnits]

theorem quotient_eq_unknown_iff (a b : Int32) :
    quotient (.known a) (.known b) = .unknown ↔ b = 0 := by
  rw [quotient, zipWith_eq_unknown_iff, mulDivTruncated_eq_none_iff]

/-- Negating an operand negates the result. -/
theorem product_neg {a : Int32} (ha : a ≠ Int32.minValue) (v : Value) :
    product (.known (-a)) v = (product (.known a) v).map (-·) := by
  cases v with
  | known b => exact zipWith_neg (mulDivBy_neg_left ha signedQuotient_neg)
  | unknown => rfl

theorem quotient_neg_left {a : Int32} (ha : a ≠ Int32.minValue) (v : Value) :
    quotient (.known (-a)) v = (quotient (.known a) v).map (-·) := by
  cases v with
  | known b => exact zipWith_neg (mulDivBy_neg_left ha fun p d _ => Int.neg_tdiv p d)
  | unknown => rfl

theorem quotient_neg_right {b : Int32} (hb : b ≠ Int32.minValue) (v : Value) :
    quotient v (.known (-b)) = (quotient v (.known b)).map (-·) := by
  cases v with
  | known a => exact zipWith_neg (mulDivBy_neg_right hb fun p d _ => Int.tdiv_neg p d)
  | unknown => rfl

end Value

namespace FixedPoint

/-- Products over divisors are exact up to the rounding, whatever the operands, and so are the
instructions that multiply and divide. -/
theorem products_and_quotients :
    (∀ a b c : Int32, c ≠ 0 →
      (∃ q, mulDivWide? a b c = some q ∧ mulDiv a b c = some q.toInt32) ∧
      ∃ q, mulDivTruncatedWide? a b c = some q ∧ mulDivTruncated a b c = some q.toInt32) ∧
    (∀ a b c : Int32, (mulDiv a b c = none ↔ c = 0) ∧ (mulDivTruncated a b c = none ↔ c = 0)) ∧
    (∀ a b c w : Int32,
      (mulDiv a b c = some w ↔ c ≠ 0 ∧ ∃ q : Int,
        Nearest (a.toInt * b.toInt / c.toInt) q ∧ 0x100000000 ∣ q - w.toInt) ∧
      (mulDivTruncated a b c = some w ↔ c ≠ 0 ∧
        0x100000000 ∣ truncated (a.toInt * b.toInt / c.toInt) - w.toInt)) ∧
    (∀ (s : Statement) (env : Environment) (a b : Value) (rest : List Value),
      env.stack.values = b :: a :: rest → ∀ axisCount,
      (s.mnemonic = .MUL →
        s.perform axisCount env = .ok none (env.answering rest (Value.product a b))) ∧
      (s.mnemonic = .DIV →
        s.perform axisCount env = .ok none (env.answering rest (Value.quotient a b)))) ∧
    (∀ a b : Int32,
      (∃ w q, Value.product (.known a) (.known b) = .known w ∧
        Nearest (64 * (pixels a * pixels b)) q ∧ 0x100000000 ∣ q - w.toInt) ∧
      (Value.quotient (.known a) (.known b) = .unknown ↔ b = 0) ∧
      ∀ w, Value.quotient (.known a) (.known b) = .known w ↔
        b ≠ 0 ∧ 0x100000000 ∣ truncated (64 * (pixels a / pixels b)) - w.toInt) ∧
    (∀ a b : Value, Value.product a b = Value.product b a) ∧
    ∀ a : Int32, a ≠ Int32.minValue → ∀ v,
      Value.product (.known (-a)) v = (Value.product (.known a) v).map (-·) ∧
      Value.product v (.known (-a)) = (Value.product v (.known a)).map (-·) ∧
      Value.quotient (.known (-a)) v = (Value.quotient (.known a) v).map (-·) ∧
      Value.quotient v (.known (-a)) = (Value.quotient v (.known a)).map (-·) := by
  refine ⟨fun a b c hc => ⟨exists_mulDivWide? a b c hc, exists_mulDivTruncatedWide? a b c hc⟩,
    fun a b c => ⟨mulDiv_eq_none_iff a b c, mulDivTruncated_eq_none_iff a b c⟩,
    fun a b c w => ⟨mulDiv_eq_some_iff a b c w, mulDivTruncated_eq_some_iff a b c w⟩,
    fun s env a b rest hStack axisCount => ⟨fun hMul => ?_, fun hDiv => ?_⟩,
    fun a b => ⟨Value.exists_product a b, Value.quotient_eq_unknown_iff a b,
      Value.quotient_eq_known_iff a b⟩,
    Value.product_comm, fun a ha v => ⟨Value.product_neg ha v, ?_, Value.quotient_neg_left ha v,
      Value.quotient_neg_right ha v⟩⟩
  · rw [← Statement.binaryEffect_of_values _ hStack]
    unfold Statement.perform
    rw [hMul]
  · rw [← Statement.binaryEffect_of_values _ hStack]
    unfold Statement.perform
    rw [hDiv]
  · rw [Value.product_comm, Value.product_neg ha, Value.product_comm]

/-- The largest product there is, a negative half, and a divisor of zero. -/
theorem products_and_quotients_at_extremes :
    (∃ q, mulDivWide? Int32.minValue Int32.minValue (-1) = some q ∧
      mulDiv Int32.minValue Int32.minValue (-1) = some q.toInt32) ∧
    (Statement.mk .MUL [] 0).perform 0 { stack := ⟨[.known 32, .known (-1)], 2⟩ } =
      .ok none { stack := ⟨[.known (-1)], 2⟩ } ∧
    (Statement.mk .DIV [] 0).perform 0 { stack := ⟨[.known 0, .known 5], 2⟩ } =
      .ok none { stack := ⟨[.unknown], 2⟩ } ∧
    Value.quotient (.known (-128)) (.known 3) =
      (Value.quotient (.known 128) (.known 3)).map (-·) := by
  obtain ⟨hWide, _, _, hPerform, _, _, hNeg⟩ := products_and_quotients
  have hMul := (hPerform (.mk .MUL [] 0) { stack := ⟨[.known 32, .known (-1)], 2⟩ }
    (.known (-1)) (.known 32) [] rfl 0).1 rfl
  have hDiv := (hPerform (.mk .DIV [] 0) { stack := ⟨[.known 0, .known 5], 2⟩ }
    (.known 5) (.known 0) [] rfl 0).2 rfl
  exact ⟨(hWide _ _ _ (by decide)).1, hMul, hDiv, (hNeg 128 (by decide) _).2.2.1⟩

end FixedPoint

end Hinting
