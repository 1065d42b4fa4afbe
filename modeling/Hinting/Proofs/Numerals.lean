import Hinting.Proofs.Words

/-!
# Numerals that are written and read

The text of a word reads as that word. An operand that was read from a program text
is written as a numeral, and reading it again gives an operand of the same value.
-/

namespace Hinting

namespace Text

theorem isDigits_toDigits (n : Nat) : isDigits (Nat.toDigits 10 n) = true := by
  have hDigits : (Nat.toDigits 10 n).all Char.isDigit = true :=
    List.all_eq_true.mpr fun _ hc => Nat.isDigit_of_mem_toDigits (by decide) (by decide) hc
  simp [isDigits, hDigits, Nat.toDigits_ne_nil]

theorem splitSign_of_isDigits {cs : List Char} (h : isDigits cs = true) :
    splitSign cs = (false, cs) := by
  rw [splitSign.eq_def]
  split
  · simp [isDigits, Char.isDigit] at h
  · simp [isDigits, Char.isDigit] at h
  · rfl

theorem toList_wordText (n : Int32) :
    (wordText n).toList = if 0 ≤ n.toInt then Nat.toDigits 10 n.toInt.toNat
      else '-' :: Nat.toDigits 10 (-n.toInt).toNat := by
  rw [wordText, Int.toString_eq_repr, Int.repr_eq_if]
  split
  · exact Nat.toList_repr
  · rw [String.toList_append, Nat.toList_repr]
    rfl

theorem isNumeral_wordText (n : Int32) : isNumeral (wordText n).toList = true := by
  rw [toList_wordText]
  split
  · rw [isNumeral, splitSign_of_isDigits (isDigits_toDigits _)]
    exact isDigits_toDigits _
  · exact isDigits_toDigits _

theorem numeralValue_wordText (n : Int32) : numeralValue (wordText n).toList = n.toInt := by
  have hDigits (m : Nat) : digitsValue (Nat.toDigits 10 m) = m := Nat.ofDigitChars_ten_toDigits
  rw [toList_wordText]
  split
  · rename_i hSign
    simp only [numeralValue, splitSign_of_isDigits (isDigits_toDigits _), hDigits]
    exact Int.toNat_of_nonneg hSign
  · simp only [numeralValue, splitSign, hDigits, ↓reduceIte]
    omega

theorem readWord?_wordText (n : Int32) : readWord? (wordText n).toList = some n := by
  have hLower : Int32.minValue.toInt ≤ n.toInt := n.minValue_le_toInt
  have hUpper : n.toInt ≤ Int32.maxValue.toInt := n.toInt_le
  rw [readWord?, isNumeral_wordText, numeralValue_wordText, if_pos ⟨rfl, hLower, hUpper⟩,
    Int32.ofInt_toInt]

theorem exists_digits_of_isNumeral {cs : List Char} (h : isNumeral cs = true) :
    ∃ sign digits, cs = sign ++ digits ∧ (∀ c ∈ sign, c = '-' ∨ c = '+') ∧
      isDigits digits = true := by
  unfold isNumeral at h
  rw [splitSign.eq_def] at h
  split at h
  · exact ⟨['-'], _, rfl, by simp, h⟩
  · exact ⟨['+'], _, rfl, by simp, h⟩
  · exact ⟨[], cs, rfl, by simp, h⟩

theorem isDigits_iff (cs : List Char) :
    isDigits cs = true ↔ cs ≠ [] ∧ ∀ c ∈ cs, c.isDigit = true := by
  simp [isDigits]

theorem isNumeral_of_isDigits {cs : List Char} (h : isDigits cs = true) : isNumeral cs = true := by
  rw [isNumeral, splitSign_of_isDigits h]
  exact h

end Text

namespace Token

theorem isPlain_of_toNat {c : Char} (hLow : 48 ≤ c.toNat) (hHigh : c.toNat ≤ 90) :
    isPlain c = true := by
  have hNe (other : Char) (hOther : other.toNat < 48 ∨ 90 < other.toNat) : c ≠ other := by
    rintro rfl
    omega
  rw [isPlain_iff]
  refine ⟨?_, ⟨hNe _ (by decide), hNe _ (by decide)⟩, hNe _ (by decide)⟩
  simp only [Text.isBlank, Bool.or_eq_false_iff, Bool.and_eq_false_iff, decide_eq_false_iff_not,
    beq_eq_false_iff_ne]
  omega

theorem toNat_of_isDigit {c : Char} (h : c.isDigit = true) : 48 ≤ c.toNat ∧ c.toNat ≤ 57 := by
  simp only [Char.isDigit, Bool.and_eq_true, decide_eq_true_eq, UInt32.le_iff_toNat_le] at h
  exact h

theorem toNat_of_isUpper {c : Char} (h : c.isUpper = true) : 65 ≤ c.toNat ∧ c.toNat ≤ 90 := by
  have hRange : 65 ≤ c.val ∧ c.val ≤ 90 := of_decide_eq_true h
  rwa [UInt32.le_iff_toNat_le, UInt32.le_iff_toNat_le] at hRange

theorem isPlain_of_isDigit {c : Char} (h : c.isDigit = true) : isPlain c = true := by
  obtain ⟨hLow, hHigh⟩ := toNat_of_isDigit h
  exact isPlain_of_toNat hLow (by omega)

theorem isPlain_of_isUpper {c : Char} (h : c.isUpper = true) : isPlain c = true := by
  obtain ⟨hLow, hHigh⟩ := toNat_of_isUpper h
  exact isPlain_of_toNat (by omega) hHigh

theorem isPlain_of_isNumeral {cs : List Char} (h : Text.isNumeral cs = true) :
    ∀ c ∈ cs, isPlain c = true := by
  obtain ⟨sign, digits, rfl, hSign, hDigits⟩ := Text.exists_digits_of_isNumeral h
  intro c hc
  rcases List.mem_append.mp hc with hc | hc
  · rcases hSign c hc with rfl | rfl <;> rfl
  · exact isPlain_of_isDigit (((Text.isDigits_iff digits).mp hDigits).2 c hc)

end Token

namespace Operand

/-- Text that is kept as an operand is a numeral. -/
def WellFormed : Operand → Prop
  | .word _ => True
  | .numeral text => Text.isNumeral text.toList = true

/-- The operand as it is read from its own text. -/
def reread : Operand → Operand
  | .word value => .word value
  | .numeral text =>
    match Text.readWord? text.toList with
    | some value => .word value
    | none => .numeral text

theorem isNumeral_text {o : Operand} (h : o.WellFormed) : Text.isNumeral o.text.toList = true := by
  cases o with
  | word value => exact Text.isNumeral_wordText value
  | numeral text => exact h

theorem text_ne_nil {o : Operand} (h : o.WellFormed) : o.text.toList ≠ [] := by
  obtain ⟨sign, digits, hText, _, hDigits⟩ := Text.exists_digits_of_isNumeral (isNumeral_text h)
  rw [hText]
  exact List.append_ne_nil_of_right_ne_nil sign ((Text.isDigits_iff digits).mp hDigits).1

theorem operand?_text {o : Operand} (h : o.WellFormed) :
    Token.operand? o.text.toList = some o.reread := by
  rw [Token.operand?, if_pos (isNumeral_text h)]
  cases o with
  | word value => simp only [text, reread, Text.readWord?_wordText]
  | numeral text =>
    simp only [Operand.text, reread]
    cases Text.readWord? text.toList with
    | some value => rfl
    | none => rw [String.ofList_toList]

theorem value?_reread (o : Operand) : o.reread.value? = o.value? := by
  cases o with
  | word value => rfl
  | numeral text =>
    simp only [reread, value?]
    cases hValue : Text.readWord? text.toList with
    | some value => rfl
    | none => exact hValue

theorem wellFormed_of_operand? {word : List Char} {o : Operand} (h : Token.operand? word = some o) :
    o.WellFormed := by
  unfold Token.operand? at h
  split at h
  · rename_i hNumeral
    split at h
    · cases h
      trivial
    · cases h
      rw [WellFormed, String.toList_ofList]
      exact hNumeral
  · cases h

end Operand

end Hinting
