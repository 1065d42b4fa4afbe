import Hinting.Listing
import Hinting.Proofs.Numerals
import Mathlib.Data.List.Forall2

/-!
# Reading assembly lines

The assembly lines of statements, joined to a text, read as as many statements again.
`Statement.reread` says what becomes of each: a push of any form becomes a plain `PUSH`
of the same operands, and of the operands of another instruction the digits remain, as
its flags.
-/

namespace Hinting

namespace Mnemonic

theorem mem_all (m : Mnemonic) : m ∈ all := by
  cases m <;> decide +kernel

theorem ofName?_name (m : Mnemonic) : ofName? m.name = some m := by
  have hAll : ∀ m ∈ all, ofName? m.name = some m := by decide +kernel
  exact hAll m m.mem_all

theorem name_chars (m : Mnemonic) : m.name.toList.head?.any Char.isUpper = true ∧
    ∀ c ∈ m.name.toList, c.isUpper = true ∨ c.isDigit = true := by
  have hAll : all.all (fun m => m.name.toList.head?.any Char.isUpper &&
      m.name.toList.all fun c => c.isUpper || c.isDigit) = true := by decide +kernel
  have hName := List.all_eq_true.mp hAll m m.mem_all
  simpa only [Bool.and_eq_true, List.all_eq_true, Bool.or_eq_true] using hName

end Mnemonic

namespace Token

theorem isPlain_name (m : Mnemonic) : ∀ c ∈ m.name.toList, isPlain c = true :=
  fun c hc => (m.name_chars.2 c hc).elim isPlain_of_isUpper isPlain_of_isDigit

theorem operand?_name_append (m : Mnemonic) (rest : List Char) :
    operand? (m.name.toList ++ rest) = none := by
  have hFirst := m.name_chars.1
  cases hName : m.name.toList with
  | nil => rw [hName] at hFirst; cases hFirst
  | cons c cs =>
    rw [hName] at hFirst
    have hUpper : c.isUpper = true := by simpa using hFirst
    have hNumeral : Text.isNumeral (c :: cs ++ rest) ≠ true := by
      intro hNumeral
      obtain ⟨sign, digits, hEq, hSign, hDigits⟩ := Text.exists_digits_of_isNumeral hNumeral
      have hMem : c ∈ sign ++ digits := hEq ▸ List.mem_cons_self
      rcases List.mem_append.mp hMem with hMem | hMem
      · rcases hSign c hMem with rfl | rfl <;> cases hUpper
      · have hDigit := ((Text.isDigits_iff digits).mp hDigits).2 c hMem
        have hLow := (toNat_of_isUpper hUpper).1
        have hHigh := (toNat_of_isDigit hDigit).2
        omega
    rw [operand?, if_neg hNumeral]

theorem trim_of_not_blank {cs : List Char} (h : ∀ c ∈ cs, Text.isBlank c = false) :
    Text.trim cs = cs := by
  have hDrop {cs : List Char} (h : ∀ c ∈ cs, Text.isBlank c = false) :
      cs.dropWhile Text.isBlank = cs := by
    cases cs with
    | nil => rfl
    | cons c cs => rw [List.dropWhile_cons, h c List.mem_cons_self, if_neg Bool.false_ne_true]
  rw [Text.trim, hDrop h, hDrop fun c hc => h c (List.mem_reverse.mp hc), List.reverse_reverse]

/-- Digits as the flags of an instruction. -/
def flagsOf (digits : List Char) : Option Operand :=
  if digits.isEmpty then none else some (.numeral (String.ofList digits))

theorem span_stop {stop : Char} {front : List Char} (h : stop ∉ front) (back : List Char) :
    (front ++ stop :: back).takeWhile (· ≠ stop) = front ∧
      (front ++ stop :: back).dropWhile (· ≠ stop) = stop :: back := by
  have hFront : ∀ c ∈ front, decide (c ≠ stop) = true :=
    fun c hc => decide_eq_true fun hEq => h (hEq ▸ hc)
  rw [List.takeWhile_append_of_pos hFront, List.dropWhile_append_of_pos hFront]
  simp

/-- A name with brackets behind it is an instruction; of what stands in the brackets the
digits count. -/
theorem ofWord_bracketed (m : Mnemonic) {inner : String} (hInner : ']' ∉ inner.toList) :
    ofWord (m.name ++ "[" ++ inner ++ "]") =
      .ok (.instruction m (flagsOf (inner.toList.filter Char.isDigit))) := by
  have hChars : (m.name ++ "[" ++ inner ++ "]").toList =
      m.name.toList ++ '[' :: (inner.toList ++ [']']) := by
    simp [String.toList_append]
  obtain ⟨hHead, hTail⟩ :=
    span_stop (not_mem_of_plain (isPlain_name m) rfl : '[' ∉ m.name.toList) (inner.toList ++ [']'])
  have hSplit : splitBracket (m.name.toList ++ '[' :: (inner.toList ++ [']'])) =
      (m.name.toList, flagsOf (inner.toList.filter Char.isDigit)) := by
    rw [splitBracket, hHead, hTail, List.drop_one, List.tail_cons, flagDigits,
      (span_stop hInner []).1]
    rfl
  have hTrim : Text.trim m.name.toList = m.name.toList :=
    trim_of_not_blank fun c hc => ((isPlain_iff c).mp (isPlain_name m c hc)).1
  rw [ofWord, hChars, ofChars, operand?_name_append]
  simp only [hSplit, hTrim, String.ofList_toList, Mnemonic.ofName?_name]

theorem ofWord_operand {o : Operand} (h : o.WellFormed) :
    ofWord o.text = .ok (.operand o.reread) := by
  rw [ofWord, ofChars, Operand.operand?_text h]

end Token

theorem toList_pushHeader (count : Nat) : (pushHeader count).toList =
    if 1 < count then
      "PUSH[ ]  /* ".toList ++ (Nat.toDigits 10 count ++ " values pushed */".toList)
    else "PUSH[ ]".toList := by
  unfold pushHeader
  split
  · simp [String.toList_append, Nat.toList_repr]
  · rfl

theorem not_mem_pushHeader (count : Nat) {c : Char} (hDigit : c.isDigit = false)
    (hFront : c ∉ "PUSH[ ]  /* ".toList) (hBack : c ∉ " values pushed */".toList) :
    c ∉ (pushHeader count).toList := by
  rw [toList_pushHeader]
  split
  · rw [List.mem_append, List.mem_append]
    rintro (hMem | hMem | hMem)
    · exact hFront hMem
    · rw [Nat.isDigit_of_mem_toDigits (by decide) (by decide) hMem] at hDigit
      cases hDigit
    · exact hBack hMem
  · intro hMem
    exact hFront (List.mem_append_left "  /* ".toList hMem)

theorem words_pushHeader (count : Nat) : Token.words (pushHeader count) = ["PUSH[ ]"] := by
  rw [Token.words_of_line (not_mem_pushHeader count rfl (by decide) (by decide))
    (not_mem_pushHeader count rfl (by decide) (by decide)), toList_pushHeader, Token.lineWords]
  split
  · have hComment (rest : List Char) :
        Token.beforeComment ("PUSH[ ]  /* ".toList ++ rest) = "PUSH[ ]  ".toList := rfl
    rw [hComment]
    decide +kernel
  · decide +kernel

namespace Statement

def WellFormed (s : Statement) : Prop :=
  ∀ o ∈ s.operands, o.WellFormed

/-- What the assembly line of an instruction other than a push has in its brackets. -/
def bracketText (s : Statement) : String :=
  if s.operands.isEmpty then " " else String.join (s.operands.map Operand.text)

def assemblyWords (s : Statement) : List String :=
  if s.kind = .push then "PUSH[ ]" :: s.operands.map Operand.text
  else [s.mnemonic.name ++ "[" ++ s.bracketText ++ "]"]

theorem assembly_of_push {s : Statement} (h : s.kind = .push) :
    s.assembly = pushHeader s.operands.length :: s.operands.map Operand.text := by
  simp only [assembly, h]

theorem assembly_of_not_push {s : Statement} (h : s.kind ≠ .push) :
    s.assembly = [s.mnemonic.name ++ "[" ++ s.bracketText ++ "]"] := by
  have hEmpty : s.mnemonic.name ++ "[ ]" = s.mnemonic.name ++ "[" ++ " " ++ "]" := by
    rw [String.append_assoc, String.append_assoc]
    rfl
  cases hOperands : s.operands with
  | nil =>
    simp only [assembly, bracketText, hOperands, hEmpty]
    cases hKind : s.kind <;> simp_all
  | cons o rest =>
    simp only [assembly, bracketText, hOperands]
    cases hKind : s.kind <;> simp_all

theorem plain_bracketText {s : Statement} (h : s.WellFormed) :
    ∀ c ∈ s.bracketText.toList, Token.isPlain c = true ∨ c = ' ' := by
  intro c hc
  unfold bracketText at hc
  split at hc
  · exact .inr (List.mem_singleton.mp hc)
  · rw [String.toList_join, List.mem_flatMap] at hc
    obtain ⟨text, hText, hc⟩ := hc
    obtain ⟨o, ho, rfl⟩ := List.mem_map.mp hText
    exact .inl (Token.isPlain_of_isNumeral (Operand.isNumeral_text (h o ho)) c hc)

theorem words_assembly {s : Statement} (h : s.WellFormed) :
    s.assembly.flatMap Token.words = s.assemblyWords := by
  unfold assemblyWords
  split
  · rename_i hKind
    rw [assembly_of_push hKind, List.flatMap_cons, words_pushHeader, List.singleton_append,
      List.flatMap_map]
    have hWords : ∀ o ∈ s.operands, Token.words o.text = [o.text] := fun o ho =>
      Token.words_of_plain (Token.isPlain_of_isNumeral (Operand.isNumeral_text (h o ho)))
        (Operand.text_ne_nil (h o ho))
    rw [List.flatMap_def, List.map_congr_left hWords, ← List.flatMap_def, ← List.map_eq_flatMap]
  · rename_i hKind
    rw [assembly_of_not_push hKind, List.flatMap_singleton]
    exact Token.words_bracketed (Token.isPlain_name s.mnemonic) (plain_bracketText h)

theorem return_not_mem_assembly {s : Statement} (h : s.WellFormed) :
    ∀ line ∈ s.assembly, '\r' ∉ line.toList := by
  by_cases hKind : s.kind = .push
  · rw [assembly_of_push hKind]
    intro line hLine
    rcases List.mem_cons.mp hLine with rfl | hLine
    · exact not_mem_pushHeader _ rfl (by decide) (by decide)
    · obtain ⟨o, ho, rfl⟩ := List.mem_map.mp hLine
      exact Token.not_mem_of_plain
        (Token.isPlain_of_isNumeral (Operand.isNumeral_text (h o ho))) rfl
  · rw [assembly_of_not_push hKind]
    intro line hLine
    rw [List.mem_singleton.mp hLine]
    simp only [String.toList_append, List.mem_append, not_or]
    refine ⟨⟨⟨Token.not_mem_of_plain (Token.isPlain_name s.mnemonic) rfl, by decide⟩, ?_⟩,
      by decide⟩
    intro hMem
    rcases plain_bracketText h _ hMem with hPlain | hSpace
    · cases hPlain
    · cases hSpace

def bracketDigits (s : Statement) : List Char :=
  s.bracketText.toList.filter Char.isDigit

/-- The statement as it is read from its assembly lines, at a new position. -/
def reread (s : Statement) (index : Nat) : Statement :=
  if s.kind = .push then ⟨.PUSH, s.operands.map Operand.reread, index⟩
  else ⟨s.mnemonic, (Token.flagsOf s.bracketDigits).toList, index⟩

/-- Statements as they are read from their assembly lines, numbered from `index` on. -/
def rereadFrom (index : Nat) (statements : List Statement) : List Statement :=
  (statements.zipIdx index).map fun (s, position) => s.reread position

theorem mnemonic_reread (s : Statement) (index : Nat) :
    (s.reread index).mnemonic = if s.kind = .push then .PUSH else s.mnemonic := by
  unfold reread
  split <;> rfl

@[simp]
theorem kind_reread (s : Statement) (index : Nat) : (s.reread index).kind = s.kind := by
  rw [kind, mnemonic_reread]
  split
  · rename_i hKind
    exact hKind.symm
  · rfl

theorem values_reread {s : Statement} (h : s.kind = .push) (index : Nat) :
    (s.reread index).values = s.values := by
  rw [reread, if_pos h, values, values, List.filterMap_map]
  exact congrArg (List.filterMap · s.operands) (funext Operand.value?_reread)

@[simp]
theorem rereadFrom_cons (index : Nat) (s : Statement) (rest : List Statement) :
    rereadFrom index (s :: rest) = s.reread index :: rereadFrom (index + 1) rest := by
  simp [rereadFrom]

@[simp]
theorem rereadFrom_append (index : Nat) (front back : List Statement) :
    rereadFrom index (front ++ back) =
      rereadFrom index front ++ rereadFrom (index + front.length) back := by
  simp [rereadFrom, List.zipIdx_append]

/-- A statement that was read from the assembly lines of another. -/
def RereadOf (s t : Statement) : Prop :=
  ∃ index, s = t.reread index

theorem rereadOf_rereadFrom (index : Nat) (statements : List Statement) :
    List.Forall₂ RereadOf (rereadFrom index statements) statements := by
  induction statements generalizing index with
  | nil => exact .nil
  | cons s rest ih =>
    rw [rereadFrom_cons]
    exact .cons ⟨index, rfl⟩ (ih (index + 1))

end Statement

namespace Listing

theorem scan_operand {word : String} {o : Operand} (h : Token.ofWord word = .ok (.operand o))
    (tag : String) (position index : Nat) (s : Statement) (rest : List String) :
    scan tag position index (some s) (word :: rest) =
      scan tag (position + 1) index (some { s with operands := s.operands ++ [o] }) rest := by
  rw [scan.eq_def]
  simp only [h]

theorem scan_instruction {word : String} {m : Mnemonic} {flags : Option Operand}
    (h : Token.ofWord word = .ok (.instruction m flags)) (tag : String) (position index : Nat)
    (current : Option Statement) (rest : List String) :
    scan tag position index current (word :: rest) =
      (scan tag (position + 1) (index + 1) (some ⟨m, flags.toList, index⟩) rest).addInFront
        current.toList := by
  rw [scan.eq_def]
  simp only [h]

theorem scan_operands (tag : String) (position index : Nat) (s : Statement)
    {operands : List Operand} (h : ∀ o ∈ operands, o.WellFormed) (rest : List String) :
    scan tag position index (some s) (operands.map Operand.text ++ rest) =
      scan tag (position + operands.length) index
        (some { s with operands := s.operands ++ operands.map Operand.reread }) rest := by
  induction operands generalizing position s with
  | nil => simp
  | cons o operands ih =>
    rw [List.map_cons, List.cons_append,
      scan_operand (Token.ofWord_operand (h o List.mem_cons_self)),
      ih _ _ fun other hOther => h other (List.mem_cons_of_mem o hOther)]
    simp [Nat.add_comm, Nat.add_left_comm]

theorem scan_statement (tag : String) (position index : Nat) (current : Option Statement)
    {s : Statement} (h : s.WellFormed) (rest : List String) :
    scan tag position index current (s.assemblyWords ++ rest) =
      (scan tag (position + s.assemblyWords.length) (index + 1) (some (s.reread index))
        rest).addInFront current.toList := by
  unfold Statement.assemblyWords Statement.reread
  by_cases hKind : s.kind = .push
  · have hWord : Token.ofWord "PUSH[ ]" = .ok (.instruction .PUSH none) := rfl
    rw [if_pos hKind, if_pos hKind, List.cons_append, scan_instruction hWord,
      scan_operands tag _ _ _ h]
    simp [Nat.add_comm, Nat.add_left_comm]
  · have hClose : ']' ∉ s.bracketText.toList := by
      intro hMem
      rcases Statement.plain_bracketText h _ hMem with hPlain | hSpace
      · cases hPlain
      · cases hSpace
    rw [if_neg hKind, if_neg hKind, List.singleton_append,
      scan_instruction (Token.ofWord_bracketed s.mnemonic hClose)]
    rfl

theorem scan_statements (tag : String) (position index : Nat) (current : Option Statement)
    {statements : List Statement} (h : ∀ s ∈ statements, s.WellFormed) :
    scan tag position index current (statements.flatMap Statement.assemblyWords) =
      ⟨current.toList ++ Statement.rereadFrom index statements, none⟩ := by
  induction statements generalizing position index current with
  | nil => simp [scan, Statement.rereadFrom]
  | cons s rest ih =>
    rw [List.flatMap_cons, scan_statement tag _ _ _ (h s List.mem_cons_self),
      ih _ _ _ fun other hOther => h other (List.mem_cons_of_mem s hOther)]
    simp [addInFront, Statement.rereadFrom]

end Listing

/-- Assembly lines read as the statements they were written for. -/
theorem readProgram_assembly (tag : String) {statements : List Statement}
    (h : ∀ s ∈ statements, s.WellFormed) :
    readProgram tag (String.intercalate "\n" (statements.flatMap Statement.assembly)) =
      .ok (Statement.rereadFrom 0 statements) := by
  have hWords : Token.words (String.intercalate "\n" (statements.flatMap Statement.assembly)) =
      statements.flatMap Statement.assemblyWords := by
    rw [Token.words_intercalate, List.flatMap_assoc, List.flatMap_def, List.flatMap_def,
      List.map_congr_left fun s hs => Statement.words_assembly (h s hs)]
    intro line hLine
    obtain ⟨s, hs, hLine⟩ := List.mem_flatMap.mp hLine
    exact Statement.return_not_mem_assembly (h s hs) line hLine
  rw [readProgram, Listing.ofText, hWords, Listing.ofWords, Listing.scan_statements tag _ _ _ h]
  rfl

end Hinting
