import Hinting.Proofs.Decoding
import Hinting.Proofs.Regions
import Hinting.Proofs.WordCutting

/-!
# Reading listing texts

The listing text of a statement has one word with brackets and then the operands, a word
each. Text that is the first operand stands in the brackets, wherever it was read from.
There its digits count and its sign does not, so a statement is read back from its listing
text unless its first operand is a numeral with a sign that is too wide for a word.
-/

namespace Hinting

namespace Operand

/-- A numeral with a sign whose value fits in no word. -/
def SignedTooWide : Operand → Prop
  | .word _ => False
  | .numeral text => (∃ digits, text.toList = '-' :: digits ∨ text.toList = '+' :: digits) ∧
    (Text.numeralValue text.toList < Int32.minValue.toInt ∨
      Int32.maxValue.toInt < Text.numeralValue text.toList)

/-- Text that is kept is a numeral that fits in no word. -/
structure AsRead (o : Operand) : Prop where
  wellFormed : o.WellFormed
  reread : o.reread = o

theorem asRead_of_operand? {word : List Char} {o : Operand} (h : Token.operand? word = some o) :
    o.AsRead := by
  refine ⟨wellFormed_of_operand? h, ?_⟩
  unfold Token.operand? at h
  split at h
  · split at h
    · cases h
      rfl
    · rename_i hValue
      cases h
      simp only [reread, String.toList_ofList, hValue]
  · cases h

theorem AsRead.readWord?_eq {text : String} (h : (numeral text).AsRead) :
    Text.readWord? text.toList = none := by
  cases hValue : Text.readWord? text.toList with
  | none => rfl
  | some value =>
    have hReread := h.reread
    simp only [Operand.reread, hValue] at hReread
    cases hReread

end Operand

theorem Text.out_of_range_of_readWord? {cs : List Char} (hNumeral : isNumeral cs = true)
    (h : readWord? cs = none) :
    numeralValue cs < Int32.minValue.toInt ∨ Int32.maxValue.toInt < numeralValue cs := by
  unfold readWord? at h
  split at h
  · cases h
  · rename_i hRange
    by_contra hInside
    rw [not_or, Int.not_lt, Int.not_lt] at hInside
    exact hRange ⟨hNumeral, hInside⟩

/-- A numeral is made of digits only, unless it has a sign. -/
theorem Text.isNumeral_cases {cs : List Char} (h : isNumeral cs = true) :
    isDigits cs = true ∨ ∃ digits, cs = '-' :: digits ∨ cs = '+' :: digits := by
  unfold isNumeral at h
  rw [splitSign.eq_def] at h
  split at h
  · exact .inr ⟨_, .inl rfl⟩
  · exact .inr ⟨_, .inr rfl⟩
  · exact .inl h

theorem Text.filter_isDigit_of_isDigits {cs : List Char} (h : isDigits cs = true) :
    cs.filter Char.isDigit = cs :=
  List.filter_eq_self.mpr ((isDigits_iff cs).mp h).2

namespace Token

theorem ofWord_eq_operand_asRead {word : String} {o : Operand}
    (h : ofWord word = .ok (.operand o)) : o.AsRead := by
  unfold ofWord ofChars at h
  split at h
  · rename_i hOperand
    cases h
    exact Operand.asRead_of_operand? hOperand
  · simp only at h
    split at h <;> cases h

theorem flagsOf_eq_some {digits : List Char} (h : digits ≠ []) :
    flagsOf digits = some (.numeral (String.ofList digits)) := by
  rw [flagsOf, if_neg]
  simpa using h

/-- The group was made of words. -/
structure Group.AsRead (g : Group) : Prop where
  flags : ∃ digits : List Char, (∀ c ∈ digits, c.isDigit = true) ∧ g.flags = flagsOf digits
  operands : ∀ o ∈ g.operands, o.AsRead

theorem Group.asRead_of_classified {words : List String} {groups : List Group}
    (h : words.map ofWord = (groups.flatMap Group.tokens).map .ok) : ∀ g ∈ groups, g.AsRead := by
  have hWord : ∀ g ∈ groups, ∀ token ∈ g.tokens, ∃ word, ofWord word = .ok token := by
    intro g hg token hToken
    have hMem : .ok token ∈ words.map ofWord := by
      rw [h]
      exact List.mem_map_of_mem (List.mem_flatMap.mpr ⟨g, hg, hToken⟩)
    obtain ⟨word, _, hWord⟩ := List.mem_map.mp hMem
    exact ⟨word, hWord⟩
  intro g hg
  constructor
  · obtain ⟨word, hFirst⟩ := hWord g hg (.instruction g.mnemonic g.flags) (.head _)
    exact ofWord_eq_instruction hFirst
  · intro o ho
    obtain ⟨word, hOperand⟩ := hWord g hg (.operand o) (.tail _ (List.mem_map_of_mem ho))
    exact ofWord_eq_operand_asRead hOperand

theorem Group.AsRead.wellFormed {g : Group} (h : g.AsRead) (index : Nat) :
    (g.statement index).WellFormed := by
  obtain ⟨digits, hDigits, hFlags⟩ := h.flags
  intro o ho
  rcases List.mem_append.mp ho with ho | ho
  · rw [hFlags] at ho
    exact wellFormed_flagsOf hDigits o ho
  · exact (h.operands o ho).wellFormed

theorem Group.mem_statementsFrom {s : Statement} {index : Nat} {groups : List Group}
    (h : s ∈ statementsFrom index groups) : ∃ g ∈ groups, s = g.statement s.index := by
  induction groups generalizing index with
  | nil => cases h
  | cons g rest ih =>
    rcases List.mem_cons.mp h with rfl | h
    · exact ⟨g, .head _, rfl⟩
    · obtain ⟨other, hOther, hs⟩ := ih h
      exact ⟨other, .tail _ hOther, hs⟩

end Token

open Token (Group)

theorem exists_groups_of_readProgram {tag text : String} {statements : List Statement}
    (h : readProgram tag text = .ok statements) :
    ∃ groups : List Group, statements = Group.statementsFrom 0 groups ∧ ∀ g ∈ groups, g.AsRead := by
  rw [readProgram, Listing.ofText] at h
  rcases Listing.placed_or_firstFault (Token.words text) with
    ⟨tokens, hPlaced⟩ | ⟨position, cause, hFault⟩
  · obtain ⟨groups, rfl, hWords⟩ := Listing.ofWords_of_placed tag hPlaced
    rw [hWords] at h
    cases h
    exact ⟨groups, rfl, Group.asRead_of_classified hPlaced.classified⟩
  · cases hFault with
    | leading hWords hWord =>
      rw [hWords, Listing.ofWords, Listing.scan_leading hWord] at h
      cases h
    | unknown hWords hFront hWord =>
      obtain ⟨groups, _, hListing⟩ := Listing.ofWords_of_unknown tag hFront hWord
      rw [hWords, hListing] at h
      cases h

namespace Statement

/-- What the listing text has in the brackets. -/
def listedFlags (s : Statement) : String :=
  match s.operands with
  | .numeral bits :: _ => bits
  | _ => " "

/-- The operands that the listing text has behind the brackets. -/
def listedOperands (s : Statement) : List Operand :=
  match s.operands with
  | .numeral _ :: rest => rest
  | operands => operands

def listedWord (s : Statement) : String :=
  s.mnemonic.name ++ "[" ++ s.listedFlags ++ "]"

theorem toList_text (s : Statement) :
    s.text.toList = s.listedWord.toList ++ s.listedOperands.flatMap fun o => ' ' :: o.text.toList := by
  have hTrailing (operands : List Operand) : (text.trailing operands).toList =
      operands.flatMap fun o => ' ' :: o.text.toList := by
    rw [text.trailing, String.toList_join, List.flatMap_map]
    simp [String.toList_append]
  have hBlank : s.mnemonic.name ++ "[ ]" = s.mnemonic.name ++ "[" ++ " " ++ "]" := by
    rw [String.append_assoc, String.append_assoc]
    rfl
  rcases hOperands : s.operands with _ | ⟨_ | bits, rest⟩
  all_goals
    simp only [text, listedWord, listedFlags, listedOperands, hOperands]
    rw [String.toList_append, hTrailing]
  · rw [hBlank]
  · rw [hBlank]

theorem listedFlags_plain {s : Statement} (h : s.WellFormed) :
    ∀ c ∈ s.listedFlags.toList, Token.isPlain c = true ∨ c = ' ' := by
  intro c hc
  unfold listedFlags at hc
  split at hc
  · rename_i bits rest hOperands
    have hFirst : (Operand.numeral bits).WellFormed := h _ (hOperands ▸ .head _)
    exact .inl (Token.isPlain_of_isNumeral hFirst c hc)
  · exact .inr (List.mem_singleton.mp hc)

theorem listedOperands_wellFormed {s : Statement} (h : s.WellFormed) :
    ∀ o ∈ s.listedOperands, o.WellFormed := by
  intro o ho
  unfold listedOperands at ho
  split at ho
  · rename_i bits rest hOperands
    exact h o (hOperands ▸ .tail _ ho)
  · exact h o ho

end Statement

namespace Token

/-- A word that has closed its brackets. -/
structure IsClosed (word : List Char) : Prop where
  ne_nil : word ≠ []
  solid : Solid 0 word
  closed : word.foldl depthAfter 0 = 0

theorem isClosed_of_plain {word : List Char} (h : ∀ c ∈ word, isPlain c = true)
    (hWord : word ≠ []) : IsClosed word := by
  have hBrackets := not_bracket_of_plain fun c hc => .inl (h c hc)
  refine ⟨hWord, solid_of_not_bracket hBrackets (.inr ?_), foldl_depthAfter hBrackets 0⟩
  exact fun c hc => ((isPlain_iff c).mp (h c hc)).1

theorem isClosed_bracketed {name inner : List Char} (hName : ∀ c ∈ name, isPlain c = true)
    (hInner : ∀ c ∈ inner, isPlain c = true ∨ c = ' ') :
    IsClosed (name ++ '[' :: (inner ++ [']'])) := by
  have hBefore := not_bracket_of_plain fun c hc => .inl (hName c hc)
  have hInside := not_bracket_of_plain hInner
  refine ⟨by simp, solid_bracketed hName hInner, ?_⟩
  rw [List.foldl_append, foldl_depthAfter hBefore, List.foldl_cons, List.foldl_append,
    foldl_depthAfter hInside]
  rfl

/-- Words with a space in front of each but the first. -/
theorem holds_of_closed {word : List Char} (hWord : IsClosed word) {words : List (List Char)}
    (h : ∀ other ∈ words, IsClosed other) :
    Holds (word ++ words.flatMap (' ' :: ·)) (word :: words) := by
  induction words generalizing word with
  | nil =>
    rw [List.flatMap_nil, List.append_nil]
    exact Holds.last (List.forall_mem_nil _) hWord.ne_nil hWord.solid
  | cons first rest ih =>
    obtain ⟨hFirst, hRest⟩ := List.forall_mem_cons.mp h
    exact Holds.next (List.forall_mem_nil _) hWord.ne_nil hWord.solid hWord.closed rfl
      (ih hFirst hRest)

end Token

namespace Statement

theorem toList_listedWord (s : Statement) :
    s.listedWord.toList = s.mnemonic.name.toList ++ '[' :: (s.listedFlags.toList ++ [']']) := by
  simp [listedWord, String.toList_append]

theorem chars_text {s : Statement} (h : s.WellFormed) :
    ∀ c ∈ s.text.toList, Token.isPlain c = true ∨ c = ' ' ∨ c = '[' ∨ c = ']' := by
  intro c hc
  rw [toList_text, toList_listedWord, List.append_assoc, List.mem_append, List.cons_append,
    List.mem_cons, List.append_assoc, List.mem_append, List.mem_append, List.mem_singleton,
    List.mem_flatMap] at hc
  rcases hc with hc | rfl | hc | rfl | ⟨o, ho, hc⟩
  · exact .inl (Token.isPlain_name s.mnemonic c hc)
  · exact .inr (.inr (.inl rfl))
  · exact (listedFlags_plain h c hc).imp_right .inl
  · exact .inr (.inr (.inr rfl))
  · rcases List.mem_cons.mp hc with rfl | hc
    · exact .inr (.inl rfl)
    · exact .inl (Token.isPlain_of_isNumeral
        (Operand.isNumeral_text (listedOperands_wellFormed h o ho)) c hc)

theorem not_mem_text {s : Statement} (h : s.WellFormed) {c : Char}
    (hc : Token.isPlain c = false ∧ c ≠ ' ' ∧ c ≠ '[' ∧ c ≠ ']') : c ∉ s.text.toList := by
  intro hMem
  obtain ⟨hPlain, hSpace, hOpen, hClose⟩ := hc
  rcases chars_text h c hMem with hIs | hIs | hIs | hIs
  · rw [hPlain] at hIs
    cases hIs
  · exact hSpace hIs
  · exact hOpen hIs
  · exact hClose hIs

def listedWords (s : Statement) : List String :=
  s.listedWord :: s.listedOperands.map Operand.text

theorem words_text {s : Statement} (h : s.WellFormed) : Token.words s.text = s.listedWords := by
  have hFirst : Token.IsClosed s.listedWord.toList := by
    rw [toList_listedWord]
    exact Token.isClosed_bracketed (Token.isPlain_name s.mnemonic) (listedFlags_plain h)
  have hRest : ∀ other ∈ s.listedOperands.map fun o => o.text.toList, Token.IsClosed other := by
    rintro _ hOther
    obtain ⟨o, ho, rfl⟩ := List.mem_map.mp hOther
    have hForm := listedOperands_wellFormed h o ho
    exact Token.isClosed_of_plain (Token.isPlain_of_isNumeral (Operand.isNumeral_text hForm))
      (Operand.text_ne_nil hForm)
  have hLine := (Token.holds_of_closed hFirst hRest).eq_wordsFrom
  rw [List.flatMap_map, ← toList_text] at hLine
  rw [Token.words_of_line (not_mem_text h (by decide)) (not_mem_text h (by decide)),
    Token.lineWords, Token.beforeComment_of_not_mem (not_mem_text h (by decide)), ← hLine]
  simp [listedWords]

/-- The group that a listing text is read as. -/
def relisted (s : Statement) : Group :=
  ⟨s.mnemonic, Token.flagsOf (s.listedFlags.toList.filter Char.isDigit),
    s.listedOperands.map Operand.reread⟩

end Statement

namespace Listing

theorem scan_listedWords (tag : String) (position index : Nat) (current : Option Statement)
    {s : Statement} (h : s.WellFormed) (rest : List String) :
    scan tag position index current (s.listedWords ++ rest) =
      (scan tag (position + s.listedWords.length) (index + 1) (some (s.relisted.statement index))
        rest).addInFront current.toList := by
  have hClose : ']' ∉ s.listedFlags.toList := by
    intro hMem
    rcases Statement.listedFlags_plain h _ hMem with hPlain | hSpace
    · cases hPlain
    · cases hSpace
  rw [Statement.listedWords, List.cons_append, Statement.listedWord,
    scan_instruction (Token.ofWord_bracketed s.mnemonic hClose),
    scan_operands tag _ _ _ (Statement.listedOperands_wellFormed h)]
  simp [Statement.relisted, Group.statement, Nat.add_assoc, Nat.add_comm 1]

theorem scan_listing (tag : String) (position index : Nat) (current : Option Statement)
    {statements : List Statement} (h : ∀ s ∈ statements, s.WellFormed) :
    scan tag position index current (statements.flatMap Statement.listedWords) =
      ⟨current.toList ++ Group.statementsFrom index (statements.map Statement.relisted), none⟩ := by
  induction statements generalizing position index current with
  | nil => simp [scan, Group.statementsFrom]
  | cons s rest ih =>
    obtain ⟨hs, hRest⟩ := List.forall_mem_cons.mp h
    rw [List.flatMap_cons, scan_listedWords tag _ _ _ hs, ih _ _ _ hRest]
    rfl

end Listing

theorem readProgram_listing (tag : String) {statements : List Statement}
    (h : ∀ s ∈ statements, s.WellFormed) :
    readProgram tag (String.intercalate "\n" (statements.map Statement.text)) =
      .ok (Group.statementsFrom 0 (statements.map Statement.relisted)) := by
  have hReturn : ∀ text ∈ statements.map Statement.text, '\r' ∉ text.toList := by
    intro text hText
    obtain ⟨s, hs, rfl⟩ := List.mem_map.mp hText
    exact Statement.not_mem_text (h s hs) (by decide)
  have hWords : Token.words (String.intercalate "\n" (statements.map Statement.text)) =
      statements.flatMap Statement.listedWords := by
    rw [Token.words_intercalate hReturn, List.flatMap_map, List.flatMap_def, List.flatMap_def,
      List.map_congr_left fun s hs => Statement.words_text (h s hs)]
  rw [readProgram, Listing.ofText, hWords, Listing.ofWords, Listing.scan_listing tag _ _ _ h]
  rfl

theorem Operand.not_signedTooWide_of_isDigits {text : String}
    (h : Text.isDigits text.toList = true) : ¬(numeral text).SignedTooWide := by
  rintro ⟨⟨digits, hText | hText⟩, _⟩
  · rw [hText] at h
    simp [Text.isDigits, Char.isDigit] at h
  · rw [hText] at h
    simp [Text.isDigits, Char.isDigit] at h

theorem Operand.AsRead.signedTooWide {text : String} (h : (numeral text).AsRead)
    (hDigits : Text.isDigits text.toList ≠ true) : (numeral text).SignedTooWide := by
  have hNumeral : Text.isNumeral text.toList = true := h.wellFormed
  rcases Text.isNumeral_cases hNumeral with hIs | hSigned
  · exact absurd hIs hDigits
  · exact ⟨hSigned, Text.out_of_range_of_readWord? hNumeral h.readWord?_eq⟩

/-- In brackets a numeral keeps its digits only. -/
theorem Token.flagsOf_filter_iff (text : String) :
    flagsOf (text.toList.filter Char.isDigit) = some (.numeral text) ↔
      Text.isDigits text.toList = true := by
  constructor
  · intro hFlags
    rw [Text.isDigits_iff]
    unfold flagsOf at hFlags
    split at hFlags
    · cases hFlags
    · rename_i hSome
      have hSame : String.ofList (text.toList.filter Char.isDigit) = text :=
        Operand.numeral.inj (Option.some.inj hFlags)
      have hChars := congrArg String.toList hSame
      rw [String.toList_ofList] at hChars
      constructor
      · rw [hChars] at hSome
        simpa using hSome
      · exact List.filter_eq_self.mp hChars
  · intro hDigits
    rw [Text.filter_isDigit_of_isDigits hDigits, flagsOf_eq_some ((Text.isDigits_iff _).mp hDigits).1,
      String.ofList_toList]

namespace Statement

/-- What reading leaves a statement with: flag digits or the first of its operands, and then
operands. -/
structure AsRead (s : Statement) : Prop where
  wellFormed : s.WellFormed
  first : ∀ text rest, s.operands = .numeral text :: rest →
    Text.isDigits text.toList = true ∨ (Operand.numeral text).AsRead
  rest : ∀ o ∈ s.listedOperands, o.AsRead

theorem listedOperands_of_numeral {s : Statement} {text : String} {rest : List Operand}
    (h : s.operands = .numeral text :: rest) : s.listedOperands = rest := by
  simp only [listedOperands, h]

theorem asRead_of_group {g : Group} (h : g.AsRead) (index : Nat) :
    (g.statement index).AsRead := by
  obtain ⟨digits, hDigits, hFlags⟩ := h.flags
  have hOperands : (g.statement index).operands = (Token.flagsOf digits).toList ++ g.operands := by
    rw [Group.statement, hFlags]
  by_cases hNone : digits = []
  · subst hNone
    change (g.statement index).operands = g.operands at hOperands
    refine ⟨h.wellFormed index, ?_, ?_⟩
    · intro text rest hFirst
      rw [hOperands] at hFirst
      exact .inr (h.operands _ (hFirst ▸ .head _))
    · intro o ho
      unfold listedOperands at ho
      split at ho
      · rename_i text rest hFirst
        rw [hOperands] at hFirst
        exact h.operands o (hFirst ▸ .tail _ ho)
      · rw [hOperands] at ho
        exact h.operands o ho
  · rw [Token.flagsOf_eq_some hNone] at hOperands
    refine ⟨h.wellFormed index, ?_, ?_⟩
    · intro text rest hFirst
      rw [hOperands] at hFirst
      cases hFirst
      rw [String.toList_ofList, Text.isDigits_iff]
      exact .inl ⟨hNone, hDigits⟩
    · rw [listedOperands_of_numeral hOperands]
      exact h.operands

theorem AsRead.relisted_operands_iff {s : Statement} (h : s.AsRead) :
    s.relisted.flags.toList ++ s.relisted.operands = s.operands ↔
      ∀ o, s.operands.head? = some o → ¬o.SignedTooWide := by
  have hKept : s.relisted.operands = s.listedOperands := by
    rw [relisted, List.map_congr_left fun o ho => (h.rest o ho).reread, List.map_id']
  rw [hKept]
  rcases hOperands : s.operands with _ | ⟨value | text, rest⟩
  · simp [relisted, listedFlags, listedOperands, hOperands, Token.flagsOf]
  · simp [relisted, listedFlags, listedOperands, hOperands, Token.flagsOf, Operand.SignedTooWide]
  · have hFlags : s.relisted.flags = Token.flagsOf (text.toList.filter Char.isDigit) := by
      simp only [relisted, listedFlags, hOperands]
    have hHead (flags : Option Operand) : flags.toList ++ rest = .numeral text :: rest ↔
        flags = some (.numeral text) := by
      cases flags <;> simp
    rw [listedOperands_of_numeral hOperands, hHead, hFlags, Token.flagsOf_filter_iff]
    constructor
    · rintro hDigits o ho
      cases ho
      exact Operand.not_signedTooWide_of_isDigits hDigits
    · intro hFirst
      by_contra hDigits
      rcases h.first text rest hOperands with hIs | hRead
      · exact hDigits hIs
      · exact hFirst _ rfl (hRead.signedTooWide hDigits)

end Statement

theorem Token.Group.statementsFrom_relisted_iff (index : Nat) (groups : List Group) :
    statementsFrom index ((statementsFrom index groups).map Statement.relisted) =
        statementsFrom index groups ↔
      ∀ s ∈ statementsFrom index groups,
        s.relisted.flags.toList ++ s.relisted.operands = s.operands := by
  induction groups generalizing index with
  | nil => simp [statementsFrom]
  | cons g rest ih =>
    have hStatement : (g.statement index).relisted.statement index = g.statement index ↔
        (g.statement index).relisted.flags.toList ++ (g.statement index).relisted.operands =
          (g.statement index).operands := by
      constructor
      · exact congrArg Statement.operands
      · intro hOperands
        rw [statement, hOperands]
        rfl
    rw [statementsFrom, List.map_cons, statementsFrom, List.cons.injEq, ih, hStatement,
      List.forall_mem_cons]

/-- The statements of a program are read from their listing texts again, if and only if none
begins its operands with a numeral that has a sign and fits in no word. -/
theorem readProgram_listing_iff {tag text : String} {statements : List Statement}
    (h : readProgram tag text = .ok statements) :
    readProgram tag (String.intercalate "\n" (statements.map Statement.text)) = .ok statements ↔
      ∀ s ∈ statements, ∀ o, s.operands.head? = some o → ¬o.SignedTooWide := by
  obtain ⟨groups, rfl, hGroups⟩ := exists_groups_of_readProgram h
  have hRead : ∀ s ∈ Group.statementsFrom 0 groups, s.AsRead := by
    intro s hs
    obtain ⟨g, hg, hIs⟩ := Group.mem_statementsFrom hs
    rw [hIs]
    exact Statement.asRead_of_group (hGroups g hg) _
  rw [readProgram_listing tag fun s hs => (hRead s hs).wellFormed, Except.ok.injEq,
    Group.statementsFrom_relisted_iff]
  exact forall₂_congr fun s hs => (hRead s hs).relisted_operands_iff

/-- A numeral too wide for a word goes into the brackets when it comes first, and it may have a
sign when it does not. -/
theorem readProgram_listing_iff_wide_numerals :
    ∃ statements : List Statement,
      readProgram "prep" "NPUSHB[ ] 99999999999 -7 +99999999999 MDRP[0x1 1] +08 CALL" =
        .ok statements ∧
      statements.map Statement.text =
        ["NPUSHB[99999999999] -7 +99999999999", "MDRP[011] 8", "CALL[ ]"] ∧
      (∀ s ∈ statements, ∀ o, s.operands.head? = some o → ¬o.SignedTooWide) ∧
      readProgram "prep" (String.intercalate "\n" (statements.map Statement.text)) =
        .ok statements := by
  let statements : List Statement :=
    [⟨.NPUSHB, [.numeral "99999999999", .word (-7), .numeral "+99999999999"], 0⟩,
      ⟨.MDRP, [.numeral "011", .word 8], 1⟩, ⟨.CALL, [], 2⟩]
  have hRead : readProgram "prep"
      "NPUSHB[ ] 99999999999 -7 +99999999999 MDRP[0x1 1] +08 CALL" = .ok statements := by
    decide +kernel
  have hFirst : ∀ s ∈ statements, ∀ o, s.operands.head? = some o → ¬o.SignedTooWide := by
    intro s hs o ho
    simp only [statements, List.mem_cons, List.not_mem_nil, or_false] at hs
    rcases hs with rfl | rfl | rfl
    · cases ho
      exact Operand.not_signedTooWide_of_isDigits (by decide +kernel)
    · cases ho
      exact Operand.not_signedTooWide_of_isDigits (by decide +kernel)
    · cases ho
  exact ⟨statements, hRead, by decide +kernel, hFirst, (readProgram_listing_iff hRead).mpr hFirst⟩

end Hinting
