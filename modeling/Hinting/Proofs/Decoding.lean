import Hinting.Proofs.Rereading
import Mathlib.Data.List.Induction

/-!
# Words grouped into statements

An instruction word and the operand words behind it form a group, and each group makes one
statement. Words that can all be placed are cut into groups without loss. Otherwise reading
ends at the first word that cannot be placed, and the group open there is dropped.

A decoder reads words on demand: each call gives the next statement or the error, and it
holds one statement back until the word behind it is known. Its calls give one after the
other what the listing of the words holds, and then nothing.
-/

namespace Hinting

namespace Token

structure Group where
  mnemonic : Mnemonic
  flags : Option Operand
  operands : List Operand

namespace Group

def tokens (g : Group) : List Token :=
  .instruction g.mnemonic g.flags :: g.operands.map .operand

def statement (g : Group) (index : Nat) : Statement :=
  ⟨g.mnemonic, g.flags.toList ++ g.operands, index⟩

/-- The statements of groups, numbered from `index` on. -/
def statementsFrom (index : Nat) : List Group → List Statement
  | [] => []
  | g :: rest => g.statement index :: statementsFrom (index + 1) rest

theorem statementsFrom_append (index : Nat) (front back : List Group) :
    statementsFrom index (front ++ back) =
      statementsFrom index front ++ statementsFrom (index + front.length) back := by
  induction front generalizing index with
  | nil => rfl
  | cons g rest ih =>
    rw [List.cons_append, statementsFrom, statementsFrom, ih, List.cons_append, List.length_cons,
      Nat.add_assoc, Nat.add_comm 1]

end Group

theorem ofWord_eq_error {word : String} {cause : DecodeCause} (h : ofWord word = .error cause) :
    ∃ name, cause = .unknownMnemonic name := by
  unfold ofWord ofChars at h
  split at h
  · cases h
  · simp only at h
    split at h
    · cases h
    · cases h
      exact ⟨_, rfl⟩

/-- The words are these tokens, and the first of them is no operand. -/
structure Placed (words : List String) (tokens : List Token) : Prop where
  classified : words.map ofWord = tokens.map .ok
  first : ∀ o, tokens.head? ≠ some (.operand o)

theorem Placed.words_nil {words : List String} (h : Placed words []) : words = [] := by
  simpa using h.classified

theorem Placed.append_singleton {words : List String} {tokens : List Token}
    (h : Placed words tokens) {word : String} {token : Token} (hWord : ofWord word = .ok token)
    (hFirst : words = [] → ∀ o, token ≠ .operand o) :
    Placed (words ++ [word]) (tokens ++ [token]) := by
  refine ⟨by simp [h.classified, hWord], fun o hHead => ?_⟩
  cases tokens with
  | nil => exact hFirst h.words_nil o (Option.some.inj hHead)
  | cons first rest => exact h.first o hHead

end Token

open Token (Group Placed)

namespace Listing

theorem addInFront_addInFront (l : Listing) (front back : List Statement) :
    (l.addInFront back).addInFront front = l.addInFront (front ++ back) := by
  simp [addInFront]

theorem scan_error {word : String} {cause : DecodeCause} (h : Token.ofWord word = .error cause)
    (tag : String) (position index : Nat) (current : Option Statement) (rest : List String) :
    scan tag position index current (word :: rest) = ⟨[], some ⟨tag, position, cause⟩⟩ := by
  rw [scan.eq_def]
  simp only [h]

theorem scan_leading {word : String} {o : Operand} (h : Token.ofWord word = .ok (.operand o))
    (tag : String) (position index : Nat) (rest : List String) :
    scan tag position index none (word :: rest) =
      ⟨[], some ⟨tag, position, .leadingData word⟩⟩ := by
  rw [scan.eq_def]
  simp only [h]

/-- Words that can be placed complete some groups and leave a last one open. -/
theorem scan_append (tag : String) {front : List String} {tokens : List Token}
    (h : front.map Token.ofWord = tokens.map .ok) (g : Group) (position index : Nat)
    (back : List String) :
    ∃ init last, g.tokens ++ tokens = (init ++ [last]).flatMap Group.tokens ∧
      scan tag position (index + 1) (some (g.statement index)) (front ++ back) =
        (scan tag (position + front.length) (index + init.length + 1)
          (some (last.statement (index + init.length))) back).addInFront
            (Group.statementsFrom index init) := by
  -- `g` is the group that is open in front of the words; an instruction closes it
  induction front generalizing tokens g position index with
  | nil =>
    rw [List.map_nil, List.nil_eq, List.map_eq_nil_iff] at h
    subst h
    exact ⟨[], g, by simp, rfl⟩
  | cons word rest ih =>
    obtain ⟨token, others, rfl, hWord, hRest⟩ := List.map_eq_cons_iff.mp h.symm
    cases token with
    | operand o =>
      obtain ⟨init, last, hTokens, hScan⟩ :=
        ih hRest.symm { g with operands := g.operands ++ [o] } (position + 1) index
      refine ⟨init, last, ?_, ?_⟩
      · rw [← hTokens]
        simp [Group.tokens]
      · have hGrown : ({ g with operands := g.operands ++ [o] } : Group).statement index =
            { g.statement index with operands := (g.statement index).operands ++ [o] } := by
          simp [Group.statement]
        rw [List.cons_append, scan_operand hWord.symm, ← hGrown, hScan, List.length_cons,
          Nat.add_assoc position, Nat.add_comm 1]
    | instruction m flags =>
      obtain ⟨init, last, hTokens, hScan⟩ := ih hRest.symm ⟨m, flags, []⟩ (position + 1) (index + 1)
      refine ⟨g :: init, last, ?_, ?_⟩
      · rw [List.cons_append, List.flatMap_cons, ← hTokens]
        rfl
      · have hOpened : Group.statement ⟨m, flags, []⟩ (index + 1) =
            ⟨m, flags.toList, index + 1⟩ := by
          simp [Group.statement]
        rw [List.cons_append, scan_instruction hWord.symm, ← hOpened, hScan, addInFront_addInFront]
        simp only [Group.statementsFrom, Option.toList_some, List.singleton_append,
          List.length_cons, Nat.add_comm, Nat.add_left_comm]

theorem ofWords_append (tag : String) {front : List String} {token : Token} {tokens : List Token}
    (h : Placed front (token :: tokens)) (back : List String) :
    ∃ init last, token :: tokens = (init ++ [last]).flatMap Group.tokens ∧
      ofWords tag (front ++ back) =
        (scan tag front.length (init.length + 1) (some (last.statement init.length))
          back).addInFront (Group.statementsFrom 0 init) := by
  obtain ⟨word, rest, rfl, hWord, hRest⟩ := List.map_eq_cons_iff.mp h.classified
  cases token with
  | operand o => exact absurd rfl (h.first o)
  | instruction m flags =>
    obtain ⟨init, last, hTokens, hScan⟩ := scan_append tag hRest ⟨m, flags, []⟩ 1 0 back
    have hOpened : Group.statement ⟨m, flags, []⟩ 0 = ⟨m, flags.toList, 0⟩ := by
      simp [Group.statement]
    refine ⟨init, last, hTokens, ?_⟩
    rw [hOpened, Nat.zero_add, Nat.zero_add, Nat.add_comm 1] at hScan
    rw [ofWords, List.cons_append, scan_instruction hWord, hScan, addInFront_addInFront]
    rfl

theorem ofWords_of_placed (tag : String) {words : List String} {tokens : List Token}
    (h : Placed words tokens) : ∃ groups, tokens = groups.flatMap Group.tokens ∧
      ofWords tag words = ⟨Group.statementsFrom 0 groups, none⟩ := by
  cases tokens with
  | nil =>
    rw [h.words_nil]
    exact ⟨[], rfl, rfl⟩
  | cons token tokens =>
    obtain ⟨init, last, hTokens, hWords⟩ := ofWords_append tag h []
    refine ⟨init ++ [last], hTokens, ?_⟩
    rw [List.append_nil] at hWords
    rw [hWords, Group.statementsFrom_append, Nat.zero_add]
    rfl

theorem ofWords_of_unknown (tag : String) {front rest : List String} {word : String}
    {tokens : List Token} {cause : DecodeCause} (h : Placed front tokens)
    (hWord : Token.ofWord word = .error cause) : ∃ groups : List Group,
      tokens = groups.flatMap Group.tokens ∧ ofWords tag (front ++ word :: rest) =
        ⟨Group.statementsFrom 0 groups.dropLast, some ⟨tag, front.length, cause⟩⟩ := by
  cases tokens with
  | nil =>
    rw [h.words_nil]
    exact ⟨[], rfl, scan_error hWord tag 0 0 none rest⟩
  | cons token tokens =>
    obtain ⟨init, last, hTokens, hWords⟩ := ofWords_append tag h (word :: rest)
    refine ⟨init ++ [last], hTokens, ?_⟩
    rw [hWords, scan_error hWord, List.dropLast_concat]
    simp [addInFront]

/-- The statements and then the error, in the order in which they are found. -/
def items (l : Listing) : List (Except DecodeError Statement) :=
  l.statements.map .ok ++ (l.error?.map .error).toList

end Listing

/-- A reader that is asked for one statement at a time. -/
structure Decoder where
  words : List String
  position : Nat := 0
  current? : Option Statement := none
  nextIndex : Nat := 0

namespace Decoder

variable (tag : String)

/-- Reads up to the next statement that is complete. An error takes all words that are left. -/
def pull : (position nextIndex : Nat) → Option Statement → List String →
    Option (Except DecodeError Statement) × Decoder
  | position, nextIndex, current?, [] => (current?.map .ok, ⟨[], position, none, nextIndex⟩)
  | position, nextIndex, current?, word :: rest =>
    match Token.ofWord word, current? with
    | .error cause, _ =>
      (some (.error ⟨tag, position, cause⟩), ⟨[], position + 1, none, nextIndex⟩)
    | .ok (.operand _), none =>
      (some (.error ⟨tag, position, .leadingData word⟩), ⟨[], position, none, nextIndex⟩)
    | .ok (.operand o), some s =>
      pull (position + 1) nextIndex (some { s with operands := s.operands ++ [o] }) rest
    | .ok (.instruction m flags), none =>
      pull (position + 1) (nextIndex + 1) (some ⟨m, flags.toList, nextIndex⟩) rest
    | .ok (.instruction m flags), some s =>
      (some (.ok s), ⟨rest, position + 1, some ⟨m, flags.toList, nextIndex⟩, nextIndex + 1⟩)

def next (d : Decoder) : Option (Except DecodeError Statement) × Decoder :=
  pull tag d.position d.nextIndex d.current? d.words

/-- What the call gives that has `n` calls before it. -/
def answer : Nat → Decoder → Option (Except DecodeError Statement)
  | 0, d => (d.next tag).1
  | n + 1, d => answer n (d.next tag).2

/-- All that is still to come. -/
def remaining (d : Decoder) : List (Except DecodeError Statement) :=
  (Listing.scan tag d.position d.nextIndex d.current? d.words).items

theorem pull_remaining (position nextIndex : Nat) (current? : Option Statement)
    (words : List String) :
    (pull tag position nextIndex current? words).1 =
        (Listing.scan tag position nextIndex current? words).items.head? ∧
      (pull tag position nextIndex current? words).2.remaining tag =
        (Listing.scan tag position nextIndex current? words).items.tail := by
  induction words generalizing position nextIndex current? with
  | nil => cases current? <;> exact ⟨rfl, rfl⟩
  | cons word rest ih =>
    rw [pull.eq_def]
    cases hWord : Token.ofWord word with
    | error cause =>
      simp only [hWord, Listing.scan_error hWord]
      exact ⟨rfl, rfl⟩
    | ok token =>
      cases token with
      | operand o =>
        cases current? with
        | none =>
          simp only [hWord, Listing.scan_leading hWord]
          exact ⟨rfl, rfl⟩
        | some s =>
          simp only [hWord, Listing.scan_operand hWord]
          exact ih _ _ _
      | instruction m flags =>
        cases current? with
        | none =>
          simp only [hWord, Listing.scan_instruction hWord]
          exact ih _ _ _
        | some s =>
          simp only [hWord, Listing.scan_instruction hWord]
          exact ⟨rfl, rfl⟩

theorem answer_eq (n : Nat) (d : Decoder) : answer tag n d = (d.remaining tag)[n]? := by
  induction n generalizing d with
  | zero => rw [answer, next, (pull_remaining tag _ _ _ _).1, ← List.head?_eq_getElem?]; rfl
  | succ n ih =>
    rw [answer, ih, next, (pull_remaining tag _ _ _ _).2, List.getElem?_tail]
    rfl

end Decoder

namespace Listing

/-- The first word that cannot be placed: an operand in front of all instructions, or a word
that is neither an operand nor an instruction. -/
inductive FirstFault (words : List String) : Nat → DecodeCause → Prop
  | leading {word : String} {rest : List String} {o : Operand} : words = word :: rest →
      Token.ofWord word = .ok (.operand o) → FirstFault words 0 (.leadingData word)
  | unknown {front rest : List String} {word name : String} {tokens : List Token} :
      words = front ++ word :: rest → Placed front tokens →
      Token.ofWord word = .error (.unknownMnemonic name) →
      FirstFault words front.length (.unknownMnemonic name)

theorem FirstFault.append {words : List String} {position : Nat} {cause : DecodeCause}
    (h : FirstFault words position cause) (more : List String) :
    FirstFault (words ++ more) position cause := by
  cases h with
  | leading hWords hWord =>
    subst hWords
    exact .leading rfl hWord
  | unknown hWords hFront hWord =>
    subst hWords
    exact .unknown (List.append_assoc _ _ _) hFront hWord

theorem placed_or_firstFault (words : List String) :
    (∃ tokens, Placed words tokens) ∨ ∃ position cause, FirstFault words position cause := by
  induction words using List.reverseRecOn with
  | nil => exact .inl ⟨[], rfl, by simp⟩
  | append_singleton words word ih =>
    rcases ih with ⟨tokens, hPlaced⟩ | ⟨position, cause, hFault⟩
    · cases hWord : Token.ofWord word with
      | error cause =>
        obtain ⟨name, rfl⟩ := Token.ofWord_eq_error hWord
        exact .inr ⟨_, _, .unknown rfl hPlaced hWord⟩
      | ok token =>
        by_cases hLeading : words = [] ∧ ∃ o, token = .operand o
        · obtain ⟨rfl, o, rfl⟩ := hLeading
          exact .inr ⟨_, _, .leading rfl hWord⟩
        · refine .inl ⟨_, hPlaced.append_singleton hWord ?_⟩
          intro hWords o hToken
          exact hLeading ⟨hWords, o, hToken⟩
    · exact .inr ⟨position, cause, hFault.append [word]⟩

/-- Reading the words gives the statements, and then the error if there is one: as a listing,
call by call, and for a program with these words. -/
structure Yields (tag : String) (words : List String) (statements : List Statement)
    (error? : Option DecodeError) : Prop where
  listing : ofWords tag words = ⟨statements, error?⟩
  answers : ∀ n, Decoder.answer tag n { words } =
    (statements.map .ok ++ (error?.map .error).toList)[n]?
  program : ∀ text, Token.words text = words →
    readProgram tag text = error?.elim (.ok statements) .error

theorem yields_of_ofWords {tag : String} {words : List String} {statements : List Statement}
    {error? : Option DecodeError} (h : ofWords tag words = ⟨statements, error?⟩) :
    Yields tag words statements error? where
  listing := h
  answers n := by
    have hRemaining : ({ words } : Decoder).remaining tag = (ofWords tag words).items := rfl
    rw [Decoder.answer_eq, hRemaining, h]
    rfl
  program text hText := by
    rw [readProgram, ofText, hText, h]
    cases error? <;> rfl

/-- Words that can all be placed make one statement a group. Otherwise the groups that are
complete in front of the first fault make statements, and the fault is reported. -/
theorem ofWords_yields (tag : String) (words : List String) :
    (∀ tokens, Placed words tokens → ∃ groups, tokens = groups.flatMap Group.tokens ∧
      Yields tag words (Group.statementsFrom 0 groups) none) ∧
    (∀ position cause, FirstFault words position cause → ∃ groups : List Group,
      (words.take position).map Token.ofWord = (groups.flatMap Group.tokens).map .ok ∧
        Yields tag words (Group.statementsFrom 0 groups.dropLast)
          (some ⟨tag, position, cause⟩)) ∧
    ((∃ tokens, Placed words tokens) ∨ ∃ position cause, FirstFault words position cause) := by
  refine ⟨?_, ?_, placed_or_firstFault words⟩
  · intro tokens hPlaced
    obtain ⟨groups, hGroups, hWords⟩ := ofWords_of_placed tag hPlaced
    exact ⟨groups, hGroups, yields_of_ofWords hWords⟩
  · intro position cause hFault
    cases hFault with
    | leading hWords hWord =>
      subst hWords
      exact ⟨[], rfl, yields_of_ofWords (scan_leading hWord tag 0 0 _)⟩
    | unknown hWords hFront hWord =>
      subst hWords
      obtain ⟨groups, rfl, hListing⟩ := ofWords_of_unknown tag hFront hWord
      refine ⟨groups, ?_, yields_of_ofWords hListing⟩
      rw [List.take_left]
      exact hFront.classified

/-- The open statement `MDRP[01101] 7` is lost when the unknown word comes. -/
theorem ofWords_yields_open_statement :
    FirstFault ["NPUSHB[ ]", "1", "+99999999999", "MDRP[01101]", "7", "FROB[ ]", "CALL[ ]"] 5
        (.unknownMnemonic "FROB") ∧
      Yields "prep" ["NPUSHB[ ]", "1", "+99999999999", "MDRP[01101]", "7", "FROB[ ]", "CALL[ ]"]
        [⟨.NPUSHB, [.word 1, .numeral "+99999999999"], 0⟩]
        (some ⟨"prep", 5, .unknownMnemonic "FROB"⟩) := by
  have hFront : Placed ["NPUSHB[ ]", "1", "+99999999999", "MDRP[01101]", "7"]
      [.instruction .NPUSHB none, .operand (.word 1), .operand (.numeral "+99999999999"),
        .instruction .MDRP (some (.numeral "01101")), .operand (.word 7)] :=
    ⟨by decide +kernel, by simp⟩
  have hWord : Token.ofWord "FROB[ ]" = .error (.unknownMnemonic "FROB") := by decide +kernel
  have hWords : ["NPUSHB[ ]", "1", "+99999999999", "MDRP[01101]", "7", "FROB[ ]", "CALL[ ]"] =
      ["NPUSHB[ ]", "1", "+99999999999", "MDRP[01101]", "7"] ++ "FROB[ ]" :: ["CALL[ ]"] := rfl
  have hFault := FirstFault.unknown hWords hFront hWord
  obtain ⟨groups, _, hYields⟩ := (ofWords_yields "prep" _).2.1 5 _ hFault
  have hStatements : (ofWords "prep"
      ["NPUSHB[ ]", "1", "+99999999999", "MDRP[01101]", "7", "FROB[ ]", "CALL[ ]"]).statements =
      [⟨.NPUSHB, [.word 1, .numeral "+99999999999"], 0⟩] := by
    decide +kernel
  rw [hYields.listing] at hStatements
  exact ⟨hFault, hStatements ▸ hYields⟩

end Listing

end Hinting
