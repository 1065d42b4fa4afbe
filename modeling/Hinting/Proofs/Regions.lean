import Hinting.Proofs.FontProgram
import Hinting.Proofs.RunSimulation

/-!
# Operands in the regions of a font program

Every operand read from a text is well formed. If within the regions of a font program
operands follow pushes only, then each instruction in a function body has at most its flags.
Such an instruction is reread with the flags it has, and a push of any form with its values,
so rereading keeps the effect of every statement of a body.
-/

namespace Hinting

/-- Whether a region is open behind an instruction, given whether one is in front of it. -/
def Kind.regionAfter (inside : Bool) : Kind → Bool
  | .defStart => true
  | .defEnd => false
  | _ => inside

theorem Kind.regionAfter_of_inner {kind : Kind} (hStart : kind ≠ .defStart)
    (hEnd : kind ≠ .defEnd) (inside : Bool) : kind.regionAfter inside = inside := by
  cases kind with
  | defStart => exact absurd rfl hStart
  | defEnd => exact absurd rfl hEnd
  | generic | ifStart | elseStart | ifEnd | push | jump => rfl

/-- Whether within FDEF to ENDF regions operands follow pushes only. `inside` says whether a
region is open and `allowed` whether the next word may be an operand. -/
def Token.dataFollowsPushes (inside allowed : Bool) : List String → Bool
  | [] => true
  | word :: rest =>
    match ofWord word with
    | .error _ => true
    | .ok (.operand _) => allowed && dataFollowsPushes inside allowed rest
    | .ok (.instruction m _) =>
      let inside := m.kind.regionAfter inside
      dataFollowsPushes inside (!inside || m.kind = .push || m.kind = .defStart) rest

namespace Statement

/-- An instruction whose operands are its flag digits, if it has any. -/
def FlagsOnly (s : Statement) : Prop :=
  ∃ digits : List Char, (∀ c ∈ digits, c.isDigit = true) ∧
    s.operands = (Token.flagsOf digits).toList

theorem reread_of_flagsOnly {s : Statement} (hKind : s.kind ≠ .push) (h : s.FlagsOnly)
    (index : Nat) : s.reread index = { s with index } := by
  obtain ⟨digits, hDigits, hOperands⟩ := h
  have hBracket : s.bracketDigits = digits := by
    rw [bracketDigits, bracketText, hOperands]
    cases digits with
    | nil => rfl
    | cons c rest =>
      have hText : String.join ([Operand.numeral (String.ofList (c :: rest))].map Operand.text) =
          String.ofList (c :: rest) := by
        simp [Operand.text, String.join]
      change (String.join ([Operand.numeral (String.ofList (c :: rest))].map
        Operand.text)).toList.filter Char.isDigit = c :: rest
      rw [hText, String.toList_ofList]
      exact List.filter_eq_self.mpr hDigits
  rw [reread, if_neg hKind, hBracket, ← hOperands]

theorem perform_of_push {s : Statement} (h : s.kind = .push) (axisCount : Nat) :
    s.perform axisCount =
      perform.effect (EnvAction.onStack (modify (·.pushWords s.values))) := by
  obtain ⟨m, operands, index⟩ := s
  cases m <;> first | rfl | cases h

/-- Rereading keeps the effect of a push and of an instruction that has its flags only. -/
theorem alike_reread {s : Statement} (h : s.kind = .push ∨ s.FlagsOnly) (index : Nat) :
    (s.reread index).Alike s := by
  intro axisCount
  by_cases hKind : s.kind = .push
  · rw [perform_of_push hKind, perform_of_push ((kind_reread s index).trans hKind),
      values_reread hKind]
  · rw [reread_of_flagsOnly hKind (h.resolve_left hKind)]
    rfl

/-- A property of the statements in regions. `inside` says whether a region is open. -/
def InRegions (P : Statement → Prop) (inside : Bool) : List Statement → Prop
  | [] => True
  | s :: rest => (inside = true → s.kind ≠ .defStart → s.kind ≠ .defEnd → P s) ∧
      InRegions P (s.kind.regionAfter inside) rest

theorem InRegions.of_append {P : Statement → Prop} {inside : Bool} {front back : List Statement}
    (h : InRegions P inside (front ++ back)) : ∃ open', InRegions P open' back := by
  induction front generalizing inside with
  | nil => exact ⟨inside, h⟩
  | cons s rest ih => exact ih h.2

theorem InRegions.of_mem {P : Statement → Prop} {body back : List Statement}
    (h : InRegions P true (body ++ back)) (hBody : ∀ s ∈ body, s.InBody) : ∀ s ∈ body, P s := by
  induction body with
  | nil => simp
  | cons s rest ih =>
    have hs := hBody s List.mem_cons_self
    obtain ⟨hFirst, hRest⟩ := h
    rw [Kind.regionAfter_of_inner hs.not_defStart hs.not_defEnd] at hRest
    rw [List.forall_mem_cons]
    exact ⟨hFirst rfl hs.not_defStart hs.not_defEnd,
      ih hRest fun other hOther => hBody other (List.mem_cons_of_mem s hOther)⟩

end Statement

theorem Definition.ReadFrom.of_inRegions {statements : List Statement} {d : Definition}
    (h : d.ReadFrom statements) {P : Statement → Prop}
    (hRegions : Statement.InRegions P false statements) : ∀ s ∈ d.body.statements, P s := by
  obtain ⟨front, fdef, back, rfl, hStart⟩ := h.region
  obtain ⟨inside, _, hRegion⟩ := hRegions.of_append
  rw [hStart] at hRegion
  exact Statement.InRegions.of_mem hRegion h.inBody

namespace Token

theorem ofWord_eq_operand {word : String} {o : Operand} (h : ofWord word = .ok (.operand o)) :
    o.WellFormed := by
  unfold ofWord ofChars at h
  split at h
  · rename_i hOperand
    cases h
    exact Operand.wellFormed_of_operand? hOperand
  · simp only at h
    split at h <;> cases h

theorem ofWord_eq_instruction {word : String} {m : Mnemonic} {flags : Option Operand}
    (h : ofWord word = .ok (.instruction m flags)) :
    ∃ digits : List Char, (∀ c ∈ digits, c.isDigit = true) ∧ flags = flagsOf digits := by
  unfold ofWord ofChars at h
  split at h
  · cases h
  · simp only at h
    split at h
    · cases h
      exact ⟨_, fun c hc => (List.mem_filter.mp hc).2, rfl⟩
    · cases h

theorem wellFormed_flagsOf {digits : List Char} (h : ∀ c ∈ digits, c.isDigit = true) :
    ∀ o ∈ (flagsOf digits).toList, o.WellFormed := by
  intro o ho
  unfold flagsOf at ho
  split at ho
  · cases ho
  · rename_i hEmpty
    rw [Option.toList_some, List.mem_singleton] at ho
    subst ho
    have hDigits : Text.isDigits digits = true :=
      (Text.isDigits_iff digits).mpr ⟨fun hNil => hEmpty (List.isEmpty_iff.mpr hNil), h⟩
    rw [Operand.WellFormed, String.toList_ofList]
    exact Text.isNumeral_of_isDigits hDigits

end Token

namespace Listing

theorem complete_addInFront_eq_ok_iff (earlier statements : List Statement) (l : Listing) :
    (l.addInFront earlier).complete = .ok statements ↔
      ∃ later, l.complete = .ok later ∧ statements = earlier ++ later := by
  obtain ⟨later, error?⟩ := l
  cases error? <;> simp [addInFront, complete, eq_comm]

theorem complete_scan_cons {tag : String} {position index : Nat} {s : Statement} {word : String}
    {rest : List String} {statements : List Statement}
    (h : (scan tag position index (some s) (word :: rest)).complete = .ok statements) :
    (∃ o, Token.ofWord word = .ok (.operand o) ∧
      (scan tag (position + 1) index (some { s with operands := s.operands ++ [o] })
        rest).complete = .ok statements) ∨
    ∃ m flags later, Token.ofWord word = .ok (.instruction m flags) ∧
      (scan tag (position + 1) (index + 1) (some ⟨m, flags.toList, index⟩) rest).complete =
        .ok later ∧ statements = s :: later := by
  cases hWord : Token.ofWord word with
  | error cause =>
    rw [scan.eq_def] at h
    simp only [hWord] at h
    cases h
  | ok token =>
    cases token with
    | operand o =>
      rw [scan_operand hWord] at h
      exact .inl ⟨o, rfl, h⟩
    | instruction m flags =>
      rw [scan_instruction hWord, complete_addInFront_eq_ok_iff] at h
      obtain ⟨later, hLater, hStatements⟩ := h
      exact .inr ⟨m, flags, later, rfl, hLater, hStatements⟩

theorem complete_ofWords_cons {tag word : String} {rest : List String}
    {statements : List Statement} (h : (ofWords tag (word :: rest)).complete = .ok statements) :
    ∃ m flags, Token.ofWord word = .ok (.instruction m flags) ∧
      (scan tag 1 1 (some ⟨m, flags.toList, 0⟩) rest).complete = .ok statements := by
  rw [ofWords] at h
  cases hWord : Token.ofWord word with
  | error cause =>
    rw [scan.eq_def] at h
    simp only [hWord] at h
    cases h
  | ok token =>
    cases token with
    | operand o =>
      rw [scan.eq_def] at h
      simp only [hWord] at h
      cases h
    | instruction m flags =>
      rw [scan_instruction hWord, complete_addInFront_eq_ok_iff] at h
      obtain ⟨later, hLater, rfl⟩ := h
      exact ⟨m, flags, rfl, hLater⟩

theorem wellFormed_of_scan {tag : String} {position index : Nat} {s : Statement}
    {words : List String} {statements : List Statement}
    (h : (scan tag position index (some s) words).complete = .ok statements) (hs : s.WellFormed) :
    ∀ t ∈ statements, t.WellFormed := by
  induction words generalizing position index s statements with
  | nil =>
    cases h
    exact List.forall_mem_singleton.mpr hs
  | cons word rest ih =>
    rcases complete_scan_cons h with ⟨o, hWord, hRest⟩ | ⟨m, flags, later, hWord, hRest, rfl⟩
    · refine ih hRest ?_
      intro other hOther
      rcases List.mem_append.mp hOther with hOther | hOther
      · exact hs other hOther
      · rw [List.mem_singleton.mp hOther]
        exact Token.ofWord_eq_operand hWord
    · obtain ⟨digits, hDigits, rfl⟩ := Token.ofWord_eq_instruction hWord
      rw [List.forall_mem_cons]
      exact ⟨hs, ih hRest (Token.wellFormed_flagsOf hDigits)⟩

theorem inRegions_of_scan {tag : String} {position index : Nat} {s : Statement}
    {words : List String} {statements : List Statement} {inside allowed : Bool}
    (h : (scan tag position index (some s) words).complete = .ok statements)
    (hData : Token.dataFollowsPushes (s.kind.regionAfter inside) allowed words = true)
    (hAllowed : allowed = true → inside = true → s.kind ≠ .defStart → s.kind ≠ .defEnd →
      s.kind = .push)
    (hs : inside = true → s.kind ≠ .defStart → s.kind ≠ .defEnd → s.kind = .push ∨ s.FlagsOnly) :
    Statement.InRegions (fun s => s.kind = .push ∨ s.FlagsOnly) inside statements := by
  -- `inside` is for the open statement `s`: a word behind it is read where `s` has taken effect
  induction words generalizing position index s statements inside allowed with
  | nil =>
    cases h
    exact ⟨hs, trivial⟩
  | cons word rest ih =>
    rw [Token.dataFollowsPushes] at hData
    rcases complete_scan_cons h with ⟨o, hWord, hRest⟩ | ⟨m, flags, later, hWord, hRest, rfl⟩
    · simp only [hWord, Bool.and_eq_true] at hData
      obtain ⟨hTrue, hData⟩ := hData
      exact ih hRest hData hAllowed
        fun hInside hStart hEnd => .inl (hAllowed hTrue hInside hStart hEnd)
    · simp only [hWord] at hData
      obtain ⟨digits, hDigits, rfl⟩ := Token.ofWord_eq_instruction hWord
      refine ⟨hs, ih hRest hData ?_ fun _ _ _ => .inr ⟨digits, hDigits, rfl⟩⟩
      intro hNext hInside hStart hEnd
      change m.kind ≠ .defStart at hStart
      rw [Kind.regionAfter_of_inner hStart hEnd, hInside] at hNext
      have hPush : m.kind = .push := by simpa [hStart] using hNext
      exact hPush

end Listing

theorem wellFormed_of_readProgram {tag text : String} {statements : List Statement}
    (h : readProgram tag text = .ok statements) : ∀ s ∈ statements, s.WellFormed := by
  unfold readProgram Listing.ofText at h
  cases hWords : Token.words text with
  | nil =>
    rw [hWords] at h
    cases h
    exact List.forall_mem_nil _
  | cons word rest =>
    rw [hWords] at h
    obtain ⟨m, flags, hWord, hRest⟩ := Listing.complete_ofWords_cons h
    obtain ⟨digits, hDigits, rfl⟩ := Token.ofWord_eq_instruction hWord
    exact Listing.wellFormed_of_scan hRest (Token.wellFormed_flagsOf hDigits)

theorem inRegions_of_readProgram {tag text : String} {statements : List Statement}
    (hData : Token.dataFollowsPushes false true (Token.words text) = true)
    (h : readProgram tag text = .ok statements) :
    Statement.InRegions (fun s => s.kind = .push ∨ s.FlagsOnly) false statements := by
  unfold readProgram Listing.ofText at h
  cases hWords : Token.words text with
  | nil =>
    rw [hWords] at h
    cases h
    trivial
  | cons word rest =>
    rw [hWords] at h hData
    obtain ⟨m, flags, hWord, hRest⟩ := Listing.complete_ofWords_cons h
    rw [Token.dataFollowsPushes] at hData
    simp only [hWord] at hData
    exact Listing.inRegions_of_scan hRest hData
      (fun _ hInside => absurd hInside Bool.false_ne_true)
      (fun hInside => absurd hInside Bool.false_ne_true)

end Hinting
