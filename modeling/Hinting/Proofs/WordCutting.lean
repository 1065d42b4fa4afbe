import Hinting.Proofs.Words

/-!
# How a line is cut into words

The part of a line in front of its comment is made of words and gaps. A gap is made of
blanks. A word has no blank outside its brackets, and it has closed them all where a gap
follows. A line can be read so in one way, and `words` reads it so.

Words are kept when they are written again, one to a line.
-/

namespace Hinting.Token

structure InFrontOfComment (line part : List Char) : Prop where
  cut : ∃ back, line = part ++ back ∧ (back = [] ∨ ['/', '*'] <+: back)
  first : ∀ k < part.length, ¬['/', '*'] <+: line.drop k

theorem beforeComment_inFront (line : List Char) :
    InFrontOfComment line (beforeComment line) := by
  fun_induction beforeComment line with
  | case1 => exact ⟨⟨[], rfl, .inl rfl⟩, fun k hk => absurd hk (Nat.not_lt_zero k)⟩
  | case2 rest =>
    exact ⟨⟨_, rfl, .inr ⟨rest, rfl⟩⟩, fun k hk => absurd hk (Nat.not_lt_zero k)⟩
  | case3 c cs hOther ih =>
    obtain ⟨⟨back, hCut, hBack⟩, hFirst⟩ := ih
    constructor
    · exact ⟨back, congrArg (c :: ·) hCut, hBack⟩
    · intro k hk
      cases k with
      | zero =>
        rintro ⟨rest, hRest⟩
        obtain ⟨hSlash, hStar⟩ := List.cons.inj hRest
        exact hOther rest hSlash.symm hStar.symm
      | succ k => exact hFirst k (Nat.lt_of_succ_lt_succ hk)

theorem InFrontOfComment.no_comment {line part : List Char} (h : InFrontOfComment line part) :
    ¬['/', '*'] <:+: part := by
  rintro ⟨front, rest, rfl⟩
  obtain ⟨⟨back, rfl, _⟩, hFirst⟩ := h
  apply hFirst front.length
  · simp only [List.length_append, List.length_cons]
    omega
  · exact ⟨rest ++ back, by simp⟩

theorem beforeComment_of_no_comment {line : List Char} (h : ¬['/', '*'] <:+: line) :
    beforeComment line = line := by
  obtain ⟨⟨back, hCut, hBack⟩, _⟩ := beforeComment_inFront line
  rcases hBack with rfl | ⟨rest, rfl⟩
  · rw [List.append_nil] at hCut
    exact hCut.symm
  · exact absurd ⟨beforeComment line, rest, by rw [List.append_assoc]; exact hCut.symm⟩ h

def IsGap (gap : List Char) : Prop :=
  ∀ c ∈ gap, Text.isBlank c = true

/-- A line and the words it holds. Only the last of them may have open brackets. -/
inductive Holds : List Char → List (List Char) → Prop
  | gap {gap : List Char} : IsGap gap → Holds gap []
  | last {gap word : List Char} : IsGap gap → word ≠ [] → Solid 0 word → Holds (gap ++ word) [word]
  | next {gap word rest : List Char} {blank : Char} {words : List (List Char)} : IsGap gap →
      word ≠ [] → Solid 0 word → word.foldl depthAfter 0 = 0 → Text.isBlank blank = true →
      Holds rest words → Holds (gap ++ (word ++ blank :: rest)) (word :: words)

theorem IsGap.cons {c : Char} {gap : List Char} (hc : Text.isBlank c = true) (h : IsGap gap) :
    IsGap (c :: gap) :=
  List.forall_mem_cons.mpr ⟨hc, h⟩

theorem Holds.cons_blank {c : Char} {line : List Char} {words : List (List Char)}
    (hc : Text.isBlank c = true) (h : Holds line words) : Holds (c :: line) words := by
  cases h with
  | gap hGap => exact .gap (hGap.cons hc)
  | last hGap hWord hSolid => exact .last (hGap.cons hc) hWord hSolid
  | next hGap hWord hSolid hClosed hBlank hRest =>
    exact .next (hGap.cons hc) hWord hSolid hClosed hBlank hRest

theorem depthAfter_of_blank {c : Char} (h : Text.isBlank c = true) (depth : Nat) :
    depthAfter depth c = depth := by
  apply depthAfter_of_not_bracket
  · rintro rfl
    cases h
  · rintro rfl
    cases h

theorem IsGap.foldl_depthAfter {gap : List Char} (h : IsGap gap) (depth : Nat) :
    gap.foldl depthAfter depth = depth := by
  induction gap with
  | nil => rfl
  | cons c gap ih =>
    obtain ⟨hc, hGap⟩ := List.forall_mem_cons.mp h
    rw [List.foldl_cons, depthAfter_of_blank hc, ih hGap]

theorem wordsFrom_gap_append {gap : List Char} (h : IsGap gap) (rest : List Char) :
    wordsFrom [] 0 (gap ++ rest) = wordsFrom [] 0 rest := by
  induction gap with
  | nil => rfl
  | cons c gap ih =>
    obtain ⟨hc, hGap⟩ := List.forall_mem_cons.mp h
    rw [List.cons_append, wordsFrom, if_pos ⟨rfl, hc⟩]
    exact ih hGap

/-- The reader is right about the word it is in, and about the words behind it. -/
theorem holds_wordsFrom {word : List Char} {depth : Nat} (hSolid : Solid 0 word.reverse)
    (hDepth : word.reverse.foldl depthAfter 0 = depth) (line : List Char) :
    Holds (word.reverse ++ line) (wordsFrom word depth line) := by
  -- `word` is kept backwards, as the reader keeps it
  induction line generalizing word depth with
  | nil =>
    rw [wordsFrom, List.append_nil]
    split
    · rename_i hEmpty
      rw [List.isEmpty_iff.mp hEmpty]
      exact .gap (List.forall_mem_nil _)
    · rename_i hEmpty
      have hWord : word.reverse ≠ [] := by simpa using hEmpty
      exact Holds.last (List.forall_mem_nil _) hWord hSolid
  | cons c rest ih =>
    have hRest := @ih [] 0 trivial rfl
    rw [wordsFrom]
    split
    · rename_i hBlank
      obtain ⟨rfl, hBlank⟩ := hBlank
      split
      · rename_i hEmpty
        rw [List.isEmpty_iff.mp hEmpty]
        exact hRest.cons_blank hBlank
      · rename_i hEmpty
        have hWord : word.reverse ≠ [] := by simpa using hEmpty
        exact Holds.next (List.forall_mem_nil _) hWord hSolid hDepth hBlank hRest
    · rename_i hBlank
      have hGrown : Solid 0 (c :: word).reverse := by
        rw [List.reverse_cons, solid_append, hDepth]
        exact ⟨hSolid, hBlank, trivial⟩
      have hDepth' : (c :: word).reverse.foldl depthAfter 0 = depthAfter depth c := by
        rw [List.reverse_cons, List.foldl_append, hDepth]
        rfl
      have hMore := ih hGrown hDepth'
      rwa [List.reverse_cons, List.append_assoc, List.singleton_append] at hMore

theorem Holds.eq_wordsFrom {line : List Char} {words : List (List Char)} (h : Holds line words) :
    words = wordsFrom [] 0 line := by
  induction h with
  | @gap gap hGap =>
    have hWords := wordsFrom_gap_append hGap []
    rw [List.append_nil] at hWords
    rw [hWords]
    rfl
  | last hGap hWord hSolid =>
    rw [wordsFrom_gap_append hGap, wordsFrom_of_solid hSolid hWord]
  | @next gap word rest blank words hGap hWord hSolid hClosed hBlank _ ih =>
    have hEmpty : (word.reverse ++ []).isEmpty = false := by simpa using hWord
    rw [wordsFrom_gap_append hGap, wordsFrom_append_of_solid hSolid, hClosed, wordsFrom,
      if_pos ⟨rfl, hBlank⟩, hEmpty, ← ih]
    simp

theorem holds_iff (line : List Char) (words : List (List Char)) :
    Holds line words ↔ words = wordsFrom [] 0 line := by
  constructor
  · exact Holds.eq_wordsFrom
  · rintro rfl
    exact @holds_wordsFrom [] 0 trivial rfl line

theorem Holds.of_mem {line : List Char} {words : List (List Char)} (h : Holds line words)
    {word : List Char} (hMem : word ∈ words) : word <:+: line ∧ word ≠ [] ∧ Solid 0 word := by
  induction h with
  | gap _ => cases hMem
  | @last gap _ _ hWord hSolid =>
    obtain rfl := List.mem_singleton.mp hMem
    exact ⟨⟨gap, [], List.append_nil _⟩, hWord, hSolid⟩
  | @next gap first rest blank words _ hWord hSolid _ _ _ ih =>
    rcases List.mem_cons.mp hMem with rfl | hLater
    · exact ⟨⟨gap, blank :: rest, List.append_assoc _ _ _⟩, hWord, hSolid⟩
    · obtain ⟨⟨front, back, rfl⟩, hRest⟩ := ih hLater
      exact ⟨⟨gap ++ first ++ blank :: front, back, by simp⟩, hRest⟩

/-- A text less its blanks outside brackets, when it starts inside of `depth` ones. -/
def withoutOuterBlanks : Nat → List Char → List Char
  | _, [] => []
  | depth, c :: cs =>
    if depth = 0 ∧ Text.isBlank c then withoutOuterBlanks depth cs
    else c :: withoutOuterBlanks (depthAfter depth c) cs

theorem withoutOuterBlanks_gap_append {gap : List Char} (h : IsGap gap) (rest : List Char) :
    withoutOuterBlanks 0 (gap ++ rest) = withoutOuterBlanks 0 rest := by
  induction gap with
  | nil => rfl
  | cons c gap ih =>
    obtain ⟨hc, hGap⟩ := List.forall_mem_cons.mp h
    rw [List.cons_append, withoutOuterBlanks, if_pos ⟨rfl, hc⟩, ih hGap]

theorem withoutOuterBlanks_solid_append {depth : Nat} {front : List Char} (h : Solid depth front)
    (back : List Char) :
    withoutOuterBlanks depth (front ++ back) =
      front ++ withoutOuterBlanks (front.foldl depthAfter depth) back := by
  induction front generalizing depth with
  | nil => rfl
  | cons c front ih =>
    obtain ⟨hc, hFront⟩ := h
    rw [List.cons_append, withoutOuterBlanks, if_neg hc, ih hFront]
    rfl

theorem Holds.flatten_eq {line : List Char} {words : List (List Char)} (h : Holds line words) :
    words.flatten = withoutOuterBlanks 0 line := by
  induction h with
  | @gap gap hGap =>
    have hNone := withoutOuterBlanks_gap_append hGap []
    rw [List.append_nil] at hNone
    exact hNone.symm
  | @last gap word hGap _ hSolid =>
    have hAll := withoutOuterBlanks_solid_append hSolid []
    rw [List.append_nil] at hAll
    rw [withoutOuterBlanks_gap_append hGap, hAll]
    simp [withoutOuterBlanks]
  | @next gap word rest blank words hGap _ hSolid hClosed hBlank _ ih =>
    rw [withoutOuterBlanks_gap_append hGap, withoutOuterBlanks_solid_append hSolid, hClosed,
      withoutOuterBlanks, if_pos ⟨rfl, hBlank⟩, List.flatten_cons, ih]

/-- Two words that follow each other in a line: the first one ends outside brackets, and blanks
stand between them. `front` holds the characters of the words in front of them. -/
def Separated (line front first second : List Char) : Prop :=
  ∃ before gap after, line = before ++ (first ++ (gap ++ (second ++ after))) ∧ gap ≠ [] ∧
    IsGap gap ∧ (before ++ first).foldl depthAfter 0 = 0 ∧ withoutOuterBlanks 0 before = front

theorem Holds.starts {line first : List Char} {words : List (List Char)}
    (h : Holds line (first :: words)) : ∃ gap after, line = gap ++ (first ++ after) ∧ IsGap gap := by
  cases h with
  | last hGap _ _ => exact ⟨_, [], by rw [List.append_nil], hGap⟩
  | next hGap _ _ _ _ _ => exact ⟨_, _, rfl, hGap⟩

theorem Holds.exists_rest {line first : List Char} {words : List (List Char)}
    (h : Holds line (first :: words)) (hWords : words ≠ []) :
    ∃ gap blank rest, line = gap ++ (first ++ blank :: rest) ∧ IsGap gap ∧ Solid 0 first ∧
      first.foldl depthAfter 0 = 0 ∧ Text.isBlank blank = true ∧ Holds rest words := by
  cases h with
  | last => exact absurd rfl hWords
  | next hGap _ hSolid hClosed hBlank hRest =>
    exact ⟨_, _, _, rfl, hGap, hSolid, hClosed, hBlank, hRest⟩

theorem Holds.separated {line : List Char} {front back : List (List Char)}
    {first second : List Char} (h : Holds line (front ++ first :: second :: back)) :
    Separated line front.flatten first second := by
  induction front generalizing line with
  | nil =>
    obtain ⟨gap, blank, rest, rfl, hGap, _, hClosed, hBlank, hRest⟩ :=
      h.exists_rest (List.cons_ne_nil _ _)
    obtain ⟨more, after, rfl, hMore⟩ := hRest.starts
    refine ⟨gap, blank :: more, after, rfl, List.cons_ne_nil _ _, hMore.cons hBlank, ?_, ?_⟩
    · rw [List.foldl_append, hGap.foldl_depthAfter, hClosed]
    · have hNone := withoutOuterBlanks_gap_append hGap []
      rwa [List.append_nil] at hNone
  | cons word front ih =>
    obtain ⟨gap, blank, rest, rfl, hGap, hSolid, hClosed, hBlank, hRest⟩ :=
      h.exists_rest (List.append_ne_nil_of_right_ne_nil _ (List.cons_ne_nil _ _))
    obtain ⟨before, inner, after, rfl, hInner, hBlanks, hOutside, hFront⟩ := ih hRest
    refine ⟨gap ++ (word ++ blank :: before), inner, after, by simp, hInner, hBlanks, ?_, ?_⟩
    · rw [List.foldl_append] at hOutside ⊢
      rw [List.foldl_append, hGap.foldl_depthAfter, List.foldl_append, hClosed, List.foldl_cons,
        depthAfter_of_blank hBlank]
      exact hOutside
    · rw [withoutOuterBlanks_gap_append hGap, withoutOuterBlanks_solid_append hSolid, hClosed,
        withoutOuterBlanks, if_pos ⟨rfl, hBlank⟩, hFront, List.flatten_cons]

/-- How the part of a line in front of its comment is cut into words. -/
structure CutInto (part : List Char) (words : List (List Char)) : Prop where
  holds_iff : ∀ other, Holds part other ↔ other = words
  flatten : words.flatten = withoutOuterBlanks 0 part
  separated : ∀ front first second back, words = front ++ first :: second :: back →
    Separated part front.flatten first second

theorem cutInto_wordsFrom (part : List Char) : CutInto part (wordsFrom [] 0 part) where
  holds_iff := holds_iff part
  flatten := ((holds_iff part _).mpr rfl).flatten_eq
  separated _ _ _ _ hWords := ((holds_iff part _).mpr hWords.symm).separated

structure IsWord (word : List Char) : Prop where
  starts : ∃ c rest, word = c :: rest ∧ Text.isBlank c = false
  one_line : '\n' ∉ word
  no_comment : ¬['/', '*'] <:+: word
  solid : Solid 0 word

theorem isWord_of_mem_lineWords {line word : List Char} (hLine : '\n' ∉ line)
    (h : word ∈ lineWords line) : IsWord word ∧ word ⊆ line := by
  have hFront := beforeComment_inFront line
  obtain ⟨hInfix, hWord, hSolid⟩ := ((holds_iff _ _).mpr rfl).of_mem h
  obtain ⟨back, hCut, _⟩ := hFront.cut
  have hSub : word ⊆ line := by
    rw [hCut]
    exact List.Subset.trans hInfix.subset (List.subset_append_left _ _)
  refine ⟨⟨?_, fun hMem => hLine (hSub hMem), ?_, hSolid⟩, hSub⟩
  · obtain ⟨c, rest, rfl⟩ := List.exists_cons_of_ne_nil hWord
    exact ⟨c, rest, rfl, by simpa using hSolid.1⟩
  · intro hComment
    exact hFront.no_comment (hComment.trans hInfix)

theorem of_mem_lines {cs line : List Char} (h : line ∈ lines cs) : '\n' ∉ line ∧ line ⊆ cs := by
  fun_induction lines cs generalizing line with
  | case1 =>
    rw [List.mem_singleton.mp h]
    exact ⟨List.not_mem_nil, List.nil_subset _⟩
  | case2 cs ih =>
    rcases List.mem_cons.mp h with rfl | h
    · exact ⟨List.not_mem_nil, List.nil_subset _⟩
    · exact ⟨(ih h).1, fun c hc => .tail _ (.tail _ ((ih h).2 hc))⟩
  | case3 cs ih =>
    rcases List.mem_cons.mp h with rfl | h
    · exact ⟨List.not_mem_nil, List.nil_subset _⟩
    · exact ⟨(ih h).1, fun c hc => .tail _ ((ih h).2 hc)⟩
  | case4 c cs _ hFeed hLines _ => exact absurd hLines (lines_ne_nil cs)
  | case5 c cs _ hFeed first rest hLines ih =>
    rw [hLines] at ih
    rcases List.mem_cons.mp h with rfl | h
    · obtain ⟨hFirst, hSub⟩ := ih (.head _)
      refine ⟨?_, List.cons_subset_cons c hSub⟩
      rintro (_ | ⟨_, hMem⟩)
      · exact hFeed rfl
      · exact hFirst hMem
    · obtain ⟨hOther, hSub⟩ := ih (.tail _ h)
      exact ⟨hOther, fun c hc => .tail _ (hSub hc)⟩

theorem isWord_of_mem_words {text word : String} (h : word ∈ words text) :
    IsWord word.toList ∧ word.toList ⊆ text.toList := by
  obtain ⟨chars, hChars, rfl⟩ := List.mem_map.mp h
  obtain ⟨line, hLine, hChars⟩ := List.mem_flatMap.mp hChars
  obtain ⟨hFeed, hSub⟩ := of_mem_lines hLine
  obtain ⟨hWord, hInLine⟩ := isWord_of_mem_lineWords hFeed hChars
  rw [String.toList_ofList]
  exact ⟨hWord, List.Subset.trans hInLine hSub⟩

theorem IsWord.words_eq {word : String} (h : IsWord word.toList) (hReturn : '\r' ∉ word.toList) :
    words word = [word] := by
  obtain ⟨c, rest, hStart, _⟩ := h.starts
  have hWord : word.toList ≠ [] := by simp [hStart]
  rw [words_of_line h.one_line hReturn, lineWords, beforeComment_of_no_comment h.no_comment,
    wordsFrom_of_solid h.solid hWord, List.map_singleton, String.ofList_toList]

theorem words_intercalate_words {text : String} (h : '\r' ∉ text.toList) :
    words (String.intercalate "\n" (words text)) = words text := by
  have hReturn : ∀ word ∈ words text, '\r' ∉ word.toList :=
    fun word hWord hMem => h ((isWord_of_mem_words hWord).2 hMem)
  have hSelf : ∀ word ∈ words text, words word = [word] :=
    fun word hWord => (isWord_of_mem_words hWord).1.words_eq (hReturn word hWord)
  rw [words_intercalate hReturn, List.flatMap_def, List.map_congr_left hSelf, ← List.flatMap_def,
    List.flatMap_singleton']

/-- Words are whole, a line is cut into its words in the one way there is, lines are cut one by
one, and words that are written one to a line are the same words. -/
theorem words_cut {text : String} (hReturn : '\r' ∉ text.toList) :
    (∀ word ∈ words text, IsWord word.toList) ∧
    ('\n' ∉ text.toList → ∃ part, InFrontOfComment text.toList part ∧
      CutInto part ((words text).map String.toList)) ∧
    (∀ other, words (text ++ "\n" ++ other) = words text ++ words other) ∧
    words (String.intercalate "\n" (words text)) = words text := by
  refine ⟨fun word hWord => (isWord_of_mem_words hWord).1, fun hFeed => ?_,
    words_append_newline hReturn, words_intercalate_words hReturn⟩
  refine ⟨beforeComment text.toList, beforeComment_inFront _, ?_⟩
  have hWords : (words text).map String.toList = lineWords text.toList := by
    rw [words_of_line hFeed hReturn, List.map_map]
    simp
  rw [hWords]
  exact cutInto_wordsFrom _

/-- Brackets within brackets, brackets that close nothing, and a group that is open where the
comment begins. -/
theorem words_cut_open_group :
    '\r' ∉ "]A[ [1] 2]  B] ]C[ x /* ] D".toList ∧
      words "]A[ [1] 2]  B] ]C[ x /* ] D" = ["]A[ [1] 2]", "B]", "]C[ x "] ∧
      (∀ word ∈ ["]A[ [1] 2]", "B]", "]C[ x "], IsWord word.toList) ∧
      (∃ part, InFrontOfComment "]A[ [1] 2]  B] ]C[ x /* ] D".toList part ∧
        CutInto part ["]A[ [1] 2]".toList, "B]".toList, "]C[ x ".toList]) ∧
      words ("]A[ [1] 2]  B] ]C[ x /* ] D" ++ "\n" ++ "] 7") =
        ["]A[ [1] 2]", "B]", "]C[ x ", "]", "7"] ∧
      words (String.intercalate "\n" ["]A[ [1] 2]", "B]", "]C[ x "]) =
        ["]A[ [1] 2]", "B]", "]C[ x "] := by
  have hReturn : '\r' ∉ "]A[ [1] 2]  B] ]C[ x /* ] D".toList := by decide +kernel
  have hFeed : '\n' ∉ "]A[ [1] 2]  B] ]C[ x /* ] D".toList := by decide +kernel
  have hWords : words "]A[ [1] 2]  B] ]C[ x /* ] D" = ["]A[ [1] 2]", "B]", "]C[ x "] := by
    decide +kernel
  have hOther : words "] 7" = ["]", "7"] := by decide +kernel
  obtain ⟨hWhole, hCut, hLines, hAgain⟩ := words_cut hReturn
  rw [hWords] at hWhole hCut hAgain
  refine ⟨hReturn, hWords, hWhole, hCut hFeed, ?_, hAgain⟩
  rw [hLines, hWords, hOther]
  rfl

end Hinting.Token
