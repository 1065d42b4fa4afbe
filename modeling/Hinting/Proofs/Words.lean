import Hinting.Token

/-!
# Words of joined lines

The words of lines joined by line feeds are the words of the lines, one after the
other. A line without blanks outside its brackets is one word.
-/

namespace Hinting.Token

theorem lines_ne_nil (cs : List Char) : lines cs ≠ [] := by
  fun_induction lines cs <;> simp_all

theorem lines_cons {c : Char} (hFeed : c ≠ '\n') (hReturn : c ≠ '\r') (cs : List Char) :
    lines (c :: cs) = (lines cs).modifyHead (c :: ·) := by
  cases hLines : lines cs with
  | nil => exact absurd hLines (lines_ne_nil cs)
  | cons line rest =>
    rw [lines.eq_def]
    split <;> simp_all

theorem lines_append {front : List Char} (h : '\r' ∉ front) (back : List Char) :
    lines (front ++ '\n' :: back) = lines front ++ lines back := by
  induction front with
  | nil => rfl
  | cons c cs ih =>
    have hTail := ih fun hMem => h (List.mem_cons_of_mem c hMem)
    have hReturn : c ≠ '\r' := fun hEq => h (hEq ▸ List.mem_cons_self)
    by_cases hFeed : c = '\n'
    · subst hFeed
      simp only [List.cons_append, lines, hTail]
    · rw [List.cons_append, lines_cons hFeed hReturn, lines_cons hFeed hReturn, hTail]
      cases hLines : lines cs with
      | nil => exact absurd hLines (lines_ne_nil cs)
      | cons line rest => rfl

theorem lines_of_not_mem {line : List Char} (hFeed : '\n' ∉ line) (hReturn : '\r' ∉ line) :
    lines line = [line] := by
  induction line with
  | nil => rfl
  | cons c cs ih =>
    have hc : c ≠ '\n' := fun hEq => hFeed (hEq ▸ List.mem_cons_self)
    have hc' : c ≠ '\r' := fun hEq => hReturn (hEq ▸ List.mem_cons_self)
    rw [lines_cons hc hc', ih (fun hMem => hFeed (List.mem_cons_of_mem c hMem))
      (fun hMem => hReturn (List.mem_cons_of_mem c hMem))]
    rfl

theorem words_append_newline {front : String} (h : '\r' ∉ front.toList) (back : String) :
    words (front ++ "\n" ++ back) = words front ++ words back := by
  have hChars : (front ++ "\n" ++ back).toList = front.toList ++ '\n' :: back.toList := by
    simp [String.toList_append]
  rw [words, hChars, lines_append h, List.flatMap_append, List.map_append]
  rfl

theorem words_intercalate {texts : List String} (h : ∀ text ∈ texts, '\r' ∉ text.toList) :
    words (String.intercalate "\n" texts) = texts.flatMap words := by
  induction texts with
  | nil => rfl
  | cons text rest ih =>
    cases rest with
    | nil => simp
    | cons next rest =>
      have hRest := ih fun other hOther => h other (List.mem_cons_of_mem _ hOther)
      rw [String.intercalate_cons_cons, words_append_newline (h text List.mem_cons_self), hRest]
      rfl

theorem words_of_line {text : String} (hFeed : '\n' ∉ text.toList) (hReturn : '\r' ∉ text.toList) :
    words text = (lineWords text.toList).map String.ofList := by
  rw [words, lines_of_not_mem hFeed hReturn, List.flatMap_singleton]

theorem beforeComment_of_not_mem {line : List Char} (h : '/' ∉ line) :
    beforeComment line = line := by
  induction line with
  | nil => rfl
  | cons c cs ih =>
    have hc : c ≠ '/' := fun hEq => h (hEq ▸ List.mem_cons_self)
    have hTail := ih fun hMem => h (List.mem_cons_of_mem c hMem)
    rw [beforeComment.eq_def]
    split <;> simp_all

/-- No blank of the text stands outside brackets, when it starts inside of `depth` ones. -/
def Solid : Nat → List Char → Prop
  | _, [] => True
  | depth, c :: cs => ¬(depth = 0 ∧ Text.isBlank c = true) ∧ Solid (depthAfter depth c) cs

theorem solid_append (depth : Nat) (front back : List Char) :
    Solid depth (front ++ back) ↔
      Solid depth front ∧ Solid (front.foldl depthAfter depth) back := by
  induction front generalizing depth with
  | nil => simp [Solid]
  | cons c cs ih => simp only [List.cons_append, Solid, ih, List.foldl_cons, and_assoc]

theorem wordsFrom_append_of_solid {depth : Nat} {front : List Char} (h : Solid depth front)
    (word back : List Char) :
    wordsFrom word depth (front ++ back) =
      wordsFrom (front.reverse ++ word) (front.foldl depthAfter depth) back := by
  induction front generalizing depth word with
  | nil => rfl
  | cons c cs ih =>
    obtain ⟨hBlank, hRest⟩ := h
    rw [List.cons_append, wordsFrom, if_neg hBlank, ih hRest, List.foldl_cons, List.reverse_cons,
      List.append_assoc, List.singleton_append]

theorem wordsFrom_of_solid {line : List Char} (h : Solid 0 line) (hLine : line ≠ []) :
    wordsFrom [] 0 line = [line] := by
  have hAll := wordsFrom_append_of_solid h [] []
  rw [List.append_nil, List.append_nil] at hAll
  rw [hAll, wordsFrom]
  simp [hLine]

/-- A character that stands for itself wherever it stands in a line. -/
def isPlain (c : Char) : Bool :=
  !Text.isBlank c && c != '[' && c != ']' && c != '/'

theorem depthAfter_of_not_bracket {c : Char} (hOpen : c ≠ '[') (hClose : c ≠ ']') (depth : Nat) :
    depthAfter depth c = depth := by
  rw [depthAfter, if_neg hOpen, if_neg hClose]

theorem foldl_depthAfter {cs : List Char} (h : ∀ c ∈ cs, c ≠ '[' ∧ c ≠ ']') (depth : Nat) :
    cs.foldl depthAfter depth = depth := by
  induction cs with
  | nil => rfl
  | cons c cs ih =>
    obtain ⟨hOpen, hClose⟩ := h c List.mem_cons_self
    rw [List.foldl_cons, depthAfter_of_not_bracket hOpen hClose,
      ih fun other hOther => h other (List.mem_cons_of_mem c hOther)]

theorem solid_of_not_bracket {cs : List Char} (h : ∀ c ∈ cs, c ≠ '[' ∧ c ≠ ']') {depth : Nat}
    (hDepth : depth ≠ 0 ∨ ∀ c ∈ cs, Text.isBlank c = false) : Solid depth cs := by
  induction cs with
  | nil => exact trivial
  | cons c cs ih =>
    obtain ⟨hOpen, hClose⟩ := h c List.mem_cons_self
    refine ⟨?_, ?_⟩
    · rintro ⟨hZero, hBlank⟩
      rcases hDepth with hDepth | hDepth
      · exact hDepth hZero
      · rw [hDepth c List.mem_cons_self] at hBlank
        cases hBlank
    · rw [depthAfter_of_not_bracket hOpen hClose]
      exact ih (fun other hOther => h other (List.mem_cons_of_mem c hOther))
        (hDepth.imp_right fun hBlank other hOther => hBlank other (List.mem_cons_of_mem c hOther))

theorem isPlain_iff (c : Char) :
    isPlain c = true ↔ Text.isBlank c = false ∧ (c ≠ '[' ∧ c ≠ ']') ∧ c ≠ '/' := by
  simp [isPlain, and_assoc]

theorem not_mem_of_plain {cs : List Char} (h : ∀ c ∈ cs, isPlain c = true) {other : Char}
    (hOther : isPlain other = false) : other ∉ cs := by
  intro hMem
  rw [h other hMem] at hOther
  cases hOther

theorem words_of_plain {text : String} (h : ∀ c ∈ text.toList, isPlain c = true)
    (hText : text.toList ≠ []) : words text = [text] := by
  have hPlain := fun c hc => (isPlain_iff c).mp (h c hc)
  rw [words_of_line (not_mem_of_plain h rfl) (not_mem_of_plain h rfl), lineWords,
    beforeComment_of_not_mem (not_mem_of_plain h rfl),
    wordsFrom_of_solid (solid_of_not_bracket (fun c hc => (hPlain c hc).2.1)
      (.inr fun c hc => (hPlain c hc).1)) hText, List.map_singleton, String.ofList_toList]

theorem not_bracket_of_plain {cs : List Char} (h : ∀ c ∈ cs, isPlain c = true ∨ c = ' ') :
    ∀ c ∈ cs, c ≠ '[' ∧ c ≠ ']' := by
  intro c hc
  rcases h c hc with hPlain | rfl
  · exact ((isPlain_iff c).mp hPlain).2.1
  · decide

theorem solid_bracketed {name inner : List Char} (hName : ∀ c ∈ name, isPlain c = true)
    (hInner : ∀ c ∈ inner, isPlain c = true ∨ c = ' ') :
    Solid 0 (name ++ '[' :: (inner ++ [']'])) := by
  have hBefore := not_bracket_of_plain fun c hc => .inl (hName c hc)
  have hInside := not_bracket_of_plain hInner
  rw [solid_append, foldl_depthAfter hBefore]
  refine ⟨solid_of_not_bracket hBefore (.inr fun c hc => ((isPlain_iff c).mp (hName c hc)).1), ?_⟩
  refine ⟨by simp [Text.isBlank], ?_⟩
  rw [show depthAfter 0 '[' = 1 from rfl, solid_append, foldl_depthAfter hInside]
  exact ⟨solid_of_not_bracket hInside (.inl Nat.one_ne_zero), by simp, trivial⟩

theorem words_bracketed {name inner : String} (hName : ∀ c ∈ name.toList, isPlain c = true)
    (hInner : ∀ c ∈ inner.toList, isPlain c = true ∨ c = ' ') :
    words (name ++ "[" ++ inner ++ "]") = [name ++ "[" ++ inner ++ "]"] := by
  have hChars : (name ++ "[" ++ inner ++ "]").toList =
      name.toList ++ '[' :: (inner.toList ++ [']']) := by
    simp [String.toList_append]
  have hAll : ∀ c ∈ (name ++ "[" ++ inner ++ "]").toList,
      isPlain c = true ∨ c = ' ' ∨ c = '[' ∨ c = ']' := by
    rw [hChars]
    intro c hc
    simp only [List.mem_append, List.mem_cons, List.not_mem_nil, or_false] at hc
    rcases hc with hc | hc | hc | hc
    · exact .inl (hName c hc)
    · exact .inr (.inr (.inl hc))
    · exact (hInner c hc).imp_right .inl
    · exact .inr (.inr (.inr hc))
  have hAbsent {other : Char} (hOther : isPlain other = false) (hSpace : other ≠ ' ')
      (hOpen : other ≠ '[') (hClose : other ≠ ']') :
      other ∉ (name ++ "[" ++ inner ++ "]").toList := by
    intro hMem
    rcases hAll other hMem with hPlain | hEq | hEq | hEq
    · rw [hPlain] at hOther
      cases hOther
    · exact hSpace hEq
    · exact hOpen hEq
    · exact hClose hEq
  have hSolid : Solid 0 (name ++ "[" ++ inner ++ "]").toList := by
    rw [hChars]
    exact solid_bracketed hName hInner
  rw [words_of_line (hAbsent rfl (by decide) (by decide) (by decide))
      (hAbsent rfl (by decide) (by decide) (by decide)), lineWords,
    beforeComment_of_not_mem (hAbsent rfl (by decide) (by decide) (by decide)),
    wordsFrom_of_solid hSolid (by simp [hChars]), List.map_singleton, String.ofList_toList]

end Hinting.Token
