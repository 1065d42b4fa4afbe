import Hinting.Proofs.Action
import Hinting.Proofs.FlowGraph
import Mathlib.Logic.Function.Iterate
import Mathlib.Logic.Relation

/-!
# Searching for a path

A search keeps a mark for each statement and a stack of positions that wait. Each turn takes the
top position: if it is the target, the search has found it; if it has a mark, it is dropped;
otherwise it gets its mark and its successors join those that wait. A position can wait more than
once, as the EIF of two empty arms does.

The search ends after at most two turns more than there are edges. It finds the target if and only
if a path leads there, and so does one pass over the statements in program order.
-/

namespace Hinting

/-- The marks on the statements, and the positions that wait, the top one first. -/
structure PathSearch where
  seen : List Bool
  waiting : List Nat

inductive PathSearch.State
  | searching (s : PathSearch)
  | ended (found : Bool)
  /-- The top position had no mark to look at. -/
  | outOfRange

namespace Body

/-- Some path of edges, which may be empty, leads from one position to the other. -/
abbrev Leads (b : Body) : Nat → Nat → Prop :=
  Relation.ReflTransGen fun i j => j ∈ b.successors i

def edgeCount (b : Body) : Nat :=
  b.successorLists.flatten.length

def startSearch (b : Body) (source : Nat) : PathSearch.State :=
  .searching ⟨List.replicate b.size false, [source]⟩

/-- A turn of the search, which changes nothing once it is over. -/
def searchTurn (b : Body) (target : Nat) : PathSearch.State → PathSearch.State
  | .searching ⟨_, []⟩ => .ended false
  | .searching ⟨seen, position :: rest⟩ =>
    if position = target then .ended true
    else
      match seen[position]? with
      | none => .outOfRange
      | some true => .searching ⟨seen, rest⟩
      | some false => .searching ⟨seen.set position true, (b.successors position).reverse ++ rest⟩
  | .ended found => .ended found
  | .outOfRange => .outOfRange

end Body

namespace PathSearch

/-- The number of edges that start at positions without a mark. -/
def openEdges : List Bool → List (List Nat) → Nat
  | mark :: marks, targets :: lists =>
    (if mark then 0 else targets.length) + openEdges marks lists
  | _, _ => 0

theorem openEdges_replicate (lists : List (List Nat)) :
    openEdges (List.replicate lists.length false) lists = lists.flatten.length := by
  induction lists with
  | nil => rfl
  | cons targets lists ih =>
    rw [List.length_cons, List.replicate_succ, openEdges, ih, List.flatten_cons,
      List.length_append]
    rfl

theorem openEdges_set {seen : List Bool} {position : Nat} (h : seen[position]? = some false)
    (lists : List (List Nat)) :
    openEdges (seen.set position true) lists + (lists[position]?.getD []).length =
      openEdges seen lists := by
  induction seen generalizing position lists with
  | nil => cases h
  | cons mark marks ih =>
    cases lists with
    | nil => cases position <;> rfl
    | cons targets lists =>
      cases position with
      | zero =>
        cases h
        simp only [List.set_cons_zero, openEdges, List.getElem?_cons_zero, Option.getD_some,
          if_true, Bool.false_eq_true, if_false]
        omega
      | succ position =>
        have hRest := ih h lists
        simp only [List.set_cons_succ, openEdges, List.getElem?_cons_succ]
        omega

/-- The turns that a search can still take: one for each position that waits or may come to
wait. -/
def work (b : Body) (s : PathSearch) : Nat :=
  s.waiting.length + openEdges s.seen b.successorLists

/-- The search has come across the position. -/
def Met (s : PathSearch) (position : Nat) : Prop :=
  s.seen[position]? = some true ∨ position ∈ s.waiting

/-- What is true in the course of a search. -/
structure Sound (b : Body) (source target : Nat) (s : PathSearch) : Prop where
  marks : s.seen.length = b.size
  waiting : ∀ i ∈ s.waiting, i < b.size ∧ b.Leads source i
  start : s.Met source
  missed : s.seen[target]? ≠ some true
  closed : ∀ i, s.seen[i]? = some true → ∀ j ∈ b.successors i, s.Met j

variable {b : Body} {source target position : Nat} {seen : List Bool} {rest : List Nat}

theorem sound_start (hSource : source < b.size) :
    Sound b source target ⟨List.replicate b.size false, [source]⟩ := by
  have hUnseen (i : Nat) : (List.replicate b.size false)[i]? ≠ some true := by
    rw [List.getElem?_replicate]
    split <;> simp
  exact {
    marks := List.length_replicate
    waiting := List.forall_mem_singleton.mpr ⟨hSource, .refl⟩
    start := .inr List.mem_cons_self
    missed := hUnseen target
    closed := fun i hSeen => absurd hSeen (hUnseen i) }

theorem work_start (b : Body) (source : Nat) :
    work b ⟨List.replicate b.size false, [source]⟩ = b.edgeCount + 1 := by
  have hLength : b.successorLists.length = b.size := b.block.length_successors 0 none
  rw [work, ← hLength, openEdges_replicate, Nat.add_comm]
  rfl

/-- Dropping a position that has its mark. -/
theorem Sound.drop (h : Sound b source target ⟨seen, position :: rest⟩)
    (hMark : seen[position]? = some true) : Sound b source target ⟨seen, rest⟩ := by
  have hMet {i : Nat} (hi : Met ⟨seen, position :: rest⟩ i) : Met ⟨seen, rest⟩ i := by
    rcases hi with hSeen | hWaiting
    · exact .inl hSeen
    · rcases List.mem_cons.mp hWaiting with rfl | hRest
      · exact .inl hMark
      · exact .inr hRest
  exact {
    h with
    waiting := fun i hi => h.waiting i (List.mem_cons_of_mem _ hi)
    start := hMet h.start
    closed := fun i hSeen j hj => hMet (h.closed i hSeen j hj) }

/-- Marking a position and letting its successors wait. -/
theorem Sound.mark (h : Sound b source target ⟨seen, position :: rest⟩)
    (hTarget : position ≠ target) :
    Sound b source target
      ⟨seen.set position true, (b.successors position).reverse ++ rest⟩ := by
  obtain ⟨hBound, hLeads⟩ := h.waiting position List.mem_cons_self
  have hSet (i : Nat) :
      (seen.set position true)[i]? = some true ↔ i = position ∨ seen[i]? = some true := by
    rw [List.getElem?_set]
    by_cases hSame : position = i
    · subst hSame
      rw [if_pos rfl, if_pos (h.marks ▸ hBound)]
      exact iff_of_true rfl (.inl rfl)
    · rw [if_neg hSame, or_iff_right (Ne.symm hSame)]
  have hMet {i : Nat} (hi : Met ⟨seen, position :: rest⟩ i) :
      Met ⟨seen.set position true, (b.successors position).reverse ++ rest⟩ i := by
    rcases hi with hSeen | hWaiting
    · exact .inl ((hSet i).mpr (.inr hSeen))
    · rcases List.mem_cons.mp hWaiting with hSame | hRest
      · exact .inl ((hSet i).mpr (.inl hSame))
      · exact .inr (List.mem_append_right _ hRest)
  refine ⟨?_, fun i hi => ?_, hMet h.start, ?_, fun i hSeen j hj => ?_⟩
  · rw [List.length_set]
    exact h.marks
  · rcases List.mem_append.mp hi with hNew | hRest
    · have hEdge := List.mem_reverse.mp hNew
      exact ⟨(Body.forward_of_mem_successors hEdge).2, hLeads.tail hEdge⟩
    · exact h.waiting i (List.mem_cons_of_mem _ hRest)
  · rw [Ne, hSet]
    rintro (hSame | hSeen)
    · exact hTarget hSame.symm
    · exact h.missed hSeen
  · rcases (hSet i).mp hSeen with rfl | hOld
    · exact .inr (List.mem_append_left _ (List.mem_reverse.mpr hj))
    · exact hMet (h.closed i hOld j hj)

/-- A turn finds the target at the end of a path, or leaves less to do. -/
theorem Sound.turn (h : Sound b source target ⟨seen, position :: rest⟩) :
    (b.searchTurn target (.searching ⟨seen, position :: rest⟩) = .ended true ∧
        b.Leads source target) ∨
      ∃ t, b.searchTurn target (.searching ⟨seen, position :: rest⟩) = .searching t ∧
        Sound b source target t ∧ t.work b + 1 = work b ⟨seen, position :: rest⟩ := by
  obtain ⟨hBound, hLeads⟩ := h.waiting position List.mem_cons_self
  by_cases hTarget : position = target
  · refine .inl ⟨?_, hTarget ▸ hLeads⟩
    rw [Body.searchTurn, if_pos hTarget]
  · right
    rw [Body.searchTurn, if_neg hTarget]
    cases hMark : seen[position]? with
    | none =>
      rw [List.getElem?_eq_none_iff, h.marks] at hMark
      omega
    | some mark =>
      cases mark with
      | true =>
        refine ⟨_, rfl, h.drop hMark, ?_⟩
        simp only [work, List.length_cons]
        omega
      | false =>
        refine ⟨_, rfl, h.mark hTarget, ?_⟩
        have hEdges : _ + (b.successors position).length = _ :=
          openEdges_set hMark b.successorLists
        simp only [work, List.length_append, List.length_reverse, List.length_cons]
        omega

/-- When no position waits, all that can be reached has its mark. -/
theorem Sound.not_leads (h : Sound b source target ⟨seen, []⟩) : ¬b.Leads source target := by
  have hMarked {i : Nat} (hi : Met ⟨seen, []⟩ i) : seen[i]? = some true :=
    hi.resolve_right List.not_mem_nil
  intro hLeads
  have hAll : ∀ i, b.Leads source i → seen[i]? = some true := by
    intro i hi
    induction hi with
    | refl => exact hMarked h.start
    | tail _ hEdge ih => exact hMarked (h.closed _ ih _ hEdge)
  exact h.missed (hAll target hLeads)

theorem Sound.ends {s : PathSearch} (h : Sound b source target s) :
    ∃ answer, (∃ turns ≤ s.work b + 1,
        (b.searchTurn target)^[turns] (.searching s) = .ended answer) ∧
      (answer = true ↔ b.Leads source target) := by
  induction hWork : s.work b using Nat.strongRecOn generalizing s with
  | _ work ih =>
    obtain ⟨seen, waiting⟩ := s
    cases waiting with
    | nil => exact ⟨false, ⟨1, by omega, rfl⟩, by simp [h.not_leads]⟩
    | cons position rest =>
      rcases h.turn with ⟨hFound, hLeads⟩ | ⟨t, hTurn, hSound, hLess⟩
      · exact ⟨true, ⟨1, by omega, hFound⟩, by simp [hLeads]⟩
      · obtain ⟨answer, ⟨turns, hTurns, hEnds⟩, hAnswer⟩ := ih _ (by omega) hSound rfl
        refine ⟨answer, ⟨turns + 1, by omega, ?_⟩, hAnswer⟩
        rw [Function.iterate_succ_apply, hTurn, hEnds]

end PathSearch

namespace Body

/-- What a pass over the statements in front of `position` has found. -/
structure Swept (b : Body) (source position : Nat) (reached : List Nat) : Prop where
  start : source ∈ reached
  leads : ∀ j ∈ reached, b.Leads source j
  closed : ∀ i < position, i ∈ reached → ∀ j ∈ b.successors i, j ∈ reached

variable {b : Body} {source target position : Nat} {reached : List Nat}

theorem Swept.next (h : b.Swept source position reached) :
    b.Swept source (position + 1)
      (if reached.contains position then reached ++ b.successors position else reached) := by
  by_cases hReached : position ∈ reached
  · rw [if_pos (List.contains_iff_mem.mpr hReached)]
    refine ⟨List.mem_append_left _ h.start, fun j hj => ?_, fun i hi hMem j hj => ?_⟩
    · rcases List.mem_append.mp hj with hOld | hEdge
      · exact h.leads j hOld
      · exact (h.leads position hReached).tail hEdge
    · rcases Nat.lt_succ_iff_lt_or_eq.mp hi with hLess | rfl
      · -- an edge leads forward, so no position behind is found late
        rcases List.mem_append.mp hMem with hOld | hEdge
        · exact List.mem_append_left _ (h.closed i hLess hOld j hj)
        · have hForward := forward_of_mem_successors hEdge
          omega
      · exact List.mem_append_right _ hj
  · rw [if_neg (mt List.contains_iff_mem.mp hReached)]
    refine { h with closed := fun i hi hMem j hj => ?_ }
    rcases Nat.lt_succ_iff_lt_or_eq.mp hi with hLess | rfl
    · exact h.closed i hLess hMem j hj
    · exact absurd hMem hReached

theorem Swept.pass {f : List Nat → List Nat × Nat → List Nat}
    (hf : ∀ reached targets position, f reached (targets, position) =
      if reached.contains position then reached ++ targets else reached)
    {lists : List (List Nat)} (hLists : b.successorLists.drop position = lists)
    (h : b.Swept source position reached) :
    b.Swept source (position + lists.length) ((lists.zipIdx position).foldl f reached) := by
  induction lists generalizing position reached with
  | nil => exact h
  | cons targets lists ih =>
    have hTargets : b.successors position = targets := by
      rw [successors, ← List.head?_drop, hLists]
      rfl
    have hRest : b.successorLists.drop (position + 1) = lists := by
      rw [← List.tail_drop, hLists, List.tail_cons]
    rw [List.zipIdx_cons, List.foldl_cons, hf, ← hTargets, List.length_cons, Nat.add_comm _ 1,
      ← Nat.add_assoc]
    exact ih hRest h.next

theorem mem_reachableFrom_iff : target ∈ b.reachableFrom source ↔ b.Leads source target := by
  have hStart : b.Swept source 0 [source] :=
    ⟨List.mem_cons_self, fun j hj => List.mem_singleton.mp hj ▸ .refl,
      fun i hi => absurd hi (Nat.not_lt_zero i)⟩
  have hSwept : b.Swept source (0 + b.successorLists.length) (b.reachableFrom source) :=
    hStart.pass (fun _ _ _ => rfl) rfl
  rw [successorLists, b.block.length_successors, Nat.zero_add] at hSwept
  refine ⟨hSwept.leads target, fun hLeads => ?_⟩
  induction hLeads with
  | refl => exact hSwept.start
  | tail _ hEdge ih =>
    have hForward := forward_of_mem_successors hEdge
    exact hSwept.closed _ (Nat.lt_trans hForward.1 hForward.2) ih _ hEdge

theorem reaches?_eq_some (hSource : source < b.size) (target : Nat) :
    ∃ answer, b.reaches? source target = some answer ∧
      (answer = true ↔ b.Leads source target) := by
  by_cases hSame : source = target
  · exact ⟨true, by rw [reaches?, if_pos hSame], by simp [hSame, Relation.ReflTransGen.refl]⟩
  · refine ⟨(b.reachableFrom source).contains target, ?_, ?_⟩
    · rw [reaches?, if_neg hSame, if_pos hSource]
    · rw [List.contains_iff_mem, mem_reachableFrom_iff]

/-- From every statement of a body, the search for any position comes to its end and decides
whether a path leads there. -/
theorem search_decides (b : Body) {source : Nat} (hSource : source < b.size) (target : Nat) :
    ∃ answer, (∃ turns ≤ b.edgeCount + 2,
        (b.searchTurn target)^[turns] (b.startSearch source) = .ended answer) ∧
      b.reaches? source target = some answer ∧ (answer = true ↔ b.Leads source target) := by
  have hWork := PathSearch.work_start b source
  obtain ⟨found, ⟨turns, hTurns, hEnds⟩, hFound⟩ := (PathSearch.sound_start hSource).ends
  obtain ⟨answer, hReaches, hAnswer⟩ := reaches?_eq_some hSource target
  have hSame : found = answer := Bool.eq_iff_iff.mpr (hFound.trans hAnswer.symm)
  exact ⟨answer, ⟨turns, by omega, hSame ▸ hEnds⟩, hReaches, hAnswer⟩

/-- A search that comes across the EIF of two empty arms twice, and to its end in vain. -/
theorem search_decides_double_edge :
    ∃ b, ofStatements "glyf" ([Mnemonic.IF, .ELSE, .SVTCA, .EIF, .IF, .EIF, .POP].zipIdx.map
        fun entry => { mnemonic := entry.1, index := entry.2 }) = .ok b ∧
      1 < b.size ∧ b.successors 4 = [5, 5] ∧
      (∃ turns ≤ 10, (b.searchTurn 0)^[turns] (b.startSearch 1) = .ended false) ∧
      b.reaches? 1 0 = some false ∧ ¬b.Leads 1 0 := by
  have hEvaluated : (ofStatements "glyf"
      ([Mnemonic.IF, .ELSE, .SVTCA, .EIF, .IF, .EIF, .POP].zipIdx.map
        fun entry => { mnemonic := entry.1, index := entry.2 })).toOption.map (fun b =>
          (b.size, b.successors 4, b.edgeCount, b.reaches? 1 0)) =
      some (7, [5, 5], 8, some false) := by
    decide +kernel
  obtain ⟨b, hBody, hValues⟩ := Option.map_eq_some_iff.mp hEvaluated
  obtain ⟨hSize, hValues⟩ := Prod.mk.inj hValues
  obtain ⟨hTwice, hValues⟩ := Prod.mk.inj hValues
  obtain ⟨hEdges, hReaches⟩ := Prod.mk.inj hValues
  have hSource : 1 < b.size := by omega
  obtain ⟨answer, ⟨turns, hTurns, hEnds⟩, hAnswer, hLeads⟩ := b.search_decides hSource 0
  obtain rfl : answer = false := Option.some.inj (hAnswer.symm.trans hReaches)
  exact ⟨b, Action.eq_ok_of_toOption hBody, hSource, hTwice, ⟨turns, by omega, hEnds⟩, hReaches,
    fun h => Bool.false_ne_true (hLeads.mpr h)⟩

end Body

end Hinting
