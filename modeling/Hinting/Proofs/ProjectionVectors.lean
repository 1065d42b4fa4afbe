import Hinting.Proofs.ReachedEnvironments
import Hinting.Proofs.StatementEffects

/-!
# The projection vector and the dual one

Five instructions set the projection vector. Four of them set the dual projection vector to the
same axis. `SPVTL` leaves it as it was, so the two vectors part when this instruction meets a dual
vector that is not a custom one, and they part nowhere else.
-/

namespace Hinting

open Hinting.Action EnvAction

/-- The dual projection vector is the projection vector. -/
def GraphicsState.ProjectsAlike (g : GraphicsState) : Prop :=
  g.dualProjection = g.projection

/-- The vector whose components are on top of the stack. -/
def ValueStack.axis? (stack : ValueStack) : Option Axis :=
  match stack.values with
  | y :: x :: _ => some (Axis.ofComponents x y)
  | _ => none

namespace Statement

/-- The projection vector that a statement sets on a stack, if it sets one there. -/
def projection? (s : Statement) (stack : ValueStack) : Option Axis :=
  match s.mnemonic with
  | .SVTCA | .SPVTCA => some (flagAxis s.flags)
  | .SPVTL | .SDPVTL => if 2 ≤ stack.depth then some .custom else none
  | .SPVFS => stack.axis?
  | _ => none

/-- What a statement makes of the two vectors. -/
structure SetsVectors (s : Statement) (env after : Environment) : Prop where
  projection : after.graphics.projection = (s.projection? env.stack).getD env.graphics.projection
  dualProjection : after.graphics.dualProjection =
    if s.mnemonic = .SPVTL then env.graphics.dualProjection
    else (s.projection? env.stack).getD env.graphics.dualProjection

variable {s : Statement} {env after : Environment}

theorem projection?_eq_none (h : s.setsProjection = false) (stack : ValueStack) :
    s.projection? stack = none ∧ s.mnemonic ≠ .SPVTL := by
  simp only [setsProjection, List.contains_eq_mem, List.mem_cons, List.not_mem_nil,
    decide_eq_false_iff_not, not_or] at h
  obtain ⟨hAxes, hAxis, hLine, hDual, hStack, -⟩ := h
  refine ⟨?_, hLine⟩
  unfold projection?
  split
  all_goals first | contradiction | rfl

theorem Sets.keepsVectors {g changed : GraphicsState} (h : s.Sets g changed)
    (hSets : s.setsProjection = false) :
    changed.projection = g.projection ∧ changed.dualProjection = g.dualProjection := by
  cases h with
  | vectors _ _ _ hVectors => exact absurd hVectors (hSets ▸ Bool.false_ne_true)
  | _ => exact ⟨rfl, rfl⟩

theorem Alters.setsVectors (h : s.Alters env after) (hSets : s.setsProjection = false) :
    s.SetsVectors env after := by
  obtain ⟨hNone, hMnemonic⟩ := projection?_eq_none hSets env.stack
  have hKept : after.graphics.projection = env.graphics.projection ∧
      after.graphics.dualProjection = env.graphics.dualProjection := by
    cases h with
    | graphics _ hGraphics => exact hGraphics.keepsVectors hSets
    | _ => exact ⟨rfl, rfl⟩
  exact ⟨by rw [hKept.1, hNone, Option.getD_none],
    by rw [hKept.2, hNone, Option.getD_none, if_neg hMnemonic]⟩

theorem SetsVectors.of_set {f : Axis → GraphicsState → GraphicsState}
    (hGraphics : after.graphics =
      (s.projection? env.stack).elim env.graphics fun axis => f axis env.graphics)
    (hProjection : ∀ axis g, (f axis g).projection = axis)
    (hDual : ∀ axis g, (f axis g).dualProjection =
      if s.mnemonic = .SPVTL then g.dualProjection else axis) : s.SetsVectors env after := by
  cases hAxis : s.projection? env.stack with
  | none =>
    rw [hAxis, Option.elim_none] at hGraphics
    exact ⟨by rw [hGraphics, hAxis, Option.getD_none],
      by rw [hGraphics, hAxis, Option.getD_none, ite_self]⟩
  | some axis =>
    rw [hAxis, Option.elim_some] at hGraphics
    exact ⟨by rw [hGraphics, hAxis, hProjection, Option.getD_some],
      by rw [hGraphics, hAxis, hDual, Option.getD_some]⟩

theorem reached_effect (action : EnvAction Unit) (env : Environment) :
    reached (perform.effect action env) = reached (action env) := by
  rw [perform.effect, bind_apply]
  cases action env with
  | ok _ _ => rfl
  | error _ _ => rfl

theorem graphics_vectorToLine (f : Axis → GraphicsState → GraphicsState) (env : Environment) :
    (reached (vectorToLine (f .custom) env)).graphics =
      (if 2 ≤ env.stack.depth then some Axis.custom else none).elim env.graphics
        fun axis => f axis env.graphics := by
  simp only [vectorToLine, bind_apply, EnvAction.discard, onStack, StackAction.discard]
  by_cases hTwo : 2 ≤ env.stack.depth
  · rw [if_pos hTwo, if_pos hTwo]
    rfl
  · rw [if_neg hTwo, if_neg hTwo]
    rfl

theorem graphics_popAxis (f : Axis → GraphicsState → GraphicsState) (env : Environment) :
    (reached ((popAxis >>= fun axis => setGraphics (f axis)) env)).graphics =
      env.stack.axis?.elim env.graphics fun axis => f axis env.graphics := by
  simp only [ValueStack.axis?, popAxis, bind_apply, pop, onStack, StackAction.pop]
  cases env.stack.values with
  | nil => rfl
  | cons y rest =>
    cases rest with
    | nil => rfl
    | cons x rest => rfl

/-- Whether it fails or not, a statement sets the vectors by these rules. -/
theorem perform_setsVectors (s : Statement) (axisCount : Nat) :
    Moves s.SetsVectors (s.perform axisCount) := by
  cases hSets : s.setsProjection with
  | false => exact fun env => (s.perform_alters axisCount env).setsVectors hSets
  | true =>
    intro env
    simp only [setsProjection, List.contains_eq_mem, List.mem_cons, List.not_mem_nil, or_false,
      decide_eq_true_eq] at hSets
    have hDual (hMnemonic : s.mnemonic ≠ .SPVTL) (dual axis : Axis) :
        axis = if s.mnemonic = .SPVTL then dual else axis := (if_neg hMnemonic).symm
    -- both to an axis, the projection vector to an axis, it alone to a line, both to a line, and
    -- to the components on the stack
    rcases hSets with h | h | h | h | h
    · refine .of_set (f := fun axis g => g.setVectors axis) ?_ (fun _ _ => rfl)
        fun _ _ => hDual (by simp [h]) _ _
      simp only [perform, projection?, h]
      rfl
    · refine .of_set (f := fun axis g => g.setProjection axis) ?_ (fun _ _ => rfl)
        fun _ _ => hDual (by simp [h]) _ _
      simp only [perform, projection?, h]
      rfl
    · refine .of_set (f := fun axis g => { g with projection := axis }) ?_ (fun _ _ => rfl)
        fun _ _ => (if_pos h).symm
      simp only [perform, projection?, h, reached_effect]
      exact graphics_vectorToLine (fun axis g => { g with projection := axis }) env
    · refine .of_set (f := fun axis g => g.setProjection axis) ?_ (fun _ _ => rfl)
        fun _ _ => hDual (by simp [h]) _ _
      simp only [perform, projection?, h, reached_effect]
      exact graphics_vectorToLine (fun axis g => g.setProjection axis) env
    · refine .of_set (f := fun axis g => g.setProjection axis) ?_ (fun _ _ => rfl)
        fun _ _ => hDual (by simp [h]) _ _
      simp only [perform, projection?, h, reached_effect]
      exact graphics_popAxis (fun axis g => g.setProjection axis) env

theorem projection?_line (h : s.mnemonic = .SPVTL) (stack : ValueStack) :
    s.projection? stack = if 2 ≤ stack.depth then some .custom else none := by
  rw [projection?, h]

/-- The vectors part only along a line; otherwise both are set or none is. -/
theorem SetsVectors.line_or_together (h : s.SetsVectors env after) :
    (s.mnemonic = .SPVTL ∧ 2 ≤ env.stack.depth ∧ after.graphics.projection = .custom ∧
        after.graphics.dualProjection = env.graphics.dualProjection) ∨
      (¬(s.mnemonic = .SPVTL ∧ 2 ≤ env.stack.depth) ∧ (after.graphics.ProjectsAlike ∨
        after.graphics.projection = env.graphics.projection ∧
          after.graphics.dualProjection = env.graphics.dualProjection)) := by
  obtain ⟨hProjection, hDual⟩ := h
  by_cases hLine : s.mnemonic = .SPVTL
  · rw [if_pos hLine] at hDual
    rw [projection?_line hLine] at hProjection
    by_cases hTwo : 2 ≤ env.stack.depth
    · rw [if_pos hTwo, Option.getD_some] at hProjection
      exact .inl ⟨hLine, hTwo, hProjection, hDual⟩
    · rw [if_neg hTwo, Option.getD_none] at hProjection
      exact .inr ⟨fun hBoth => hTwo hBoth.2, .inr ⟨hProjection, hDual⟩⟩
  · rw [if_neg hLine] at hDual
    refine .inr ⟨fun hBoth => hLine hBoth.1, ?_⟩
    cases hAxis : s.projection? env.stack with
    | none =>
      rw [hAxis, Option.getD_none] at hProjection hDual
      exact .inr ⟨hProjection, hDual⟩
    | some axis =>
      rw [hAxis, Option.getD_some] at hProjection hDual
      exact .inl (hDual.trans hProjection.symm)

theorem SetsVectors.alike_or_custom (h : s.SetsVectors env after)
    (hBefore : env.graphics.ProjectsAlike ∨ env.graphics.projection = .custom) :
    after.graphics.ProjectsAlike ∨ after.graphics.projection = .custom := by
  rcases h.line_or_together with ⟨_, _, hCustom, _⟩ | ⟨_, hAlike | ⟨hProjection, hDual⟩⟩
  · exact .inr hCustom
  · exact .inl hAlike
  · rwa [GraphicsState.ProjectsAlike, hProjection, hDual]

theorem SetsVectors.alike_iff (h : s.SetsVectors env after)
    (hBefore : env.graphics.ProjectsAlike) :
    after.graphics.ProjectsAlike ↔
      (s.mnemonic = .SPVTL → 2 ≤ env.stack.depth → env.graphics.dualProjection = .custom) := by
  rcases h.line_or_together with ⟨hLine, hTwo, hCustom, hDual⟩ | ⟨hNoLine, hTogether⟩
  · rw [GraphicsState.ProjectsAlike, hCustom, hDual]
    exact ⟨fun hAlready _ _ => hAlready, fun hAlready => hAlready hLine hTwo⟩
  · refine ⟨fun _ hLine hTwo => absurd ⟨hLine, hTwo⟩ hNoLine, fun _ => ?_⟩
    rcases hTogether with hAlike | ⟨hProjection, hDual⟩
    · exact hAlike
    · rwa [GraphicsState.ProjectsAlike, hProjection, hDual]

end Statement

/-- Every statement sets the vectors by the rules, and where they part, the projection vector is a
custom one. They never part in runs in which `SPVTL` finds two points only where the dual vector
is a custom one already. -/
theorem Font.projectsAlike_iff (font : Font) (orders : List (Session × String)) :
    (∀ step ∈ font.stepsInTurn font.initialEnvironment orders,
      step.statement.SetsVectors step.before step.after) ∧
    (∀ env, font.Reaches orders env →
      env.graphics.ProjectsAlike ∨ env.graphics.projection = .custom) ∧
    ((∀ env, font.Reaches orders env → env.graphics.ProjectsAlike) ↔
      ∀ step ∈ font.stepsInTurn font.initialEnvironment orders,
        step.statement.mnemonic = .SPVTL → 2 ≤ step.before.stack.depth →
          step.before.graphics.dualProjection = .custom) := by
  have hSets : ∀ step ∈ font.stepsInTurn font.initialEnvironment orders,
      step.statement.SetsVectors step.before step.after :=
    fun step hStep => moves_of_mem_stepsInTurn hStep step.statement.perform_setsVectors
  refine ⟨hSets, fun env hEnv => ?_, fun hAlike step hStep => ?_, fun hLines env hEnv => ?_⟩
  · exact hEnv.of_steps
      (P := fun env => env.graphics.ProjectsAlike ∨ env.graphics.projection = .custom)
      (.inl rfl) fun step hStep => (hSets step hStep).alike_or_custom
  · exact ((hSets step hStep).alike_iff (hAlike _ (.before hStep))).mp (hAlike _ (.after hStep))
  · exact hEnv.of_steps (P := fun env => env.graphics.ProjectsAlike) rfl fun step hStep hBefore =>
      ((hSets step hStep).alike_iff hBefore).mpr (hLines step hStep)

/-- A line for both vectors first, then one for the projection vector alone. -/
theorem Font.projectsAlike_iff_two_lines :
    ∃ font,
      Font.load [("A", "SPVTCA[1] PUSHB[ ] 1 2 3 4 SDPVTL[0] SPVTL[1]")] [] = .ok font ∧
      (∃ step ∈ font.stepsInTurn font.initialEnvironment [({}, "A")],
        step.statement.mnemonic = .SPVTL ∧ 2 ≤ step.before.stack.depth ∧
          step.statement.SetsVectors step.before step.after) ∧
      ∀ env, font.Reaches [({}, "A")] env → env.graphics.ProjectsAlike := by
  have hEvaluated : (Font.load
      [("A", "SPVTCA[1] PUSHB[ ] 1 2 3 4 SDPVTL[0] SPVTL[1]")] []).toOption.map (fun font =>
        let steps := font.stepsInTurn font.initialEnvironment [({}, "A")]
        ((steps.find? (·.statement.mnemonic = .SPVTL)).map (·.before.stack.depth),
          steps.all fun step => step.statement.mnemonic = .SPVTL → 2 ≤ step.before.stack.depth →
            step.before.graphics.dualProjection = .custom)) = some (some 2, true) := by
    decide +kernel
  obtain ⟨font, hFont, hValues⟩ := Option.map_eq_some_iff.mp hEvaluated
  obtain ⟨hFirst, hAll⟩ := Prod.mk.inj hValues
  obtain ⟨step, hFind, hDepth⟩ := Option.map_eq_some_iff.mp hFirst
  have hStep := List.mem_of_find?_eq_some hFind
  have hLine := List.find?_some hFind
  obtain ⟨hRules, _, hIff⟩ := font.projectsAlike_iff [({}, "A")]
  exact ⟨font, eq_ok_of_toOption hFont,
    ⟨step, hStep, of_decide_eq_true hLine, hDepth.ge, hRules step hStep⟩,
    hIff.mpr fun step hStep => of_decide_eq_true (List.all_eq_true.mp hAll step hStep)⟩

/-- The dual projection vector stays on the axis that it has at the start. -/
theorem Font.not_projectsAlike_after_line :
    ∃ font step, Font.load [("A", "PUSHB[ ] 1 2 SPVTL[0]")] [] = .ok font ∧
      step ∈ font.stepsInTurn font.initialEnvironment [({}, "A")] ∧
      step.statement.mnemonic = .SPVTL ∧ step.after.graphics.projection = .custom ∧
      step.after.graphics.dualProjection = .x ∧ ¬step.after.graphics.ProjectsAlike := by
  have hEvaluated : ((Font.load [("A", "PUSHB[ ] 1 2 SPVTL[0]")] []).toOption.bind fun font =>
      (font.stepsInTurn font.initialEnvironment [({}, "A")])[1]?.map fun step =>
        (step.statement.mnemonic, step.after.graphics.projection,
          step.after.graphics.dualProjection)) = some (.SPVTL, .custom, .x) := by
    decide +kernel
  obtain ⟨font, hFont, hRest⟩ := Option.bind_eq_some_iff.mp hEvaluated
  obtain ⟨step, hStep, hValues⟩ := Option.map_eq_some_iff.mp hRest
  obtain ⟨hLine, hVectors⟩ := Prod.mk.inj hValues
  obtain ⟨hProjection, hDual⟩ := Prod.mk.inj hVectors
  refine ⟨font, step, eq_ok_of_toOption hFont, List.mem_of_getElem? hStep, hLine, hProjection,
    hDual, ?_⟩
  rw [GraphicsState.ProjectsAlike, hProjection, hDual]
  decide

end Hinting
