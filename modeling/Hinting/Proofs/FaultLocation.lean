import Hinting.Proofs.CallDiscipline
import Hinting.Proofs.Extraction
import Hinting.Proofs.FlowShape
import Hinting.Proofs.Grammar
import Hinting.Proofs.ListingText

/-!
# Where a run is stopped

The error of a run names a statement of the program, or of the function that was being executed,
wherever the run was then: in an arm of an IF, on a copy of the environment, or deep in calls.
What is wrong there agrees with that place. A call was refused at a call, with the functions
that were being executed; a definition stood in the program itself; and no run meets a jump, or
an IF of which the arms cannot be told.
-/

namespace Hinting

open Hinting.Action

/-- The body of the reported function, or that of the program when none is reported. -/
inductive FunctionTable.BodyOf (table : FunctionTable) (main : Body) : Option Label → Body → Prop
  | main : BodyOf table main none main
  | function {label : Label} {d : Definition} :
      table.get? label = some d → BodyOf table main (some label) d.body

/-- How a fault agrees with the statement and the function that it is reported at. -/
def Fault.Accounts (limit : Nat) (table : FunctionTable) (function : Option Label)
    (s : Statement) : Fault → Prop
  | .unknownProgram _ => False
  | .undefinedFunction label => s.isCall = true ∧ table.get? label = none
  | .recursiveCall chain => s.isCall = true ∧ ∃ label between,
      chain = label :: between ++ [label] ∧ (label :: between).Nodup ∧
        (label :: between).getLast? = function
  | .callStackOverflow chain => s.isCall = true ∧ chain.length = limit + 1 ∧ chain.Nodup ∧
      chain.dropLast.getLast? = function
  | .exceededBudget => True
  | .definitionInProgram mnemonic => mnemonic = s.mnemonic ∧ function = none
  | .unsupportedControlTransfer _ => False
  | fault => fault.Meets s.mnemonic

/-- The error is that of a statement of `body` in a run of the program `tag`. -/
structure ExecutionError.At (e : ExecutionError) (tag : String) (limit : Nat)
    (table : FunctionTable) (main body : Body) (s : Statement) : Prop where
  program : e.program = tag
  running : table.BodyOf main e.function body
  mem : s ∈ body.statements
  statement : e.statement = some (s.id body.tag)
  fault : e.fault.Accounts limit table e.function s

/-- A statement that may stand in the body of `function`, or of a program if that is none. -/
structure Statement.Runnable (function : Option Label) (s : Statement) : Prop where
  not_jump : ∀ form, s.kind ≠ .jump form
  inBody : function ≠ none → s.InBody

/-- Each body of a run of `main` has only statements that may stand there. -/
def FunctionTable.Runnable (table : FunctionTable) (main : Body) : Prop :=
  ∀ function body, table.BodyOf main function body → ∀ s ∈ body.statements, s.Runnable function

theorem Statement.Runnable.accounts {function : Option Label} {s : Statement}
    (h : s.Runnable function) {fault : Fault} (hMeets : fault.Meets s.mnemonic) (limit : Nat)
    (table : FunctionTable) : fault.Accounts limit table function s := by
  cases hMeets with
  | unsupportedControlTransfer hMnemonic =>
    have hJump := h.not_jump
    rcases hMnemonic with hMnemonic | hMnemonic | hMnemonic <;>
      simp [kind, hMnemonic, Mnemonic.kind] at hJump
  | definitionInProgram hMnemonic =>
    refine ⟨rfl, ?_⟩
    by_contra hFunction
    obtain ⟨hStart, hEnd, hIdef⟩ := h.inBody hFunction
    rcases hMnemonic with hMnemonic | hMnemonic | hMnemonic
    · exact hStart (s.kind_eq_defStart_iff.mpr hMnemonic)
    · exact hEnd (s.kind_eq_defEnd_iff.mpr hMnemonic)
    · exact hIdef hMnemonic
  | stackUnderflow => exact .stackUnderflow
  | unresolvedCallTarget hMnemonic => exact .unresolvedCallTarget hMnemonic
  | unresolvedOperand => exact .unresolvedOperand
  | invalidCvtIndex index => exact .invalidCvtIndex index
  | invalidStorageIndex index => exact .invalidStorageIndex index
  | invalidZoneIndex index => exact .invalidZoneIndex index
  | negativeLoopCounter => exact .negativeLoopCounter

theorem CallStack.cycle?_eq_some {chain cycle : List Label} {label : Label}
    (h : cycle? chain label = some cycle) :
    ∃ before between, chain = before ++ label :: between ∧ cycle = label :: between ++ [label] := by
  unfold cycle? at h
  split at h
  · rename_i hContains
    cases h
    obtain ⟨before, between, rfl, hBefore⟩ :=
      List.eq_append_cons_of_mem (List.contains_iff_mem.mp hContains)
    refine ⟨before, between, rfl, ?_⟩
    rw [List.dropWhile_append_of_pos, List.dropWhile_cons_of_neg (by simp)]
    intro other hOther
    exact decide_eq_true fun hSame => hBefore (hSame ▸ hOther)
  · cases h

/-- Every failure of a part of a run is one of the given ones, and every success keeps the
functions. -/
structure Blames {α : Type} (table : FunctionTable) (F : ExecutionError → Prop)
    (x : RunAction α) : Prop where
  ok : ∀ s a t, s.env.functions = table → x s = .ok a t → t.env.functions = table
  error : ∀ s e t, s.env.functions = table → x s = .error e t → F e

namespace Blames

variable {α β : Type} {table : FunctionTable} {F : ExecutionError → Prop}

theorem pure (a : α) : Blames table F (pure a) where
  ok s b t hTable hOk := by
    cases hOk
    exact hTable
  error s e t _ hError := by cases hError

theorem throw {e : ExecutionError} (h : F e) : Blames table F (throw e : RunAction α) where
  ok s a t _ hOk := by cases hOk
  error s e' t _ hError := by
    cases hError
    exact h

theorem bind {x : RunAction α} {f : α → RunAction β} (hx : Blames table F x)
    (hf : ∀ a, Blames table F (f a)) : Blames table F (x >>= f) where
  ok s b t hTable hOk := by
    obtain ⟨a, u, hu, ht⟩ := bind_eq_ok hOk
    exact (hf a).ok u b t (hx.ok s a u hTable hu) ht
  error s e t hTable hError := by
    rcases bind_eq_error hError with hLast | ⟨a, u, hu, ht⟩
    · exact hx.error s e t hTable hLast
    · exact (hf a).error u e t (hx.ok s a u hTable hu) ht

theorem of_eq {x y : RunAction α} (hy : Blames table F y)
    (h : ∀ s : RunState, s.env.functions = table → x s = y s) : Blames table F x where
  ok s a t hTable hOk := hy.ok s a t hTable (h s hTable ▸ hOk)
  error s e t hTable hError := hy.error s e t hTable (h s hTable ▸ hError)

theorem onCopy {x : RunAction Unit} (hx : Blames table F x) :
    Blames table F (RunAction.onCopy x) where
  ok s a t hTable hOk := by
    obtain ⟨last, _, rfl⟩ := RunAction.onCopy_eq_ok hOk
    exact hTable
  error s e t hTable hError := by
    obtain ⟨last, hLast, rfl⟩ := RunAction.onCopy_eq_error hError
    exact hx.error s e last hTable hLast

theorem entering {x : RunAction Unit} (hx : Blames table F x) (label : Label) :
    Blames table F (RunAction.entering label x) where
  ok s a t hTable hOk := by
    obtain ⟨last, hLast, rfl⟩ := RunAction.entering_eq_ok hOk
    exact hx.ok { s with tally := s.tally.openCall label } () last hTable hLast
  error s e t hTable hError := by
    obtain ⟨last, hLast, rfl⟩ := RunAction.entering_eq_error hError
    exact hx.error { s with tally := s.tally.openCall label } e last hTable hLast

theorem block {visit : Statement → RunAction Unit} (policy : BranchPolicy) (b : Block)
    (hVisit : ∀ s ∈ b.statements, Blames table F (visit s)) : Blames table F (b.run policy visit) :=
  b.run_of_closed (Q := Blames table F) (pure ()) (fun _ _ hx hy => hx.bind fun _ => hy)
    (fun _ => onCopy) policy hVisit

end Blames

/-- The error names the place it comes from. -/
def ExecutionError.Located (tag : String) (limit : Nat) (table : FunctionTable) (main : Body)
    (e : ExecutionError) : Prop :=
  ∃ body s, e.At tag limit table main body s

/-- The body of an activation, how it was reached, and how many calls may be nested in it. -/
structure Activation.Runs (table : FunctionTable) (main : Body) (limit : Nat) (a : Activation)
    (body : Body) (room : Nat) : Prop where
  tag : a.tag = body.tag
  running : table.BodyOf main a.chain.getLast? body
  chain : CallChain table limit a.chain
  room : a.chain.length + room = limit

namespace Activation.Runs

variable {table : FunctionTable} {main body : Body} {limit room : Nat} {a : Activation}
  {s : Statement} {label : Label}

theorem start (table : FunctionTable) (main : Body) (limit : Nat) (program : String) :
    Runs table main limit ⟨program, [], main.tag⟩ main limit :=
  ⟨rfl, .main, .nil table limit, Nat.zero_add limit⟩

theorem enter (h : a.Runs table main limit body (room + 1)) {d : Definition}
    (hLookup : table.get? label = some d) (hFresh : label ∉ a.chain) :
    Runs table main limit ⟨a.program, a.chain ++ [label], d.body.tag⟩ d.body room := by
  have hRoom := h.room
  refine ⟨rfl, ?_, h.chain.push hLookup hFresh (by omega), ?_⟩
  · rw [List.getLast?_concat]
    exact .function hLookup
  · rw [List.length_append, List.length_singleton]
    omega

theorem located (h : a.Runs table main limit body room) (hs : s ∈ body.statements)
    {fault : Fault} (hFault : fault.Accounts limit table a.chain.getLast? s) :
    (a.error s fault).Located a.program limit table main :=
  ⟨body, s, rfl, h.running, hs, congrArg (fun tag => some (s.id tag)) h.tag, hFault⟩

theorem accounts_cycle (h : a.Runs table main limit body room) (hs : s.isCall = true)
    {cycle : List Label} (hCycle : CallStack.cycle? a.chain label = some cycle) :
    (Fault.recursiveCall cycle).Accounts limit table a.chain.getLast? s := by
  obtain ⟨before, between, hChain, rfl⟩ := CallStack.cycle?_eq_some hCycle
  have hDistinct := h.chain.distinct
  rw [hChain] at hDistinct ⊢
  refine ⟨hs, label, between, rfl, hDistinct.of_append_right, ?_⟩
  rw [List.getLast?_append_of_ne_nil before (List.cons_ne_nil _ _)]

theorem accounts_full (h : a.Runs table main limit body 0) (hs : s.isCall = true)
    (hFresh : label ∉ a.chain) :
    (Fault.callStackOverflow (a.chain ++ [label])).Accounts limit table a.chain.getLast? s := by
  refine ⟨hs, ?_, ?_, ?_⟩
  · rw [List.length_append, List.length_singleton, ← h.room]
  · rw [← List.concat_eq_append]
    exact h.chain.distinct.concat hFresh
  · rw [List.dropLast_concat]

end Activation.Runs

namespace Blames

variable {options : RunOptions} {table : FunctionTable} {main : Body}

theorem visit (hBodies : table.Runnable main) {a : Activation} {body : Body} {room : Nat}
    (hRuns : a.Runs table main options.maxCallDepth body room)
    {call : (Fault → ExecutionError) → Label → RunAction Unit} {s : Statement}
    (hs : s ∈ body.statements)
    (hCall : s.isCall = true → ∀ label,
      Blames table (·.Located a.program options.maxCallDepth table main) (call (a.error s) label)) :
    Blames table (·.Located a.program options.maxCallDepth table main)
      (RunAction.visit options a call s) := by
  constructor
  · intro state _ reached hTable hOk
    rcases RunAction.visit_eq_ok hOk with hLast | ⟨label, between, hFirst, hRest⟩
    · exact (RunAction.dispatch_keeps hLast).1.trans hTable
    · obtain ⟨hKept, hAsks⟩ := RunAction.dispatch_keeps hFirst
      exact (hCall (hAsks label rfl).1 label).ok between () reached (hKept.trans hTable) hRest
  · intro state e reached hTable hError
    rcases RunAction.visit_eq_error hError with hLast | ⟨label, between, hFirst, hRest⟩
    · rcases RunAction.dispatch_eq_error hLast with ⟨_, rfl, _⟩ | ⟨fault, env, hPerform, rfl, _⟩
      · exact hRuns.located hs trivial
      · exact hRuns.located hs ((hBodies _ body hRuns.running s hs).accounts
          (s.perform_meets options.axisCount _ _ _ hPerform) _ table)
    · obtain ⟨hKept, hAsks⟩ := RunAction.dispatch_keeps hFirst
      exact (hCall (hAsks label rfl).1 label).error between e reached (hKept.trans hTable) hRest

/-- A call is refused where it was asked for, or it fails where its function does. -/
theorem call_of_inner {a : Activation} {body : Body} {room : Nat}
    (hRuns : a.Runs table main options.maxCallDepth body room) {s : Statement}
    (hs : s ∈ body.statements) (hCall : s.isCall = true) (label : Label)
    (hInner : ∀ (inner : Nat) (d : Definition), room = inner + 1 →
      Activation.Runs table main options.maxCallDepth
        ⟨a.program, a.chain ++ [label], d.body.tag⟩ d.body inner →
      Blames table (·.Located a.program options.maxCallDepth table main)
        (d.body.block.run options.branchPolicy
          (RunAction.visit options ⟨a.program, a.chain ++ [label], d.body.tag⟩
            (RunAction.call options a.program inner (a.chain ++ [label]))))) :
    Blames table (·.Located a.program options.maxCallDepth table main)
      (RunAction.call options a.program room a.chain (a.error s) label) := by
  cases hLookup : table.get? label with
  | none =>
    have hAccounts : (Fault.undefinedFunction label).Accounts options.maxCallDepth table
        a.chain.getLast? s := ⟨hCall, hLookup⟩
    exact (throw (hRuns.located hs hAccounts)).of_eq
      fun _ hTable => RunAction.call_of_undefined (hTable ▸ hLookup)
  | some d =>
    cases hCycle : CallStack.cycle? a.chain label with
    | some cycle =>
      exact (throw (hRuns.located hs (hRuns.accounts_cycle hCall hCycle))).of_eq
        fun _ hTable => RunAction.call_of_cycle (hTable ▸ hLookup) hCycle
    | none =>
      have hFresh := (CallStack.cycle?_eq_none_iff a.chain label).mp hCycle
      cases room with
      | zero =>
        exact (throw (hRuns.located hs (hRuns.accounts_full hCall hFresh))).of_eq
          fun _ hTable => RunAction.call_of_full (hTable ▸ hLookup) hCycle
      | succ inner =>
        exact ((hInner inner d rfl (hRuns.enter hLookup hFresh)).entering label).of_eq
          fun _ hTable => RunAction.call_eq_enter (hTable ▸ hLookup) hCycle

theorem call (hBodies : table.Runnable main) {a : Activation} {body : Body} {room : Nat}
    (hRuns : a.Runs table main options.maxCallDepth body room) {s : Statement}
    (hs : s ∈ body.statements) (hCall : s.isCall = true) (label : Label) :
    Blames table (·.Located a.program options.maxCallDepth table main)
      (RunAction.call options a.program room a.chain (a.error s) label) := by
  -- the room falls with every call entered
  induction room generalizing a body s label with
  | zero => exact call_of_inner hRuns hs hCall label fun inner d h => by cases h
  | succ room ih =>
    refine call_of_inner hRuns hs hCall label fun inner d hInner hCallee => ?_
    cases hInner
    apply block
    intro t ht
    exact visit hBodies hCallee ht fun hAsks label' => ih hCallee ht hAsks label'

theorem body (hBodies : table.Runnable main) (program : String) :
    Blames table (·.Located program options.maxCallDepth table main)
      (RunAction.body options program main) := by
  have hRuns := Activation.Runs.start table main options.maxCallDepth program
  apply block
  intro s hs
  exact visit hBodies hRuns hs fun hAsks label => call hBodies hRuns hs hAsks label

end Blames

namespace Token

theorem Group.map_index_statementsFrom (index : Nat) (groups : List Group) :
    (statementsFrom index groups).map Statement.index = List.range' index groups.length := by
  induction groups generalizing index with
  | nil => rfl
  | cons g rest ih =>
    rw [statementsFrom, List.map_cons, ih, List.length_cons, List.range'_succ]
    rfl

end Token

/-- The statements of a program have different numbers. -/
theorem eq_of_index_eq {tag text : String} {statements : List Statement}
    (h : readProgram tag text = .ok statements) {s t : Statement} (hs : s ∈ statements)
    (ht : t ∈ statements) (hIndex : s.index = t.index) : s = t := by
  obtain ⟨groups, rfl, _⟩ := exists_groups_of_readProgram h
  have hDistinct : ((Token.Group.statementsFrom 0 groups).map Statement.index).Nodup := by
    rw [Token.Group.map_index_statementsFrom]
    exact List.nodup_range'
  exact List.inj_on_of_nodup_map hDistinct hs ht hIndex

theorem Body.Linked.not_jump {b : Body} (h : b.Linked) :
    ∀ s ∈ b.statements, ∀ form, s.kind ≠ .jump form :=
  (Block.derivable_of_regular h.regular).not_jump

/-- The body of a function of a font, or of a program. -/
structure Body.Executable (function : Option Label) (b : Body) : Prop where
  linked : b.Linked
  runnable : ∀ s ∈ b.statements, s.Runnable function
  numbered : ∀ s ∈ b.statements, ∀ t ∈ b.statements, s.index = t.index → s = t

theorem Font.executable_of_load {programs : List (String × String)} {cvt : List Int32}
    {font : Font} (h : load programs cvt = .ok font) {tag : String} {program : Program}
    (hProgram : font.programs.get? tag = some program) {function : Option Label} {body : Body}
    (hBody : font.functions.BodyOf program.body function body) : body.Executable function := by
  cases hBody with
  | main =>
    obtain ⟨text, statements, _, hRead, hBody⟩ := exists_readProgram_of_load h hProgram
    have hLinked := Body.linked_of_ofStatements hBody
    refine ⟨hLinked, fun s hs => ⟨hLinked.not_jump s hs, fun hNone => absurd rfl hNone⟩, ?_⟩
    rw [Body.statements_of_ofStatements hBody]
    exact fun s hs t ht => eq_of_index_eq hRead hs ht
  | @function label d hLookup =>
    have hMem := (FunctionTable.mem_of_get? hLookup).1
    rcases (addPrograms_extends h).functions with hNone | ⟨text, statements, _, hRead, hTable⟩
    · rw [hNone] at hMem
      cases hMem
    · have hFrom := (FunctionTable.readFrom_of_ofFontProgram hTable).definitions d hMem
      have hLinked := Body.linked_of_ofStatements hFrom.body
      exact ⟨hLinked, fun s hs => ⟨hLinked.not_jump s hs, fun _ => hFrom.inBody s hs⟩,
        fun s hs t ht => eq_of_index_eq hRead (hFrom.mem hs) (hFrom.mem ht)⟩

/-- Control always goes on to the THEN arm of an IF. -/
theorem Body.Linked.branches_eq_some {b : Body} (h : b.Linked) {position : Nat}
    (hKind : b.kindAt? position = some .ifStart) :
    ∃ next, (b.successors position).head? = some next ∧
      ∀ w r, Walking.Branches b position w r → ∀ next? t, r = .ok next? t → next? = some next := by
  have hShaped := Body.shaped_of_regular h.regular
  obtain ⟨branch, hMem, hPosition, hTargets⟩ := hShaped.ifs position hKind
  have hBranch := (hShaped.found position branch).mpr ⟨hMem, hPosition⟩
  rw [Branch.targets] at hTargets
  refine ⟨_, congrArg List.head? hTargets, ?_⟩
  rintro w _ hBranches next? t rfl
  cases hBranches with
  | bothArms _ hSuccessors =>
    rw [hTargets] at hSuccessors
    cases hSuccessors
    rfl
  | thenArm _ hSuccessors =>
    rw [hTargets] at hSuccessors
    cases hSuccessors
    rfl
  | straight hStraight => exact absurd hTargets (hStraight branch _ _ hBranch)

/-- A run fails for want of a program, or at the one statement that its error names. In no body
that it may run can control be lost at an IF. -/
theorem Session.execute_located {programs : List (String × String)} {cvt : List Int32}
    {font : Font} (hLoad : Font.load programs cvt = .ok font) (session : Session) (tag : String)
    {env : Environment} (hEnv : env.functions = font.functions) :
    (font.programs.get? tag = none → (session.execute font tag env).1.result =
      .error ⟨tag, none, none, .unknownProgram tag⟩) ∧
    ∀ program, font.programs.get? tag = some program →
      (∀ e, (session.execute font tag env).1.result = .error e →
        ∃ body s, e.At tag session.options.maxCallDepth font.functions program.body body s ∧
          ∀ t ∈ body.statements, e.statement = some (t.id body.tag) → t = s) ∧
      ∀ function body, font.functions.BodyOf program.body function body →
        ∀ position, body.kindAt? position = some .ifStart →
          ∃ next, (body.successors position).head? = some next ∧
            ∀ w r, Walking.Branches body position w r →
              ∀ next? t, r = .ok next? t → next? = some next := by
  constructor
  · intro hNone
    rw [execute, Font.run_of_unknown hNone]
  · intro program hProgram
    refine ⟨fun e hError => ?_, fun function body hBody position hKind =>
      (Font.executable_of_load hLoad hProgram hBody).linked.branches_eq_some hKind⟩
    have hBlames : Blames font.functions _ (RunAction.body session.options tag program.body) :=
      .body (fun _ _ hBody => (Font.executable_of_load hLoad hProgram hBody).runnable) tag
    cases hRun : RunAction.body session.options tag program.body { env } with
    | ok _ reached =>
      rw [execute, Font.run_of_ok hProgram hRun] at hError
      cases hError
    | error e' reached =>
      rw [execute, Font.run_of_error hProgram hRun] at hError
      cases hError
      obtain ⟨body, s, hAt⟩ := hBlames.error { env } e reached hEnv hRun
      refine ⟨body, s, hAt, fun t ht hId => ?_⟩
      have hSame : s.id body.tag = t.id body.tag := Option.some.inj (hAt.statement.symm.trans hId)
      have hIndex : s.index = t.index := Option.some.inj (congrArg StatementId.index? hSame)
      exact (Font.executable_of_load hLoad hProgram hAt.running).numbered t ht s hAt.mem hIndex.symm

/-- Function 1 calls function 0 again, in an ELSE arm that runs on a copy. -/
theorem Session.execute_located_recursive_else :
    ∃ (session : Session) (font : Font) (program : Program) (e : ExecutionError) (body : Body)
      (s : Statement), session.options.branchPolicy = .bothArms ∧
      Font.load
        [("fpgm", "PUSHB[ ] 1 0 FDEF[ ] PUSHB[ ] 5 1 CALL[ ] ENDF[ ] " ++
          "FDEF[ ] IF[ ] ELSE[ ] PUSHB[ ] 0 CALL[ ] EIF[ ] ENDF[ ]"),
          ("A", "PUSHB[ ] 0 CALL[ ]")] [] = .ok font ∧
      font.programs.get? "A" = some program ∧
      (session.execute font "A" font.initialEnvironment).1.result = .error e ∧
      e = ⟨"A", some 1, some ⟨"fpgm", some 9⟩, .recursiveCall [0, 1, 0]⟩ ∧
      e.At "A" 32 font.functions program.body body s ∧ s.index = 9 ∧
      body.kindAt? 0 = some .ifStart ∧
      ∃ next, (body.successors 0).head? = some next ∧
        ∀ w r, Walking.Branches body 0 w r → ∀ next? t, r = .ok next? t → next? = some next := by
  let session : Session := { options := { branchPolicy := .bothArms } }
  have hEvaluated : ((Font.load
      [("fpgm", "PUSHB[ ] 1 0 FDEF[ ] PUSHB[ ] 5 1 CALL[ ] ENDF[ ] " ++
        "FDEF[ ] IF[ ] ELSE[ ] PUSHB[ ] 0 CALL[ ] EIF[ ] ENDF[ ]"),
        ("A", "PUSHB[ ] 0 CALL[ ]")] []).toOption.bind fun font =>
        (font.programs.get? "A").bind fun _ =>
          (font.functions.get? 1).map fun d =>
            ((session.execute font "A" font.initialEnvironment).1.result, d.body.kindAt? 0)) =
      some (.error ⟨"A", some 1, some ⟨"fpgm", some 9⟩, .recursiveCall [0, 1, 0]⟩,
        some .ifStart) := by
    decide +kernel
  obtain ⟨font, hFont, hRest⟩ := Option.bind_eq_some_iff.mp hEvaluated
  obtain ⟨program, hProgram, hRest⟩ := Option.bind_eq_some_iff.mp hRest
  obtain ⟨d, hLookup, hRest⟩ := Option.map_eq_some_iff.mp hRest
  obtain ⟨hError, hKind⟩ := Prod.mk.inj hRest
  have hLoad := Action.eq_ok_of_toOption hFont
  have hEnv : font.initialEnvironment.functions = font.functions := rfl
  obtain ⟨_, hLocated⟩ := Session.execute_located hLoad session "A" hEnv
  obtain ⟨hErrors, hBranches⟩ := hLocated program hProgram
  obtain ⟨body, s, hAt, _⟩ := hErrors _ hError
  have hBody : body = d.body := by
    cases hAt.running with
    | function hOther =>
      rw [hLookup] at hOther
      cases hOther
      rfl
  have hIndex : s.index = 9 := by
    have hId := Option.some.inj hAt.statement
    exact (Option.some.inj (congrArg StatementId.index? hId)).symm
  exact ⟨session, font, program, _, body, s, rfl, hLoad, hProgram, hError, rfl, hAt, hIndex,
    hBody ▸ hKind, hBranches _ body hAt.running 0 (hBody ▸ hKind)⟩

end Hinting
