import PipeExpr.Machine.Run

/-!
# What a program reads of its context

A context reaches a run at one place only, the loading of a variable, and there through the name that
the program declares at an index.  So a machine over a context with the same values for the declared names
does the same, turn by turn: `step_context` says it of one instruction, and `runFrom_context` of a stream
with all the blocks that its handlers run, by induction on the turns.

Both are equations between parts of a run, and therefore hold in every state and on every way out.  The
order of a context, its other variables and what handlers do with the errors of their blocks need no cases
of their own.
-/

namespace PipeExpr

namespace Machine

section Contexts
variable {env : Env} {context : Fields Value}
  (h : ∀ name ∈ env.program.contextVars, env.context.get? name = context.get? name)
include h

/-- A declared variable is loaded alike. -/
theorem loadVar_context (runBlock : BlockRunner) (code : Code) (base : Nat) (operands : List Nat)
    (next : Nat) : step env runBlock code base ⟨.loadVar, operands⟩ next =
      step { env with context } runBlock code base ⟨.loadVar, operands⟩ next := by
  rw [step, step]
  cases hname : env.program.contextVars[(Instruction.mk .loadVar operands).slot 0]? with
  | none => rfl
  | some name =>
    have hvalue := h name (Array.mem_of_getElem? hname)
    simp only [require, pure_bind, hvalue]
    rfl

/-- **One instruction is carried out alike**, if blocks are run alike. -/
theorem step_context (runBlock : BlockRunner) (code : Code) (base : Nat) (i : Instruction)
    (next : Nat) : step env runBlock code base i next =
      step { env with context } runBlock code base i next := by
  obtain ⟨op, operands⟩ := i
  cases op with
  | loadVar => exact loadVar_context h runBlock code base operands next
  | _ => rfl

/-- **A stream runs alike**, with all the blocks that are run on the way. -/
theorem runFrom_context (fuel : Nat) : runFrom env fuel = runFrom { env with context } fuel := by
  induction fuel with
  | zero => rfl
  | succ fuel ih =>
    funext code base offset
    rw [runFrom, runFrom, ih]
    simp only [step_context h]

theorem execute_context (fuel : Nat) (code : Code) :
    execute env fuel code = execute { env with context } fuel code := by
  rw [execute, execute, runFrom_context h]

end Contexts

end Machine

open Machine

/-- **A program reads only the variables that it declares.**  Two contexts that agree on these, where both
may lack a name, give the same value or the same error.  This is so for runs of any length, and for every
part of them: a stream of the program, started in any state, leaves the same result and the same state. -/
theorem Program.run_eq_of_agree {p : Program} {context context' : Fields Value}
    (h : ∀ name ∈ p.contextVars, context.get? name = context'.get? name) (library : Library)
    (stackSize : Nat) :
    p.run library stackSize context = p.run library stackSize context' ∧
      ∀ (fuel : Nat) (code : Code) (s : State),
        execute ⟨library, stackSize, p, context⟩ fuel code s =
          execute ⟨library, stackSize, p, context'⟩ fuel code s := by
  let env : Env := ⟨library, stackSize, p, context⟩
  have hexecute : ∀ (fuel : Nat) (code : Code),
      execute env fuel code = execute { env with context := context' } fuel code :=
    @execute_context env context' h
  constructor
  · show (execute env p.fuel p.main .initial).1 = _
    rw [hexecute]
    rfl
  · intro fuel code s
    exact congrFun (hexecute fuel code) s

/-- The handler that evaluates its block once and takes null for any error. -/
def PipeHandler.forgive : PipeHandler := fun _ input =>
  .eval [("$last", input)] fun
    | .ok v => .value v
    | .error _ => .value .null

/-- A chain whose only stage asks for a variable that need not be there. -/
def Program.forgiven : Program where
  main := #[0x01, 0, 0, 0, 0x90, 0, 0, 0xFF, 0xFF, 0, 0]
  constants := #[.string "forgive"]
  contextVars := #["flag", "missing"]
  blocks := #[#[0x01, 0, 1, 0]]

/-- The error in the block is the same with and without a variable that the program does not name. -/
theorem Program.forgiven_run :
    (∀ name ∈ forgiven.contextVars, Fields.get? [("spare", .null), ("flag", .boolean true)] name =
      Fields.get? [("flag", Value.boolean true)] name) ∧
    forgiven.run (Library.empty.addHandler "forgive" .forgive) 1 [("spare", .null), ("flag", .boolean true)] =
      forgiven.run (Library.empty.addHandler "forgive" .forgive) 1 [("flag", .boolean true)] ∧
    forgiven.run (Library.empty.addHandler "forgive" .forgive) 1 [("flag", .boolean true)] = .ok .null := by
  have hagree : ∀ name ∈ forgiven.contextVars,
      Fields.get? [("spare", .null), ("flag", .boolean true)] name =
        Fields.get? [("flag", Value.boolean true)] name := by simp [forgiven, Fields.get?]
  exact ⟨hagree, (Program.run_eq_of_agree hagree _ _).1, rfl⟩

end PipeExpr
