import PipeExpr.Proofs.Bounded
import PipeExpr.Proofs.Rules
import PipeExpr.Proofs.Tables

/-!
# Running emitted code

Emitted code that stands in a stream puts the values of its plans on the stack, or fails as the
evaluation on a limited stack does (`Emits.leads`).  The proof is an induction along the derivation of
the code.  What an instruction does is said once, for the instructions that finish a node
(`Finish.Emits.finishes`) and for each kind of jump; everything else is composition of runs.

So a compiled expression has, as a program, the value that it has as a tree (`Expr.run_eq_eval`).
-/

namespace PipeExpr

open Compile (jumpSize strategy unaryOpcode)

namespace Machine

/-- What the machine evaluates expressions in. -/
def setting (env : Env) (s : State) : Setting :=
  ⟨env.library.functions, env.context, lookupLocal s⟩

@[simp] theorem setting_pushAll (env : Env) (s : State) (vs : List Value) :
    setting env (s.pushAll vs) = setting env s := rfl

/-! ## Instructions that end with a push -/

/-- A step that, whatever runs the blocks, puts a value on `s` and goes on at `next`, or fails above
`s`. -/
def Finishes (env : Env) (m : BlockRunner → Machine Nat) (s₀ : State) (next : Nat) (s : State) :
    Except RunError Value → Prop
  | .ok v => ∀ runBlock, m runBlock s₀ = (do push env v; return next : Machine Nat) s
  | .error e => ∃ extra, ∀ runBlock, m runBlock s₀ = (.error (.error e), s.pushAll extra)

section Steps
variable {env : Env} {code : Code} {base o o' next : Nat} {s s₀ : State} {i : Instruction}
  {row : List Instruction} {m : BlockRunner → Machine Nat} {r : Except RunError Value}

theorem Finishes.of_lift
    (h : ∀ runBlock, m runBlock s₀ = (do push env (← lift r); return next : Machine Nat) s) :
    Finishes env m s₀ next s r := by
  cases r with
  | ok v => exact h
  | error e => exact ⟨[], fun runBlock => by rw [h runBlock, State.pushAll_nil]; rfl⟩

theorem Leads.finish (hp : Placed code o (i :: row)) (ho : o < o')
    (h : Finishes env (fun runBlock => step env runBlock code base i (o + i.length)) s₀ o' s r) :
    Leads env code base o s₀ o' s
      (r >>= fun v => place env.stackSize s.stack.size v >>= fun v => pure [v]) := by
  cases r with
  | error e =>
    obtain ⟨extra, hstep⟩ := h
    exact .stop hp hstep ho
  | ok v =>
    show Leads env code base o s₀ o' s (place env.stackSize s.stack.size v >>= fun v => pure [v])
    by_cases hroom : s.stack.size < env.stackSize
    · have hplace : place env.stackSize s.stack.size v = .ok v := if_neg (Nat.not_le_of_lt hroom)
      rw [hplace]
      exact .turn hp (fun runBlock => (h runBlock).trans (bind_ok (push_room hroom))) ho (.done [v])
    · have hfull := Nat.le_of_not_lt hroom
      have hplace : place env.stackSize s.stack.size v = .error (.stackOverflow env.stackSize) :=
        if_pos hfull
      rw [hplace]
      have hstop : ∀ runBlock, step env runBlock code base i (o + i.length) s₀ =
          (.error (.error (.stackOverflow env.stackSize)), s.pushAll []) := fun runBlock => by
        rw [State.pushAll_nil]
        exact (h runBlock).trans (bind_error (push_full hfull))
      exact .stop hp hstop ho

theorem jumpTarget_eq {target : Nat} (h : target ≤ code.size) :
    jumpTarget code target = (return target : Machine Nat) :=
  if_neg (Nat.not_lt_of_le h)

end Steps

end Machine

open Machine

/-! ## What finishes a node -/

section Finish
variable {env : Env} {runBlock : BlockRunner} {code : Code} {base next : Nat} {s : State}

theorem step_unary (op : UnaryOp) : step env runBlock code base ⟨unaryOpcode op, []⟩ next =
    (do push env (← lift (op.apply (← pop base))); return next) := by
  cases op <;> rfl

/-- A truth value that is lifted before or after it becomes a value. -/
theorem lift_boolean {α : Type} (x : Except RunError Bool) (f : Value → Machine α) :
    (do f (.boolean (← lift x))) = (do f (← lift (.boolean <$> x))) := by
  cases x <;> rfl

theorem step_strict {op : BinaryOp} {c : Opcode} (h : strategy op = .strict c) :
    step env runBlock code base ⟨c, []⟩ next = (do
      let right ← pop base
      let left ← pop base
      push env (← lift (op.apply left right))
      return next) := by
  cases op <;> cases h <;>
    first
    | rfl
    | exact bind_congr fun right => bind_congr fun left =>
        lift_boolean _ fun v => do push env v; return next

/-- A function that is known is called with the values of its arguments. -/
theorem step_call {name : String} {f : HostFunction} {k : Nat} {vs : List Value}
    (hbase : base ≤ s.stack.size) (hname : env.program.nameAt? k = some name)
    (hf : env.library.functions.get? name = some f) :
    step env runBlock code base ⟨.call, [k, vs.length]⟩ next (s.pushAll vs) =
      (do push env (← lift ((setting env s).call name vs)); return next : Machine Nat) s := by
  refine (bind_ok (require_some hname _)).trans ((bind_ok (require_some hf _)).trans
    ((bind_ok (popMany_pushAll hbase)).trans ?_))
  simp only [Setting.call, setting, hf]
  cases f vs with
  | ok v => rfl
  | error e => rfl

/-- **What finishes a node takes the values of its parts and puts its value in their place.** -/
theorem Finish.Emits.finishes {finish : Finish} {vs : List Value} {t t' : Tables} {i : Instruction}
    (h : finish.Emits vs.length t i t') (hs : t'.Serves env.program) (hbase : base ≤ s.stack.size) :
    Finishes env (fun runBlock => step env runBlock code base i next) (s.pushAll vs) next s
      (finish.apply (setting env s) vs) := by
  generalize hlen : vs.length = n at h
  -- the operands are popped from the last one on
  have hpop : ∀ us v, pop base (s.pushAll (us ++ [v])) = (.ok v, s.pushAll us) :=
    fun _ _ => pop_pushAll hbase
  cases h with
  | unary _ op =>
    obtain ⟨v, rfl⟩ := List.length_eq_one_iff.mp hlen
    refine .of_lift fun runBlock => ?_
    rw [step_unary]
    refine (bind_ok (hpop [] v)).trans ?_
    rw [State.pushAll_nil]
    rfl
  | strict _ hop =>
    match vs, hlen with
    | [l, r], _ =>
      refine .of_lift fun runBlock => ?_
      rw [step_strict hop]
      refine (bind_ok (hpop [l] r)).trans ((bind_ok (hpop [] l)).trans ?_)
      rw [State.pushAll_nil]
      rfl
  | array _ hn =>
    subst hlen
    exact fun runBlock => bind_ok (popMany_pushAll hbase)
  | @object _ n hn =>
    have hmany : popMany base (n * 2) (s.pushAll vs) = (.ok vs, s) := by
      rw [Nat.mul_comm, ← hlen]
      exact popMany_pushAll hbase
    exact fun runBlock => bind_ok hmany
  | index _ flags =>
    match vs, hlen with
    | [target, key], _ =>
      refine .of_lift fun runBlock => ?_
      refine (bind_ok (hpop [target] key)).trans ((bind_ok (hpop [] target)).trans ?_)
      rw [State.pushAll_nil]
      show (do push env (← lift (Access.index _ _ (AccessFlags.ofNat flags.toNat))); return next :
        Machine Nat) s = _
      rw [AccessFlags.ofNat_toNat]
      rfl
  | slice _ flags =>
    match vs, hlen with
    | [target, start, stop, stride], _ =>
      refine .of_lift fun runBlock => ?_
      refine (bind_ok (hpop [target, start, stop] stride)).trans
        ((bind_ok (hpop [target, start] stop)).trans
        ((bind_ok (hpop [target] start)).trans ((bind_ok (hpop [] target)).trans ?_)))
      rw [State.pushAll_nil]
      show (do push env (← lift (Access.slice _ _ _ _ (AccessFlags.ofNat flags.toNat))); return next :
        Machine Nat) s = _
      rw [AccessFlags.ofNat_toNat]
      rfl
  | call t name hn hroom =>
    subst hlen
    have hname : env.program.nameAt? t.constants.size = some name := hs.nameAt? (nameAt?_push t name)
    cases hf : env.library.functions.get? name with
    | none =>
      have happly : Finish.apply (setting env s) (.call name) vs = .error (.unknownFunction name) := by
        simp only [Finish.apply, Setting.call, setting, hf]
      rw [happly]
      exact ⟨vs, fun runBlock =>
        (bind_ok (require_some hname _)).trans (bind_error (require_none hf _))⟩
    | some f =>
      exact .of_lift fun runBlock => step_call hbase hname hf

end Finish

/-! ## Variables and jumps -/

section Instructions
variable {env : Env} {code : Code} {base next target : Nat} {s : State} {t : Tables}

/-- A context variable is pushed, or null in its place where it may be missing. -/
theorem step_loadVar {name : String} {k : Nat} {flags : AccessFlags}
    (hslot : env.program.contextVars[k]? = some name) (hname : isLocalName name = false)
    (runBlock : BlockRunner) :
    step env runBlock code base ⟨.loadVar, [k, flags.toNat]⟩ next s =
      (do push env (← lift ((setting env s).lookup name (flags.optional || flags.soft))); return next :
        Machine Nat) s := by
  have hflags : AccessFlags.ofNat ((Instruction.mk .loadVar [k, flags.toNat]).slot 1) = flags :=
    AccessFlags.ofNat_toNat flags
  refine (bind_ok (require_some hslot s)).trans ?_
  simp only [hflags, Setting.lookup, setting, hname]
  cases env.context.get? name with
  | some v => rfl
  | none => cases flags.optional || flags.soft <;> rfl

/-- A local is pushed if it is bound. -/
theorem step_loadLocal {name : String} {k : Nat} (hat : env.program.nameAt? k = some name)
    (hname : isLocalName name = true) (lenient : Bool) (runBlock : BlockRunner) :
    step env runBlock code base ⟨.loadLocal, [k]⟩ next s =
      (do push env (← lift ((setting env s).lookup name lenient)); return next : Machine Nat) s := by
  have hstate : (get : Machine State) s = (.ok s, s) := rfl
  refine (bind_ok (require_some hat s)).trans ((bind_ok hstate).trans ?_)
  simp only [Setting.lookup, setting, hname, if_true]
  cases lookupLocal s name with
  | some v => rfl
  | none => rfl

variable (hbase : base ≤ s.stack.size) (htarget : target ≤ code.size)
include hbase

/-- A left side that decides is replaced by its truth, and the right side is left out. -/
theorem finishes_decisive {v : Value} {decisive : Bool} (htarget : target ≤ code.size)
    (hv : v.isTruthy = decisive) :
    Finishes env (fun runBlock => step env runBlock code base
      ⟨shortCircuitOpcode decisive, [target]⟩ next) (s.pushAll [v]) target s
      (.ok (.boolean decisive)) := by
  intro runBlock
  have hpeek : peek base (s.pushAll [v]) = (.ok v, s.pushAll [v]) := peek_top hbase
  have hpop : pop base (s.pushAll [v]) = (.ok v, s) := pop_top hbase
  have hjump := jumpTarget_eq htarget
  cases decisive with
  | false =>
    refine (bind_ok hpeek).trans ?_
    rw [hv]
    refine (bind_ok hpop).trans ?_
    rw [← hjump]
    rfl
  | true =>
    refine (bind_ok hpeek).trans ?_
    rw [hv]
    refine (bind_ok hpop).trans ?_
    rw [← hjump]
    rfl

/-- A left side that does not decide stays where it is. -/
theorem step_undecided {v : Value} {decisive : Bool} (hv : ¬ v.isTruthy = decisive)
    (runBlock : BlockRunner) : step env runBlock code base
      ⟨shortCircuitOpcode decisive, [target]⟩ next (s.pushAll [v]) = (.ok next, s.pushAll [v]) := by
  have hpeek : peek base (s.pushAll [v]) = (.ok v, s.pushAll [v]) := peek_top hbase
  cases decisive with
  | false =>
    refine (bind_ok hpeek).trans ?_
    rw [Bool.not_eq_false] at hv
    rw [hv]
    rfl
  | true =>
    refine (bind_ok hpeek).trans ?_
    rw [Bool.not_eq_true] at hv
    rw [hv]
    rfl

/-- Behind a left side that does not decide, the right side does. -/
theorem finishes_combine {l r : Value} {decisive : Bool} (hl : ¬ l.isTruthy = decisive) :
    Finishes env (fun runBlock => step env runBlock code base ⟨combineOpcode decisive, []⟩ next)
      (s.pushAll [l, r]) next s (.ok (.boolean r.isTruthy)) := by
  intro runBlock
  have hpop₁ : pop base (s.pushAll [l, r]) = (.ok r, s.pushAll [l]) :=
    @pop_pushAll base s r [l] hbase
  have hpop₂ : pop base (s.pushAll [l]) = (.ok l, s) := pop_top hbase
  cases decisive with
  | false =>
    refine (bind_ok hpop₁).trans ((bind_ok hpop₂).trans ?_)
    rw [Bool.not_eq_false] at hl
    rw [hl, Bool.true_and]
  | true =>
    refine (bind_ok hpop₁).trans ((bind_ok hpop₂).trans ?_)
    rw [Bool.not_eq_true] at hl
    rw [hl, Bool.false_or]

theorem step_jumpIfNotNull_null {v : Value} (hv : v.isNull = true) (runBlock : BlockRunner) :
    step env runBlock code base ⟨.jumpIfNotNull, [target]⟩ next (s.pushAll [v]) = (.ok next, s) := by
  have hpeek : peek base (s.pushAll [v]) = (.ok v, s.pushAll [v]) := peek_top hbase
  have hpop : pop base (s.pushAll [v]) = (.ok v, s) := pop_top hbase
  refine (bind_ok hpeek).trans ?_
  rw [hv]
  exact bind_ok hpop

include htarget

theorem step_jumpIfNotNull_value {v : Value} (hv : v.isNull = false) (runBlock : BlockRunner) :
    step env runBlock code base ⟨.jumpIfNotNull, [target]⟩ next (s.pushAll [v]) =
      (.ok target, s.pushAll [v]) := by
  have hpeek : peek base (s.pushAll [v]) = (.ok v, s.pushAll [v]) := peek_top hbase
  refine (bind_ok hpeek).trans ?_
  rw [hv]
  show jumpTarget code target _ = _
  rw [jumpTarget_eq htarget]
  rfl

theorem step_jumpIfFalse {v : Value} (runBlock : BlockRunner) :
    step env runBlock code base ⟨.jumpIfFalse, [target]⟩ next (s.pushAll [v]) =
      (.ok (if v.isTruthy then next else target), s) := by
  have hpop : pop base (s.pushAll [v]) = (.ok v, s) := pop_top hbase
  refine (bind_ok hpop).trans ?_
  cases v.isTruthy with
  | false =>
    show jumpTarget code target s = _
    rw [jumpTarget_eq htarget]
    rfl
  | true => rfl

omit hbase in
theorem step_jump (runBlock : BlockRunner) :
    step env runBlock code base ⟨.jump, [target]⟩ next s = (.ok target, s) := by
  show jumpTarget code target s = _
  rw [jumpTarget_eq htarget]
  rfl

end Instructions

/-! ## Code with jumps -/

section Branches
variable {env : Env} {code : Code} {base o o₁ target : Nat} {s : State} {a b : List Instruction}

/-- Code where a left side may decide, and else the right side does. -/
theorem Machine.Leads.junction {decisive : Bool} {l r : Except RunError Value}
    (hplaced : Placed code o₁
      (⟨shortCircuitOpcode decisive, [target]⟩ :: (b ++ [⟨combineOpcode decisive, []⟩])))
    (htarget : target = o₁ + jumpSize + rowSize b + 1) (hbase : base ≤ s.stack.size)
    (hl : Leads env code base o s o₁ s (l >>= fun v => pure [v]))
    (hr : ∀ v, Leads env code base (o₁ + jumpSize) (s.pushAll [v]) (o₁ + jumpSize + rowSize b)
      (s.pushAll [v]) (r >>= fun w => pure [w])) :
    Leads env code base o s target s (l >>= fun v =>
      (if v.isTruthy = decisive then place env.stackSize s.stack.size (.boolean decisive)
        else r >>= fun w => place env.stackSize s.stack.size (.boolean w.isTruthy)) >>=
          fun v => pure [v]) := by
  have hrest := hplaced.tail
  rw [length_shortCircuit] at hrest
  have hlast := hrest.right.lt_size
  have hcode : target ≤ code.size := by omega
  refine hl.value (by omega) fun v _ => ?_
  by_cases hv : v.isTruthy = decisive
  -- the left side decides, and the jump goes over the right one
  · rw [if_pos hv]
    exact .finish (r := .ok _) hplaced (by omega) (finishes_decisive hbase hcode hv)
  -- the right side runs above the value of the left one
  · rw [if_neg hv, bind_assoc]
    have hpos := Instruction.length_pos ⟨shortCircuitOpcode decisive, [target]⟩
    refine .turn hplaced (step_undecided hbase hv) (Nat.lt_add_of_pos_right hpos) ?_
    rw [length_shortCircuit]
    refine (hr v).value_above (by omega) fun w _ => ?_
    have hstop : o₁ + jumpSize + rowSize b + (Instruction.mk (combineOpcode decisive) []).length =
        target := by rw [length_combine, htarget]
    refine .finish (r := .ok _) hrest.right (by omega) ?_
    rw [hstop]
    exact finishes_combine hbase hv

/-- Code whose second part runs only if the value of the first one is null, in place of it. -/
theorem Machine.Leads.coalesce {l r : Except RunError Value}
    (hplaced : Placed code o₁ (⟨.jumpIfNotNull, [target]⟩ :: b))
    (htarget : target = o₁ + jumpSize + rowSize b) (hbase : base ≤ s.stack.size)
    (hl : Leads env code base o s o₁ s (l >>= fun v => pure [v]))
    (hr : Leads env code base (o₁ + jumpSize) s target s (r >>= fun w => pure [w])) :
    Leads env code base o s target s
      (l >>= fun v => (if v.isNull then r else pure v) >>= fun w => pure [w]) := by
  have hpos : 0 < jumpSize := by decide
  have hcode : target ≤ code.size := htarget ▸ hplaced.end_le_of_cons
  refine hl.value (by omega) fun v _ => ?_
  cases hv : v.isNull with
  | true =>
    exact .turn hplaced (step_jumpIfNotNull_null hbase hv) (Nat.lt_add_of_pos_right hpos) hr
  | false =>
    exact .turn hplaced (step_jumpIfNotNull_value hbase hcode hv) (by omega) (.done [v])

/-- Code of which one of two parts runs: behind a jump to the second one, and with a jump over it behind
the first one. -/
theorem Machine.Leads.choose {second final : Nat} {c x y : Except RunError Value}
    (hplaced : Placed code o₁ (⟨.jumpIfFalse, [second]⟩ :: (a ++ ⟨.jump, [final]⟩ :: b)))
    (hsecond : second = o₁ + jumpSize + rowSize a + jumpSize) (hfinal : final = second + rowSize b)
    (hbase : base ≤ s.stack.size)
    (hc : Leads env code base o s o₁ s (c >>= fun v => pure [v]))
    (hx : Leads env code base (o₁ + jumpSize) s (o₁ + jumpSize + rowSize a) s
      (x >>= fun w => pure [w]))
    (hy : Leads env code base second s final s (y >>= fun w => pure [w])) :
    Leads env code base o s final s
      (c >>= fun v => (if v.isTruthy then x else y) >>= fun w => pure [w]) := by
  have hpos : 0 < jumpSize := by decide
  have hrest : Placed code (o₁ + jumpSize) (a ++ ⟨.jump, [final]⟩ :: b) := hplaced.tail
  have hjump := hrest.right
  have hcode : final ≤ code.size := by
    rw [hfinal, hsecond]
    exact hjump.end_le_of_cons
  refine hc.value (by omega) fun v _ => ?_
  have hstep : ∀ runBlock, step env runBlock code base ⟨.jumpIfFalse, [second]⟩ (o₁ + jumpSize)
      (s.pushAll [v]) = (.ok (if v.isTruthy then o₁ + jumpSize else second), s) :=
    step_jumpIfFalse hbase (by omega)
  cases hv : v.isTruthy with
  | true =>
    rw [hv] at hstep
    refine .turn hplaced hstep (Nat.lt_add_of_pos_right hpos) (hx.value (by omega) fun w _ => ?_)
    exact .turn hjump (step_jump hcode) (by omega) (.done [w])
  | false =>
    rw [hv] at hstep
    have hlater : o₁ < second := by omega
    exact .turn hplaced hstep hlater hy

end Branches

/-! ## Emitted code -/

section Rows
variable {S : Setting} {size h : Nat}

theorem withinRow_singleton (p : Plan) :
    Plan.withinRow S size h [p] = (p.within S size h >>= fun v => pure [v]) := rfl

theorem withinRow_cons (p : Plan) (ps : List Plan) : Plan.withinRow S size h (p :: ps) =
    (Plan.withinRow S size h [p] >>= fun vs =>
      Plan.withinRow S size (h + vs.length) ps >>= fun ws => pure (vs ++ ws)) := by
  rw [withinRow_singleton, Plan.withinRow, bind_assoc]
  rfl

/-- The values of a row are that of the first plan and those of the others. -/
theorem withinRow_cons_ok {p : Plan} {ps : List Plan} {vs : List Value}
    (hrow : Plan.withinRow S size h (p :: ps) = .ok vs) : ∃ v ws, vs = v :: ws ∧ p.within S size h = .ok v ∧
      Plan.withinRow S size (h + 1) ps = .ok ws := by
  rw [Plan.withinRow] at hrow
  cases hp : p.within S size h with
  | error e => rw [hp] at hrow; cases hrow
  | ok v =>
    cases hps : Plan.withinRow S size (h + 1) ps with
    | error e => rw [hp, hps] at hrow; cases hrow
    | ok ws =>
      rw [hp, hps] at hrow
      cases hrow
      exact ⟨v, ws, rfl, rfl, rfl⟩

theorem length_withinRow {ps : List Plan} {vs : List Value}
    (hrow : Plan.withinRow S size h ps = .ok vs) : vs.length = ps.length := by
  induction ps generalizing h vs with
  | nil => cases hrow; rfl
  | cons p ps ih =>
    obtain ⟨v, ws, rfl, _, hws⟩ := withinRow_cons_ok hrow
    rw [List.length_cons, List.length_cons, ih hws]

end Rows

/-- **Emitted code computes its plans.**  Where it stands in a stream, it puts their values on the
stack or fails as their evaluation on the limited stack does. -/
theorem Emits.leads {env : Env} {code : Code} {base : Nat} {t t' : Tables} {o : Nat}
    {ps : List Plan} {row : List Instruction} (he : Emits t o ps row t') :
    t.contextVars.Valid → t'.Serves env.program → Placed code o row → ∀ {s : State},
    base ≤ s.stack.size → Leads env code base o s (o + rowSize row) s
      (Plan.withinRow (setting env s) env.stackSize s.stack.size ps) := by
  induction he with
  | nil t o =>
    intro _ _ _ s _
    have hdone : Leads env code base o (s.pushAll []) o s (.ok []) := .done []
    rwa [State.pushAll_nil] at hdone
  | @cons t t₁ t₂ o p ps a b ha hb iha ihb =>
    intro hv hs hplaced s hbase
    obtain ⟨_, hv₁⟩ := ha.serves hv
    have hs₁ := (hb.serves hv₁).1.trans hs
    rw [withinRow_cons, rowSize_append, ← Nat.add_assoc]
    -- the other plans run above the value of the first one
    refine (iha hv hs₁ hplaced.left hbase).bind (Nat.le_add_right _ _) fun vs _ => ?_
    have hbase' : base ≤ (s.pushAll vs).stack.size := by rw [State.size_pushAll]; omega
    have hrest := (ihb hv₁ hs hplaced.right hbase').above
    rwa [setting_pushAll, State.size_pushAll] at hrest
  | constant t o v hroom =>
    intro _ hs hplaced s _
    have hat : env.program.constants[t.constants.size]? = some v :=
      hs.constant (by simp [Tables.push])
    exact .finish hplaced (Nat.lt_add_of_pos_right (Instruction.length_pos _)) (r := .ok v)
      fun runBlock => bind_ok (require_some hat s)
  | pipeLocal t o flags hname hroom =>
    intro _ hs hplaced s _
    rw [withinRow_singleton, Plan.within, bind_assoc]
    exact .finish hplaced (Nat.lt_add_of_pos_right (Instruction.length_pos _))
      (.of_lift (step_loadLocal (hs.nameAt? (nameAt?_push t _)) hname _))
  | contextVar t o flags hname hroom =>
    intro hv hs hplaced s _
    rw [withinRow_singleton, Plan.within, bind_assoc]
    exact .finish hplaced (Nat.lt_add_of_pos_right (Instruction.length_pos _))
      (.of_lift (step_loadVar (hs.contextVar (NameTable.slot_get hv _)) hname))
  | @gather t t₁ t₂ o parts finish row i hparts hfinish ih =>
    intro hv hs hplaced s hbase
    have hsize : o + rowSize (row ++ [i]) = o + rowSize row + i.length := by simp [Nat.add_assoc]
    rw [withinRow_singleton, Plan.within, bind_assoc, hsize]
    have hrow := ih hv (hfinish.serves.1.trans hs) hplaced.left hbase
    refine hrow.bind (Nat.le_add_right _ _) fun vs hvs => ?_
    rw [← length_withinRow hvs] at hfinish
    rw [bind_assoc]
    exact .finish hplaced.right (Nat.lt_add_of_pos_right i.length_pos) (hfinish.finishes hs hbase)
  | @junction t t₁ t₂ o decisive left right a b target ha hb htarget _ iha ihb =>
    intro hv hs hplaced s hbase
    obtain ⟨_, hv₁⟩ := ha.serves hv
    have hs₁ := (hb.serves hv₁).1.trans hs
    have hend : o + rowSize (a ++ ⟨shortCircuitOpcode decisive, [target]⟩ ::
        (b ++ [⟨combineOpcode decisive, []⟩])) = target := by
      rw [rowSize_append, rowSize_cons, rowSize_append, rowSize_cons, rowSize_nil,
        length_shortCircuit, length_combine]
      omega
    rw [withinRow_singleton, Plan.within, bind_assoc, hend]
    refine .junction hplaced.right htarget hbase (iha hv hs₁ hplaced.left hbase) fun v => ?_
    have hrest := hplaced.right.tail
    rw [length_shortCircuit] at hrest
    have hbase' : base ≤ (s.pushAll [v]).stack.size := by rw [State.size_pushAll]; omega
    have hr := ihb hv₁ hs hrest.left hbase'
    rwa [setting_pushAll, State.size_pushAll] at hr
  | @coalesce t t₁ t₂ o left right a b target ha hb htarget _ iha ihb =>
    intro hv hs hplaced s hbase
    obtain ⟨_, hv₁⟩ := ha.serves hv
    have hs₁ := (hb.serves hv₁).1.trans hs
    have hend : o + rowSize (a ++ ⟨.jumpIfNotNull, [target]⟩ :: b) = target := by
      rw [rowSize_append, rowSize_cons, htarget, ← Nat.add_assoc, ← Nat.add_assoc]
      rfl
    rw [withinRow_singleton, Plan.within, bind_assoc, hend]
    refine .coalesce hplaced.right htarget hbase (iha hv hs₁ hplaced.left hbase) ?_
    exact htarget ▸ ihb hv₁ hs hplaced.right.tail hbase
  | @choose t t₁ t₂ t₃ o condition consequent alternate a b c second final ha hb hc hsecond hfinal
      _ _ iha ihb ihc =>
    intro hv hs hplaced s hbase
    obtain ⟨_, hv₁⟩ := ha.serves hv
    obtain ⟨_, hv₂⟩ := hb.serves hv₁
    have hs₂ := (hc.serves hv₂).1.trans hs
    have hs₁ := (hb.serves hv₁).1.trans hs₂
    have hend : o + rowSize (a ++ ⟨.jumpIfFalse, [second]⟩ :: (b ++ ⟨.jump, [final]⟩ :: c)) =
        final := by
      have hsize : (Instruction.mk .jumpIfFalse [second]).length = jumpSize := rfl
      have hsize' : (Instruction.mk .jump [final]).length = jumpSize := rfl
      rw [rowSize_append, rowSize_cons, rowSize_append, rowSize_cons, hsize, hsize']
      omega
    have hrest : Placed code (o + rowSize a + jumpSize) (b ++ ⟨.jump, [final]⟩ :: c) :=
      hplaced.right.tail
    have halternate : Placed code second c := hsecond ▸ hrest.right.tail
    rw [withinRow_singleton, Plan.within, bind_assoc, hend]
    exact .choose hplaced.right hsecond hfinal hbase (iha hv hs₁ hplaced.left hbase)
      (ihb hv₁ hs₂ hrest.left hbase) (hfinal ▸ ihc hv₂ hs halternate hbase)

/-! ## Programs of expressions -/

/-- The stream of a plan gives its value in a frame of its own, and leaves the machine as it was. -/
theorem Emits.frame_eq {env : Env} {t t' : Tables} {p : Plan} {row : List Instruction} {fuel : Nat}
    (he : Emits t 0 [p] row t') (hv : t.contextVars.Valid) (hs : t'.Serves env.program)
    (hfuel : (streamOf row).size < fuel) (s : State) :
    frame (fun base => runFrom env fuel (streamOf row) base 0) s =
      ((p.within (setting env s) env.stackSize s.stack.size).mapError .error, s) := by
  have hplaced : Placed (streamOf row) 0 row := .streamOf fun i hi => (he.plain hv i hi).fits
  have hleads := he.leads hv hs hplaced (Nat.le_refl s.stack.size)
  rw [Nat.zero_add, ← size_streamOf hplaced.fits] at hleads
  exact frame_of_leads hfuel hleads

/-- A program that is the code of a plan evaluates it on a limited stack. -/
theorem Emits.run_eq {p : Plan} {row : List Instruction} {t : Tables} (he : Emits .empty 0 [p] row t)
    (library : Library) (stackSize : Nat) (context : Fields Value) :
    (programOf row [] t).run library stackSize context =
      (p.within ⟨library.functions, context, fun _ => none⟩ stackSize 0).mapError .error := by
  have hserves : t.Serves (programOf row [] t) := ⟨List.prefix_rfl, List.prefix_rfl⟩
  have hfuel : (streamOf row).size < (programOf row [] t).fuel := by
    simp only [Program.fuel, programOf]
    omega
  exact congrArg Prod.fst (he.frame_eq NameTable.empty_valid hserves hfuel State.initial)

section Expressions
variable {e : Expr} {p : Program} {library : Library} {stackSize : Nat} {context : Fields Value}

/-- The program of an expression evaluates its plan on a limited stack. -/
theorem Expr.run_eq_within (hroot : e.isPipe = false) (h : e.compile = .ok p) :
    p.run library stackSize context =
      ((e.plan false).within ⟨library.functions, context, fun _ => none⟩ stackSize 0).mapError
        .error := by
  obtain ⟨main, blocks, t, _, rfl, hemits⟩ := Expr.emits_of_compile h
  generalize main.toList = row at hemits ⊢
  cases hemits with
  | expr _ he => exact he.run_eq library stackSize context
  | empty | chain => cases hroot

/-- **Compiled expressions mean what their trees mean.**  Unless the stack is too small, the program
of an expression ends, and gives the value of the expression or fails with its failure. -/
theorem Expr.run_eq_eval (hroot : e.isPipe = false) (h : e.compile = .ok p)
    (hroom : p.run library stackSize context ≠ .error (.error (.stackOverflow stackSize))) :
    p.run library stackSize context =
      (e.eval ⟨library.functions, context, fun _ => none⟩ false).mapError .error := by
  rw [Expr.run_eq_within hroot h] at hroom ⊢
  have hwithin : UpToOverflow stackSize
      ((e.plan false).within ⟨library.functions, context, fun _ => none⟩ stackSize 0)
      (e.eval ⟨library.functions, context, fun _ => none⟩ false) := Expr.plan_within e false 0
  rw [hwithin.eq fun hover => hroom (by rw [hover]; rfl)]

end Expressions

/-- A conditional whose condition is decided by the right side, and whose chosen branch is what a null
leaves to compare. -/
def comparison : Expr :=
  .conditional ⟨1, 1⟩
    (.binary ⟨1, 1⟩ .or (.null ⟨1, 1⟩) (.array ⟨1, 9⟩ [.boolean ⟨1, 10⟩ false]))
    (.binary ⟨1, 19⟩ .nullCoalesce (.null ⟨1, 19⟩)
      (.binary ⟨1, 27⟩ .equal (.string ⟨1, 27⟩ "a" default) (.string ⟨1, 34⟩ "b" default)))
    (.null ⟨1, 40⟩)

theorem comparison_run : ∃ p, comparison.compile = .ok p ∧
    comparison.eval ⟨Library.basic.functions, [], fun _ => none⟩ false = .ok (.boolean false) ∧
    p.run .basic 2 [] =
      (comparison.eval ⟨Library.basic.functions, [], fun _ => none⟩ false).mapError .error := by
  have hc : comparison.compile = .ok _ := rfl
  refine ⟨_, hc, rfl, Expr.run_eq_eval rfl hc ?_⟩
  rw [Expr.run_eq_within rfl hc]
  exact nofun

end PipeExpr
