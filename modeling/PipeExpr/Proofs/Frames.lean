import PipeExpr.Proofs.Fields
import PipeExpr.Proofs.Safety

/-!
# What a frame keeps

A frame works above the height at which it starts.  Nothing of what lies below is changed, and nothing
of it is read: with other values in their places the frame does the same.  Both are said at once
(`Confined`) by an outcome and a state above the base that serve for whatever lies below.

It holds of every program, compiled or not, of every instruction, and of every way out of it, errors
included.  So the evaluation of a block leaves the stack and the scopes as they were
(`Program.evaluation_restores`), and only the aliases of the pipe instructions in it change the scope
below all blocks.  What it does on the way is said about the turns that it takes (`Visits`).
-/

namespace PipeExpr

namespace Machine

/-! ## Parts of a run above a base -/

/-- A state with other values below its stack. -/
def State.over (s : State) (under : Array Value) : State := { s with stack := under ++ s.stack }

/-- What is kept of a state above `base` values: there is no more on the stack than fits or was there, no
scope is opened, closed or changed, the innermost one apart, and unless `P` nothing is bound below the
blocks under way. -/
structure Kept (env : Env) (base : Nat) (P : Prop) (s s' : State) : Prop where
  size : base + s'.stack.size ≤ max env.stackSize (base + s.stack.size)
  depth : s'.scopes.length = s.scopes.length
  scopes : s'.scopes.tail = s.scopes.tail
  aliases : s.scopes ≠ [] → ¬ P → s'.base = s.base

/-- A part of a run that neither changes nor reads what lies below a base. -/
def Confined {α : Type} (env : Env) (base : Nat) (P : Prop) (x : Machine α) : Prop :=
  ∀ s, ∃ r s', (∀ under, under.size = base → x (s.over under) = (r, s'.over under)) ∧
    Kept env base P s s'

namespace State

variable (s : State) (under : Array Value)

@[simp] theorem over_size : (s.over under).stack.size = under.size + s.stack.size := by simp [State.over]

@[simp] theorem over_pushAll (vs : List Value) : (s.pushAll vs).over under = (s.over under).pushAll vs := by
  simp [State.over, pushAll, Array.append_assoc]

end State

section Rules
variable {α β : Type} {env : Env} {base : Nat} {P : Prop} {s s₁ s₂ : State}

namespace Kept

theorem refl (s : State) : Kept env base P s s := ⟨by omega, rfl, rfl, fun _ _ => rfl⟩

theorem scopes_ne_nil (h : Kept env base P s s₁) (hscopes : s.scopes ≠ []) : s₁.scopes ≠ [] := by
  have hlength := h.depth
  rw [← List.length_pos_iff] at hscopes ⊢
  omega

theorem trans (h₁ : Kept env base P s s₁) (h₂ : Kept env base P s₁ s₂) : Kept env base P s s₂ where
  size := by
    have := h₁.size
    have := h₂.size
    omega
  depth := h₂.depth.trans h₁.depth
  scopes := h₂.scopes.trans h₁.scopes
  aliases hscopes hP := (h₂.aliases (h₁.scopes_ne_nil hscopes) hP).trans (h₁.aliases hscopes hP)

theorem of_stack (hsize : base + s₁.stack.size ≤ max env.stackSize (base + s.stack.size))
    (hscopes : s₁.scopes = s.scopes) (hbase : s₁.base = s.base) : Kept env base P s s₁ :=
  ⟨hsize, by rw [hscopes], by rw [hscopes], fun _ _ => hbase⟩

/-- Values above a state are taken off. -/
theorem of_pushAll (s : State) (vs : List Value) : Kept env base P (s.pushAll vs) s := by
  refine .of_stack ?_ rfl rfl
  rw [State.size_pushAll]
  omega

end Kept

theorem peek_empty (h : s.stack.size ≤ base) :
    Machine.peek base s = (.error (.error .stackUnderflow), s) := by
  show (if s.stack.size ≤ base then Machine.fail _ else Machine.require _ _ : Machine Value) s = _
  rw [if_pos h]
  rfl

theorem popMany_short {n : Nat} (h : s.stack.size < base + n) :
    Machine.popMany base n s = (.error (.error .stackUnderflow), s) := by
  show (if s.stack.size < base + n then Machine.fail _ else _ : Machine (List Value)) s = _
  rw [if_pos h]
  rfl

namespace Confined

/-- A part of a run that only gives a result. -/
theorem of_same {x : Machine α} (r : Except Halt α) (h : ∀ s, x s = (r, s)) : Confined env base P x :=
  fun s => ⟨r, s, fun under _ => h (s.over under), .refl s⟩

theorem pure (v : α) : Confined env base P (Pure.pure v) := of_same (.ok v) fun _ => rfl

theorem fail (e : RunError) : Confined env base P (Machine.fail e : Machine α) :=
  of_same (.error (.error e)) fun _ => rfl

theorem lift (x : Except RunError α) : Confined env base P (Machine.lift x) := by
  cases x with
  | ok v => exact pure v
  | error e => exact fail e

theorem require (x : Option α) (e : RunError) : Confined env base P (Machine.require x e) := by
  cases x with
  | some v => exact pure v
  | none => exact fail e

theorem mono {Q : Prop} {x : Machine α} (hx : Confined env base P x) (h : P → Q) :
    Confined env base Q x := by
  intro s
  obtain ⟨r, s', hrun, hkept⟩ := hx s
  exact ⟨r, s', hrun, hkept.size, hkept.depth, hkept.scopes,
    fun hscopes hQ => hkept.aliases hscopes fun hP => hQ (h hP)⟩

/-- What is left of a state that has something below the base. -/
theorem keeps {x : Machine α} {r : Except Halt α} (hx : Confined env base P x)
    (hbase : base ≤ s.stack.size) (h : x s = (r, s₁)) :
    Kept env 0 P s s₁ ∧ base ≤ s₁.stack.size ∧ ∀ j < base, s₁.stack[j]? = s.stack[j]? := by
  obtain ⟨under, above, hunder, hs⟩ : ∃ (under : Array Value) (above : State), under.size = base ∧
      s = above.over under := by
    refine ⟨s.stack.extract 0 base, { s with stack := s.stack.extract base }, by simp; omega, ?_⟩
    simp [State.over, Nat.max_eq_right hbase]
  obtain ⟨r', above', hrun, hkept⟩ := hx above
  rw [hs, hrun under hunder] at h
  obtain ⟨rfl, rfl⟩ := Prod.mk.inj h
  subst hs
  refine ⟨⟨?_, hkept.depth, hkept.scopes, hkept.aliases⟩, ?_, fun j hj => ?_⟩
  · rw [State.over_size, State.over_size, hunder, Nat.zero_add, Nat.zero_add]
    exact hkept.size
  · rw [State.over_size]
    omega
  · simp only [State.over]
    rw [Array.getElem?_append_left (by omega), Array.getElem?_append_left (by omega)]

theorem bind {x : Machine α} {f : α → Machine β} (hx : Confined env base P x)
    (hf : ∀ v, Confined env base P (f v)) : Confined env base P (x >>= f) := by
  intro s
  obtain ⟨r, s₁, hrun, hkept⟩ := hx s
  cases r with
  | error halt => exact ⟨.error halt, s₁, fun under hunder => bind_error (hrun under hunder), hkept⟩
  | ok v =>
    obtain ⟨r, s₂, hrun₂, hkept₂⟩ := hf v s₁
    exact ⟨r, s₂, fun under hunder => (bind_ok (hrun under hunder)).trans (hrun₂ under hunder),
      hkept.trans hkept₂⟩

/-- The value of a local does not depend on the stack. -/
theorem readLocal {f : Value → Machine β} (name : String) (e : RunError)
    (hf : ∀ v, Confined env base P (f v)) :
    Confined env base P (get >>= fun s => Machine.require (lookupLocal s name) e >>= f) :=
  fun s => (require (lookupLocal s name) e).bind hf s

theorem nameOperand (index : Nat) : Confined env base P (Machine.nameOperand env index) :=
  require _ _

theorem jumpTarget (code : Code) (target : Nat) :
    Confined env base P (Machine.jumpTarget code target) := by
  unfold Machine.jumpTarget
  split
  · exact fail _
  · exact pure _

/-! ### The stack -/

theorem push (v : Value) : Confined env base P (Machine.push env v) := by
  intro s
  by_cases hroom : base + s.stack.size < env.stackSize
  · refine ⟨.ok (), s.pushAll [v], fun under hunder => ?_, .of_stack ?_ rfl rfl⟩
    · rw [State.over_pushAll]
      exact push_room (by rw [State.over_size]; omega)
    · rw [State.size_pushAll, List.length_singleton]
      omega
  · refine ⟨.error (.error (.stackOverflow env.stackSize)), s, fun under hunder => ?_, .refl s⟩
    exact push_full (by rw [State.over_size]; omega)

theorem peek : Confined env base P (Machine.peek base) := by
  intro s
  by_cases hempty : s.stack.size = 0
  · refine ⟨.error (.error .stackUnderflow), s, fun under hunder => ?_, .refl s⟩
    exact peek_empty (by rw [State.over_size]; omega)
  · obtain ⟨s₀, v, rfl⟩ := State.exists_top (Nat.pos_of_ne_zero hempty)
    refine ⟨.ok v, s₀.pushAll [v], fun under hunder => ?_, .refl _⟩
    rw [State.over_pushAll]
    exact peek_top (by rw [State.over_size]; omega)

theorem pop : Confined env base P (Machine.pop base) := by
  intro s
  by_cases hempty : s.stack.size = 0
  · refine ⟨.error (.error .stackUnderflow), s, fun under hunder => ?_, .refl s⟩
    exact bind_error (peek_empty (by rw [State.over_size]; omega))
  · obtain ⟨s₀, v, rfl⟩ := State.exists_top (Nat.pos_of_ne_zero hempty)
    refine ⟨.ok v, s₀, fun under hunder => ?_, .of_pushAll s₀ [v]⟩
    rw [State.over_pushAll]
    exact pop_top (by rw [State.over_size]; omega)

theorem popMany (n : Nat) : Confined env base P (Machine.popMany base n) := by
  intro s
  by_cases hshort : s.stack.size < n
  · refine ⟨.error (.error .stackUnderflow), s, fun under hunder => ?_, .refl s⟩
    exact popMany_short (by rw [State.over_size]; omega)
  · obtain ⟨s₀, vs, rfl, rfl⟩ := State.exists_pushAll (Nat.le_of_not_lt hshort)
    refine ⟨.ok vs, s₀, fun under hunder => ?_, .of_pushAll s₀ vs⟩
    rw [State.over_pushAll]
    exact popMany_pushAll (by rw [State.over_size]; omega)

/-- Binding a local changes the innermost scope, and the one below all blocks if there is none. -/
theorem bindLocal (name : String) (v : Value) :
    Confined env base P (modify fun s => Machine.bindLocal s name v) := by
  rintro ⟨stack, scopes, below⟩
  cases scopes with
  | nil => exact ⟨.ok (), ⟨stack, [], below.insert name v⟩, fun _ _ => rfl,
      ⟨Nat.le_max_right _ _, rfl, rfl, fun h => absurd rfl h⟩⟩
  | cons scope rest => exact ⟨.ok (), ⟨stack, scope.insert name v :: rest, below⟩, fun _ _ => rfl,
      ⟨Nat.le_max_right _ _, rfl, rfl, fun _ _ => rfl⟩⟩

/-- An alias is bound below all blocks. -/
theorem bindAlias (hP : P) (name : String) (v : Value) :
    Confined env base P (modify fun s => { s with base := s.base.insert name v }) :=
  fun s => ⟨.ok (), { s with base := s.base.insert name v }, fun _ _ => rfl,
    ⟨Nat.le_max_right _ _, rfl, rfl, fun _ h => absurd hP h⟩⟩

end Confined

/-! ## Blocks -/

/-- A part of a run that leaves the stack and the scopes as they are, and does not depend on the values on
the stack. -/
def Transparent (x : Machine α) : Prop :=
  ∀ s : State, ∃ r below, ∀ stack : Array Value, stack.size = s.stack.size →
    x { s with stack := stack } = (r, { s with stack := stack, base := below })

theorem Transparent.confined (hP : P) {x : Machine α} (hx : Transparent x) :
    Confined env base P x := by
  intro s
  obtain ⟨under₀, hunder₀⟩ : ∃ under : Array Value, under.size = base :=
    ⟨Array.replicate base .null, Array.size_replicate⟩
  obtain ⟨r, b, hrun⟩ := hx (s.over under₀)
  refine ⟨r, { s with base := b }, fun under hunder => ?_,
    ⟨Nat.le_max_right _ _, rfl, rfl, fun _ h => absurd hP h⟩⟩
  exact hrun (under ++ s.stack) (by rw [Array.size_append, State.over_size, hunder, hunder₀])

/-- **A frame leaves the stack as it was**, whatever happens in it, and does not depend on the values
below. -/
theorem frame_confined {run : Nat → Machine Unit} (hrun : ∀ base, Confined env base P (run base))
    (s : State) : ∃ r s', Kept env 0 P s s' ∧
      ∀ stack : Array Value, stack.size = s.stack.size →
        frame run { s with stack := stack } = (r, { s' with stack := stack }) := by
  obtain ⟨r, s', heq, hkept⟩ := hrun s.stack.size { s with stack := #[] }
  have hkept' : Kept env 0 P s { s' with stack := s.stack } :=
    ⟨Nat.le_max_right _ _, hkept.depth, hkept.scopes, hkept.aliases⟩
  have hrun' : ∀ stack : Array Value, stack.size = s.stack.size →
      run s.stack.size { s with stack := stack } = (r, s'.over stack) := by
    intro stack hsize
    rw [← heq stack hsize]
    simp [State.over]
  have hcut : ∀ stack : Array Value, stack.size = s.stack.size →
      { s'.over stack with stack := (s'.over stack).stack.shrink s.stack.size } =
        { s' with stack := stack } := by
    intro stack hsize
    simp [State.over, ← hsize]
  unfold frame
  cases r with
  -- an error: the stack is cut back to the base
  | error halt =>
    refine ⟨.error halt, _, hkept', fun stack hsize => ?_⟩
    simp only [hsize, hrun' stack hsize, hcut stack hsize]
  | ok _ =>
    by_cases hempty : s'.stack.size = 0
    -- nothing is there to be taken off
    · refine ⟨.error (.error .stackUnderflow), _, hkept', fun stack hsize => ?_⟩
      have hover : s'.over stack = { s' with stack := stack } := by
        simp [State.over, Array.eq_empty_of_size_eq_zero hempty]
      have hpop : pop s.stack.size (s'.over stack) = (.error (.error .stackUnderflow), s'.over stack) :=
        bind_error (peek_empty (by rw [State.over_size]; omega))
      rw [hover] at hpop
      simp only [hsize, hrun' stack hsize, hover, hpop]
    · obtain ⟨s₀, v, rfl⟩ := State.exists_top (Nat.pos_of_ne_zero hempty)
      have hpop : ∀ stack : Array Value, stack.size = s.stack.size →
          pop s.stack.size ((s₀.pushAll [v]).over stack) = (.ok v, s₀.over stack) := by
        intro stack hsize
        rw [State.over_pushAll]
        exact pop_top (by rw [State.over_size]; omega)
      by_cases hone : s₀.stack.size = 0
      · refine ⟨.ok v, _, hkept', fun stack hsize => ?_⟩
        have hover : s₀.over stack = { s₀ with stack := stack } := by
          simp [State.over, Array.eq_empty_of_size_eq_zero hone]
        simp only [hsize, hrun' stack hsize, hpop stack hsize, hover, if_true]
        rfl
      · refine ⟨.error (.error (.malformed .extraValues)), _, hkept', fun stack hsize => ?_⟩
        have hextra : ¬ (s₀.over stack).stack.size = s.stack.size := by
          rw [State.over_size]
          omega
        simp only [hsize, hrun' stack hsize, hpop stack hsize, if_neg hextra]
        simp [State.over, State.pushAll, ← hsize]

theorem inScope_transparent {run : Nat → Machine Unit} (hrun : ∀ base, Confined env base P (run base))
    (bindings : Fields Value) : Transparent (inScope bindings (frame run)) := by
  intro s
  obtain ⟨r, s', hkept, heq⟩ :=
    frame_confined hrun { s with scopes := Fields.ofList bindings :: s.scopes }
  refine ⟨r, s'.base, fun stack hsize => ?_⟩
  have hscopes : s'.scopes.tail = s.scopes := hkept.scopes
  unfold inScope
  simp only [heq stack hsize, hscopes]

/-- **A handler leaves the machine as it was**, however often it has the block evaluated. -/
theorem answer_transparent {evalBlock : Machine Value}
    (h : ∀ bindings, Transparent (inScope bindings evalBlock)) (prog : PipeProgram) :
    Transparent (answer evalBlock prog) := by
  induction prog with
  | done outcome =>
    intro s
    refine ⟨outcome.mapError .error, s.base, fun stack _ => ?_⟩
    cases outcome <;> rfl
  | eval bindings next ih =>
    intro s
    obtain ⟨r, b, hscope⟩ := h bindings s
    cases hr : r with
    | error halt =>
      cases halt with
      | outOfFuel =>
        refine ⟨.error .outOfFuel, b, fun stack hsize => ?_⟩
        rw [answer]
        simp only [hscope stack hsize, hr]
      | error e =>
        obtain ⟨r₂, b₂, hnext⟩ := ih (.error e) { s with base := b }
        refine ⟨r₂, b₂, fun stack hsize => ?_⟩
        rw [answer]
        simp only [hscope stack hsize, hr, hnext stack hsize]
    | ok v =>
      obtain ⟨r₂, b₂, hnext⟩ := ih (.ok v) { s with base := b }
      refine ⟨r₂, b₂, fun stack hsize => ?_⟩
      rw [answer]
      simp only [hscope stack hsize, hr, hnext stack hsize]

end Rules

/-! ## Instructions -/

section Instructions
variable {env : Env} {runBlock : BlockRunner} {code : Code} {base next : Nat} {i : Instruction}
  {P : Prop}

theorem stage_confined (hP : P)
    (hblocks : ∀ block bindings, Transparent (inScope bindings (runBlock block))) :
    Confined env base P (stage env runBlock base i) := by
  refine .bind (.nameOperand _) fun name => ?_
  refine .bind (.require _ _) fun handler => ?_
  refine .bind (.require _ _) fun block => ?_
  refine .bind .pop fun input => ?_
  refine .bind ((answer_transparent (hblocks block) _).confined hP) fun output => ?_
  by_cases hnone : i.slot 1 = noAlias
  · rw [if_neg (not_not_intro hnone)]
    exact .push output
  · rw [if_pos hnone]
    refine .bind (.nameOperand _) fun bound => ?_
    exact .bind (.bindAlias hP bound output) fun _ => .push output

/-- **Every instruction keeps to what stands above the base**, and only pipe instructions bind anything
below the blocks. -/
theorem step_confined
    (hblocks : ∀ block bindings, Transparent (inScope bindings (runBlock block))) :
    Confined env base (i.opcode = .pipe) (step env runBlock code base i next) := by
  obtain ⟨op, operands⟩ := i
  cases op with
  | constant => exact .bind (.require _ _) fun v => .bind (.push v) fun _ => .pure _
  | loadVar =>
    refine .bind (.require _ _) fun name => ?_
    dsimp only
    split
    · exact .bind (.push _) fun _ => .pure _
    · split
      · exact .bind (.push _) fun _ => .pure _
      · exact .bind (.fail _) fun _ => .pure _
  | loadLocal =>
    refine .bind (.nameOperand _) fun name => .readLocal name _ fun v => ?_
    exact .bind (.push v) fun _ => .pure _
  | storeLocal =>
    refine .bind (.nameOperand _) fun name => .bind .peek fun v => ?_
    exact .bind (.bindLocal name v) fun _ => .pure _
  | pop => exact .bind .pop fun _ => .pure _
  | add | sub | mul | div | mod | pow | bitAnd | bitOr | bitXor | shiftLeft | shiftRight
  | equal | notEqual | less | greater | lessEqual | greaterEqual | index =>
    refine .bind .pop fun right => .bind .pop fun left => ?_
    exact .bind (.lift _) fun v => .bind (.push _) fun _ => .pure _
  | negate | not | bitNot =>
    exact .bind .pop fun v => .bind (.lift _) fun w => .bind (.push _) fun _ => .pure _
  | and | or =>
    refine .bind .pop fun right => .bind .pop fun left => ?_
    exact .bind (.push _) fun _ => .pure _
  | jump => exact .jumpTarget _ _
  | jumpIfFalse =>
    refine .bind .pop fun condition => ?_
    split
    · exact .pure _
    · exact .jumpTarget _ _
  | andShortCircuit =>
    refine .bind .peek fun v => ?_
    split
    · exact .pure _
    · exact .bind .pop fun _ => .bind (.push _) fun _ => .jumpTarget _ _
  | orShortCircuit =>
    refine .bind .peek fun v => ?_
    split
    · exact .bind .pop fun _ => .bind (.push _) fun _ => .jumpTarget _ _
    · exact .pure _
  | jumpIfNotNull =>
    refine .bind .peek fun v => ?_
    split
    · exact .bind .pop fun _ => .pure _
    · exact .jumpTarget _ _
  | array | object => exact .bind (.popMany _) fun vs => .bind (.push _) fun _ => .pure _
  | slice =>
    refine .bind .pop fun stepSize => .bind .pop fun stop => ?_
    refine .bind .pop fun start => .bind .pop fun target => ?_
    exact .bind (.lift _) fun v => .bind (.push v) fun _ => .pure _
  | call =>
    refine .bind (.nameOperand _) fun name => .bind (.require _ _) fun f => ?_
    refine .bind (.popMany _) fun arguments => ?_
    dsimp only
    split
    · exact .bind (.push _) fun _ => .pure _
    · exact .bind (.fail _) fun _ => .pure _
  | pipe => exact .bind (stage_confined rfl hblocks) fun _ => .pure _

end Instructions

/-! ## Streams -/

theorem runFrom_confined (env : Env) (fuel : Nat) (code : Code) (base o : Nat) :
    Confined env base True (runFrom env fuel code base o) := by
  induction fuel generalizing code base o with
  | zero => exact .of_same (.error .outOfFuel) fun _ => rfl
  | succ fuel ih =>
    unfold runFrom
    split
    · split
      · exact .fail _
      · refine .bind (.mono (step_confined fun block bindings => ?_) fun _ => trivial) (ih code base)
        exact inScope_transparent (fun base => ih block base 0) bindings
    · exact .pure _

/-- **The evaluation of a block leaves the machine as it was**, and does not depend on the values on
the stack. -/
theorem evalBlock_transparent (env : Env) (fuel : Nat) (block : Code) (bindings : Fields Value) :
    Transparent (inScope bindings (execute env fuel block)) :=
  inScope_transparent (fun base => runFrom_confined env fuel block base 0) bindings

/-! ## Turns -/

/-- A point of a run: the stream and the base of a frame, the offset of the next instruction, and the
state of the machine. -/
structure Turn where
  code : Code
  base : Nat
  offset : Nat
  state : State

namespace Turn

/-- Whether an instruction is the next one. -/
def Reads (t : Turn) (i : Instruction) : Prop :=
  t.offset < t.code.size ∧ decodeAt t.code t.offset = .ok i

/-- What the instruction does; blocks have the given fuel. -/
def outcome (env : Env) (fuel : Nat) (t : Turn) (i : Instruction) : Except Halt Nat × State :=
  step env (execute env fuel) t.code t.base i (t.offset + i.length) t.state

/-- The first turn of a block that is evaluated under bindings. -/
def ofBlock (block : Code) (bindings : Fields Value) (s : State) : Turn :=
  ⟨block, s.stack.size, 0, { s with scopes := Fields.ofList bindings :: s.scopes }⟩

end Turn

/-- The questions that a handler asks: `Asks evalBlock prog s bindings s'` if, started in `s`, it has the
block evaluated under `bindings` in `s'`. -/
inductive Asks (evalBlock : Machine Value) : PipeProgram → State → Fields Value → State → Prop where
  | first {bindings : Fields Value} {next : Except RunError Value → PipeProgram} (s : State) :
    Asks evalBlock (.eval bindings next) s bindings s
  | afterValue {bindings asked : Fields Value} {next : Except RunError Value → PipeProgram}
    {s s₁ s₂ : State} {v : Value} (hrun : inScope bindings evalBlock s = (.ok v, s₁))
    (h : Asks evalBlock (next (.ok v)) s₁ asked s₂) : Asks evalBlock (.eval bindings next) s asked s₂
  | afterError {bindings asked : Fields Value} {next : Except RunError Value → PipeProgram}
    {s s₁ s₂ : State} {e : RunError} (hrun : inScope bindings evalBlock s = (.error (.error e), s₁))
    (h : Asks evalBlock (next (.error e)) s₁ asked s₂) : Asks evalBlock (.eval bindings next) s asked s₂

/-- Whether the instruction of a turn has a block evaluated, under these bindings in this state. -/
structure Turn.Opens (env : Env) (fuel : Nat) (t : Turn) (i : Instruction) (block : Code)
    (bindings : Fields Value) (s : State) : Prop where
  reads : t.Reads i
  opcode : i.opcode = .pipe
  asks : ∃ name handler input s₁, env.program.nameAt? (i.slot 0) = some name ∧
    env.library.handlers.get? name = some handler ∧ env.program.blocks[i.slot 2]? = some block ∧
    pop t.base t.state = (.ok input, s₁) ∧
    Asks (execute env fuel block) (handler name input) s₁ bindings s

/-- The turns of a run, those of the blocks that are evaluated in it included, and what an instruction
that fails leaves. -/
inductive Visits (env : Env) : Nat → Turn → Turn → Prop where
  | here (fuel : Nat) (t : Turn) : Visits env fuel t t
  | next {fuel o : Nat} {t u : Turn} {i : Instruction} {s : State} (hi : t.Reads i)
    (hstep : t.outcome env fuel i = (.ok o, s)) (h : Visits env fuel ⟨t.code, t.base, o, s⟩ u) :
    Visits env (fuel + 1) t u
  | failed {fuel : Nat} {t : Turn} {i : Instruction} {s : State} {halt : Halt} (hi : t.Reads i)
    (hstep : t.outcome env fuel i = (.error halt, s)) :
    Visits env (fuel + 1) t ⟨t.code, t.base, t.offset, s⟩
  | block {fuel : Nat} {t u : Turn} {i : Instruction} {block : Code} {bindings : Fields Value}
    {s : State} (hopens : t.Opens env fuel i block bindings s)
    (h : Visits env fuel (.ofBlock block bindings s) u) : Visits env (fuel + 1) t u

/-- Whether a pipe instruction that comes up in a run binds its result to a name. -/
def Turn.Binds (env : Env) (fuel : Nat) (t : Turn) (name : String) : Prop :=
  ∃ u i, Visits env fuel t u ∧ u.Reads i ∧ i.opcode = .pipe ∧ i.slot 1 ≠ noAlias ∧
    env.program.nameAt? (i.slot 1) = some name

section Turns
variable {env : Env} {fuel : Nat} {t u w : Turn}

/-- A turn that works above the base of another one, and leaves alone what lies below. -/
structure Turn.Above (env : Env) (t u : Turn) : Prop where
  base : t.base ≤ u.base
  stack : u.base ≤ u.state.stack.size
  room : u.state.stack.size ≤ max env.stackSize t.state.stack.size
  below : ∀ j < t.base, u.state.stack[j]? = t.state.stack[j]?

theorem Turn.Above.refl (h : t.base ≤ t.state.stack.size) : t.Above env t :=
  ⟨Nat.le_refl _, h, Nat.le_max_right _ _, fun _ _ => rfl⟩

theorem Turn.Above.trans (h₁ : t.Above env u) (h₂ : u.Above env w) : t.Above env w where
  base := h₁.base.trans h₂.base
  stack := h₂.stack
  room := by
    have := h₁.room
    have := h₂.room
    omega
  below j hj := (h₂.below j (Nat.lt_of_lt_of_le hj h₁.base)).trans (h₁.below j hj)

theorem Turn.outcome_keeps {i : Instruction} {r : Except Halt Nat} {s : State}
    (hbase : t.base ≤ t.state.stack.size) (h : t.outcome env fuel i = (r, s)) (o : Nat) :
    t.Above env ⟨t.code, t.base, o, s⟩ ∧ Kept env 0 (i.opcode = .pipe) t.state s := by
  obtain ⟨hkept, hstack, hbelow⟩ := (step_confined (evalBlock_transparent env fuel)).keeps hbase h
  refine ⟨⟨Nat.le_refl _, hstack, ?_, hbelow⟩, hkept⟩
  have := hkept.size
  show s.stack.size ≤ _
  omega

/-- The state in which a handler asks differs from the one in which it starts by its aliases only. -/
theorem Asks.same {evalBlock : Machine Value} {prog : PipeProgram} {s s' : State}
    {bindings : Fields Value} (hblock : ∀ bindings, Transparent (inScope bindings evalBlock))
    (h : Asks evalBlock prog s bindings s') : s'.stack = s.stack ∧ s'.scopes = s.scopes := by
  have hsame : ∀ {bindings : Fields Value} {s s₁ : State} {r : Except Halt Value},
      inScope bindings evalBlock s = (r, s₁) → s₁.stack = s.stack ∧ s₁.scopes = s.scopes := by
    intro bindings s s₁ r hrun
    obtain ⟨r', below, heq⟩ := hblock bindings s
    rw [heq s.stack rfl] at hrun
    obtain ⟨_, rfl⟩ := Prod.mk.inj hrun
    exact ⟨rfl, rfl⟩
  induction h with
  | first s => exact ⟨rfl, rfl⟩
  | afterValue hrun _ ih | afterError hrun _ ih =>
    obtain ⟨hstack, hscopes⟩ := hsame hrun
    exact ⟨ih.1.trans hstack, ih.2.trans hscopes⟩

theorem Turn.Opens.above {i : Instruction} {block : Code} {bindings : Fields Value} {s : State}
    (hbase : t.base ≤ t.state.stack.size) (h : t.Opens env fuel i block bindings s) :
    t.Above env (.ofBlock block bindings s) := by
  obtain ⟨_, _, _, _, _, _, _, hpop, hasks⟩ := h.asks
  have hconfined : Confined env t.base True (pop t.base) := .pop
  obtain ⟨hkept, hstack, hbelow⟩ := hconfined.keeps hbase hpop
  obtain ⟨hsame, _⟩ := hasks.same (evalBlock_transparent env fuel block)
  have hroom := hkept.size
  refine ⟨?_, Nat.le_refl _, ?_, fun j hj => ?_⟩
  · show t.base ≤ s.stack.size
    rw [hsame]
    exact hstack
  · show s.stack.size ≤ _
    rw [hsame]
    omega
  · show s.stack[j]? = _
    rw [hsame]
    exact hbelow j hj

/-- **Every turn of a run works above the base of the first one.** -/
theorem Visits.above (h : Visits env fuel t u) (hbase : t.base ≤ t.state.stack.size) :
    t.Above env u := by
  induction h with
  | here => exact .refl hbase
  | @next fuel o t u i s hi hstep _ ih =>
    have hnext := (Turn.outcome_keeps hbase hstep o).1
    exact hnext.trans (ih hnext.stack)
  | failed hi hstep => exact (Turn.outcome_keeps hbase hstep _).1
  | block hopens _ ih =>
    have hblock := hopens.above hbase
    exact hblock.trans (ih hblock.stack)

end Turns

/-! ## Aliases -/

/-- A part of a run that, started above a base with a block under way, binds nothing to a name below the
blocks. -/
def Leaves {α : Type} (name : String) (base : Nat) (x : Machine α) (s : State) : Prop :=
  base ≤ s.stack.size → s.scopes ≠ [] → ∀ r s', x s = (r, s') →
    base ≤ s'.stack.size ∧ s'.scopes ≠ [] ∧ s'.base.get? name = s.base.get? name

section Aliases
variable {α β : Type} {env : Env} {name : String} {base fuel : Nat} {s : State} {t : Turn}

theorem Confined.leaves {x : Machine α} (hx : Confined env base False x) : Leaves name base x s := by
  intro hbase hscopes r s' hrun
  obtain ⟨hkept, hstack, _⟩ := hx.keeps hbase hrun
  exact ⟨hstack, hkept.scopes_ne_nil hscopes, by rw [hkept.aliases hscopes id]⟩

theorem Leaves.bind {x : Machine α} {f : α → Machine β} (hx : Leaves name base x s)
    (hf : ∀ v s', x s = (.ok v, s') → Leaves name base (f v) s') : Leaves name base (x >>= f) s := by
  intro hbase hscopes r s' hrun
  rcases hfirst : x s with ⟨halt | v, s₁⟩
  · rw [bind_error hfirst] at hrun
    obtain ⟨_, rfl⟩ := Prod.mk.inj hrun
    exact hx hbase hscopes _ _ hfirst
  · rw [bind_ok hfirst] at hrun
    obtain ⟨hbase₁, hscopes₁, hname₁⟩ := hx hbase hscopes _ _ hfirst
    obtain ⟨hbase₂, hscopes₂, hname₂⟩ := hf v s₁ hfirst hbase₁ hscopes₁ r s' hrun
    exact ⟨hbase₂, hscopes₂, hname₂.trans hname₁⟩

theorem require_ok {y : Option α} {e : RunError} {v : α} {s' : State}
    (h : require y e s = (.ok v, s')) : y = some v ∧ s' = s := by
  cases y with
  | none => cases h
  | some w =>
    cases h
    exact ⟨rfl, rfl⟩

/-- A handler binds what its questions bind. -/
theorem answer_leaves (env : Env) {evalBlock : Machine Value} {prog : PipeProgram}
    (h : ∀ bindings s', Asks evalBlock prog s bindings s' →
      Leaves name base (inScope bindings evalBlock) s') :
    Leaves name base (answer evalBlock prog) s := by
  induction prog generalizing s with
  | done outcome =>
    have hdone : Confined env base False (lift outcome) := .lift outcome
    exact hdone.leaves
  | eval bindings next ih =>
    intro hbase hscopes r s' hrun
    rw [answer] at hrun
    rcases hfirst : inScope bindings evalBlock s with ⟨(e | _) | v, s₁⟩
    all_goals
      have hleaves := h bindings s (.first s) hbase hscopes _ _ hfirst
      simp only [hfirst] at hrun
    · obtain ⟨hbase₁, hscopes₁, hname₁⟩ := hleaves
      have hrest := ih (.error e) (fun asked s' hasks => h asked s' (.afterError hfirst hasks)) hbase₁
        hscopes₁ r s' hrun
      exact ⟨hrest.1, hrest.2.1, hrest.2.2.trans hname₁⟩
    · obtain ⟨_, rfl⟩ := Prod.mk.inj hrun
      exact hleaves
    · obtain ⟨hbase₁, hscopes₁, hname₁⟩ := hleaves
      have hrest := ih (.ok v) (fun asked s' hasks => h asked s' (.afterValue hfirst hasks)) hbase₁
        hscopes₁ r s' hrun
      exact ⟨hrest.1, hrest.2.1, hrest.2.2.trans hname₁⟩

theorem pop_base (base : Nat) (s : State) : (pop base s).2.base = s.base := by
  by_cases hempty : s.stack.size ≤ base
  · have hpop : pop base s = (.error (.error .stackUnderflow), s) := bind_error (peek_empty hempty)
    rw [hpop]
  · obtain ⟨s₀, v, rfl⟩ := State.exists_top (show 0 < s.stack.size by omega)
    rw [State.size_pushAll, List.length_singleton] at hempty
    have hpop : pop base (s₀.pushAll [v]) = (.ok v, s₀) := pop_top (by omega)
    rw [hpop]
    rfl

theorem frame_base (run : Nat → Machine Unit) (s : State) :
    (frame run s).2.base = (run s.stack.size s).2.base := by
  unfold frame
  rcases hrun : run s.stack.size s with ⟨halt | _, s'⟩
  · simp only [hrun]
  · have hpop := pop_base s.stack.size s'
    rcases htaken : pop s.stack.size s' with ⟨halt | v, s''⟩
    all_goals
      rw [htaken] at hpop
      simp only [hrun, htaken]
    · exact hpop
    · split <;> exact hpop

/-- What a block binds below the blocks is what its stream binds. -/
theorem evalBlock_base (env : Env) (fuel : Nat) (block : Code) (bindings : Fields Value) (s : State) :
    (inScope bindings (execute env fuel block) s).2.base =
      (runFrom env fuel block s.stack.size 0
        { s with scopes := Fields.ofList bindings :: s.scopes }).2.base :=
  frame_base (fun base => runFrom env fuel block base 0)
    { s with scopes := Fields.ofList bindings :: s.scopes }

/-- An instruction binds what pipe instructions bind that come up in it. -/
theorem Turn.outcome_leaves {i : Instruction} (hi : t.Reads i)
    (hblocks : ∀ u : Turn, ¬ u.Binds env fuel name → u.base ≤ u.state.stack.size →
      u.state.scopes ≠ [] → (runFrom env fuel u.code u.base u.offset u.state).2.base.get? name =
        u.state.base.get? name)
    (hno : ¬ t.Binds env (fuel + 1) name) :
    Leaves name t.base (step env (execute env fuel) t.code t.base i (t.offset + i.length)) t.state := by
  by_cases hpipe : i.opcode = .pipe
  · have hstep : step env (execute env fuel) t.code t.base i (t.offset + i.length) =
        (do stage env (execute env fuel) t.base i; return t.offset + i.length) := by
      unfold step
      rw [hpipe]
    have hsame : ∀ {α : Type} (x : Option α) (e : RunError) (s : State),
        Leaves name t.base (require x e) s := by
      intro α x e s
      have hx : Confined env t.base False (require x e) := .require x e
      exact hx.leaves
    have hpush : ∀ v s, Leaves name t.base (push env v) s := by
      intro v s
      have hv : Confined env t.base False (push env v) := .push v
      exact hv.leaves
    rw [hstep]
    refine Leaves.bind ?_ fun _ s _ hbase hscopes r s' hrun => ?_
    · refine Leaves.bind (hsame _ _ _) fun pipe s₁ hrun₁ => ?_
      obtain ⟨hname, rfl⟩ := require_ok hrun₁
      refine Leaves.bind (hsame _ _ _) fun handler s₂ hrun₂ => ?_
      obtain ⟨hget, rfl⟩ := require_ok hrun₂
      refine Leaves.bind (hsame _ _ _) fun block s₃ hrun₃ => ?_
      obtain ⟨hblock, rfl⟩ := require_ok hrun₃
      have hpop : Confined env t.base False (pop t.base) := .pop
      refine Leaves.bind hpop.leaves fun input s₄ hinput => ?_
      refine Leaves.bind (answer_leaves env fun bindings s' hasks hbase hscopes r s'' hrun => ?_)
        fun output s₅ _ => ?_
      -- a question binds what the turns of the block bind
      · have hopens : t.Opens env fuel i block bindings s' :=
          ⟨hi, hpipe, pipe, handler, input, s₄, hname, hget, hblock, hinput, hasks⟩
        have hbinds : ¬ (Turn.ofBlock block bindings s').Binds env fuel name := by
          rintro ⟨u, j, hvisits, hrest⟩
          exact hno ⟨u, j, .block hopens hvisits, hrest⟩
        have hbelow := hblocks _ hbinds (Nat.le_refl _) (List.cons_ne_nil _ _)
        have hstored := evalBlock_base env fuel block bindings s'
        obtain ⟨r', below, htransparent⟩ := evalBlock_transparent env fuel block bindings s'
        rw [htransparent s'.stack rfl] at hrun hstored
        obtain ⟨_, rfl⟩ := Prod.mk.inj hrun
        exact ⟨hbase, hscopes, (congrArg (Fields.get? · name) hstored).trans hbelow⟩
      · by_cases hnone : i.slot 1 = noAlias
        · rw [if_neg (not_not_intro hnone)]
          exact hpush output s₅
        · rw [if_pos hnone]
          refine Leaves.bind (hsame _ _ _) fun bound s₆ hrun₆ => ?_
          obtain ⟨hbound, rfl⟩ := require_ok hrun₆
          refine Leaves.bind (fun hbase hscopes r s' hrun => ?_) fun _ s₇ _ => hpush output s₇
          obtain ⟨_, rfl⟩ := Prod.mk.inj hrun
          have hne : bound ≠ name := by
            rintro rfl
            exact hno ⟨t, i, .here _ t, hi, hpipe, hnone, hbound⟩
          exact ⟨hbase, hscopes, by rw [Fields.get?_insert, if_neg hne]⟩
    · obtain ⟨_, rfl⟩ := Prod.mk.inj hrun
      exact ⟨hbase, hscopes, rfl⟩
  · exact ((step_confined (evalBlock_transparent env fuel)).mono hpipe).leaves

/-- **Below the blocks only pipe instructions that come up bind anything.** -/
theorem runFrom_leaves (hno : ¬ t.Binds env fuel name) (hbase : t.base ≤ t.state.stack.size)
    (hscopes : t.state.scopes ≠ []) :
    (runFrom env fuel t.code t.base t.offset t.state).2.base.get? name = t.state.base.get? name := by
  induction fuel generalizing t with
  | zero => rfl
  | succ fuel ih =>
    by_cases hlt : t.offset < t.code.size
    · cases hread : decodeAt t.code t.offset with
      | error e =>
        rw [runFrom, if_pos hlt, hread]
        rfl
      | ok i =>
        have hi : t.Reads i := ⟨hlt, hread⟩
        have hleaves := Turn.outcome_leaves hi (fun u => ih) hno hbase hscopes
        rw [runFrom_succ hread hlt]
        rcases hstep : t.outcome env fuel i with ⟨halt | o, s⟩
        · have hend := @bind_error _ _ _ (runFrom env fuel t.code t.base) _ _ _ hstep
          exact (congrArg (fun x => x.2.base.get? name) hend).trans (hleaves _ _ hstep).2.2
        · have hnext := @bind_ok _ _ _ (runFrom env fuel t.code t.base) _ _ _ hstep
          obtain ⟨hbase', hscopes', hname⟩ := hleaves _ _ hstep
          have hrest : ¬ (Turn.mk t.code t.base o s).Binds env fuel name := by
            rintro ⟨u, j, hvisits, hrest⟩
            exact hno ⟨u, j, .next hi hstep hvisits, hrest⟩
          exact (congrArg (fun x => x.2.base.get? name) hnext).trans
            ((ih hrest hbase' hscopes').trans hname)
    · rw [runFrom_end hlt]

end Aliases

end Machine

/-! ## Programs -/

open Machine

namespace Program

/-- **The evaluation of a block restores the machine**, whatever the program, the state and the outcome
are.  The outcome does not depend on the values on the stack, and these stay where they are.  The scopes
of the blocks under way stay as they are, and below them only pipe instructions that come up in the
evaluation bind anything.  All that the evaluation does happens above the stack that it finds, and there is
never more on it than fits or was there.  In the same way a run leaves nothing behind. -/
theorem evaluation_restores (p : Program) (library : Library) (stackSize : Nat)
    (context : Fields Value) :
    (∀ (fuel : Nat) (block : Code) (bindings : Fields Value) (s : State), ∃ outcome below,
      (∀ stack : Array Value, stack.size = s.stack.size →
        inScope bindings (execute ⟨library, stackSize, p, context⟩ fuel block)
          { s with stack := stack } = (outcome, { s with stack := stack, base := below })) ∧
      (∀ name, below.get? name ≠ s.base.get? name →
        (Turn.ofBlock block bindings s).Binds ⟨library, stackSize, p, context⟩ fuel name) ∧
      (∀ u, Visits ⟨library, stackSize, p, context⟩ fuel (.ofBlock block bindings s) u →
        s.stack.size ≤ u.base ∧ u.base ≤ u.state.stack.size ∧
        u.state.stack.size ≤ max stackSize s.stack.size ∧
        ∀ j < s.stack.size, u.state.stack[j]? = s.stack[j]?)) ∧
    ∀ store, (p.runOn library stackSize context store).2 = ⟨#[], []⟩ := by
  constructor
  · intro fuel block bindings s
    let env : Env := ⟨library, stackSize, p, context⟩
    obtain ⟨outcome, below, htransparent⟩ := evalBlock_transparent env fuel block bindings s
    refine ⟨outcome, below, htransparent, fun name hname => ?_, fun u hu => ?_⟩
    · by_contra hno
      have hbelow := runFrom_leaves hno (Nat.le_refl _) (List.cons_ne_nil _ _)
      have hstored := evalBlock_base env fuel block bindings s
      rw [htransparent s.stack rfl] at hstored
      exact hname ((congrArg (Fields.get? · name) hstored).trans hbelow)
    · obtain ⟨hbase, hstack, hroom, hbelow⟩ := hu.above (Nat.le_refl _)
      exact ⟨hbase, hstack, hroom, hbelow⟩
  · intro store
    let env : Env := ⟨library, stackSize, p, context⟩
    obtain ⟨outcome, s, _, hrun⟩ := frame_confined (fun base => runFrom_confined env p.fuel p.main base 0)
      .initial
    have hmain : execute env p.fuel p.main .initial = _ := hrun #[] rfl
    unfold runOn
    rw [hmain]

/-- A program with a block that fails when there are two operands of its own on the stack. -/
def stumble : Program where
  main := #[]
  constants := #[.null, .string "$missing"]
  blocks := #[#[0x00, 0, 0, 0x00, 0, 0, 0x02, 0, 1]]

theorem stumble_restores :
    (∃ outcome below, inScope [] (execute ⟨.basic, 4, stumble, []⟩ 8 stumble.blocks[0]!)
      ⟨#[.boolean true], [[("$item", .null)]], []⟩ =
        (outcome, ⟨#[.boolean true], [[("$item", .null)]], below⟩)) ∧
    (stumble.runOn .basic 4 [] ⟨#[.boolean true], []⟩).2 = ⟨#[], []⟩ := by
  obtain ⟨hblocks, hrun⟩ := stumble.evaluation_restores .basic 4 []
  obtain ⟨outcome, below, hrestores, _⟩ := hblocks 8 stumble.blocks[0]! []
    ⟨#[.boolean true], [[("$item", .null)]], []⟩
  exact ⟨⟨outcome, below, hrestores #[.boolean true] rfl⟩, hrun _⟩

end Program

end PipeExpr
