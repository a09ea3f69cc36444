import PipeExpr.Evaluate
import PipeExpr.Proofs.Emission
import PipeExpr.Proofs.Frames
import PipeExpr.Proofs.Parts
import PipeExpr.Proofs.WellFormedValues

/-!
# Runs keep values well-formed

A machine that holds well-formed values holds such values after every instruction, whichever way the run goes on,
errors included, and so do the scopes in which blocks run (`Machine.step_keepsForm`).  So **a run has a
well-formed value, if it has one**, of any program whose constants are well-formed, in any context of well-formed
values, with any library that keeps them well-formed (`Program.run_wellFormed`).

The constants of compiled programs are scalars (`Expr.compile_constants`).  So what is asked of values by the
laws of equality holds of all values that come up in evaluation (`evaluate_wellFormed`).
-/

namespace PipeExpr

namespace Machine

/-- A machine that holds well-formed values only. -/
structure State.WellFormed (s : State) : Prop where
  stack : ∀ v ∈ s.stack, v.WellFormed
  scopes : ∀ scope ∈ s.scopes, ∀ x ∈ scope, x.2.WellFormed
  base : ∀ x ∈ s.base, x.2.WellFormed

/-- An environment with well-formed values, and with a library that keeps values well-formed. -/
structure Env.WellFormed (env : Env) : Prop where
  constants : ∀ v ∈ env.program.constants, v.WellFormed
  context : ∀ x ∈ env.context, x.2.WellFormed
  library : env.library.KeepsForm

/-- **A part of a run that keeps a machine well-formed**, whether it has a result or not, and only has results
with a property. -/
def KeepsForm {α : Type} (P : α → Prop) (x : Machine α) : Prop :=
  ∀ s, s.WellFormed → (x s).2.WellFormed ∧ Yields P (x s).1

theorem State.initial_wellFormed : State.initial.WellFormed :=
  ⟨fun v hv => absurd hv (Array.not_mem_empty v), fun _ h => absurd h List.not_mem_nil,
    fun _ h => absurd h List.not_mem_nil⟩

/-- What is on top of a stack and what is below are well-formed if all of it is. -/
theorem State.wellFormed_pushAll {s : State} {vs : List Value} :
    (s.pushAll vs).WellFormed ↔ s.WellFormed ∧ ∀ v ∈ vs, v.WellFormed := by
  have hmem : ∀ v, v ∈ (s.pushAll vs).stack ↔ v ∈ s.stack ∨ v ∈ vs := by
    intro v
    simp [State.pushAll]
  constructor
  · intro h
    exact ⟨⟨fun v hv => h.stack v ((hmem v).mpr (.inl hv)), h.scopes, h.base⟩,
      fun v hv => h.stack v ((hmem v).mpr (.inr hv))⟩
  · rintro ⟨hs, hvs⟩
    exact ⟨fun v hv => ((hmem v).mp hv).elim (hs.stack v) (hvs v), hs.scopes, hs.base⟩

/-- The value of a local is one that the machine holds. -/
theorem State.WellFormed.lookupLocal {s : State} (h : s.WellFormed) {name : String} {v : Value}
    (hv : lookupLocal s name = some v) : v.WellFormed := by
  unfold Machine.lookupLocal at hv
  split at hv
  · rename_i w hfound
    obtain rfl := Option.some.inj hv
    obtain ⟨scope, hscope, hget⟩ := List.exists_of_findSome?_eq_some hfound
    exact h.scopes scope hscope _ (Fields.mem_of_get? hget)
  · exact h.base _ (Fields.mem_of_get? hv)

/-- Entries to which a well-formed value is added. -/
theorem insert_wellFormed {fields : Fields Value} (h : ∀ x ∈ fields, x.2.WellFormed) {v : Value}
    (hv : v.WellFormed) (name : String) : ∀ x ∈ fields.insert name v, x.2.WellFormed := by
  intro x hx
  rcases Fields.mem_insert hx with rfl | hx
  · exact hv
  · exact h x hx

/-- The row of keys and values of an object. -/
theorem objectOf_wellFormed {flat : List Value} (h : ∀ v ∈ flat, v.WellFormed) :
    (objectOf flat).WellFormed := by
  refine .ofList ?_
  fun_induction objectOf.pairs flat with
  | case1 key v rest ih =>
    obtain ⟨hv, hrest⟩ := List.forall_mem_cons.mp (List.forall_mem_cons.mp h).2
    exact List.forall_mem_cons.mpr ⟨hv, ih hrest⟩
  | case2 => exact fun _ h => nomatch h

/-! ## Parts of a run -/

section Rules
variable {α β : Type} {env : Env} {base : Nat} {P : α → Prop} {Q : β → Prop} {v : Value}

namespace KeepsForm

/-- A part of a run that only gives a result. -/
theorem of_same {x : Machine α} (r : Except Halt α) (hr : Yields P r) (h : ∀ s, x s = (r, s)) :
    KeepsForm P x := by
  intro s hs
  rw [h]
  exact ⟨hs, hr⟩

theorem pure {a : α} (h : P a) : KeepsForm P (Pure.pure a) := of_same (.ok a) (.ok h) fun _ => rfl

theorem fail (e : RunError) : KeepsForm P (Machine.fail e : Machine α) :=
  of_same (.error (.error e)) (.error _) fun _ => rfl

theorem lift {x : Except RunError α} (h : Yields P x) : KeepsForm P (Machine.lift x) := by
  cases x with
  | ok a => exact pure (h a rfl)
  | error e => exact fail e

theorem require {x : Option α} (h : ∀ a, x = some a → P a) (e : RunError) :
    KeepsForm P (Machine.require x e) := by
  cases x with
  | some a => exact pure (h a rfl)
  | none => exact fail e

theorem bind {x : Machine α} {f : α → Machine β} (hx : KeepsForm P x)
    (hf : ∀ a, P a → KeepsForm Q (f a)) : KeepsForm Q (x >>= f) := by
  intro s hs
  obtain ⟨hstate, hresult⟩ := hx s hs
  rcases hrun : x s with ⟨halt | a, s'⟩
  · rw [hrun] at hstate
    rw [bind_error hrun]
    exact ⟨hstate, .error _⟩
  · rw [hrun] at hstate hresult
    rw [bind_ok hrun]
    exact hf a (hresult a rfl) s' hstate

/-- A change of the machine that keeps it well-formed. -/
theorem update {f : State → State} (h : ∀ s : State, s.WellFormed → (f s).WellFormed) :
    KeepsForm (fun _ => True) (modify f : Machine Unit) :=
  fun s hs => ⟨h s hs, fun _ _ => trivial⟩

theorem nameOperand (index : Nat) : KeepsForm (fun _ => True) (Machine.nameOperand env index) :=
  require (fun _ _ => trivial) _

theorem jumpTarget (code : Code) (target : Nat) :
    KeepsForm (fun _ => True) (Machine.jumpTarget code target) := by
  unfold Machine.jumpTarget
  split
  · exact fail _
  · exact pure trivial

theorem readLocal {f : Value → Machine β} (name : String) (e : RunError)
    (hf : ∀ v, v.WellFormed → KeepsForm Q (f v)) :
    KeepsForm Q (get >>= fun s => Machine.require (lookupLocal s name) e >>= f) := by
  intro s hs
  exact (bind (require (fun v hv => hs.lookupLocal hv) e) hf) s hs

/-! ### The stack -/

theorem push (h : v.WellFormed) : KeepsForm (fun _ => True) (Machine.push env v) := by
  intro s hs
  by_cases hroom : s.stack.size < env.stackSize
  · rw [push_room hroom]
    exact ⟨State.wellFormed_pushAll.mpr ⟨hs, List.forall_mem_singleton.mpr h⟩, fun _ _ => trivial⟩
  · rw [push_full (Nat.le_of_not_lt hroom)]
    exact ⟨hs, .error _⟩

/-- A part of a run that needs a value above the base of the frame. -/
theorem of_top {x : Machine Value} (hempty : ∀ s : State, s.stack.size ≤ base →
      x s = (.error (.error .stackUnderflow), s))
    (htop : ∀ (s : State) (v : Value), base ≤ s.stack.size → s.WellFormed → v.WellFormed →
      (x (s.pushAll [v])).2.WellFormed ∧ YieldsWellFormed (x (s.pushAll [v])).1) :
    KeepsForm Value.WellFormed x := by
  intro s hs
  by_cases hbase : s.stack.size ≤ base
  · rw [hempty s hbase]
    exact ⟨hs, .error _⟩
  · obtain ⟨s₀, v, rfl⟩ := State.exists_top (Nat.zero_lt_of_lt (Nat.lt_of_not_le hbase))
    rw [State.size_pushAll, List.length_singleton] at hbase
    obtain ⟨hs₀, hv⟩ := State.wellFormed_pushAll.mp hs
    exact htop s₀ v (by omega) hs₀ (hv v (List.mem_singleton_self v))

theorem peek : KeepsForm Value.WellFormed (Machine.peek base) := by
  refine of_top (fun s => peek_empty) fun s v hbase hs hv => ?_
  rw [peek_top hbase]
  exact ⟨State.wellFormed_pushAll.mpr ⟨hs, List.forall_mem_singleton.mpr hv⟩, .ok hv⟩

theorem pop : KeepsForm Value.WellFormed (Machine.pop base) := by
  refine of_top (fun s h => bind_error (peek_empty h)) fun s v hbase hs hv => ?_
  rw [pop_top hbase]
  exact ⟨hs, .ok hv⟩

theorem popMany (n : Nat) : KeepsForm (fun vs => ∀ v ∈ vs, v.WellFormed) (Machine.popMany base n) := by
  intro s hs
  by_cases hshort : s.stack.size < base + n
  · rw [popMany_short hshort]
    exact ⟨hs, .error _⟩
  · obtain ⟨s₀, vs, rfl, rfl⟩ := State.exists_pushAll (show n ≤ s.stack.size by omega)
    rw [State.size_pushAll] at hshort
    obtain ⟨hs₀, hvs⟩ := State.wellFormed_pushAll.mp hs
    rw [popMany_pushAll (by omega)]
    exact ⟨hs₀, .ok hvs⟩

/-- A value that is bound in the innermost scope, or below all blocks if there is none. -/
theorem bindLocal (h : v.WellFormed) (name : String) :
    KeepsForm (fun _ => True) (modify fun s => Machine.bindLocal s name v) := by
  refine update fun s hs => ?_
  obtain ⟨stack, scopes, below⟩ := s
  cases scopes with
  | nil => exact ⟨hs.stack, hs.scopes, insert_wellFormed hs.base h name⟩
  | cons scope rest =>
    obtain ⟨hscope, hrest⟩ := List.forall_mem_cons.mp hs.scopes
    exact ⟨hs.stack, List.forall_mem_cons.mpr ⟨insert_wellFormed hscope h name, hrest⟩, hs.base⟩

end KeepsForm

/-! ## Blocks -/

/-- **A frame keeps the machine well-formed** if its run does: whatever is cut off, the rest is as it was. -/
theorem frame_keepsForm {run : Nat → Machine Unit} (h : ∀ base, KeepsForm (fun _ => True) (run base)) :
    KeepsForm Value.WellFormed (frame run) := by
  intro s hs
  have hcut : ∀ s' : State, s'.WellFormed →
      State.WellFormed { s' with stack := s'.stack.shrink s.stack.size } := by
    intro s' hs'
    refine ⟨fun v hv => hs'.stack v ?_, hs'.scopes, hs'.base⟩
    rw [Array.mem_def, Array.toList_shrink] at hv
    exact Array.mem_def.mpr (List.mem_of_mem_take hv)
  obtain ⟨hstate, _⟩ := h s.stack.size s hs
  unfold frame
  rcases hrun : run s.stack.size s with ⟨halt | _, s'⟩
  · rw [hrun] at hstate
    simp only [hrun]
    exact ⟨hcut s' hstate, .error _⟩
  · rw [hrun] at hstate
    have hkeeps : KeepsForm Value.WellFormed (pop s.stack.size) := .pop
    obtain ⟨hpopped, hvalue⟩ := hkeeps s' hstate
    rcases hpop : pop s.stack.size s' with ⟨halt | v, s''⟩
    · rw [hpop] at hpopped
      simp only [hrun, hpop]
      exact ⟨hpopped, .error _⟩
    · rw [hpop] at hpopped hvalue
      simp only [hrun, hpop]
      split
      · exact ⟨hpopped, hvalue⟩
      · exact ⟨hcut s'' hpopped, .error _⟩

theorem inScope_keepsForm {run : Machine Value} (h : KeepsForm Value.WellFormed run) {bindings : Fields Value}
    (hbindings : ∀ x ∈ bindings, x.2.WellFormed) : KeepsForm Value.WellFormed (inScope bindings run) := by
  intro s hs
  have hscope : ∀ x ∈ Fields.ofList bindings, x.2.WellFormed :=
    fun x hx => hbindings x ((Fields.ofList_spec bindings).2 x hx)
  obtain ⟨hstate, hresult⟩ := h { s with scopes := Fields.ofList bindings :: s.scopes }
    ⟨hs.stack, List.forall_mem_cons.mpr ⟨hscope, hs.scopes⟩, hs.base⟩
  exact ⟨⟨hstate.stack, fun scope hmem => hstate.scopes scope (List.mem_of_mem_tail hmem), hstate.base⟩, hresult⟩

/-- **A handler that keeps values well-formed keeps the machine so**, however often it has the block evaluated and
whatever it makes of errors. -/
theorem answer_keepsForm {evalBlock : Machine Value} (h : KeepsForm Value.WellFormed evalBlock)
    {prog : PipeProgram} (hprog : prog.KeepsForm) : KeepsForm Value.WellFormed (answer evalBlock prog) := by
  induction prog with
  | done outcome => exact .lift hprog
  | eval bindings next ih =>
    obtain ⟨hbindings, hnext⟩ := hprog
    intro s hs
    obtain ⟨hstate, hresult⟩ := inScope_keepsForm h hbindings s hs
    rw [answer]
    dsimp only
    rcases hrun : inScope bindings evalBlock s with ⟨(e | _) | v, s'⟩
    · rw [hrun] at hstate
      exact ih (.error e) (hnext _ (.error e)) s' hstate
    · rw [hrun] at hstate
      exact ⟨hstate, .error _⟩
    · rw [hrun] at hstate hresult
      exact ih (.ok v) (hnext _ (.ok (hresult v rfl))) s' hstate

end Rules

/-! ## Instructions -/

section Instructions
variable {env : Env} {runBlock : BlockRunner} {code : Code} {base next : Nat} {i : Instruction}

theorem stage_keepsForm (henv : env.WellFormed)
    (hblocks : ∀ block, KeepsForm Value.WellFormed (runBlock block)) :
    KeepsForm (fun _ => True) (stage env runBlock base i) := by
  refine .bind (.nameOperand _) fun name _ => ?_
  refine .bind (.require (fun handler h => henv.library.handlers name handler h) _) fun handler hhandler => ?_
  refine .bind (.require (fun _ _ => trivial) _) fun block (_ : True) => ?_
  refine .bind .pop fun input hinput => ?_
  refine .bind (answer_keepsForm (hblocks block) (hhandler name input hinput)) fun output houtput => ?_
  by_cases hnone : i.slot 1 = noAlias
  · rw [if_neg (not_not_intro hnone)]
    exact .push houtput
  · rw [if_pos hnone]
    refine .bind (.nameOperand _) fun bound _ => ?_
    refine .bind (.update fun s hs => ?_) fun _ _ => .push houtput
    exact ⟨hs.stack, hs.scopes, insert_wellFormed hs.base houtput bound⟩

/-- **Every instruction keeps the machine well-formed**, whichever way the run goes on behind it. -/
theorem step_keepsForm (henv : env.WellFormed)
    (hblocks : ∀ block, KeepsForm Value.WellFormed (runBlock block)) :
    KeepsForm (fun _ => True) (step env runBlock code base i next) := by
  obtain ⟨op, operands⟩ := i
  have hdone : KeepsForm (fun _ => True) (pure next : Machine Nat) := .pure trivial
  cases op with
  | constant =>
    refine .bind (.require (fun v hv => ?_) _) fun v hv => .bind (.push hv) fun _ _ => hdone
    exact henv.constants v (Array.mem_of_getElem? hv)
  | loadVar =>
    refine .bind (.require (fun _ _ => trivial) _) fun name (_ : True) => ?_
    dsimp only
    split
    · rename_i v hv
      exact .bind (.push (henv.context _ (Fields.mem_of_get? hv))) fun _ _ => hdone
    · split
      · exact .bind (.push .null) fun _ _ => hdone
      · exact .bind (.fail _) fun _ (_ : True) => hdone
  | loadLocal =>
    refine .bind (.nameOperand _) fun name _ => .readLocal name _ fun v hv => ?_
    exact .bind (.push hv) fun _ _ => hdone
  | storeLocal =>
    refine .bind (.nameOperand _) fun name _ => .bind .peek fun v hv => ?_
    exact .bind (.bindLocal hv name) fun _ _ => hdone
  | pop => exact .bind .pop fun _ _ => hdone
  | add | sub | mul | div | mod | pow | bitAnd | bitOr | bitXor | shiftLeft | shiftRight =>
    refine .bind .pop fun right _ => .bind .pop fun left _ => ?_
    exact .bind (.lift (Operator.binary_wellFormed _ left right)) fun v hv => .bind (.push hv) fun _ _ => hdone
  | equal | notEqual | less | greater | lessEqual | greaterEqual =>
    refine .bind .pop fun right _ => .bind .pop fun left _ => ?_
    exact .bind (.lift fun _ _ => trivial) fun b (_ : True) => .bind (.push (.boolean b)) fun _ _ => hdone
  | negate | not | bitNot =>
    refine .bind .pop fun v _ => ?_
    exact .bind (.lift (Operator.unary_wellFormed _ v)) fun w hw => .bind (.push hw) fun _ _ => hdone
  | and | or =>
    refine .bind .pop fun right _ => .bind .pop fun left _ => ?_
    exact .bind (.push (.boolean _)) fun _ _ => hdone
  | jump => exact .jumpTarget _ _
  | jumpIfFalse =>
    refine .bind .pop fun condition _ => ?_
    split
    · exact hdone
    · exact .jumpTarget _ _
  | andShortCircuit =>
    refine .bind .peek fun v _ => ?_
    split
    · exact hdone
    · exact .bind .pop fun _ _ => .bind (.push (.boolean false)) fun _ _ => .jumpTarget _ _
  | orShortCircuit =>
    refine .bind .peek fun v _ => ?_
    split
    · exact .bind .pop fun _ _ => .bind (.push (.boolean true)) fun _ _ => .jumpTarget _ _
    · exact hdone
  | jumpIfNotNull =>
    refine .bind .peek fun v _ => ?_
    split
    · exact .bind .pop fun _ _ => hdone
    · exact .jumpTarget _ _
  | array => exact .bind (.popMany _) fun vs hvs => .bind (.push (.array hvs)) fun _ _ => hdone
  | object => exact .bind (.popMany _) fun vs hvs => .bind (.push (objectOf_wellFormed hvs)) fun _ _ => hdone
  | index =>
    refine .bind .pop fun key _ => .bind .pop fun target htarget => ?_
    exact .bind (.lift (Access.index_wellFormed htarget key _)) fun v hv => .bind (.push hv) fun _ _ => hdone
  | slice =>
    refine .bind .pop fun stepSize _ => .bind .pop fun stop _ => ?_
    refine .bind .pop fun start _ => .bind .pop fun target htarget => ?_
    refine .bind (.lift (Access.slice_wellFormed htarget start stop stepSize _)) fun v hv => ?_
    exact .bind (.push hv) fun _ _ => hdone
  | call =>
    refine .bind (.nameOperand _) fun name _ => ?_
    refine .bind (.require (fun f h => henv.library.functions name f h) _) fun f hf => ?_
    refine .bind (.popMany _) fun arguments harguments => ?_
    have hresult := hf arguments harguments
    dsimp only
    split
    · rename_i v hv
      exact .bind (.push (hresult v hv)) fun _ _ => hdone
    · exact .bind (.fail _) fun _ (_ : True) => hdone
  | pipe => exact .bind (stage_keepsForm henv hblocks) fun _ _ => hdone

end Instructions

/-! ## Runs -/

/-- **A run keeps the machine well-formed**, from any offset of any stream, as long as it may take. -/
theorem runFrom_keepsForm {env : Env} (henv : env.WellFormed) (fuel : Nat) (code : Code) (base o : Nat) :
    KeepsForm (fun _ => True) (runFrom env fuel code base o) := by
  induction fuel generalizing code base o with
  | zero => exact .of_same (.error .outOfFuel) (.error _) fun _ => rfl
  | succ fuel ih =>
    unfold runFrom
    split
    · split
      · exact .fail _
      · refine .bind (step_keepsForm henv fun block => ?_) fun next _ => ih code base next
        exact frame_keepsForm fun base => ih block base 0
    · exact .pure trivial

theorem execute_keepsForm {env : Env} (henv : env.WellFormed) (fuel : Nat) (code : Code) :
    KeepsForm Value.WellFormed (execute env fuel code) :=
  frame_keepsForm fun base => runFrom_keepsForm henv fuel code base 0

end Machine

/-- The keys that a block gives for well-formed elements are well-formed, as the laws of equality ask. -/
theorem Evaluates.wellFormed {run : Machine Value} {s s' : Machine.State} {start : Nat} {items keys : List Value}
    (hrun : Machine.KeepsForm Value.WellFormed run) (h : Evaluates run s start items keys s')
    (hs : s.WellFormed) (hitems : ∀ v ∈ items, v.WellFormed) :
    s'.WellFormed ∧ ∀ v ∈ keys, v.WellFormed := by
  induction h with
  | nil => exact ⟨hs, fun v hv => absurd hv List.not_mem_nil⟩
  | @cons s s₁ _ start item key _ _ hitem _ ih =>
    obtain ⟨hfirst, hrest⟩ := List.forall_mem_cons.mp hitems
    obtain ⟨hstate, hresult⟩ :=
      Machine.inScope_keepsForm hrun (PipeProgram.itemBindings_wellFormed hfirst start) s hs
    rw [hitem] at hstate hresult
    obtain ⟨hend, hkeys⟩ := ih hstate hrest
    exact ⟨hend, List.forall_mem_cons.mpr ⟨hresult key rfl, hkeys⟩⟩

/-- **The value of a run is well-formed**, if the constants of the program and the variables are, and the library
keeps values well-formed. -/
theorem Program.run_wellFormed {p : Program} {library : Library} {context : Fields Value}
    (hconstants : ∀ v ∈ p.constants, v.WellFormed) (hlibrary : library.KeepsForm)
    (hcontext : ∀ x ∈ context, x.2.WellFormed) (stackSize : Nat) :
    Yields Value.WellFormed (p.run library stackSize context) :=
  (Machine.execute_keepsForm ⟨hconstants, hcontext, hlibrary⟩ p.fuel p.main _
    Machine.State.initial_wellFormed).2

/-! ## Compiled programs -/

theorem Value.Scalar.wellFormed {v : Value} (h : v.Scalar) : v.WellFormed := by
  cases v with
  | null => exact .null
  | boolean b => exact .boolean b
  | number x => exact .number x
  | string s => exact .string s
  | array | object => exact h.elim

section Constants
variable {t t' : Tables}

theorem Tables.scalar_push (h : ∀ v ∈ t.constants, v.Scalar) {v : Value} (hv : v.Scalar) :
    ∀ w ∈ (t.push v).constants, w.Scalar := by
  intro w hw
  rcases Array.mem_push.mp hw with hw | rfl
  · exact h w hw
  · exact hv

theorem Finish.Emits.scalar_constants {finish : Finish} {n : Nat} {i : Instruction}
    (hf : finish.Emits n t i t') (h : ∀ v ∈ t.constants, v.Scalar) : ∀ v ∈ t'.constants, v.Scalar := by
  cases hf with
  | call => exact Tables.scalar_push h trivial
  | unary | strict | array | object | index | slice => exact h

/-- The code of plans adds their constants to the tables, and names. -/
theorem Emits.scalar_constants {o : Nat} {ps : List Plan} {row : List Instruction} (he : Emits t o ps row t')
    (hps : ∀ p ∈ ps, p.Scalar) (h : ∀ v ∈ t.constants, v.Scalar) : ∀ v ∈ t'.constants, v.Scalar := by
  induction he with
  | nil => exact h
  | constant t o v hroom => exact Tables.scalar_push h (hps _ (List.mem_singleton_self _) v (.self _))
  | pipeLocal => exact Tables.scalar_push h trivial
  | contextVar => exact h
  | cons _ _ iha ihb =>
    obtain ⟨hp, hrest⟩ := List.forall_mem_cons.mp hps
    exact ihb hrest (iha (List.forall_mem_singleton.mpr hp) h)
  | gather _ hfinish ih =>
    have hparts := (hps _ (List.mem_singleton_self _)).parts
    exact hfinish.scalar_constants (ih hparts h)
  | junction _ _ _ _ iha ihb | coalesce _ _ _ _ iha ihb =>
    obtain ⟨hleft, hright⟩ := List.forall_mem_cons.mp (hps _ (List.mem_singleton_self _)).parts
    exact ihb hright (iha (List.forall_mem_singleton.mpr hleft) h)
  | choose _ _ _ _ _ _ _ iha ihb ihc =>
    obtain ⟨hcondition, hbranches⟩ := List.forall_mem_cons.mp (hps _ (List.mem_singleton_self _)).parts
    obtain ⟨hconsequent, halternate⟩ := List.forall_mem_cons.mp hbranches
    exact ihc halternate (ihb (List.forall_mem_singleton.mpr hconsequent)
      (iha (List.forall_mem_singleton.mpr hcondition) h))

/-- The code of an expression adds scalars only. -/
theorem Compile.code_scalar {e : Expr} {soft : Bool} {depth o : Nat} {a : Assembly}
    (hc : Compile.code e soft depth o t = .ok (a, t')) (h : ∀ v ∈ t.constants, v.Scalar) :
    ∀ v ∈ t'.constants, v.Scalar :=
  (Compile.emits_of_code e hc).scalar_constants (List.forall_mem_singleton.mpr (Expr.scalar_plan e soft)) h

theorem EmitsAlias.scalar_constants {name : Option String} {bound : Nat} (he : EmitsAlias t name bound t')
    (h : ∀ v ∈ t.constants, v.Scalar) : ∀ v ∈ t'.constants, v.Scalar := by
  cases he with
  | none => exact h
  | some => exact Tables.scalar_push h trivial

theorem EmitsBinding.scalar_constants {name : Option String} {row : List Instruction}
    (he : EmitsBinding t name row t') (h : ∀ v ∈ t.constants, v.Scalar) : ∀ v ∈ t'.constants, v.Scalar := by
  cases he with
  | none => exact h
  | some => exact Tables.scalar_push h trivial

theorem EmitsStages.scalar_constants {k : Nat} {stages : List (Stage Expr)} {row : List Instruction}
    {blocks : List (List Instruction)} (he : EmitsStages t k stages row blocks t')
    (h : ∀ v ∈ t.constants, v.Scalar) : ∀ v ∈ t'.constants, v.Scalar := by
  induction he with
  | nil => exact h
  | cons _ halias _ hcode _ ih =>
    exact ih (Compile.code_scalar hcode (halias.scalar_constants (Tables.scalar_push h trivial)))

theorem EmitsProgram.scalar_constants {e : Expr} {row : List Instruction} {blocks : List (List Instruction)}
    (he : EmitsProgram e row blocks t) : ∀ v ∈ t.constants, v.Scalar := by
  have hempty : ∀ v ∈ Tables.empty.constants, v.Scalar := fun v hv => absurd hv (Array.not_mem_empty v)
  have hplan : ∀ e : Expr, ∀ p ∈ [e.plan false], p.Scalar :=
    fun e => List.forall_mem_singleton.mpr (e.scalar_plan false)
  cases he with
  | expr _ h => exact h.scalar_constants (hplan e) hempty
  | empty => exact Tables.scalar_push hempty trivial
  | chain hhead hbinding hstages =>
    exact hstages.scalar_constants (hbinding.scalar_constants (hhead.scalar_constants (hplan _) hempty))

end Constants

/-- **The constants of compiled programs are scalars**: literals, keys and names. -/
theorem Expr.compile_constants {e : Expr} {p : Program} (h : e.compile = .ok p) :
    ∀ v ∈ p.constants, v.Scalar := by
  obtain ⟨main, blocks, t, _, rfl, hemits⟩ := Expr.emits_of_compile h
  exact hemits.scalar_constants

theorem compileExpr_constants (e : Expr) :
    Yields (fun p : Program => ∀ v ∈ p.constants, v.WellFormed) (compileExpr e) :=
  .mapError (fun _ hp v hv => (Expr.compile_constants hp v hv).wellFormed) _

/-- A program with well-formed constants, run with the standard library. -/
theorem runProgram_wellFormed {p : Program} (hconstants : ∀ v ∈ p.constants, v.WellFormed)
    {context : Fields Value} (hcontext : ∀ x ∈ context, x.2.WellFormed) :
    YieldsWellFormed (runProgram p context) :=
  .mapError (p.run_wellFormed hconstants Library.standard_keepsForm hcontext _) _

/-- **Evaluation gives well-formed values** in every context of such. -/
theorem evaluate_wellFormed (source : String) {context : Fields Value} (h : ∀ x ∈ context, x.2.WellFormed) :
    YieldsWellFormed (evaluate source context) :=
  .behind fun e => .bind (compileExpr_constants e) fun _ hp => runProgram_wellFormed hp h

/-- So equality is symmetric on what evaluation gives, whatever the other value is. -/
theorem evaluate_equal_symm {source : String} {context : Fields Value} (h : ∀ x ∈ context, x.2.WellFormed)
    {u v : Value} (hu : evaluate source context = .ok u) (heq : Value.equal u v = true) : Value.equal v u = true :=
  Value.equal_symm (evaluate_wellFormed source h u hu) heq

end PipeExpr
