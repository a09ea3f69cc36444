import PipeExpr.Proofs.Simulation
import PipeExpr.Proofs.WellFormed

/-!
# Running chains

The program of a chain gives the value of the chain (`Expr.run_eq_evalChain`).  Handlers evaluate the
block of their stage inside of the machine, as often as they like, and see every outcome.  Two things make
them behave as if the block were a function of the bindings.  A block leaves the machine as it
was, whatever happens in it (`Emits.frame_eq`), so each question is asked of the same state
(`answer_eq`).  And while the stages run there is no scope open, so every alias is bound in the scope
below all blocks, by whichever instruction it is bound (`State.bound`); what a block then sees are the
bindings of the question in front of these aliases (`lookupLocal_question`).

**Overflows.**  A handler that is told of an overflow may go on and hide it.  That there is no overflow
is said by way of handlers that do not (`Library.watched`).
-/

namespace PipeExpr

open Machine

/-! ## Watched handlers -/

/-- A program that gives up if an outcome is the overflow of a stack, and else goes on. -/
def PipeProgram.watch (limit : Nat) (outcome : Except RunError Value) (rest : PipeProgram) :
    PipeProgram :=
  match outcome with
  | .error (.stackOverflow n) => if n = limit then .fail (.stackOverflow limit) else rest
  | _ => rest

/-- A handler's program that gives up as soon as a block overflows a stack for `limit` values. -/
def PipeProgram.watched (limit : Nat) : PipeProgram → PipeProgram
  | .done outcome => .done outcome
  | .eval bindings next =>
    .eval bindings fun outcome => .watch limit outcome ((next outcome).watched limit)

/-- A library whose handlers give up as soon as a block overflows a stack for `limit` values.  A run
with such handlers that does not report an overflow has none, and is the run with the handlers
themselves. -/
def Library.watched (library : Library) (limit : Nat) : Library :=
  { library with
    handlers := library.handlers.map (Prod.map id fun handler name input =>
      (handler name input).watched limit) }

theorem PipeProgram.watch_overflow (limit : Nat) (rest : PipeProgram) :
    watch limit (.error (.stackOverflow limit)) rest = .fail (.stackOverflow limit) :=
  if_pos rfl

theorem PipeProgram.watch_of_ne {limit : Nat} {outcome : Except RunError Value}
    (h : outcome ≠ .error (.stackOverflow limit)) (rest : PipeProgram) :
    watch limit outcome rest = rest := by
  unfold watch
  split
  · exact if_neg fun hn => h (congrArg _ (congrArg _ hn))
  · rfl

/-! ## Locals -/

section Locals

variable (bindings aliases : Fields Value) (name : String)

/-- The map of bindings gives each name its latest value. -/
theorem get?_ofList_bindings : (Fields.ofList bindings).get? name = latest bindings name :=
  Fields.get?_ofList bindings name

theorem latest_append :
    latest (aliases ++ bindings) name = (latest bindings name).or (latest aliases name) := by
  rw [latest, List.reverse_append, Fields.get?_append]
  rfl

end Locals

/-- A state with the result of a stage bound in the scope below all blocks. -/
def Machine.State.bound (s : State) (stage : Stage Expr) (v : Value) : State :=
  match stage.boundAs with
  | some name => { s with base := s.base.insert name v }
  | none => s

/-- A state between two stages: no block is under way, and the aliases are bound to their latest
values. -/
structure Binds (s : State) (aliases : Fields Value) : Prop where
  scopes : s.scopes = []
  base : ∀ name, s.base.get? name = latest aliases name

theorem Binds.bound {s : State} {aliases : Fields Value} (h : Binds s aliases)
    (stage : Stage Expr) (v : Value) : Binds (s.bound stage v) (aliases ++ stage.binding v) := by
  unfold State.bound Stage.binding
  cases stage.boundAs with
  | none => exact ⟨h.scopes, fun name => by rw [List.append_nil]; exact h.base name⟩
  | some bound =>
    refine ⟨h.scopes, fun name => ?_⟩
    show (s.base.insert bound v).get? name = latest (aliases ++ [(bound, v)]) name
    rw [Fields.get?_insert, latest_append, h.base name]
    show _ = (if bound = name then some v else none).or _
    split <;> rfl

@[simp] theorem stack_bound (s : State) (stage : Stage Expr) (v : Value) :
    (s.bound stage v).stack = s.stack := by
  unfold State.bound
  split <;> rfl

/-- **What a block sees**: the bindings of the question hide the aliases. -/
theorem lookupLocal_question {s : State} {aliases : Fields Value} (h : Binds s aliases)
    (bindings : Fields Value) :
    lookupLocal { s with scopes := Fields.ofList bindings :: s.scopes } =
      shadow bindings (latest aliases) := by
  funext name
  rw [lookupLocal, h.scopes, shadow, h.base name, ← get?_ofList_bindings bindings]
  cases hget : Fields.get? (Fields.ofList bindings) name <;> simp [hget]

/-! ## Chains on a limited stack -/

/-- The value of the block of a stage, by the bindings of a question, if the stack holds at most
`size` values. -/
def blockWithin (library : Library) (context : Fields Value) (size : Nat) (aliases : Fields Value)
    (stage : Stage Expr) (bindings : Fields Value) : Except RunError Value :=
  (stage.body.plan false).within ⟨library.functions, context, shadow bindings (latest aliases)⟩ size 0

/-- The value of a chain from a stage on, if the stack holds at most `size` values. -/
def stagesWithin (library : Library) (context : Fields Value) (size : Nat) (aliases : Fields Value)
    (input : Value) : List (Stage Expr) → Except RunError Value
  | [] => .ok input
  | stage :: rest =>
    match library.handlers.get? stage.handler with
    | none => .error (.unknownPipe stage.handler)
    | some handler => do
      let output ← (handler stage.handler input).answerBy
        (blockWithin library context size aliases stage)
      let output ← place size 0 output
      stagesWithin library context size (aliases ++ stage.binding output) output rest

/-- The value of a chain if the stack holds at most `size` values. -/
def chainWithin (library : Library) (context : Fields Value) (size : Nat) (head : Stage Expr)
    (rest : List (Stage Expr)) : Except RunError Value := do
  let v ← (head.body.plan false).within ⟨library.functions, context, fun _ => none⟩ size 0
  stagesWithin library context size (head.binding v) v rest

section Meaning
variable {library : Library} {context : Fields Value} {size : Nat}

/-- A handler that is watched meets an overflow, or it and the handler itself do what they do with
blocks that have all the room they need. -/
theorem answerBy_watched {block block' : Fields Value → Except RunError Value}
    (h : ∀ bindings, UpToOverflow size (block bindings) (block' bindings)) (prog : PipeProgram) :
    (prog.watched size).answerBy block = .error (.stackOverflow size) ∨
      (prog.watched size).answerBy block = prog.answerBy block' ∧
      prog.answerBy block = prog.answerBy block' := by
  induction prog with
  | done outcome => exact .inr ⟨rfl, rfl⟩
  | eval bindings next ih =>
    rw [PipeProgram.watched, PipeProgram.answerBy, PipeProgram.answerBy, PipeProgram.answerBy]
    by_cases hover : block bindings = .error (.stackOverflow size)
    · left
      rw [hover, PipeProgram.watch_overflow]
      rfl
    · rw [PipeProgram.watch_of_ne hover, (h bindings).eq hover]
      exact ih (block' bindings)

theorem watched_get? (name : String) : (library.watched size).handlers.get? name =
    (library.handlers.get? name).map fun handler name input => (handler name input).watched size :=
  Fields.get?_map ..

/-- If watched handlers meet no overflow, a chain on a limited stack has its value. -/
theorem stagesWithin_watched (stages : List (Stage Expr)) : ∀ (aliases : Fields Value)
    (input : Value),
    stagesWithin (library.watched size) context size aliases input stages = .error (.stackOverflow size) ∨
      stagesWithin library context size aliases input stages =
        evalStages library context aliases input stages := by
  induction stages with
  | nil => exact fun aliases input => .inr rfl
  | cons stage rest ih =>
    intro aliases input
    cases hget : library.handlers.get? stage.handler with
    | none =>
      right
      rw [stagesWithin, evalStages, hget]
    | some handler =>
      have hwatched : (library.watched size).handlers.get? stage.handler =
          some fun name input => (handler name input).watched size := by rw [watched_get?, hget]; rfl
      have hblock : ∀ bindings, UpToOverflow size
          (blockWithin library context size aliases stage bindings)
          (stage.body.eval ⟨library.functions, context, shadow bindings (latest aliases)⟩ false) :=
        fun bindings => Expr.plan_within stage.body false 0
      have hsame : blockWithin (library.watched size) context size aliases stage =
          blockWithin library context size aliases stage := rfl
      simp only [stagesWithin, evalStages, hwatched, hget, hsame]
      -- an overflow in a block, an error of the handler, an overflow behind it, or none of these
      rcases answerBy_watched hblock (handler stage.handler input) with hover | ⟨hanswer, heval⟩
      · left
        rw [hover]
        rfl
      · rw [hanswer, heval]
        cases (handler stage.handler input).answerBy _ with
        | error e => exact .inr rfl
        | ok output =>
          have hroom : UpToOverflow size (place size 0 output) (.ok output) := .place 0 output
          rcases hroom with hplace | hfull
          · show (place size 0 output >>= _ : Except RunError Value) = _ ∨
              (place size 0 output >>= _ : Except RunError Value) = _
            rw [hplace]
            exact ih (aliases ++ stage.binding output) output
          · left
            show (place size 0 output >>= _ : Except RunError Value) = _
            rw [hfull]
            rfl

theorem chainWithin_watched (head : Stage Expr) (rest : List (Stage Expr)) :
    chainWithin (library.watched size) context size head rest = .error (.stackOverflow size) ∨
      chainWithin library context size head rest = evalChain library context head rest := by
  rw [chainWithin, chainWithin, evalChain]
  have hhead : UpToOverflow size
      ((head.body.plan false).within ⟨library.functions, context, fun _ => none⟩ size 0)
      (head.body.eval ⟨library.functions, context, fun _ => none⟩ false) :=
    Expr.plan_within head.body false 0
  rcases hhead with heq | hover
  · rw [show (library.watched size).functions = library.functions from rfl, heq]
    cases head.body.eval ⟨library.functions, context, fun _ => none⟩ false with
    | error e => exact .inr rfl
    | ok v => exact stagesWithin_watched rest (head.binding v) v
  · left
    rw [show (library.watched size).functions = library.functions from rfl, hover]
    rfl

end Meaning

/-! ## Stages in the machine -/

/-- **Questions are answered as by a function** if the block leaves the state as it was. -/
theorem answer_eq {evalBlock : Machine Value} {s : State}
    {block : Fields Value → Except RunError Value}
    (h : ∀ bindings, inScope bindings evalBlock s = ((block bindings).mapError .error, s))
    (prog : PipeProgram) :
    answer evalBlock prog s = ((prog.answerBy block).mapError .error, s) := by
  induction prog with
  | done outcome => cases outcome <;> rfl
  | eval bindings next ih =>
    rw [answer]
    simp only [h bindings, PipeProgram.answerBy]
    cases block bindings with
    | ok v => exact ih (.ok v)
    | error e => exact ih (.error e)

/-- A question about a block above an empty stack. -/
theorem Emits.inScope_eq {env : Env} {t t' : Tables} {stage : Stage Expr} {row : List Instruction}
    {fuel : Nat} {s : State} {aliases : Fields Value}
    (he : Emits t 0 [stage.body.plan false] row t') (hv : t.contextVars.Valid)
    (hs : t'.Serves env.program) (hfuel : (streamOf row).size < fuel) (hb : Binds s aliases)
    (hempty : s.stack = #[]) (bindings : Fields Value) :
    inScope bindings (frame fun base => runFrom env fuel (streamOf row) base 0) s =
      ((blockWithin env.library env.context env.stackSize aliases stage bindings).mapError .error,
        s) := by
  have hsize : s.stack.size = 0 := by rw [hempty]; rfl
  unfold inScope
  rw [he.frame_eq hv hs hfuel, setting, lookupLocal_question hb, blockWithin, ← hsize]
  rfl

section Stage
variable {env : Env} {code : Code} {base k next : Nat} {i : Instruction} {stage : Stage Expr}

/-- **A stage gives its input to its handler**, binds the result to the alias and puts it in place of
the input. -/
theorem step_pipe {runBlock : BlockRunner} {block : Code} {s : State} {input : Value}
    {answers : Fields Value → Except RunError Value}
    (hrun : env.program.RunsStage stage k i) (hblock : env.program.blocks[k]? = some block)
    (hbase : base ≤ s.stack.size) (hanswers : ∀ bindings,
      inScope bindings (runBlock block) s = ((answers bindings).mapError .error, s)) :
    step env runBlock code base i next (s.pushAll [input]) =
      match env.library.handlers.get? stage.handler with
      | none => (.error (.error (.unknownPipe stage.handler)), s.pushAll [input])
      | some handler =>
        match (handler stage.handler input).answerBy answers with
        | .error e => (.error (.error e), s)
        | .ok output => (do push env output; return next : Machine Nat) (s.bound stage output) := by
  have hstep : step env runBlock code base i next =
      (do Machine.stage env runBlock base i; return next) := by
    unfold step
    rw [hrun.opcode]
  have hname : ∀ s', nameOperand env (i.slot 0) s' = (.ok stage.handler, s') :=
    require_some hrun.handler
  have hpop : pop base (s.pushAll [input]) = (.ok input, s) := pop_top hbase
  rw [hstep]
  cases hget : env.library.handlers.get? stage.handler with
  | none =>
    refine bind_error ?_
    exact (bind_ok (hname _)).trans (bind_error (require_none hget _))
  | some handler =>
    have hblock' : env.program.blocks[i.slot 2]? = some block := hrun.block ▸ hblock
    have hinput : Machine.stage env runBlock base i (s.pushAll [input]) = (do
        let output ← answer (runBlock block) (handler stage.handler input)
        if i.slot 1 ≠ noAlias then
          let bound ← nameOperand env (i.slot 1)
          modify fun s => { s with base := s.base.insert bound output }
        push env output : Machine Unit) s :=
      (bind_ok (hname _)).trans ((bind_ok (require_some hget _)).trans
        ((bind_ok (require_some hblock' _)).trans (bind_ok hpop)))
    have hanswer := answer_eq hanswers (handler stage.handler input)
    cases houtcome : (handler stage.handler input).answerBy answers with
    | error e =>
      rw [houtcome] at hanswer
      simp only [houtcome]
      exact bind_error (hinput.trans (bind_error hanswer))
    | ok output =>
      rw [houtcome] at hanswer
      simp only [houtcome]
      refine bind_eq (hinput.trans ((bind_ok hanswer).trans ?_))
      unfold State.bound
      cases hbound : stage.boundAs with
      | none =>
        rw [hrun.withoutAlias hbound]
        rfl
      | some name =>
        obtain ⟨hne, hat⟩ := hrun.withAlias name hbound
        rw [if_pos hne]
        have hbind : nameOperand env (i.slot 1) s = (.ok name, s) := require_some hat s
        exact bind_ok hbind

end Stage

/-- How a run from a stage on ends: with the value of the chain on the stack, or with its failure. -/
def Ends (outcome : Except Halt Unit × State) : Except RunError Value → Prop
  | .ok v => ∃ s : State, s.stack = #[] ∧ outcome = (.ok (), s.pushAll [v])
  | .error e => ∃ s, outcome = (.error (.error e), s)

/-- A step that carries out a stage on an empty stack, and the run behind it. -/
theorem ends_of_step {env : Env} {m : Machine Nat} {k : Nat → Machine Unit} {s₀ s : State}
    {r : Except RunError Value} {rest : Value → Except RunError Value} (stage : Stage Expr)
    (next : Nat) (hempty : s.stack = #[])
    (hfail : ∀ e, r = .error e → ∃ s', m s₀ = (.error (.error e), s'))
    (hstep : ∀ output, r = .ok output →
      m s₀ = (do push env output; return next : Machine Nat) (s.bound stage output))
    (hrest : ∀ output, Ends (k next ((s.bound stage output).pushAll [output])) (rest output)) :
    Ends ((m >>= k) s₀) (r >>= fun output => place env.stackSize 0 output >>= rest) := by
  cases r with
  | error e =>
    obtain ⟨s', hm⟩ := hfail e rfl
    exact ⟨s', bind_error hm⟩
  | ok output =>
    have hm := hstep output rfl
    have hzero : (s.bound stage output).stack.size = 0 := by rw [stack_bound, hempty]; rfl
    show Ends _ (place env.stackSize 0 output >>= rest)
    by_cases hfull : env.stackSize ≤ 0
    · have hplace : place env.stackSize 0 output = .error (.stackOverflow env.stackSize) :=
        if_pos hfull
      have hpush : push env output (s.bound stage output) = _ := push_full (hzero ▸ hfull)
      rw [hplace]
      exact ⟨_, bind_error (hm.trans (bind_error hpush))⟩
    · have hplace : place env.stackSize 0 output = .ok output := if_neg hfull
      have hpush : push env output (s.bound stage output) = _ := push_room (by omega)
      rw [hplace, bind_ok (hm.trans (bind_ok hpush))]
      exact hrest output

/-- **The code of stages computes the chain** from them on. -/
theorem EmitsStages.ends {env : Env} {code : Code} {t t' : Tables} {k : Nat}
    {stages : List (Stage Expr)} {row : List Instruction} {blocks : List (List Instruction)}
    (h : EmitsStages t k stages row blocks t') : ∀ {o fuel : Nat} {s : State}
    {aliases : Fields Value} (input : Value), t.contextVars.Valid → t.Fit → t'.Serves env.program →
    env.program.blocks.toList.drop k = blocks.map streamOf → Placed code o row →
    o + rowSize row = code.size → rowSize row < fuel →
    (∀ block ∈ blocks, (streamOf block).size + rowSize row < fuel) → Binds s aliases →
    s.stack = #[] → Ends (runFrom env fuel code 0 o (s.pushAll [input]))
      (stagesWithin env.library env.context env.stackSize aliases input stages) := by
  induction h with
  | nil t k =>
    -- no stage is left, and what flows in is the value of the chain
    intro o fuel s aliases input _ _ _ _ _ hend hfuel _ _ hempty
    obtain ⟨f, rfl⟩ : ∃ f, fuel = f + 1 := ⟨fuel - 1, by omega⟩
    exact ⟨s, hempty, runFrom_end (by simp at hend; omega)⟩
  | @cons t t₁ t₂ t₃ k bound stage rest block row blocks hroom halias hcount hcode hrest ih =>
    intro o fuel s aliases input hv ht hs hblocks hplaced hend hfuel hsizes hb hempty
    obtain ⟨f, rfl⟩ : ∃ f, fuel = f + 1 := ⟨fuel - 1, by omega⟩
    obtain ⟨⟨_, hrun⟩, _⟩ :=
      List.forall₂_cons.mp ((EmitsStages.cons hroom halias hcount hcode hrest).runs hv ht hs)
    have hv₁ : t₁.contextVars.Valid := halias.serves.2 ▸ hv
    have hemits := Compile.emits_of_code _ hcode
    obtain ⟨_, hv₂⟩ := hemits.serves hv₁
    have hfit₂ := hemits.fit (halias.fit (ht.push _ hroom)).1
    have hs₂ := (hrest.serves hv₂).1.trans hs
    have hlen : 0 < (Instruction.mk .pipe [t.constants.size, bound, k]).length :=
      Instruction.length_pos _
    rw [rowSize_cons] at hend hfuel
    have hblock : env.program.blocks[k]? = some (streamOf block.toList) := by
      have h0 := congrArg (·[0]?) hblocks
      simpa using h0
    have hsize : (streamOf block.toList).size < f := by
      have := hsizes block.toList (List.mem_cons_self ..)
      rw [rowSize_cons] at this
      omega
    -- the block leaves the machine as it was, so the handler asks a function
    have hanswers := fun bindings => hemits.inScope_eq hv₁ hs₂ hsize hb hempty bindings
    have hstep : step env (fun block => frame fun base => runFrom env f block base 0) code 0
        ⟨.pipe, [t.constants.size, bound, k]⟩ (o + (Instruction.mk .pipe
        [t.constants.size, bound, k]).length) (s.pushAll [input]) = _ :=
      step_pipe hrun hblock (Nat.zero_le _) hanswers
    rw [runFrom_succ hplaced.head hplaced.lt_size, stagesWithin]
    cases hget : env.library.handlers.get? stage.handler with
    | none =>
      rw [hget] at hstep
      exact ⟨_, bind_error hstep⟩
    | some handler =>
      simp only [hget] at hstep ⊢
      refine ends_of_step stage
        (o + (Instruction.mk .pipe [t.constants.size, bound, k]).length) hempty
        (fun e he => ?_) (fun output houtput => ?_) fun output => ?_
      · simp only [he] at hstep
        exact ⟨_, hstep⟩
      · simp only [houtput] at hstep
        exact hstep
      · have hempty' : (s.bound stage output).stack = #[] := (stack_bound ..).trans hempty
        refine ih output hv₂ hfit₂ hs ?_ hplaced.tail (by omega) (by omega) ?_ (hb.bound _ _) hempty'
        · have htail := congrArg List.tail hblocks
          simpa using htail
        · intro b hmem
          have := hsizes b (List.mem_cons_of_mem _ hmem)
          rw [rowSize_cons] at this
          omega

/-! ## Programs of chains -/

/-- The code that binds the result of the head, if there is any, binds it below all blocks. -/
theorem EmitsBinding.runs {env : Env} {code : Code} {t t' : Tables} {head : Stage Expr}
    {row : List Instruction} {o : Nat} (v : Value)
    (h : EmitsBinding t head.boundAs row t') (hs : t'.Serves env.program)
    (hplaced : Placed code o row) :
    ∃ n ≤ rowSize row, ∀ fuel, runFrom env (fuel + n) code 0 o (State.initial.pushAll [v]) =
      runFrom env fuel code 0 (o + rowSize row) ((State.initial.bound head v).pushAll [v]) := by
  unfold State.bound
  cases hbound : head.boundAs with
  | none =>
    rw [hbound] at h
    cases h
    exact ⟨0, Nat.le_refl _, fun fuel => rfl⟩
  | some name =>
    rw [hbound] at h
    cases h with
    | some _ hroom =>
      have hname : ∀ s, nameOperand env t.constants.size s = (.ok name, s) :=
        require_some (hs.nameAt? (nameAt?_push t name))
      have hpeek : peek 0 (State.initial.pushAll [v]) = (.ok v, State.initial.pushAll [v]) :=
        peek_top (Nat.zero_le _)
      refine ⟨1, Instruction.length_pos _, fun fuel => ?_⟩
      rw [runFrom_succ hplaced.head hplaced.lt_size]
      exact bind_ok ((bind_ok (hname _)).trans (bind_ok hpeek))

theorem binds_initial : Binds State.initial [] := ⟨rfl, fun _ => rfl⟩

/-- The value that a run leaves on the stack is that of its frame. -/
theorem frame_of_ends {run : Nat → Machine Unit} {r : Except RunError Value}
    (h : Ends (run 0 State.initial) r) : (frame run State.initial).1 = r.mapError .error := by
  cases r with
  | ok v =>
    obtain ⟨s, hempty, hrun⟩ := h
    exact congrArg Prod.fst (frame_of_value (s := State.initial) hrun (by rw [hempty]; rfl))
  | error e =>
    obtain ⟨s, hrun⟩ := h
    exact congrArg Prod.fst (frame_of_error (s := State.initial) hrun)

/-- A run that leads to the value of the head, and the run behind it. -/
theorem ends_of_leads {env : Env} {code : Code} {o fuel : Nat} {s : State}
    {r : Except RunError Value} {rest : Value → Except RunError Value}
    (hleads : Leads env code 0 0 s o s (r >>= fun v => pure [v])) (hfuel : o ≤ fuel)
    (hrest : ∀ v fuel', fuel ≤ fuel' + o → Ends (runFrom env fuel' code 0 o (s.pushAll [v])) (rest v)) :
    Ends (runFrom env fuel code 0 0 s) (r >>= rest) := by
  cases r with
  | error e =>
    obtain ⟨n, hn, extra, hrun⟩ := hleads
    obtain ⟨f, rfl⟩ : ∃ f, fuel = f + n := ⟨fuel - n, by omega⟩
    exact ⟨_, hrun f⟩
  | ok v =>
    obtain ⟨n, hn, hrun⟩ := hleads
    obtain ⟨f, rfl⟩ : ∃ f, fuel = f + n := ⟨fuel - n, by omega⟩
    rw [hrun f]
    exact hrest v f (by omega)

section Chains
variable {pos : Position} {head : Stage Expr} {rest : List (Stage Expr)} {p : Program}
  {library : Library} {stackSize : Nat} {context : Fields Value}

/-- The program of a chain evaluates the chain on a limited stack. -/
theorem Expr.run_eq_chainWithin (h : (Expr.pipe pos (head :: rest)).compile = .ok p) :
    p.run library stackSize context =
      (chainWithin library context stackSize head rest).mapError .error := by
  obtain ⟨main, blocks, t, _, rfl, hemits⟩ := Expr.emits_of_compile h
  generalize main.toList = row at hemits ⊢
  obtain ⟨hmain, hclimbs, _⟩ := hemits.main
  cases hemits with
  | expr hroot _ => cases hroot
  | @chain _ _ _ t₁ t₂ _ a b c _ hhead hbinding hstages =>
    generalize hp : programOf (a ++ (b ++ c)) blocks t = p at hmain ⊢
    have hserves : t.Serves p := hp ▸ ⟨List.prefix_rfl, List.prefix_rfl⟩
    have hcode : p.main = streamOf (a ++ (b ++ c)) := hp ▸ rfl
    have hblocks : p.blocks.toList = blocks.map streamOf := by rw [← hp]; rfl
    obtain ⟨_, hv₁⟩ := hhead.serves NameTable.empty_valid
    obtain ⟨hserves₂, hsame⟩ := hbinding.serves
    have hv₂ : t₂.contextVars.Valid := hsame ▸ hv₁
    have hs₂ : t₂.Serves p := (hstages.serves hv₂).1.trans hserves
    have hfits : ∀ i ∈ a ++ (b ++ c), i.Fits := fun i hi => (hmain i hi).1
    have hplaced : Placed (streamOf (a ++ (b ++ c))) 0 (a ++ (b ++ c)) := .streamOf hfits
    obtain ⟨hfuel, hroom⟩ := p.lt_fuel
    rw [hcode, size_streamOf hfits, rowSize_append, rowSize_append] at hfuel hroom
    let env : Env := ⟨library, stackSize, p, context⟩
    show (frame (fun base => runFrom env p.fuel p.main base 0) State.initial).1 = _
    refine frame_of_ends ?_
    rw [hcode]
    have hs₁ : t₁.Serves env.program := hserves₂.trans hs₂
    have hleads := @Emits.leads env _ _ _ _ _ _ _ hhead NameTable.empty_valid hs₁ hplaced.left
      .initial (Nat.le_refl 0)
    refine ends_of_leads hleads (by omega) fun v fuel hle => ?_
    have hs₂' : t₂.Serves env.program := hs₂
    obtain ⟨m, hm, hrun⟩ := hbinding.runs v hs₂' hplaced.right.left
    obtain ⟨f, rfl⟩ : ∃ f, fuel = f + m := ⟨fuel - m, by omega⟩
    rw [hrun]
    refine hstages.ends v hv₂ (hbinding.fit (hhead.fit Tables.empty_fit)) hserves hblocks
      hplaced.right.right ?_ (by omega) (fun block hmem => ?_) (binds_initial.bound head v)
      (stack_bound ..)
    · rw [size_streamOf hfits, rowSize_append, rowSize_append]
      omega
    · have hin : streamOf block ∈ p.blocks := by
        rw [← Array.mem_toList_iff, hblocks]
        exact List.mem_map_of_mem hmem
      have := hroom _ hin
      omega

/-- **Compiled chains mean what their trees mean.**  Unless a stack is too small somewhere, the
program of a chain ends, and gives the value of the chain or fails with its failure. -/
theorem Expr.run_eq_evalChain (h : (Expr.pipe pos (head :: rest)).compile = .ok p)
    (hroom : p.run (library.watched stackSize) stackSize context ≠
      .error (.error (.stackOverflow stackSize))) :
    p.run library stackSize context = (evalChain library context head rest).mapError .error := by
  rw [Expr.run_eq_chainWithin h] at hroom ⊢
  have hwatched := @chainWithin_watched library context stackSize head rest
  rcases hwatched with hover | heq
  · rw [hover] at hroom
    exact absurd rfl hroom
  · rw [heq]

end Chains

theorem pairing_run : ∃ p, pairing.compile = .ok p ∧
    p.run .basic 4 [] = .ok (.array [.boolean true, .boolean false]) := by
  have hc : pairing.compile = .ok _ := rfl
  refine ⟨_, hc, (Expr.run_eq_evalChain hc ?_).trans rfl⟩
  rw [Expr.run_eq_chainWithin hc]
  exact nofun

end PipeExpr
