import PipeExpr.Proofs.Safety
import PipeExpr.Proofs.Verification

/-!
# Verified programs run safely

A verified program ends, and if it fails then not because it is broken
(`Program.Verified.run_failsBenignly`).  The heights of a stream are its invariant: at an offset with
height `h` the frame holds `h` values.  One instruction takes the invariant along both of its ways
(`step_safe`), and since every instruction leads forward, a run is over after as many turns as
there are bytes left (`runFrom_safe`).  Blocks come first, since they run no blocks themselves; then
the main stream, in which handlers run blocks as often as they like.
-/

namespace PipeExpr

open Machine

/-- Where the stream goes on behind an instruction that was carried out with `size` values on the
stack, and how many there are now. -/
def Instruction.Continues (i : Instruction) (next size : Nat) (offset size' : Nat) : Prop :=
  (offset = next ∧ ∃ n ∈ i.flow.falls, size' = size - i.flow.takes + n) ∨
    (offset = i.target ∧ ∃ n ∈ i.flow.jumps, size' = size - i.flow.takes + n)

namespace Machine

/-! ## One instruction -/

section Instructions
variable {env : Env} {runBlock : BlockRunner} {code : Code} {base next size : Nat}
  {i : Instruction} {s : State}

/-- The end of an instruction behind which the stream goes on. -/
theorem next_safe {n : Nat} {stop : Nat → Prop} (hfalls : i.flow.falls = some n)
    (hsize : s.stack.size = size - i.flow.takes + n) :
    Safe (return next : Machine Nat) s (i.Continues next size) stop :=
  .inl ⟨rfl, n, hfalls, hsize⟩

/-- The end of an instruction that jumps. -/
theorem goto_safe {n : Nat} {stop : Nat → Prop} (htarget : i.target ≤ code.size)
    (hjumps : i.flow.jumps = some n) (hsize : s.stack.size = size - i.flow.takes + n) :
    Safe (jumpTarget code i.target) s (i.Continues next size) stop := by
  refine (jumpTarget_safe htarget).mono (fun o m h => ?_) fun _ h => h
  obtain ⟨ho, hm⟩ := h
  exact .inr ⟨ho, n, hjumps, hm.trans hsize⟩

/-- The end of an instruction whose operands are off the stack. -/
theorem finish_safe (v : Value) (hbase : base ≤ s.stack.size)
    (hsize : s.stack.size = size - i.flow.takes) (hfalls : i.flow.falls = some 1) :
    Safe (do push env v; return next : Machine Nat) s (i.Continues next size) (base ≤ ·) := by
  refine (push_safe v hbase).bind fun _ s' hs' => ?_
  exact next_safe hfalls (hsize ▸ hs')

/-- The end of an instruction that computes its value from its operands. -/
theorem compute_safe {α : Type} {x : Except RunError α} (hx : FailsBenignly x) (f : α → Value)
    (hbase : base ≤ s.stack.size) (hsize : s.stack.size = size - i.flow.takes)
    (hfalls : i.flow.falls = some 1) :
    Safe (do push env (f (← lift x)); return next : Machine Nat) s (i.Continues next size)
      (base ≤ ·) := by
  refine (lift_safe hx hbase).bind fun v s' hs' => ?_
  exact finish_safe (f v) (hs' ▸ hbase) (hs'.trans hsize) hfalls

/-- Two operands are taken off the stack. -/
theorem operands_safe {f : Value → Value → Machine Nat} {ok : Nat → Nat → Prop}
    (h : base + 2 ≤ s.stack.size) (hf : ∀ left right s', s'.stack.size = s.stack.size - 2 →
      Safe (f left right) s' ok (base ≤ ·)) :
    Safe (do
      let right ← pop base
      let left ← pop base
      f left right : Machine Nat) s ok (base ≤ ·) := by
  refine (pop_safe (by omega)).bind fun right s₁ h₁ => ?_
  refine (pop_safe (by omega)).bind fun left s₂ h₂ => ?_
  exact hf left right s₂ (by omega)

/-- A stage needs its input only, whatever its handler does with the block. -/
theorem stage_safe (hi : i.opcode = .pipe) (hrange : env.program.InRange i)
    (hneeds : base + 1 ≤ s.stack.size) (hlibrary : env.library.FailsBenignly)
    (hblocks : ∀ block ∈ env.program.blocks, Restores (runBlock block)) :
    Safe (stage env runBlock base i) s (fun _ n => n = s.stack.size) (base ≤ ·) := by
  simp only [Program.InRange, hi] at hrange
  obtain ⟨hname, halias, hblock⟩ := hrange
  have hbase : base ≤ s.stack.size := by omega
  refine Safe.bind (nameOperand_safe hname) fun name s₁ h₁ => ?_
  refine Safe.bind (require_safe (fun _ => trivial) (h₁ ▸ hbase)) fun handler s₂ ⟨hget, h₂⟩ => ?_
  have hsome : env.program.blocks[i.slot 2]? ≠ none := by
    rw [Array.getElem?_eq_getElem hblock]
    exact Option.some_ne_none _
  refine Safe.bind (require_safe (absurd · hsome) (by omega)) fun block s₃ ⟨hat, h₃⟩ => ?_
  refine Safe.bind (pop_safe (by omega)) fun input s₄ h₄ => ?_
  have hanswer := answer_restores (hblocks block (Array.mem_of_getElem? hat))
    (hlibrary name handler hget name input) s₄
  refine Safe.bind (hanswer.mono (fun _ _ h => h) fun n (hn : n = _) => (by omega : base ≤ n))
    fun output s₅ (h₅ : _ = _) => ?_
  have hpush : ∀ s', s'.stack.size = s₅.stack.size →
      Safe (push env output) s' (fun _ n => n = s.stack.size) (base ≤ ·) := fun s' hs' =>
    (push_safe output (by omega)).mono (fun _ n hn => by omega) fun _ hn => hn
  by_cases hnone : i.slot 1 = noAlias
  · rw [if_neg (not_not_intro hnone)]
    exact hpush s₅ rfl
  · rw [if_pos hnone]
    refine Safe.bind (nameOperand_safe (halias.resolve_left hnone)) fun bound s₆ h₆ => ?_
    exact Safe.bind (modify_safe _) fun _ s₇ h₇ => hpush s₇ (h₇.trans h₆)

/-- A row of operands is taken off the stack and becomes one value. -/
theorem gather_safe {k : Nat} (f : List Value → Value) (htakes : i.flow.takes = k)
    (hfalls : i.flow.falls = some 1) (h : base + k ≤ s.stack.size) :
    Safe (do push env (f (← popMany base k)); return next : Machine Nat) s
      (i.Continues next s.stack.size) (base ≤ ·) := by
  refine (popMany_safe h).bind fun vs s₁ h₁ => ?_
  exact finish_safe (f vs) (by omega) (by omega) hfalls

theorem bindLocal_size (s : State) (name : String) (v : Value) :
    (bindLocal s name v).stack.size = s.stack.size := by
  unfold bindLocal
  split <;> rfl

/-- A left side that does not decide stays. -/
theorem undecided_safe {stop : Nat → Prop} (hneeds : base + 1 ≤ s.stack.size)
    (htakes : i.flow.takes = 1) (hfalls : i.flow.falls = some 1) :
    Safe (return next : Machine Nat) s (i.Continues next s.stack.size) stop :=
  next_safe hfalls (by omega)

/-- A left side that decides is replaced by its truth. -/
theorem decided_safe {v : Value} (htarget : i.target ≤ code.size) (hneeds : base + 1 ≤ s.stack.size)
    (htakes : i.flow.takes = 1) (hjumps : i.flow.jumps = some 1) :
    Safe (do let _ ← pop base; push env v; jumpTarget code i.target : Machine Nat) s
      (i.Continues next s.stack.size) (base ≤ ·) := by
  refine (pop_safe hneeds).bind fun _ s₁ h₁ => ?_
  refine (push_safe v (by omega)).bind fun _ s₂ h₂ => ?_
  exact goto_safe htarget hjumps (by omega)

/-- **One instruction is safe** where what it needs is on the stack and its operands are in range.  It
goes on at one of its ways, with as many values as its flow says. -/
theorem step_safe (hrange : env.program.InRange i)
    (hneeds : base + i.flow.takes ≤ s.stack.size)
    (htarget : i.flow.jumps.isSome → i.target ≤ code.size) (hlibrary : env.library.FailsBenignly)
    (hblocks : i.opcode = .pipe → ∀ block ∈ env.program.blocks, Restores (runBlock block)) :
    Safe (step env runBlock code base i next) s (i.Continues next s.stack.size) (base ≤ ·) := by
  have hbase : base ≤ s.stack.size := by omega
  obtain ⟨op, operands⟩ := i
  cases op with
  | constant =>
    have hsome : env.program.constants[(Instruction.mk .constant operands).slot 0]? ≠ none := by
      rw [Array.getElem?_eq_getElem hrange]
      exact Option.some_ne_none _
    refine Safe.bind (require_safe (absurd · hsome) hbase) fun v s₁ ⟨_, h₁⟩ => ?_
    exact finish_safe v (h₁ ▸ hbase) h₁ rfl
  | loadVar =>
    have hsome : env.program.contextVars[(Instruction.mk .loadVar operands).slot 0]? ≠ none := by
      rw [Array.getElem?_eq_getElem hrange]
      exact Option.some_ne_none _
    refine Safe.bind (require_safe (absurd · hsome) hbase) fun name s₁ ⟨_, h₁⟩ => ?_
    dsimp only
    split
    · exact finish_safe _ (h₁ ▸ hbase) h₁ rfl
    · split
      · exact finish_safe _ (h₁ ▸ hbase) h₁ rfl
      · exact fail_safe trivial (h₁ ▸ hbase)
  | loadLocal =>
    refine Safe.bind (nameOperand_safe hrange) fun name s₁ h₁ => ?_
    refine Safe.bind get_safe fun s' s₂ h₂ => ?_
    refine Safe.bind (require_safe (fun _ => trivial) (by omega)) fun v s₃ ⟨_, h₃⟩ => ?_
    exact finish_safe v (by omega) (h₃.trans (h₂.trans h₁)) rfl
  | storeLocal =>
    have hneeds : base + 1 ≤ s.stack.size := hneeds
    refine Safe.bind (nameOperand_safe hrange) fun name s₁ h₁ => ?_
    refine Safe.bind (peek_safe (by omega)) fun v s₂ h₂ => ?_
    refine Safe.bind (modify_safe _) fun _ s₃ h₃ => ?_
    rw [bindLocal_size] at h₃
    exact next_safe rfl (show s₃.stack.size = s.stack.size - 1 + 1 by omega)
  | pop =>
    have hneeds : base + 1 ≤ s.stack.size := hneeds
    refine Safe.bind (pop_safe hneeds) fun _ s₁ h₁ => ?_
    exact next_safe rfl (show s₁.stack.size = s.stack.size - 1 + 0 by omega)
  | add | sub | mul | div | mod | pow | bitAnd | bitOr | bitXor | shiftLeft | shiftRight =>
    have hneeds : base + 2 ≤ s.stack.size := hneeds
    refine operands_safe hneeds fun left right s₁ h₁ => ?_
    refine compute_safe (Operator.binary_failsOrdinarily ?_ left right).benign id (by omega) h₁ rfl
    simp [Operator.binaryOpcodes]
  | equal | notEqual | less | greater | lessEqual | greaterEqual =>
    have hneeds : base + 2 ≤ s.stack.size := hneeds
    refine operands_safe hneeds fun left right s₁ h₁ => ?_
    refine compute_safe (Operator.compare_failsOrdinarily ?_ left right).benign .boolean (by omega) h₁ rfl
    simp [Operator.comparisonOpcodes]
  | negate | not | bitNot =>
    have hneeds : base + 1 ≤ s.stack.size := hneeds
    refine Safe.bind (pop_safe hneeds) fun v s₁ h₁ => ?_
    have hsize : s₁.stack.size = s.stack.size - 1 := by omega
    refine compute_safe (Operator.unary_failsOrdinarily ?_ v).benign id (by omega) hsize rfl
    simp [Operator.unaryOpcodes]
  | and | or =>
    have hneeds : base + 2 ≤ s.stack.size := hneeds
    refine operands_safe hneeds fun left right s₁ h₁ => ?_
    exact finish_safe _ (by omega) h₁ rfl
  | jump => exact goto_safe (htarget rfl) rfl rfl
  | jumpIfFalse =>
    have hneeds : base + 1 ≤ s.stack.size := hneeds
    refine Safe.bind (pop_safe hneeds) fun condition s₁ h₁ => ?_
    have hsize : s₁.stack.size = s.stack.size - 1 + 0 := by omega
    split
    · exact next_safe rfl hsize
    · exact goto_safe (htarget rfl) rfl hsize
  | andShortCircuit =>
    refine Safe.bind (peek_safe hneeds) fun v s₁ h₁ => ?_
    rw [← h₁] at hneeds ⊢
    split
    · exact undecided_safe hneeds rfl rfl
    · exact decided_safe (htarget rfl) hneeds rfl rfl
  | orShortCircuit =>
    refine Safe.bind (peek_safe hneeds) fun v s₁ h₁ => ?_
    rw [← h₁] at hneeds ⊢
    split
    · exact decided_safe (htarget rfl) hneeds rfl rfl
    · exact undecided_safe hneeds rfl rfl
  | jumpIfNotNull =>
    have hneeds : base + 1 ≤ s.stack.size := hneeds
    refine Safe.bind (peek_safe hneeds) fun v s₁ h₁ => ?_
    split
    · refine Safe.bind (pop_safe (by omega)) fun _ s₂ h₂ => ?_
      exact next_safe rfl (show s₂.stack.size = s.stack.size - 1 + 0 by omega)
    · exact goto_safe (htarget rfl) rfl (show s₁.stack.size = s.stack.size - 1 + 1 by omega)
  | array | object => exact gather_safe _ rfl rfl hneeds
  | index =>
    have hneeds : base + 2 ≤ s.stack.size := hneeds
    refine operands_safe hneeds fun target key s₁ h₁ => ?_
    exact compute_safe (Access.index_failsOrdinarily target key _).benign id (by omega) h₁ rfl
  | slice =>
    have hneeds : base + 4 ≤ s.stack.size := hneeds
    refine operands_safe (by omega) fun stop stepSize s₁ h₁ => ?_
    refine operands_safe (by omega) fun target start s₂ h₂ => ?_
    have hx := Access.slice_failsOrdinarily target start stop stepSize
      (.ofNat ((Instruction.mk .slice operands).slot 0))
    exact compute_safe hx.benign id (by omega) (show s₂.stack.size = s.stack.size - 4 by omega) rfl
  | call =>
    refine Safe.bind (nameOperand_safe hrange) fun name s₁ h₁ => ?_
    refine Safe.bind (require_safe (fun _ => trivial) (by omega)) fun f s₂ ⟨_, h₂⟩ => ?_
    have hneeds₂ : base + (Instruction.mk .call operands).slot 1 ≤ s₂.stack.size := by
      rw [h₂, h₁]
      exact hneeds
    refine Safe.bind (popMany_safe hneeds₂) fun arguments s₃ h₃ => ?_
    have hsize : s₃.stack.size = s.stack.size - (Instruction.mk .call operands).slot 1 := by omega
    cases f arguments with
    | ok v => exact finish_safe v (by omega) hsize rfl
    | error e => exact fail_safe trivial (by omega)
  | pipe =>
    have hneeds : base + 1 ≤ s.stack.size := hneeds
    refine Safe.bind (stage_safe rfl hrange hneeds hlibrary (hblocks rfl)) fun _ s₁ h₁ => ?_
    exact next_safe rfl (show s₁.stack.size = s.stack.size - 1 + 1 by omega)

end Instructions

/-! ## Streams -/

section Streams
variable {env : Env} {code : Code} {rows : List (Nat × Instruction)} {base reserve fuel : Nat}

/-- **A run of a stream that passes verification is safe** from every boundary on, if the stack of the
frame is as high as the heights say.  The fuel has to suffice for the bytes that are left and, if there
are pipes among them, for a block on top of these. -/
theorem runFrom_safe {height : Nat → Nat} (hv : env.program.Verifies code rows)
    (hend : height code.size = 1) (hheights : ∀ x ∈ rows, Consistent height x.1 x.2)
    (hlibrary : env.library.FailsBenignly)
    (hblocks : ∀ x ∈ rows, x.2.opcode = .pipe → ∀ fuel, reserve < fuel →
      ∀ block ∈ env.program.blocks, Restores (frame fun base => runFrom env fuel block base 0))
    {o : Nat} {s : State} (ho : o = code.size ∨ o ∈ rows.map Prod.fst)
    (hfuel : code.size - o + reserve < fuel) (hsize : s.stack.size = base + height o) :
    Safe (runFrom env fuel code base o) s (fun _ n => n = base + 1) (base ≤ ·) := by
  obtain ⟨hchained, _⟩ := decodeAll_chained hv.decodes
  induction fuel generalizing o s with
  | zero => exact absurd hfuel (Nat.not_lt_zero _)
  | succ fuel ih =>
    rcases ho with rfl | ho
    · -- at the end the frame holds its value
      refine .of_eq (runFrom_end (Nat.lt_irrefl _)) (.pure ?_)
      rw [hsize, hend]
    · obtain ⟨x, hx, rfl⟩ := List.mem_map.mp ho
      obtain ⟨hread, hnext⟩ := hchained.of_mem hx
      obtain ⟨htakes, hfalls, hjumps⟩ := hheights x hx
      have hlt := (decodeAt_some hread).1
      have hpos := x.2.length_pos
      have htarget : x.2.flow.jumps.isSome → x.2.target ≤ code.size := by
        intro hjump
        rcases (hv.targets x hx hjump).2 with htarget | htarget
        · exact Nat.le_of_eq htarget
        · obtain ⟨y, hy, hyo⟩ := List.mem_map.mp htarget
          have := (decodeAt_some (hchained.of_mem hy).1).1
          omega
      refine .of_eq (runFrom_succ hread hlt) ?_
      refine Safe.bind (step_safe (hv.operands x hx) (by omega) htarget hlibrary
        fun hpipe => hblocks x hx hpipe fuel (by omega)) fun o s' hgo => ?_
      -- on both of its ways the instruction leads forward, to a boundary with the height it left
      rcases hgo with ⟨rfl, n, hn, hsize'⟩ | ⟨rfl, n, hn, hsize'⟩
      · have hheight := hfalls n hn
        exact ih hnext (by omega) (by omega)
      · have hheight := hjumps n hn
        obtain ⟨hforward, hat⟩ := hv.targets x hx (Option.isSome_of_mem hn)
        exact ih hat (by omega) (by omega)

/-- A stream that passes verification restores the stack when it is run in a frame of its own. -/
theorem frame_safe (hv : env.program.Verifies code rows) (hlibrary : env.library.FailsBenignly)
    (hblocks : ∀ x ∈ rows, x.2.opcode = .pipe → ∀ fuel, reserve < fuel →
      ∀ block ∈ env.program.blocks, Restores (frame fun base => runFrom env fuel block base 0))
    (hfuel : code.size + reserve < fuel) :
    Restores (frame fun base => runFrom env fuel code base 0) := by
  obtain ⟨height, hstart, hend, hheights⟩ := hv.heights
  have hfirst := nextOffset_mem code.size rows
  rw [(decodeAll_chained hv.decodes).2] at hfirst
  refine frame_restores fun s => ?_
  exact runFrom_safe hv hend hheights hlibrary hblocks hfirst hfuel (by rw [hstart]; rfl)

end Streams

end Machine

/-! ## Programs -/

namespace Program

variable {p : Program}

/-- A verified program is safe with any library whose handlers are. -/
theorem Verified.restores (h : p.Verified) {library : Library} (hlibrary : library.FailsBenignly)
    (stackSize : Nat) (context : Fields Value) :
    Restores (execute ⟨library, stackSize, p, context⟩ p.fuel p.main) := by
  obtain ⟨rows, hmain⟩ := h.main
  obtain ⟨hfuel, hroom⟩ := p.lt_fuel
  -- what the main stream leaves of the fuel suffices for any block, which runs no blocks itself
  have hblocks : ∀ fuel, p.fuel - p.main.size - 1 < fuel → ∀ block ∈ p.blocks, Restores
      (frame fun base => runFrom ⟨library, stackSize, p, context⟩ fuel block base 0) := by
    intro fuel hreserve block hmem
    obtain ⟨rows, hblock, hnoPipe⟩ := h.blocks block hmem
    have hsize := hroom block hmem
    have hlt : block.size + 0 < fuel := by omega
    exact frame_safe hblock hlibrary (fun x hx hpipe => absurd hpipe (hnoPipe x hx)) hlt
  exact frame_safe hmain hlibrary (fun _ _ _ => hblocks) (by omega)

/-- **Verified programs run safely**, whatever the context and the room on the stack are.  They end with
a value or a benign error, and never with an empty stack, an instruction that cannot be read or a
malformation. -/
theorem Verified.run_failsBenignly (h : p.Verified) (stackSize : Nat) (context : Fields Value) :
    (∃ v, p.run .standard stackSize context = .ok v) ∨
      ∃ e, p.run .standard stackSize context = .error (.error e) ∧ e.Benign := by
  have hsafe := h.restores Library.standard_failsBenignly stackSize context .initial
  unfold Safe at hsafe
  unfold run
  rcases hrun : execute ⟨.standard, stackSize, p, context⟩ p.fuel p.main .initial with ⟨(e | _) | v, s⟩
  · rw [hrun] at hsafe
    exact .inr ⟨e, rfl, hsafe.1⟩
  · rw [hrun] at hsafe
    exact absurd hsafe id
  · exact .inl ⟨v, rfl⟩

/-- A program that is not the code of any tree: it jumps over an instruction that nothing reaches, which
needs more values than there ever are. -/
def detour : Program where
  main := #[0x00, 0, 0, 0x60, 0, 7, 0x04, 0x90, 0, 1, 0xFF, 0xFF, 0, 0]
  constants := #[.array [.null], .string "map", .string "$item"]
  blocks := #[#[0x02, 0, 2]]

theorem detour_verified : detour.Verified := by
  constructor
  · refine ⟨[(0, ⟨.constant, [0]⟩), (3, ⟨.jump, [7]⟩), (6, ⟨.pop, []⟩),
      (7, ⟨.pipe, [1, noAlias, 0]⟩)], rfl, ?_, by decide, ?_⟩
    · simp only [List.forall_mem_cons]
      exact ⟨Nat.zero_lt_succ _, trivial, trivial, ⟨rfl, .inl rfl, Nat.zero_lt_one⟩, nofun⟩
    -- nothing reaches the instruction at 6, but it has a height, too
    · exact ⟨fun o => if o = 0 then 0 else if o = 6 then 2 else 1, rfl, rfl, by decide⟩
  · intro block hblock
    obtain rfl := Array.mem_singleton.mp hblock
    refine ⟨[(0, ⟨.loadLocal, [2]⟩)], ⟨rfl, ?_, by decide, ?_⟩, by decide⟩
    · simp only [List.forall_mem_cons]
      exact ⟨rfl, nofun⟩
    · exact ⟨fun o => if o = 0 then 0 else 1, rfl, rfl, by decide⟩

theorem detour_run : detour.Verified ∧ ((∃ v, detour.run .standard 8 [] = .ok v) ∨
    ∃ e, detour.run .standard 8 [] = .error (.error e) ∧ e.Benign) :=
  ⟨detour_verified, detour_verified.run_failsBenignly 8 []⟩

end Program

end PipeExpr
