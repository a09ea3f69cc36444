import PipeExpr.Machine.Run
import PipeExpr.Proofs.Encoding

/-!
# Rules of the machine

How the parts of a run act on a state whose top values are known.  `s.pushAll vs` is the state `s` with
the values `vs` on top of its stack; instructions of an expression only ever touch what stands above
the state in which its code was entered, so this is the only shape of state that comes up.

A run of a stream is described by `Leads`: started at one offset it arrives at another one with more
values on the stack, or ends with an error.  Turns are counted, so that no more fuel is asked for than
the run advances.
-/

namespace PipeExpr

namespace Machine

/-! ## Sequences -/

section Sequences
variable {α β : Type} {x : Machine α} {f : α → Machine β} {s s' : State}

theorem bind_ok {v : α} (h : x s = (.ok v, s')) : (x >>= f) s = f v s' := by
  show ExceptT.bindCont f (x s).1 (x s).2 = f v s'
  rw [h]
  rfl

theorem bind_error {e : Halt} (h : x s = (.error e, s')) : (x >>= f) s = (.error e, s') := by
  show ExceptT.bindCont f (x s).1 (x s).2 = _
  rw [h]
  rfl

/-- What follows depends on the result and the state behind it only. -/
theorem bind_eq {y : Machine α} (h : x s = y s') : (x >>= f) s = (y >>= f) s' := by
  show ExceptT.bindCont f (x s).1 (x s).2 = ExceptT.bindCont f (y s').1 (y s').2
  rw [h]

theorem require_some {v : α} {e : RunError} {y : Option α} (h : y = some v) (s : State) :
    require y e s = (.ok v, s) := by
  rw [h]
  rfl

theorem require_none {e : RunError} {y : Option α} (h : y = none) (s : State) :
    require y e s = (.error (.error e), s) := by
  rw [h]
  rfl

end Sequences

/-! ## States -/

namespace State

/-- A state with values on top of its stack. -/
def pushAll (s : State) (vs : List Value) : State := { s with stack := s.stack ++ vs.toArray }

variable (s : State)

@[simp] theorem pushAll_nil : s.pushAll [] = s := by simp [pushAll]

@[simp] theorem pushAll_pushAll (us vs : List Value) :
    (s.pushAll us).pushAll vs = s.pushAll (us ++ vs) := by
  simp [pushAll, Array.append_assoc]

@[simp] theorem size_pushAll (vs : List Value) :
    (s.pushAll vs).stack.size = s.stack.size + vs.length := by
  simp [pushAll]

/-- The stack of a state can be cut back to where the values were put. -/
theorem shrink_pushAll (vs : List Value) :
    { s.pushAll vs with stack := (s.pushAll vs).stack.shrink s.stack.size } = s := by
  simp [pushAll]

end State

/-! ## The stack -/

section Stack
variable {env : Env} {base : Nat} {s : State} {v : Value} {vs : List Value}

theorem push_room (h : s.stack.size < env.stackSize) : push env v s = (.ok (), s.pushAll [v]) := by
  have hroom : ¬ s.stack.size ≥ env.stackSize := Nat.not_le_of_lt h
  show (if s.stack.size ≥ env.stackSize then fail _ else modify _ : Machine Unit) s = _
  rw [if_neg hroom]
  show (Except.ok (), { s with stack := s.stack.push v }) = _
  rw [State.pushAll, Array.push_eq_append]

theorem push_full (h : env.stackSize ≤ s.stack.size) :
    push env v s = (.error (.error (.stackOverflow env.stackSize)), s) := by
  show (if s.stack.size ≥ env.stackSize then fail _ else modify _ : Machine Unit) s = _
  rw [if_pos h]
  rfl

theorem peek_pushAll (h : base ≤ s.stack.size) : peek base (s.pushAll (vs ++ [v])) =
    (.ok v, s.pushAll (vs ++ [v])) := by
  have habove : ¬ (s.pushAll (vs ++ [v])).stack.size ≤ base := by
    rw [State.size_pushAll, List.length_append, List.length_singleton]
    omega
  have hback : (s.pushAll (vs ++ [v])).stack.back? = some v := by simp [State.pushAll]
  show (if (s.pushAll (vs ++ [v])).stack.size ≤ base then fail _ else require _ _ : Machine Value)
    (s.pushAll (vs ++ [v])) = _
  rw [if_neg habove]
  exact require_some hback _

theorem pop_pushAll (h : base ≤ s.stack.size) :
    pop base (s.pushAll (vs ++ [v])) = (.ok v, s.pushAll vs) := by
  have hpop : (s.pushAll (vs ++ [v])).stack.pop = (s.pushAll vs).stack := by
    rw [← State.pushAll_pushAll]
    simp [State.pushAll]
  refine (bind_ok (peek_pushAll h)).trans ?_
  show (Except.ok v, { s with stack := (s.pushAll (vs ++ [v])).stack.pop }) = _
  rw [hpop]
  rfl

/-- The value right above a state. -/
theorem peek_top (h : base ≤ s.stack.size) : peek base (s.pushAll [v]) = (.ok v, s.pushAll [v]) :=
  @peek_pushAll base s v [] h

theorem pop_top (h : base ≤ s.stack.size) : pop base (s.pushAll [v]) = (.ok v, s) := by
  have hpop := @pop_pushAll base s v [] h
  rwa [State.pushAll_nil] at hpop

theorem popMany_pushAll (h : base ≤ s.stack.size) :
    popMany base vs.length (s.pushAll vs) = (.ok vs, s) := by
  have hsize := s.size_pushAll vs
  have henough : ¬ (s.pushAll vs).stack.size < base + vs.length := by omega
  have hcut : (s.pushAll vs).stack.size - vs.length = s.stack.size := by omega
  have hvalues : ((s.pushAll vs).stack.extract s.stack.size (s.pushAll vs).stack.size).toList = vs := by
    simp [State.pushAll]
  show (if (s.pushAll vs).stack.size < base + vs.length then fail _ else do
      let values := ((← get).stack.extract ((s.pushAll vs).stack.size - vs.length)
        (s.pushAll vs).stack.size).toList
      modify fun s' => { s' with stack := s'.stack.shrink ((s.pushAll vs).stack.size - vs.length) }
      return values : Machine (List Value)) (s.pushAll vs) = _
  rw [if_neg henough, hcut]
  show (Except.ok ((s.pushAll vs).stack.extract s.stack.size (s.pushAll vs).stack.size).toList,
    { s.pushAll vs with stack := (s.pushAll vs).stack.shrink s.stack.size }) = _
  rw [hvalues, State.shrink_pushAll]

end Stack

/-! ## Frames -/

section Frames
variable {run : Nat → Machine Unit} {s s' : State}

/-- A run that leaves one value more than there was. -/
theorem frame_of_value {v : Value} (h : run s.stack.size s = (.ok (), s'.pushAll [v]))
    (hsize : s'.stack.size = s.stack.size) : frame run s = (.ok v, s') := by
  have hpop : pop s.stack.size (s'.pushAll [v]) = (.ok v, s') := pop_top (Nat.le_of_eq hsize.symm)
  unfold frame
  simp only [h, hpop, hsize, if_true]

/-- A run that does not get to its end: the stack is cut back to the base. -/
theorem frame_of_error {halt : Halt} (h : run s.stack.size s = (.error halt, s')) :
    frame run s = (.error halt, { s' with stack := s'.stack.shrink s.stack.size }) := by
  unfold frame
  simp only [h]

end Frames

/-! ## Runs of streams -/

/-- A run of a stream from `o` on, in state `s₀`: it arrives at `o'` with values on top of `s`, or ends
with an error.  It takes at most one turn for each byte in between. -/
def Leads (env : Env) (code : Code) (base o : Nat) (s₀ : State) (o' : Nat) (s : State) :
    Except RunError (List Value) → Prop
  | .ok vs => ∃ n, o + n ≤ o' ∧ ∀ fuel,
      runFrom env (fuel + n) code base o s₀ = runFrom env fuel code base o' (s.pushAll vs)
  | .error e => ∃ n, o + n ≤ o' ∧ ∃ extra, ∀ fuel,
      runFrom env (fuel + n) code base o s₀ = (.error (.error e), s.pushAll extra)

section Runs
variable {env : Env} {code : Code} {base o o₁ o' fuel : Nat} {s₀ s₁ s : State} {i : Instruction}
  {row : List Instruction}

theorem runFrom_succ (hread : decodeAt code o = .ok i) (hlt : o < code.size) :
    runFrom env (fuel + 1) code base o s₀ = (do
      let next ← step env (fun block => frame fun base => runFrom env fuel block base 0) code base i
        (o + i.length)
      runFrom env fuel code base next : Machine Unit) s₀ := by
  rw [runFrom, if_pos hlt, hread]

theorem runFrom_end (h : ¬ o < code.size) : runFrom env (fuel + 1) code base o s₀ = (.ok (), s₀) := by
  rw [runFrom, if_neg h]
  rfl

namespace Leads

theorem done (vs : List Value) : Leads env code base o (s.pushAll vs) o s (.ok vs) :=
  ⟨0, Nat.le_refl _, fun _ => rfl⟩

/-- One instruction, and the run behind it. -/
theorem turn {r : Except RunError (List Value)} (hp : Placed code o (i :: row))
    (hstep : ∀ runBlock, step env runBlock code base i (o + i.length) s₀ = (.ok o₁, s₁))
    (ho : o < o₁) (h : Leads env code base o₁ s₁ o' s r) : Leads env code base o s₀ o' s r := by
  have hturn : ∀ fuel, runFrom env (fuel + 1) code base o s₀ = runFrom env fuel code base o₁ s₁ :=
    fun fuel => (runFrom_succ hp.head hp.lt_size).trans (bind_ok (hstep _))
  cases r with
  | ok vs =>
    obtain ⟨n, hn, hrun⟩ := h
    exact ⟨n + 1, by omega, fun fuel => (hturn (fuel + n)).trans (hrun fuel)⟩
  | error e =>
    obtain ⟨n, hn, extra, hrun⟩ := h
    exact ⟨n + 1, by omega, extra, fun fuel => (hturn (fuel + n)).trans (hrun fuel)⟩

/-- One instruction that ends the run. -/
theorem stop {e : RunError} {extra : List Value} (hp : Placed code o (i :: row))
    (hstep : ∀ runBlock, step env runBlock code base i (o + i.length) s₀ =
      (.error (.error e), s.pushAll extra)) (ho : o < o') :
    Leads env code base o s₀ o' s (.error e) :=
  ⟨1, ho, extra, fun _ => (runFrom_succ hp.head hp.lt_size).trans (bind_error (hstep _))⟩

/-- One run behind another one. -/
theorem bind {r : Except RunError (List Value)} {f : List Value → Except RunError (List Value)}
    (h : Leads env code base o s₀ o₁ s r) (ho : o₁ ≤ o')
    (hf : ∀ vs, r = .ok vs → Leads env code base o₁ (s.pushAll vs) o' s (f vs)) :
    Leads env code base o s₀ o' s (r >>= f) := by
  cases r with
  | error e =>
    obtain ⟨n, hn, extra, hrun⟩ := h
    exact ⟨n, by omega, extra, hrun⟩
  | ok vs =>
    obtain ⟨n, hn, hrun⟩ := h
    have hrest := hf vs rfl
    show Leads env code base o s₀ o' s (f vs)
    cases hr : f vs with
    | ok ws =>
      rw [hr] at hrest
      obtain ⟨m, hm, hrun'⟩ := hrest
      refine ⟨m + n, by omega, fun fuel => ?_⟩
      rw [← Nat.add_assoc, hrun, hrun']
    | error e =>
      rw [hr] at hrest
      obtain ⟨m, hm, extra, hrun'⟩ := hrest
      refine ⟨m + n, by omega, extra, fun fuel => ?_⟩
      rw [← Nat.add_assoc, hrun, hrun']

/-- A run above values that stay on the stack. -/
theorem above {r : Except RunError (List Value)} {us : List Value}
    (h : Leads env code base o s₀ o' (s.pushAll us) r) :
    Leads env code base o s₀ o' s (r >>= fun vs => pure (us ++ vs)) := by
  cases r with
  | ok vs =>
    obtain ⟨n, hn, hrun⟩ := h
    refine ⟨n, hn, fun fuel => ?_⟩
    rw [hrun, State.pushAll_pushAll]
  | error e =>
    obtain ⟨n, hn, extra, hrun⟩ := h
    refine ⟨n, hn, us ++ extra, fun fuel => ?_⟩
    rw [hrun, State.pushAll_pushAll]

/-- A run behind one that puts a single value above others. -/
theorem value_above {r : Except RunError Value} {f : Value → Except RunError (List Value)}
    {us : List Value} (h : Leads env code base o s₀ o₁ (s.pushAll us) (r >>= fun v => pure [v]))
    (ho : o₁ ≤ o') (hf : ∀ v, r = .ok v → Leads env code base o₁ (s.pushAll (us ++ [v])) o' s (f v)) :
    Leads env code base o s₀ o' s (r >>= f) := by
  cases r with
  | error e => exact h.above.bind ho (f := fun _ => .error e) fun vs hvs => nomatch hvs
  | ok v =>
    refine h.above.bind ho (f := fun _ => f v) fun vs hvs => ?_
    obtain rfl := Except.ok.inj hvs
    exact hf v rfl

/-- A run behind one that puts a single value. -/
theorem value {r : Except RunError Value} {f : Value → Except RunError (List Value)}
    (h : Leads env code base o s₀ o₁ s (r >>= fun v => pure [v])) (ho : o₁ ≤ o')
    (hf : ∀ v, r = .ok v → Leads env code base o₁ (s.pushAll [v]) o' s (f v)) :
    Leads env code base o s₀ o' s (r >>= f) := by
  rw [← s.pushAll_nil] at h
  exact h.value_above ho hf

end Leads

/-- **A stream in a frame of its own.**  If its run leads to a value, the frame gives it, and leaves the
state as it was in any case. -/
theorem frame_of_leads {r : Except RunError Value} (hfuel : code.size < fuel)
    (h : Leads env code s.stack.size 0 s code.size s (r >>= fun v => pure [v])) :
    frame (fun base => runFrom env fuel code base 0) s = (r.mapError .error, s) := by
  cases r with
  | ok v =>
    obtain ⟨n, hn, hrun⟩ := h
    obtain ⟨k, rfl⟩ : ∃ k, fuel = k + 1 + n := ⟨fuel - (n + 1), by omega⟩
    have hmain : runFrom env (k + 1 + n) code s.stack.size 0 s = (.ok (), s.pushAll [v]) :=
      (hrun (k + 1)).trans (runFrom_end (Nat.lt_irrefl _))
    exact frame_of_value hmain rfl
  | error e =>
    obtain ⟨n, hn, extra, hrun⟩ := h
    obtain ⟨k, rfl⟩ : ∃ k, fuel = k + n := ⟨fuel - n, by omega⟩
    rw [frame_of_error (hrun k), State.shrink_pushAll]
    rfl

end Runs

end Machine

/-! ## Fuel -/

theorem le_foldl_add {α : Type} (f : α → Nat) : ∀ (xs : List α) (n : Nat),
    n ≤ xs.foldl (fun n x => n + f x) n ∧ ∀ x ∈ xs, f x ≤ xs.foldl (fun n x => n + f x) n
  | [], n => ⟨Nat.le_refl n, fun x hx => absurd hx List.not_mem_nil⟩
  | y :: xs, n => by
    obtain ⟨hle, hmem⟩ := le_foldl_add f xs (n + f y)
    rw [List.foldl_cons]
    refine ⟨by omega, List.forall_mem_cons.mpr ⟨by omega, hmem⟩⟩

/-- The fuel of a program suffices for each block on top of what the main stream takes. -/
theorem Program.lt_fuel (p : Program) : p.main.size + 1 < p.fuel ∧
    ∀ block ∈ p.blocks, block.size + p.main.size + 1 < p.fuel := by
  unfold Program.fuel
  rw [← Array.foldl_toList]
  refine ⟨by omega, fun block hmem => ?_⟩
  have hle : block.size ≤ p.blocks.toList.foldl (fun n (block : Code) => n + block.size) 0 :=
    (le_foldl_add (fun block : Code => block.size) _ 0).2 block (Array.mem_toList_iff.mpr hmem)
  omega

end PipeExpr
