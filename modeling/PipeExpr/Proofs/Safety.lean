import PipeExpr.Proofs.Failures
import PipeExpr.Proofs.Rules

/-!
# Safe parts of a run

What happens to the *number* of values on the stack does not depend on the values, and whether a
part of a run can go wrong depends on nothing else.  `Safe x s ok stop` says that `x`, carried out in
the state `s`, gives a result `v` and a stack of a size `n` with `ok v n`, or ends with a benign error
and a stack of a size with `stop`.  It says in particular that the fuel does not run out.

Frames and the questions of handlers give back the stack with the size it had, in any case
(`Restores`).  So a handler may go on after an error in a block.
-/

namespace PipeExpr

namespace Machine

/-- A part of a run that gives a result or ends with a benign error, and leaves a stack of a size
that fits. -/
def Safe {α : Type} (x : Machine α) (s : State) (ok : α → Nat → Prop) (stop : Nat → Prop) : Prop :=
  match x s with
  | (.ok v, s') => ok v s'.stack.size
  | (.error (.error e), s') => e.Benign ∧ stop s'.stack.size
  | (.error .outOfFuel, _) => False

/-- A part of a run that is safe and leaves the size of the stack as it was, errors included. -/
def Restores {α : Type} (x : Machine α) : Prop :=
  ∀ s, Safe x s (fun _ n => n = s.stack.size) (· = s.stack.size)

/-! ## Sequences -/

section Sequences
variable {α β : Type} {x : Machine α} {f : α → Machine β} {s : State}
  {mid : α → Nat → Prop} {ok : β → Nat → Prop} {stop : Nat → Prop}

theorem Safe.of_ok {v : α} {s' : State} (hrun : x s = (.ok v, s')) (h : mid v s'.stack.size) :
    Safe x s mid stop := by
  unfold Safe
  rwa [hrun]

theorem Safe.of_error {e : RunError} {s' : State} (hrun : x s = (.error (.error e), s')) (he : e.Benign)
    (h : stop s'.stack.size) : Safe x s mid stop := by
  unfold Safe
  rw [hrun]
  exact ⟨he, h⟩

/-- There are two ways in which a safe part of a run ends. -/
theorem Safe.cases (h : Safe x s mid stop) : (∃ v s', x s = (.ok v, s') ∧ mid v s'.stack.size) ∨
    ∃ e s', x s = (.error (.error e), s') ∧ e.Benign ∧ stop s'.stack.size := by
  unfold Safe at h
  rcases hrun : x s with ⟨(e | _) | v, s'⟩
  · rw [hrun] at h
    exact .inr ⟨e, s', rfl, h⟩
  · rw [hrun] at h
    exact h.elim
  · rw [hrun] at h
    exact .inl ⟨v, s', rfl, h⟩

/-- A part of a run that does what another one does, maybe from another state. -/
theorem Safe.of_eq {y : Machine α} {s' : State} (hrun : x s = y s') (hy : Safe y s' mid stop) :
    Safe x s mid stop := by
  unfold Safe at hy ⊢
  rwa [hrun]

theorem Safe.bind (hx : Safe x s mid stop)
    (hf : ∀ v s', mid v s'.stack.size → Safe (f v) s' ok stop) : Safe (x >>= f) s ok stop := by
  obtain ⟨v, s', hrun, hv⟩ | ⟨e, s', hrun, he, hstop⟩ := hx.cases
  · exact .of_eq (bind_ok hrun) (hf v s' hv)
  · exact .of_error (bind_error hrun) he hstop

theorem Safe.mono {ok' : α → Nat → Prop} {stop' : Nat → Prop} (hx : Safe x s mid stop)
    (hok : ∀ v n, mid v n → ok' v n) (hstop : ∀ n, stop n → stop' n) : Safe x s ok' stop' := by
  obtain ⟨v, s', hrun, hv⟩ | ⟨e, s', hrun, he, hs'⟩ := hx.cases
  · exact .of_ok hrun (hok v _ hv)
  · exact .of_error hrun he (hstop _ hs')

theorem Safe.pure {v : β} (h : ok v s.stack.size) : Safe (Pure.pure v) s ok stop := h

theorem get_safe : Safe get s (fun _ n => n = s.stack.size) stop := rfl

theorem modify_safe (f : State → State) :
    Safe (modify f) s (fun _ n => n = (f s).stack.size) stop := rfl

theorem fail_safe {e : RunError} (he : e.Benign) (hstop : stop s.stack.size) :
    Safe (fail e) s ok stop := ⟨he, hstop⟩

theorem require_safe {y : Option α} {e : RunError} (he : y = none → e.Benign)
    (hstop : stop s.stack.size) :
    Safe (require y e) s (fun v n => y = some v ∧ n = s.stack.size) stop := by
  cases y with
  | none => exact fail_safe (he rfl) hstop
  | some v => exact ⟨rfl, rfl⟩

theorem lift_safe {y : Except RunError α} (hy : FailsBenignly y) (hstop : stop s.stack.size) :
    Safe (lift y) s (fun _ n => n = s.stack.size) stop := by
  cases y with
  | error e => exact fail_safe (hy e rfl) hstop
  | ok v => exact rfl

end Sequences

/-! ## The stack -/

/-- A state with enough values is one with fewer of them and the rest on top. -/
theorem State.exists_pushAll {s : State} {k : Nat} (h : k ≤ s.stack.size) :
    ∃ s₀ vs, vs.length = k ∧ s = State.pushAll s₀ vs := by
  refine ⟨{ s with stack := s.stack.extract 0 (s.stack.size - k) },
    (s.stack.extract (s.stack.size - k) s.stack.size).toList, ?_, ?_⟩
  · rw [Array.length_toList, Array.size_extract]
    omega
  · have hsplit : s.stack.extract 0 (s.stack.size - k) ++
        s.stack.extract (s.stack.size - k) s.stack.size = s.stack := by simp
    rw [State.pushAll, Array.toArray_toList, hsplit]

theorem State.exists_top {s : State} (h : 0 < s.stack.size) : ∃ s₀ v, s = State.pushAll s₀ [v] := by
  obtain ⟨s₀, vs, hlength, hs⟩ := State.exists_pushAll (show 1 ≤ s.stack.size from h)
  obtain ⟨v, rfl⟩ := List.length_eq_one_iff.mp hlength
  exact ⟨s₀, v, hs⟩

section Stack
variable {env : Env} {base : Nat} {s : State} {stop : Nat → Prop}

theorem push_safe (v : Value) (hstop : stop s.stack.size) :
    Safe (push env v) s (fun _ n => n = s.stack.size + 1) stop := by
  by_cases hroom : s.stack.size < env.stackSize
  · exact .of_ok (push_room hroom) (State.size_pushAll s [v])
  · exact .of_error (push_full (Nat.le_of_not_lt hroom)) trivial hstop

theorem peek_safe (h : base < s.stack.size) :
    Safe (peek base) s (fun _ n => n = s.stack.size) stop := by
  obtain ⟨s₀, v, rfl⟩ := State.exists_top (Nat.zero_lt_of_lt h)
  rw [State.size_pushAll, List.length_singleton] at h
  exact .of_ok (peek_top (by omega)) rfl

theorem pop_safe (h : base < s.stack.size) :
    Safe (pop base) s (fun _ n => n + 1 = s.stack.size) stop := by
  obtain ⟨s₀, v, rfl⟩ := State.exists_top (Nat.zero_lt_of_lt h)
  rw [State.size_pushAll, List.length_singleton] at h
  exact .of_ok (pop_top (by omega)) (State.size_pushAll s₀ [v]).symm

theorem popMany_safe {k : Nat} (h : base + k ≤ s.stack.size) :
    Safe (popMany base k) s (fun _ n => n + k = s.stack.size) stop := by
  obtain ⟨s₀, vs, rfl, rfl⟩ := State.exists_pushAll (show k ≤ s.stack.size by omega)
  rw [State.size_pushAll] at h
  exact .of_ok (popMany_pushAll (by omega)) (State.size_pushAll s₀ vs).symm

end Stack

/-! ## Names and jumps -/

section Operands
variable {env : Env} {s : State} {stop : Nat → Prop}

theorem nameOperand_safe {index : Nat} (h : (env.program.nameAt? index).isSome) :
    Safe (nameOperand env index) s (fun _ n => n = s.stack.size) stop := by
  obtain ⟨name, hname⟩ := Option.isSome_iff_exists.mp h
  exact .of_ok (require_some hname s) rfl

theorem jumpTarget_safe {code : Code} {target : Nat} (h : target ≤ code.size) :
    Safe (jumpTarget code target) s (fun o n => o = target ∧ n = s.stack.size) stop := by
  unfold jumpTarget
  rw [if_neg (Nat.not_lt_of_le h)]
  exact ⟨rfl, rfl⟩

end Operands

/-! ## Frames and questions -/

/-- **A frame restores the stack** if its run leaves one value, or ends somewhere above the base. -/
theorem frame_restores {run : Nat → Machine Unit}
    (h : ∀ s, Safe (run s.stack.size) s (fun _ n => n = s.stack.size + 1) (s.stack.size ≤ ·)) :
    Restores (frame run) := by
  intro s
  obtain ⟨_, s', hrun, hone⟩ | ⟨e, s', hrun, he, hstop⟩ := (h s).cases
  -- a value: it is all that stands above the base
  · obtain ⟨s₀, v, rfl⟩ := State.exists_top (show 0 < s'.stack.size by omega)
    rw [State.size_pushAll, List.length_singleton] at hone
    have hsize : s₀.stack.size = s.stack.size := Nat.succ.inj hone
    exact .of_ok (frame_of_value hrun hsize) hsize
  -- an error: the stack is cut back to the base
  · refine .of_error (frame_of_error hrun) he ?_
    rw [Array.size_shrink]
    exact Nat.min_eq_left hstop

theorem inScope_restores {run : Machine Value} (h : Restores run) (bindings : Fields Value) :
    Restores (inScope bindings run) := by
  intro s
  have hin : ∀ r s', run { s with scopes := Fields.ofList bindings :: s.scopes } = (r, s') →
      inScope bindings run s = (r, { s' with scopes := s'.scopes.tail }) := by
    intro r s' hrun
    unfold inScope
    simp only [hrun]
  obtain ⟨v, s', hrun, hv⟩ | ⟨e, s', hrun, he, hstop⟩ :=
    (h { s with scopes := Fields.ofList bindings :: s.scopes }).cases
  · exact .of_ok (hin _ s' hrun) hv
  · exact .of_error (hin _ s' hrun) he hstop

/-- **Questions restore the stack**, however many a handler asks and whatever the outcomes are. -/
theorem answer_restores {evalBlock : Machine Value} (h : Restores evalBlock) {prog : PipeProgram}
    (hprog : prog.FailsBenignly) : Restores (answer evalBlock prog) := by
  induction prog with
  | done outcome => exact fun s => lift_safe hprog rfl
  | eval bindings next ih =>
    intro s
    -- the handler goes on from an error as it does from a value
    obtain ⟨v, s', hrun, hsize⟩ | ⟨e, s', hrun, he, hsize⟩ := (inScope_restores h bindings s).cases
    · have hanswer : answer evalBlock (.eval bindings next) s = answer evalBlock (next (.ok v)) s' := by
        rw [answer]
        simp only [hrun]
      have hnext := ih (.ok v) (hprog (.ok v) (.ok v)) s'
      rw [hsize] at hnext
      exact .of_eq hanswer hnext
    · have hanswer : answer evalBlock (.eval bindings next) s = answer evalBlock (next (.error e)) s' := by
        rw [answer]
        simp only [hrun]
      have hnext := ih (.error e) (hprog (.error e) (.error he)) s'
      rw [hsize] at hnext
      exact .of_eq hanswer hnext

end Machine

end PipeExpr
