import PipeExpr.Proofs.Fragments

/-!
# Longer chains

A postfix expression is the start of a longer one: whatever stands behind its tokens is read as the next step
of its chain, with the tree that has been read so far as the target (`Fragment.extends`).
-/

namespace PipeExpr

namespace Parse

section Chains
variable {o : Options} {expr : Parse Expr} {n : Nat}

/-- In front of a token that opens a step there is a step, or an error. -/
theorem postfixStep_longer {target : Expr} {s s' : State} (h : s.current.kind.row = 1) :
    postfixStep o expr n target s ≠ (.ok none, s') := by
  have hbind : ∀ {α : Type} {p : Parse α} {g : α → Parse (Option Expr)},
      (∀ a s s', g a s ≠ (.ok none, s')) → ∀ s s', (p >>= g) s ≠ (.ok none, s') := by
    intro α p g hg s s'
    rw [run_bind]
    rcases p s with ⟨e | a, s₁⟩
    · exact nofun
    · exact hg a s₁ s'
  have hsome : ∀ {p : Parse Expr} s s', (Parse.advance >>= fun _ => some <$> p) s ≠ (.ok none, s') := by
    intro p
    simp only [map_eq_pure_bind]
    exact hbind fun _ => hbind fun _ _ _ => nofun
  obtain ⟨step, hstep, hlonger⟩ : ∃ step : Token → Parse (Option Expr),
      postfixStep o expr n target = current >>= step ∧
        ∀ t, t.kind.row = 1 → ∀ s s', step t s ≠ (.ok none, s') := by
    refine ⟨_, rfl, ?_⟩
    rintro ⟨kind, lexeme, position, quoted, raw⟩ hrow
    cases kind with
    | symbol symbol =>
      cases symbol with
      | dot | leftBracket => exact hsome
      | questionDot | questionBracket =>
        dsimp only
        split
        · exact hsome
        · exact fun _ _ => nofun
      | leftParen =>
        dsimp only
        split
        · exact hbind fun _ => hbind fun _ _ _ => nofun
        · exact fun _ _ => nofun
      | _ => exact absurd hrow (by rintro ⟨⟩)
    | _ => exact absurd hrow (by rintro ⟨⟩)
  have hrun : postfixStep o expr n target s = step s.current s := by rw [hstep]; rfl
  rw [hrun]
  exact hlonger _ h s s'

variable {exprs : (Position → Position) → Nat → Parse Expr}
  (hexpr : Replays o (fun _ => True) 15 Closed Expr.relocate expr exprs)
include hexpr

/-- **A chain goes on behind what has been read of it**, with the same reader or with one that has more
turns. -/
theorem postfixChain_extends : ∀ {k : Nat} {target v : Expr} {s s' : State}, s.ending.fault = none →
    s.depth ≤ o.maxDepth → postfixChain o expr n k target s = (.ok v, s') →
    s'.errors.size ≤ s.errors.size → ∃ ts height j, s = s'.before ts ∧ j ≤ ts.length ∧
      s.depth + height ≤ o.maxDepth ∧ ∀ {m : Nat} {exprs' : Nat → Parse Expr}, n ≤ m →
        (∀ f limit, Built .ofSyntax (exprs f limit) (exprs' limit)) →
        ∀ f (u : State) ms height' w i, u.ending.fault = none →
          Performs (fun limit => postfixChain (o.within limit) (exprs' limit) m i (v.relocate f)) ms u
            height' w →
          Performs (fun limit => postfixChain (o.within limit) (exprs' limit) m (j + i) (target.relocate f))
            (ts.map (Token.relocate f) ++ ms) u (max height height') w := by
  intro k
  induction k with
  | zero => exact fun _ _ hrun => nomatch hrun
  | succ k ih =>
    intro target v s s' hending hdepth hrun herrors
    simp only [postfixChain, run_bind] at hrun
    by_cases hrow : s.current.kind.row = 1
    -- a step, and those behind it
    · rcases hstep : postfixStep o expr n target s with ⟨e | longer, s₁⟩
      · rw [hstep] at hrun
        cases hrun
      rw [hstep] at hrun
      cases longer with
      | none => exact absurd hstep (postfixStep_longer hrow)
      | some longer =>
        have hreads := postfixStep_reads hexpr n target
        have hgrows := hreads.grows hrow hstep
        have hgrows' := (postfixChain_replays hexpr n k longer).grows trivial hrun
        obtain ⟨ts, height, rfl, hclosed, -, hroom, hperforms⟩ :=
          hreads.replays hending hdepth hrow hstep (Nat.le_trans hgrows' herrors)
        obtain ⟨ts', height', j, rfl, hj, hroom', hextends⟩ :=
          ih (s := s₁) hending hdepth hrun (Nat.le_trans herrors hgrows)
        refine ⟨ts ++ ts', max height height', j + 1, State.before_before .., ?_, ?_, ?_⟩
        · have hpos := List.length_pos_of_ne_nil hclosed.ne_nil
          rw [List.length_append]
          omega
        · have hsame : (s'.before ts').depth = ((s'.before ts').before ts).depth := rfl
          omega
        intro m exprs' hle hexprs f u ms height'' w i hu hrest
        have hnext := hextends hle hexprs f u ms height'' w i hu hrest
        have hturns : j + 1 + i = j + i + 1 := by omega
        simp only [hturns, postfixChain, List.map_append, List.append_assoc]
        rw [Nat.max_assoc]
        refine Performs.bind (v := some (longer.relocate f)) ?_ hnext
        refine (hperforms f (u.before _) hu (.inr (stops_zero _))).steady fun limit => ?_
        exact (postfixStep_built (hexprs f limit) _ hle _).steady
    -- the end of the chain
    · rw [postfixStep_none hrow] at hrun
      obtain ⟨hv, rfl⟩ := Prod.mk.inj hrun
      obtain rfl := Except.ok.inj hv
      refine ⟨[], 0, 0, rfl, Nat.le_refl 0, hdepth, fun _ _ f u ms height' w i hu hrest => ?_⟩
      rw [Nat.zero_add, Nat.zero_max]
      exact hrest

end Chains

/-! ## One more step -/

section Steps
variable {o : Options} {exprs : Nat → Parse Expr} {n height : Nat} {target longer : Expr} {ts : List Token}
  {s : State}

/-- A chain is over in front of a token that opens no step. -/
theorem performs_chain_end (k : Nat) (hs : s.current.kind.row ≠ 1) :
    Performs (fun limit => postfixChain (o.within limit) (exprs limit) n (k + 1) target) [] s 0 target := by
  refine .of_ok fun limit => ?_
  show postfixChain (o.within limit) (exprs limit) n (k + 1) target s = _
  rw [postfixChain, run_bind, postfixStep_none hs]
  rfl

/-- A chain of a single step. -/
theorem performs_chain_step (k : Nat) (hs : s.current.kind.row ≠ 1)
    (h : Performs (fun limit => postfixStep (o.within limit) (exprs limit) n target) ts s height (some longer)) :
    Performs (fun limit => postfixChain (o.within limit) (exprs limit) n (k + 2) target) ts s height longer := by
  have hend : Performs (fun limit => postfixChain (o.within limit) (exprs limit) n (k + 1) longer) [] s 0
    longer := performs_chain_end k hs
  simp only [postfixChain] at hend ⊢
  exact Performs.bind_last h hend

end Steps

end Parse

open Parse

/-- A source on the tightest row, with what is known of it where a step stands behind it. -/
structure Extends (o : Options) (source : String) (e : Expr) (tokens : List Token) (position : Position)
    (height : Nat) : Prop extends Spans o 1 source e tokens position height where
  longer : ∀ n f (s : State) ts height' v, tokens.length ≤ n → s.ending.fault = none →
    (∀ k, Performs (fun limit => postfixChain (o.within limit) (expression (o.within limit) (n + 1) n) (n + 1)
      (k + 2) (e.relocate f)) ts s height' v) →
    Performs (fun limit => rowReader (o.within limit) n 1) (tokens.map (Token.relocate f) ++ ts) s
      (max height height') v

/-- **A postfix expression is the start of a longer one.** -/
theorem Fragment.extends {o : Options} {source : String} {e : Expr} (h : Fragment o 1 source e) :
    ∃ tokens position height, 1 + height ≤ o.maxDepth ∧ Extends o source e tokens position height := by
  obtain ⟨tokens, position, _, -, hspans⟩ := h.spans (by decide)
  obtain ⟨hroom, tokens', position', hscan, hrun⟩ := h
  obtain ⟨rfl, hending⟩ := Prod.mk.inj (hscan.symm.trans hspans.scans)
  obtain rfl := (Scanner.Ending.mk.inj hending).1
  generalize hn : tokens'.length = n at hrun
  have hexpr := expression_replays (o := o) (n + 1) n
  simp only [rowReader_of_le (show 1 ≤ 14 by decide), reader, run_bind] at hrun
  rcases hprimary : primary o (expression o (n + 1) n) (n + 1) ⟨tokens', ⟨position', none⟩, #[], 1⟩ with
    ⟨failure | first, s₁⟩
  · rw [hprimary] at hrun
    cases hrun
  rw [hprimary] at hrun
  replace hrun : postfixChain o (expression o (n + 1) n) (n + 1) (n + 1) first s₁ = _ := hrun
  have hfew : s₁.errors.size ≤ 0 := (postfixChain_replays hexpr (n + 1) (n + 1) first).grows trivial hrun
  obtain ⟨ts₁, height₁, hsplit, hclosed, -, hroom₁, hperforms⟩ :=
    (primary_replays hexpr (n + 1) 0).replays (s := ⟨tokens', ⟨position', none⟩, #[], 1⟩) rfl hroom trivial
      hprimary hfew
  obtain ⟨htokens, hending₁, -, hdepth₁⟩ := State.mk.inj hsplit
  obtain ⟨ts₂, height₂, j, hs₁, hj, hroom₂, hchain⟩ := postfixChain_extends hexpr (s := s₁)
    (by rw [← hending₁]) (by rw [← hdepth₁]; exact hroom) hrun (Nat.zero_le _)
  obtain rfl : tokens' = ts₁ ++ ts₂ := by
    rw [htokens, hs₁]
    exact congrArg (ts₁ ++ ·) (List.append_nil ts₂)
  have hpos := List.length_pos_of_ne_nil hclosed.ne_nil
  rw [List.length_append] at hn
  have hlonger : ∀ m f (s : State) ts height' v, n ≤ m → s.ending.fault = none →
      (∀ k, Performs (fun limit => postfixChain (o.within limit) (expression (o.within limit) (m + 1) m) (m + 1)
        (k + 2) (e.relocate f)) ts s height' v) →
      Performs (fun limit => rowReader (o.within limit) m 1) ((ts₁ ++ ts₂).map (Token.relocate f) ++ ts) s
        (max (max height₁ height₂) height') v := by
    intro m f s ts height' v hm hs hrest
    have hbuilt : ∀ limit, Built .ofSyntax (expression (o.within limit) (n + 1) n)
        (expression (o.within limit) (m + 1) m) := fun limit =>
      expression_built _ (Nat.succ_le_succ hm) hm
    obtain ⟨k, hk⟩ : ∃ k, m + 1 = j + (k + 2) := ⟨m - 1 - j, by omega⟩
    simp only [rowReader_of_le (show 1 ≤ 14 by decide), reader, List.map_append, List.append_assoc]
    rw [Nat.max_assoc]
    refine Performs.bind (v := first.relocate f) ?_ ?_
    · refine (hperforms f (s.before _) hs (.inr (stops_zero _))).steady fun limit => ?_
      exact (primary_built (hbuilt limit) _ (Nat.succ_le_succ hm)).steady
    · have hlast := hchain (Nat.succ_le_succ hm) (fun _ => hbuilt) f s ts height' v (k + 2) hs (hrest k)
      rwa [← hk] at hlast
  refine ⟨_, position', max height₁ height₂, ?_, ⟨hspans.scans, hspans.closed, hspans.inner, hspans.first, ?_⟩, ?_⟩
  · dsimp only at hroom₁ hdepth₁
    omega
  · intro m f s hm hs hnext
    have hperforms := hlonger m f s [] 0 _ (hn ▸ List.length_append ▸ hm) hs fun k =>
      performs_chain_end (k + 1) (Nat.ne_of_gt hnext)
    rwa [List.append_nil, Nat.max_zero] at hperforms
  · rw [List.length_append, hn]
    exact hlonger

end PipeExpr
