import PipeExpr.Proofs.Relocating
import PipeExpr.Proofs.Segments

/-!
# Sources that can stand in other sources

A source that is read up to its end on a row of the table (`Fragment`) is read in the same way wherever an
operand of this row may stand.  What it needs there is known from it alone: its tokens, and for how many
levels there has to be room (`Fragment.performs`).

What is read on a row is read on all looser ones (`Parse.Performs.loosen`).  On the last row this is a whole
expression, and a source that consists of one gives its tree, or the single error that it nests too deeply
(`parse_of_performs`).
-/

namespace PipeExpr

namespace Parse

/-- The reader of what may stand on a row of the table, in an expression with a number of tokens. -/
def rowReader (o : Options) (n : Nat) : Nat → Parse Expr
  | 15 => conditional o (expression o (n + 1) n) (n + 1)
  | row => reader o (expression o (n + 1) n) (n + 1) (n + 1) row

section Rows
variable {o : Options} {n row : Nat}

theorem rowReader_of_le (h : row ≤ 14) :
    rowReader o n row = reader o (expression o (n + 1) n) (n + 1) (n + 1) row := by
  unfold rowReader
  split
  · omega
  · rfl

theorem rowReader_replays (h : row ≤ 15) : Replays o (fun _ => True) row Closed Expr.relocate
    (rowReader o n row) (fun _ limit => rowReader (o.within limit) n row) := by
  have hexpr := expression_replays (o := o) (n + 1) n
  rcases Nat.lt_or_eq_of_le h with h | rfl
  · simp only [rowReader_of_le (Nat.le_of_lt_succ h)]
    match row with
    | 0 => exact primary_replays hexpr (n + 1) 0
    | 1 =>
      exact (primary_replays hexpr (n + 1) 1).andMaybe (Nat.le_refl 1) fun e =>
        postfixChain_replays hexpr (n + 1) (n + 1) e
    | 2 => exact prefixed_replays hexpr (n + 1) (n + 1)
    | 3 => exact power_replays hexpr (n + 1) (n + 1)
    | l + 4 => exact level_replays hexpr (n + 1) (l + 1)
  · exact conditional_replays hexpr (n + 1)

/-- More turns do no harm. -/
theorem rowReader_built {E : Errors} {m : Nat} (h : row ≤ 15) (hle : n ≤ m) :
    Built E (rowReader o n row) (rowReader o m row) := by
  have hle' : n + 1 ≤ m + 1 := Nat.succ_le_succ hle
  have hexpr : Built E (expression o (n + 1) n) (expression o (m + 1) m) := expression_built o hle' hle
  rcases Nat.lt_or_eq_of_le h with h | rfl
  · simp only [rowReader_of_le (Nat.le_of_lt_succ h)]
    match row with
    | 0 => exact primary_built hexpr o hle'
    | 1 => exact (primary_built hexpr o hle').bind fun e => postfixChain_built hexpr o hle' e hle'
    | 2 => exact prefixed_built hexpr o hle' hle'
    | 3 => exact power_built hexpr o hle' hle'
    | l + 4 => exact level_built hexpr o hle' (l + 1)
  · exact conditional_built hexpr o hle'

theorem State.before_end (ts : List Token) (ending : Scanner.Ending) (errors : Array Diagnostic)
    (depth : Nat) : State.before ⟨[], ending, errors, depth⟩ ts = ⟨ts, ending, errors, depth⟩ := by
  unfold State.before
  rw [List.append_nil]

/-- The end of a source stops every row. -/
theorem stops_end {r : Nat} {s : State} (hr : r ≤ 15) (hend : s.rest = []) :
    Stops r s.current.kind := by
  rw [State.current_of_nil hend]
  exact Nat.lt_succ_of_le hr

theorem Performs.steady {α : Type} {q q' : Nat → Parse α} {ts : List Token} {s : State} {height : Nat} {v : α}
    (h : Performs q ts s height v) (hq : ∀ limit, Steady (q limit) (q' limit)) :
    Performs q' ts s height v := by
  intro limit hdepth
  obtain ⟨hroom, hnone⟩ := h limit hdepth
  rcases (hq limit).turns (s.before ts) with hturns | hturns
  -- a reader that performs does not run out of turns
  · rcases Nat.lt_or_ge limit (s.depth + height) with hlimit | hlimit
    · obtain ⟨position, rest, -, hrun⟩ := hnone hlimit
      rw [hrun] at hturns
      cases hturns
    · rw [hroom hlimit] at hturns
      cases hturns
  · rw [← hturns]
    exact ⟨hroom, hnone⟩

/-! ## From row to row -/

variable {ts : List Token} {s : State} {height : Nat} {v : Expr}

/-- A row of operands is over in front of what stops it. -/
theorem operands_of_stops {l : Nat} (hs : Stops (l + 3) s.current.kind) (o : Options) (operand : Parse Expr)
    (k : Nat) (v : Expr) : operands o l operand (k + 1) v s = (.ok v, s) := by
  have hkind : currentKind s = (.ok s.current.kind, s) := rfl
  rw [operands, run_bind, hkind]
  dsimp only
  rw [atLevel?_of_stops hs]
  rfl

/-- What is read on a row is read on the next one, if the token behind it ends an operand of this one, too. -/
theorem Performs.next {r : Nat} (h : Performs (fun limit => rowReader (o.within limit) n r) ts s height v)
    (hr : 1 ≤ r) (hle : r ≤ 14) (hs : Stops (r + 1) s.current.kind)
    (hfirst : r = 1 → ∃ t rest, ts = t :: rest ∧ UnaryOp.ofKind? t.kind = none) :
    Performs (fun limit => rowReader (o.within limit) n (r + 1)) ts s height v := by
  simp only [rowReader_of_le hle] at h
  rcases Nat.lt_or_eq_of_le hle with hlt | rfl
  -- no conditional
  swap
  · refine Performs.bind_last h (.of_ok fun limit => ?_)
    show (if s.current.kind.isSymbol .question then _ else Pure.pure v : Parse Expr) s = _
    rw [if_neg (by rw [not_question_of_stops hs]; exact Bool.false_ne_true)]
    rfl
  simp only [rowReader_of_le (Nat.succ_le_of_lt hlt)]
  match r, hr with
  -- no prefix operator
  | 1, _ =>
    obtain ⟨t, rest, rfl, ht⟩ := hfirst rfl
    simp only [reader, prefixed]
    refine .current ?_
    simp only [ht]
    exact h
  -- no power
  | 2, _ =>
    simp only [reader, power]
    refine Performs.bind_last h (.of_ok fun limit => ?_)
    show (if (BinaryOp.atLevel? 0 s.current.kind).isSome then _ else Pure.pure v : Parse Expr) s = _
    rw [if_neg (by rw [atLevel?_of_stops hs]; exact Bool.false_ne_true)]
    rfl
  -- no operator of the level
  | l + 3, _ =>
    have hreader : ∀ limit, reader (o.within limit) (expression (o.within limit) (n + 1) n) (n + 1) (n + 1)
        (l + 3) = level (o.within limit) (expression (o.within limit) (n + 1) n) (n + 1) l := by
      intro limit
      cases l <;> rfl
    simp only [hreader] at h
    simp only [reader, level]
    exact Performs.bind_last h (.of_ok fun limit => operands_of_stops hs ..)

/-- **What is read on a row is read on all looser ones.** -/
theorem Performs.loosen {r r' : Nat}
    (h : Performs (fun limit => rowReader (o.within limit) n r) ts s height v) (hr : 1 ≤ r) (hle : r ≤ r')
    (hr' : r' ≤ 15) (hs : Stops r' s.current.kind)
    (hfirst : r = 1 → ∃ t rest, ts = t :: rest ∧ UnaryOp.ofKind? t.kind = none) :
    Performs (fun limit => rowReader (o.within limit) n r') ts s height v := by
  induction r', hle using Nat.le_induction with
  | base => exact h
  | succ r' hle ih =>
    refine (ih (by omega) (hs.mono (Nat.le_succ r'))).next (by omega) (by omega) hs fun hone => ?_
    exact hfirst (by omega)

/-- What fails on a row fails on all looser ones. -/
theorem rowReader_fault {r r' : Nat} {s' : State} {failure : Failure} (hr : 2 ≤ r) (hle : r ≤ r')
    (hr' : r' ≤ 15) (h : rowReader o n r s = (.error failure, s')) :
    rowReader o n r' s = (.error failure, s') := by
  induction r', hle using Nat.le_induction with
  | base => exact h
  | succ r' hle ih =>
    have hbelow := ih (by omega)
    rw [rowReader_of_le (by omega)] at hbelow
    rcases Nat.lt_or_eq_of_le hr' with hlt | heq
    · rw [rowReader_of_le (by omega)]
      match r', Nat.le_trans hr hle with
      | 2, _ =>
        simp only [reader] at hbelow
        simp only [reader, power, run_bind, hbelow]
      | 3, _ =>
        simp only [reader] at hbelow
        simp only [reader, level, run_bind, hbelow]
      | l + 4, _ =>
        simp only [reader] at hbelow ⊢
        rw [level, run_bind, hbelow]
    · obtain rfl : r' = 14 := by omega
      simp only [reader] at hbelow
      simp only [rowReader, conditional, run_bind, BinaryOp.loosest, hbelow]

/-! ### The first token -/

/-- Tokens that a postfix expression can start with. -/
def opens : TokenKind → Bool
  | .number _ | .string _ | .boolean _ | .null | .identifier _ => true
  | .symbol s => [Symbol.dot, .questionDot, .leftParen, .leftBracket, .leftBrace].contains s
  | .pipe _ | .eof => false

theorem ofKind?_of_opens {k : TokenKind} (h : opens k = true) : UnaryOp.ofKind? k = none := by
  cases k with
  | symbol s => cases s <;> first | rfl | cases h
  | _ => rfl

theorem primary_of_not_opens {expr : Parse Expr} {fuel : Nat} (h : opens s.current.kind = false) :
    primary o expr fuel s =
      (.error (.fault ((Fault.unexpected s.current "an expression").report s.current.position)), s) := by
  have hcurrent : Parse.current s = (.ok s.current, s) := rfl
  unfold primary
  rw [run_bind, hcurrent]
  dsimp only
  cases hk : s.current.kind with
  | symbol t =>
    rw [hk] at h
    cases t <;> first | rfl | cases h
  | pipe | eof => rfl
  | _ =>
    rw [hk] at h
    cases h

/-- Tokens that a source on a row can start with. -/
def leads (row : Nat) (k : TokenKind) : Bool := opens k || (decide (2 ≤ row) && (UnaryOp.ofKind? k).isSome)

theorem opens_of_leads {row : Nat} {k : TokenKind} (hrow : row ≤ 1) (h : leads row k = true) :
    opens k = true := by
  unfold leads at h
  rwa [decide_eq_false (by omega), Bool.false_and, Bool.or_false] at h

theorem leads_mono {row row' : Nat} {k : TokenKind} (hle : row ≤ row') (h : leads row k = true) :
    leads row' k = true := by
  unfold leads at h ⊢
  simp only [Bool.or_eq_true, Bool.and_eq_true, decide_eq_true_eq] at h ⊢
  exact h.imp_right (And.imp_left hle.trans')

/-- In front of anything else a row of prefix operators, or a looser one, gives up at once. -/
theorem rowReader_of_not_leads {row : Nat} (hge : 2 ≤ row) (hrow : row ≤ 15)
    (h : leads row s.current.kind = false) : rowReader o n row s =
      (.error (.fault ((Fault.unexpected s.current "an expression").report s.current.position)), s) := by
  obtain ⟨hopens, hoperator⟩ := Bool.or_eq_false_iff.mp h
  rw [decide_eq_true hge, Bool.true_and, Option.isSome_eq_false_iff, Option.isNone_iff_eq_none] at hoperator
  refine rowReader_fault (Nat.le_refl 2) hge hrow ?_
  simp only [rowReader_of_le (show 2 ≤ 14 by decide), reader, prefixed]
  rw [run_bind, show Parse.current s = (.ok s.current, s) from rfl]
  dsimp only
  rw [hoperator]
  dsimp only
  rw [run_bind, primary_of_not_opens hopens]

/-- What is read on a row starts as an operand does, or with a prefix operator. -/
theorem leads_of_ok {row : Nat} {s' : State} (hrow : row ≤ 15) (h : rowReader o n row s = (.ok v, s')) :
    leads row s.current.kind = true := by
  by_contra hleads
  have hleads := Bool.eq_false_of_not_eq_true hleads
  rcases Nat.lt_or_ge row 2 with hlt | hge
  · obtain ⟨hopens, _⟩ := Bool.or_eq_false_iff.mp hleads
    rw [rowReader_of_le (by omega)] at h
    match row, hlt with
    | 0, _ =>
      simp only [reader, primary_of_not_opens hopens] at h
      cases h
    | 1, _ =>
      simp only [reader, run_bind, primary_of_not_opens hopens] at h
      cases h
  · rw [rowReader_of_not_leads hge hrow hleads] at h
    cases h

/-! ### Whole expressions -/

/-- An expression is read one level deeper. -/
theorem Performs.expression (h : Performs (fun limit => rowReader (o.within limit) n 15) ts
      { s with depth := s.depth + 1 } height v) :
    Performs (fun limit => Parse.expression (o.within limit) (n + 1) (n + 1)) ts s (height + 1) v :=
  .nested h

end Rows

/-! ## Whole sources -/

section Single
variable {o : Options} {expr : Parse Expr} {s s' : State} {start : Position} {fuel : Nat}

/-- An expression up to the end of a source is the only segment. -/
theorem segments_of_ok {e : Expr} (h : expr s = (.ok e, s')) (hend : s'.rest = []) :
    segments o expr (fuel + 1) sourceStage start [] s = (.ok [⟨sourceStage, none, start, e⟩], s') := by
  have hcurrent := State.current_of_nil hend
  have halias : optionalAlias s' = (.ok none, s') := by
    show (if s'.current.kind.isSymbol .as then _ else return none : Parse (Option String)) s' = _
    rw [hcurrent]
    rfl
  have hstage : stage expr sourceStage start s = (.ok ⟨sourceStage, none, start, e⟩, s') := by
    unfold stage
    rw [if_neg (not_not_intro rfl)]
    simp only [run_bind, h, halias]
    rfl
  have hsegment : segment expr sourceStage start s = (.ok (some ⟨sourceStage, none, start, e⟩), s') := by
    unfold segment
    simp only [hstage, hcurrent]
    rfl
  have hstop : current s' = (.ok (.eof s'.ending.position), s') := by rw [← hcurrent]; rfl
  rw [segments]
  simp only [run_bind, hsegment, hstop]
  rfl

/-- An error of an expression is the error of its segment. -/
theorem segments_of_fault {d : Diagnostic} (h : expr s = (.error (.fault d), s'))
    (hpipes : ∀ t ∈ s'.rest, t.kind.isPipe = false) (hending : s'.ending.fault = none) :
    segments o expr (fuel + 1) sourceStage start [] s =
      (.ok [], { s' with rest := [], errors := s'.errors.push d }) := by
  have hstage : stage expr sourceStage start s = (.error (.fault d), s') := by
    unfold stage
    rw [if_neg (not_not_intro rfl)]
    simp only [run_bind, h]
  have hskip : (s'.record d).skipToPipe = { s' with rest := [], errors := s'.errors.push d } := by
    have hdrop : s'.rest.dropWhile (fun t => !t.kind.isPipe) = [] :=
      List.dropWhile_eq_nil_iff.mpr fun t ht => by rw [hpipes t ht]; rfl
    have hscanned : (s'.record d).ending.fault = none := by rw [(s'.record_fields d).2.1, hending]
    rw [State.skipToPipe_of_scanned hscanned, State.record_of_scanned hending]
    dsimp only
    rw [hdrop]
  have hsegment : segment expr sourceStage start s =
      (.ok none, { s' with rest := [], errors := s'.errors.push d }) := by
    unfold segment
    simp only [hstage, hskip]
  rw [segments]
  simp only [run_bind, hsegment]
  rfl

end Single

end Parse

open Parse

/-- **A source that is read on a row of the table**: there is no lexical error, and inside of an expression
its tokens are read up to the end, without any errors. -/
structure Fragment (o : Options) (row : Nat) (source : String) (e : Expr) : Prop where
  room : 0 < o.maxDepth
  read : ∃ tokens position, (Scanner.ofSource source o.ieee).tokens = (tokens, ⟨position, none⟩) ∧
    rowReader o tokens.length row ⟨tokens, ⟨position, none⟩, #[], 1⟩ =
      (.ok e, ⟨[], ⟨position, none⟩, #[], 1⟩)

section Sources
variable {o : Options} {row : Nat} {source : String} {e : Expr}

/-- What is known of a fragment wherever it stands. -/
structure Spans (o : Options) (row : Nat) (source : String) (e : Expr) (tokens : List Token)
    (position : Position) (height : Nat) : Prop where
  scans : (Scanner.ofSource source o.ieee).tokens = (tokens, ⟨position, none⟩)
  closed : Closed tokens
  inner : ∀ t ∈ tokens, Inner t
  first : ∃ t rest, tokens = t :: rest ∧ leads row t.kind = true
  performs : ∀ n f (s : State), tokens.length ≤ n → s.ending.fault = none → Stops row s.current.kind →
    Performs (fun limit => rowReader (o.within limit) n row) (tokens.map (Token.relocate f)) s height
      (e.relocate f)

theorem Fragment.spans (h : Fragment o row source e) (hrow : row ≤ 15) :
    ∃ tokens position height, 1 + height ≤ o.maxDepth ∧ Spans o row source e tokens position height := by
  obtain ⟨hroom, tokens, position, hscan, hrun⟩ := h
  obtain ⟨ts, height, hsplit, hclosed, hinner, hheight, hperforms⟩ :=
    (rowReader_replays hrow).replays (s := ⟨tokens, ⟨position, none⟩, #[], 1⟩) rfl hroom trivial hrun
      (Nat.le_refl _)
  obtain rfl : tokens = ts := (congrArg State.rest hsplit).trans (List.append_nil ts)
  have hfirst := leads_of_ok hrow hrun
  obtain ⟨t, rest, rfl⟩ := List.exists_cons_of_ne_nil hclosed.ne_nil
  refine ⟨t :: rest, position, height, hheight, hscan, hclosed, hinner, ⟨t, rest, rfl, hfirst⟩,
    fun n f s hn hs hnext => ?_⟩
  exact (hperforms f s hs (.inr hnext)).steady fun limit => (rowReader_built hrow hn).steady

/-- **A source is read as a tree** if there is room for a number of levels, and else gives the error that there
is not. -/
def ReadAs (o : Options) (source : String) (room : Nat) (e : Expr) : Prop :=
  ∀ limit, (room ≤ limit → parse source (o.within limit) = .ok e) ∧
    (limit < room → ∃ d, parse source (o.within limit) = .error [d] ∧ d.code = .maxDepthExceeded)

section Whole
variable {tokens : List Token} {position : Position}
  (hscan : (Scanner.ofSource source o.ieee).tokens = (tokens, ⟨position, none⟩)) (hne : tokens ≠ [])
  (hinner : ∀ t ∈ tokens, Inner t)
include hscan hne hinner

theorem parse_of_ok (h : Parse.expression o (tokens.length + 1) (tokens.length + 1)
      ⟨tokens, ⟨position, none⟩, #[], 0⟩ = (.ok e, ⟨[], ⟨position, none⟩, #[], 0⟩)) :
    parse source o = .ok e := by
  obtain ⟨first, rest, rfl⟩ := List.exists_cons_of_ne_nil hne
  have hfirst := (hinner first (List.mem_cons_self ..)).2
  have hrun := @segments_of_ok o _ _ _ first.position (first :: rest).length e h rfl
  unfold parse Reader.program
  simp only [Reader.ofSource_of_tokens hscan, State.current, hfirst, Bool.false_eq_true, if_false,
    Reader.fuel, hrun, Reader.takeErrors]
  rfl

theorem parse_of_fault {d : Diagnostic} {left : List Token} (h : Parse.expression o (tokens.length + 1)
      (tokens.length + 1) ⟨tokens, ⟨position, none⟩, #[], 0⟩ =
        (.error (.fault d), ⟨left, ⟨position, none⟩, #[], 0⟩)) (hleft : left <:+ tokens) :
    parse source o = .error [d] := by
  obtain ⟨first, rest, rfl⟩ := List.exists_cons_of_ne_nil hne
  have hfirst := (hinner first (List.mem_cons_self ..)).2
  have hpipes : ∀ t ∈ left, t.kind.isPipe = false := fun t ht => (hinner t (hleft.subset ht)).1
  have hrun := @segments_of_fault o _ _ _ first.position (first :: rest).length d h hpipes rfl
  unfold parse Reader.program
  simp only [Reader.ofSource_of_tokens hscan, State.current, hfirst, Bool.false_eq_true, if_false,
    Reader.fuel, hrun, Reader.takeErrors]
  rfl

/-- **A source that is one expression** gives its tree, or the error that it nests too deeply. -/
theorem parse_of_performs {height : Nat}
    (h : Performs (fun limit => rowReader (o.within limit) tokens.length 15) tokens
      ⟨[], ⟨position, none⟩, #[], 1⟩ height e) : ReadAs o source (1 + height) e := by
  intro limit
  obtain ⟨hfits, hover⟩ :=
    (Performs.expression (s := ⟨[], ⟨position, none⟩, #[], 0⟩) h) limit (Nat.zero_le limit)
  rw [State.before_end] at hfits hover
  refine ⟨fun hlimit => ?_, fun hlimit => ?_⟩
  · exact parse_of_ok (o := o.within limit) hscan hne hinner (hfits (by dsimp only; omega))
  · obtain ⟨place, left, hleft, hrun⟩ := hover (by dsimp only; omega)
    exact ⟨_, parse_of_fault (o := o.within limit) hscan hne hinner hrun hleft, rfl⟩

/-- As `parse_of_performs`, for a source that is read on a tighter row. -/
theorem parse_of_row {r height : Nat} (hr : 1 ≤ r) (hle : r ≤ 15)
    (hfirst : r = 1 → ∃ t rest, tokens = t :: rest ∧ UnaryOp.ofKind? t.kind = none)
    (h : Performs (fun limit => rowReader (o.within limit) tokens.length r) tokens
      ⟨[], ⟨position, none⟩, #[], 1⟩ height e) : ReadAs o source (1 + height) e :=
  parse_of_performs hscan hne hinner (h.loosen hr hle (Nat.le_refl 15) (stops_end (Nat.le_refl 15) rfl)
    hfirst)

end Whole

section Spanned
variable {tokens : List Token} {position : Position} {height : Nat}
  (h : Spans o row source e tokens position height)
include h

/-- On the tightest row there is no prefix operator in front, wherever the source stands. -/
theorem Spans.operand (hrow : row = 1) (f : Position → Position) :
    ∃ t rest, tokens.map (Token.relocate f) = t :: rest ∧ UnaryOp.ofKind? t.kind = none := by
  obtain ⟨t, rest, rfl, hleads⟩ := h.first
  exact ⟨_, _, rfl, ofKind?_of_opens (opens_of_leads hrow.le hleads)⟩

/-- A source that is read on a row is read on all looser ones. -/
theorem Spans.loosen {row' : Nat} (hr : 1 ≤ row) (hle : row ≤ row') (hr' : row' ≤ 15) :
    Spans o row' source e tokens position height where
  scans := h.scans
  closed := h.closed
  inner := h.inner
  first := by
    obtain ⟨t, rest, htokens, hleads⟩ := h.first
    exact ⟨t, rest, htokens, leads_mono hle hleads⟩
  performs n f s hn hs hnext :=
    (h.performs n f s hn hs (hnext.mono hle)).loosen hr hle hr' hnext fun hrow => h.operand hrow f

/-- A source that is read on a row is read as a whole. -/
theorem Spans.readAs (hr : 1 ≤ row) (hle : row ≤ 15) : ReadAs o source (1 + height) e := by
  have hperforms := h.performs _ id ⟨[], ⟨position, none⟩, #[], 1⟩ (Nat.le_refl _) rfl (stops_end hle rfl)
  have hsame : tokens.map (Token.relocate id) = tokens := List.map_id _
  have hoperand := fun hrow => h.operand hrow id
  rw [hsame] at hperforms hoperand
  rw [Expr.relocate_id] at hperforms
  exact parse_of_row h.scans h.closed.ne_nil h.inner hr hle hoperand hperforms

end Spanned

end Sources

end PipeExpr
