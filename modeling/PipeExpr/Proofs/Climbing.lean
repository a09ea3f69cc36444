import PipeExpr.Proofs.Printing
import PipeExpr.Proofs.Readers

/-!
# Reading printed operands

A reader reads lexemes if it has a result with a given property, whatever the places of their tokens
and whatever stands behind them (`Parse.Reads`); only the kind of the token behind them is told.

The rows of the table of precedence are read by readers that call each other, from the loosest to the
tightest one.  What is read on a row is read on all looser ones, if the token behind it ends an operand
of these (`Stops`): the readers in between find no operator, and give back what they have read
(`Parse.Operand.of_row`).  Rows that group to the left are read in a loop, and an operand may also be
where a loop starts that goes on with further operands (`Parse.Continues`).
-/

namespace PipeExpr

/-- The kind of the first lexeme, or of what stands behind all of them. -/
def headKind (ls : List Lexeme) (k : TokenKind) : TokenKind :=
  match ls with
  | [] => k
  | l :: _ => l.kind

@[simp] theorem headKind_nil (k : TokenKind) : headKind [] k = k := rfl

@[simp] theorem headKind_cons (l : Lexeme) (ls : List Lexeme) (k : TokenKind) :
    headKind (l :: ls) k = l.kind := rfl

@[simp] theorem headKind_symbol (s : Symbol) (ls : List Lexeme) (k : TokenKind) :
    headKind (.symbol s :: ls) k = .symbol s := rfl

namespace Parse

/-! ## Readers of lexemes -/

/-- **A reader reads lexemes** and has a result with a property, whatever the places of the tokens and
whatever stands behind them, as long as this starts with a token of the kind given. -/
def Reads {α : Type} (p : Parse α) (d : Nat) (ls : List Lexeme) (k : TokenKind) (V : α → Prop) : Prop :=
  ∀ ts more ending errors, ending.fault = none → ts.map Token.written = ls →
    (State.mk more ending errors d).current.kind = k →
    ∃ v, V v ∧ p ⟨ts ++ more, ending, errors, d⟩ = (.ok v, ⟨more, ending, errors, d⟩)

namespace Reads
variable {α β : Type} {p : Parse α} {d : Nat} {l : Lexeme} {ls ls' : List Lexeme} {k : TokenKind}
  {V V' : α → Prop} {W : β → Prop}

theorem pure {v : α} (h : V v) : Reads (Pure.pure v) d [] k V := by
  intro ts more ending errors _ hts _
  obtain rfl := List.map_eq_nil_iff.mp hts
  exact ⟨v, h, rfl⟩

theorem mono (h : Reads p d ls k V) (hV : ∀ v, V v → V' v) : Reads p d ls k V' := by
  intro ts more ending errors hending hts hk
  obtain ⟨v, hv, hrun⟩ := h ts more ending errors hending hts hk
  exact ⟨v, hV v hv, hrun⟩

theorem current_kind_append {ts more : List Token} {ending : Scanner.Ending} {errors : Array Diagnostic}
    (hts : ts.map Token.written = ls) (hk : (State.mk more ending errors d).current.kind = k) :
    (State.mk (ts ++ more) ending errors d).current.kind = headKind ls k := by
  cases ts with
  | nil =>
    rw [← hts]
    exact hk
  | cons t ts =>
    rw [← hts]
    rfl

theorem bind {f : α → Parse β} (h : Reads p d ls (headKind ls' k) V)
    (hf : ∀ v, V v → Reads (f v) d ls' k W) : Reads (p >>= f) d (ls ++ ls') k W := by
  intro ts more ending errors hending hts hk
  obtain ⟨ts₁, ts₂, rfl, hts₁, hts₂⟩ := List.map_eq_append_iff.mp hts
  rw [List.append_assoc]
  obtain ⟨v, hv, hrun⟩ := h ts₁ (ts₂ ++ more) ending errors hending hts₁ (current_kind_append hts₂ hk)
  rw [run_bind, hrun]
  exact hf v hv ts₂ more ending errors hending hts₂ hk

/-- As `bind`, with nothing left for the second reader. -/
theorem bind_last {f : α → Parse β} (h : Reads p d ls k V) (hf : ∀ v, V v → Reads (f v) d [] k W) :
    Reads (p >>= f) d ls k W := by
  rw [← List.append_nil ls]
  exact bind h hf

/-- As `bind`, with nothing for the first reader. -/
theorem bind_first {f : α → Parse β} (h : Reads p d [] (headKind ls k) V)
    (hf : ∀ v, V v → Reads (f v) d ls k W) : Reads (p >>= f) d ls k W := by
  rw [← List.nil_append ls]
  exact bind h hf

/-! ### Looking at the next token -/

theorem current {f : Token → Parse β} (h : ∀ t, t.written = l → Reads (f t) d (l :: ls) k W) :
    Reads (Parse.current >>= f) d (l :: ls) k W := by
  intro ts more ending errors hending hts hk
  obtain ⟨t, ts, rfl, ht, hrest⟩ := List.map_eq_cons_iff.mp hts
  exact h t ht (t :: ts) more ending errors hending hts hk

/-- The token behind the lexemes. -/
theorem current_behind {f : Token → Parse β} (h : ∀ t, t.kind = k → Reads (f t) d [] k W) :
    Reads (Parse.current >>= f) d [] k W := by
  intro ts more ending errors hending hts hk
  obtain rfl := List.map_eq_nil_iff.mp hts
  exact h _ hk [] more ending errors hending rfl hk

theorem currentKind {f : TokenKind → Parse β} (h : Reads (f (headKind ls k)) d ls k W) :
    Reads (Parse.currentKind >>= f) d ls k W := by
  intro ts more ending errors hending hts hk
  obtain ⟨v, hv, hrun⟩ := h ts more ending errors hending hts hk
  refine ⟨v, hv, ?_⟩
  rw [← current_kind_append hts hk] at hrun
  exact hrun

theorem looksAt {s : Symbol} {f : Bool → Parse β} (h : Reads (f ((headKind ls k).isSymbol s)) d ls k W) :
    Reads (Parse.looksAt s >>= f) d ls k W :=
  @currentKind β d ls k W (fun kind => f (kind.isSymbol s)) h

/-! ### Reading a token -/

theorem token : Reads Parse.advance d [l] k (fun _ => True) := by
  intro ts more ending errors hending hts hk
  obtain ⟨t, rfl, ht⟩ := List.map_eq_singleton_iff.mp hts
  exact ⟨(), trivial, congrArg (Prod.mk (Except.ok ()))
    (State.moveTo_of_scanned (s := ⟨t :: more, ending, errors, d⟩) hending more)⟩

theorem advance {f : Unit → Parse β} (h : Reads (f ()) d ls k W) :
    Reads (Parse.advance >>= f) d (l :: ls) k W :=
  @bind Unit β Parse.advance d [l] ls k (fun _ => True) W f token fun _ _ => h

theorem nested {o : Options} (hd : d < o.maxDepth) (h : Reads p (d + 1) ls k V) :
    Reads (Parse.nested o p) d ls k V := by
  intro ts more ending errors hending hts hk
  obtain ⟨v, hv, hrun⟩ := h ts more ending errors hending hts hk
  refine ⟨v, hv, ?_⟩
  show (if d ≥ o.maxDepth then Parse.fail _ else _ : Parse α) _ = _
  rw [if_neg (Nat.not_le_of_lt hd)]
  simp only [hrun]
  rfl

theorem map {f : α → β} (h : Reads p d ls k V) (hf : ∀ v, V v → W (f v)) : Reads (f <$> p) d ls k W := by
  rw [map_eq_pure_bind]
  exact bind_last h fun v hv => pure (hf v hv)

theorem close (bracket : Bracket) (opened : Position) :
    Reads (Parse.close bracket opened) d [.symbol bracket.closing] k (fun _ => True) := by
  refine looksAt ?_
  have hclosing : (headKind [.symbol bracket.closing] k).isSymbol bracket.closing = true :=
    beq_self_eq_true _
  rw [if_pos hclosing]
  exact token

end Reads

end Parse

/-! ## Tokens behind an operand -/

/-- The row of the table on which a token goes on with an operand in front of it. -/
def TokenKind.row : TokenKind → Nat
  | .symbol .dot | .symbol .questionDot | .symbol .leftBracket | .symbol .questionBracket
  | .symbol .leftParen => 1
  | .symbol .question => 15
  | .symbol s => match BinaryOp.ofSymbol? s with
    | some op => op.rank
    | none => 16
  | _ => 16

/-- Whether a token ends an operand of a given row. -/
def Stops (r : Nat) (k : TokenKind) : Prop := r < k.row

instance (r : Nat) (k : TokenKind) : Decidable (Stops r k) := inferInstanceAs (Decidable (r < k.row))

theorem Stops.mono {r s : Nat} {k : TokenKind} (h : Stops s k) (hle : r ≤ s) : Stops r k :=
  Nat.lt_of_le_of_lt hle h

theorem row_of_ofSymbol? {s : Symbol} {op : BinaryOp} (h : BinaryOp.ofSymbol? s = some op) :
    (TokenKind.symbol s).row = op.rank := by
  cases s <;> cases h <;> rfl

theorem stops_zero (k : TokenKind) : Stops 0 k := by
  cases k with
  | symbol s => cases s <;> decide
  | _ => exact Nat.succ_pos 15

theorem BinaryOp.rank_le (op : BinaryOp) : op.rank ≤ 14 := by
  rw [op.rank_eq_level]
  exact Nat.add_le_add_right op.level_le_loosest 3

theorem atLevel?_of_stops {l : Nat} {k : TokenKind} (h : Stops (l + 3) k) :
    BinaryOp.atLevel? l k = none := by
  cases k with
  | symbol s =>
    unfold BinaryOp.atLevel?
    rw [Option.filter_eq_none_iff]
    intro op hop hlevel
    have hlt : l + 3 < op.rank := by
      rw [← row_of_ofSymbol? hop]
      exact h
    have heq : op.level = l := eq_of_beq hlevel
    rw [op.rank_eq_level] at hlt
    omega
  | _ => rfl

theorem atLevel?_of_ofSymbol? {s : Symbol} {op : BinaryOp} (h : BinaryOp.ofSymbol? s = some op) :
    BinaryOp.atLevel? op.level (.symbol s) = some op := by
  show (BinaryOp.ofSymbol? s).filter (·.level == op.level) = some op
  rw [h]
  exact if_pos (beq_self_eq_true op.level)

theorem not_question_of_stops {k : TokenKind} (h : Stops 15 k) : k.isSymbol .question = false := by
  by_contra hquestion
  cases k with
  | symbol s =>
    obtain rfl : s = .question := eq_of_beq (Bool.of_not_eq_false hquestion)
    exact absurd h (by decide)
  | _ => exact hquestion rfl

/-! ## The readers of the rows -/

namespace Parse

/-- The reader for the operands up to a row; prefix operators and powers have their own bound on turns. -/
def reader (o : Options) (expr : Parse Expr) (n g : Nat) : Nat → Parse Expr
  | 0 => primary o expr n
  | 1 => primary o expr n >>= postfixChain o expr n n
  | 2 => prefixed o expr n g
  | 3 => power o expr n g
  | l + 4 => level o expr n (l + 1)

/-- What a row on which operands are read in a loop does with the ones that it has read. -/
def turn (o : Options) (expr : Parse Expr) (n : Nat) : Nat → Nat → Expr → Parse Expr
  | l + 4 => operands o (l + 1) (level o expr n l)
  | _ => postfixChain o expr n

/-- Rows on which operands are read in a loop. -/
def Loops (r : Nat) : Prop := r = 1 ∨ 4 ≤ r

theorem reader_of_loops {o : Options} {expr : Parse Expr} {n g r : Nat} (h : Loops r) :
    reader o expr n g r = reader o expr n n (r - 1) >>= turn o expr n r n := by
  rcases h with rfl | h
  · rfl
  · obtain ⟨l, rfl⟩ := Nat.exists_eq_add_of_le' h
    cases l <;> rfl

/-- The nesting and the turns that a row of lexemes needs. -/
structure Room (o : Options) (d n fuel length : Nat) : Prop where
  depth : d + length ≤ o.maxDepth + 1
  fuel : length ≤ fuel + 1
  turns : length < n

theorem Room.mono {o : Options} {d n fuel length length' : Nat} (h : Room o d n fuel length)
    (hle : length' ≤ length) : Room o d n fuel length' := by
  obtain ⟨hdepth, hfuel, hturns⟩ := h
  exact ⟨by omega, by omega, by omega⟩

/-- What is read is an expression, up to what a text does not tell. -/
def Same (e v : Expr) : Prop := v.bare = e.bare

/-- Lexemes that are read as an expression wherever any expression may stand. -/
def Whole (o : Options) (ls : List Lexeme) (e : Expr) : Prop :=
  ∀ d n fuel k, d + ls.length ≤ o.maxDepth → ls.length ≤ fuel → ls.length < n → Stops 15 k →
    Reads (expression o n fuel) d ls k (Same e)

/-- A loop that starts with some lexemes takes `m` turns to have read an expression, and then goes on with
whatever stands behind. -/
def Continues (o : Options) (r d n fuel : Nat) (ls : List Lexeme) (e : Expr) (m : Nat) : Prop :=
  ∀ j ls' k W, Stops (r - 1) (headKind ls' k) →
    (∀ v, Same e v → Reads (turn o (expression o n fuel) n r j v) d ls' k W) →
    Reads (reader o (expression o n fuel) n n (r - 1) >>= turn o (expression o n fuel) n r (m + j)) d
      (ls ++ ls') k W

/-- Whether an expression can start with a token. -/
def starts : TokenKind → Bool
  | .symbol s =>
    [Symbol.questionDot, .leftParen, .leftBracket, .leftBrace, .minus, .bang, .tilde].contains s
  | .pipe _ | .eof => false
  | _ => true

theorem isEof_of_starts {k : TokenKind} (h : starts k = true) : k.isEof = false := by
  cases k with
  | eof => exact h.symm
  | _ => rfl

theorem isSymbol_of_starts {s : Symbol} {k : TokenKind} (h : starts k = true)
    (hs : starts (.symbol s) = false) : k.isSymbol s = false := by
  by_contra hsymbol
  cases k with
  | symbol t =>
    obtain rfl : t = s := eq_of_beq (Bool.of_not_eq_false hsymbol)
    exact absurd h (by rw [hs]; exact Bool.false_ne_true)
  | _ => exact hsymbol rfl

/-- Lexemes that can start an expression. -/
def Begins (ls : List Lexeme) : Prop := ∃ l ls', ls = l :: ls' ∧ starts l.kind = true

theorem Begins.headKind {ls : List Lexeme} (h : Begins ls) (ls' : List Lexeme) (k : TokenKind) :
    starts (PipeExpr.headKind (ls ++ ls') k) = true := by
  obtain ⟨l, ls, rfl, hl⟩ := h
  exact hl

/-- **Lexemes that are read as an operand** where operands up to the row `r` may stand. -/
structure Operand (o : Options) (r : Nat) (ls : List Lexeme) (e : Expr) : Prop where
  first : ∃ l ls', ls = l :: ls' ∧ starts l.kind = true ∧ (r ≤ 1 → UnaryOp.ofKind? l.kind = none)
  reads : ∀ s d n g fuel k, r ≤ s → s ≤ 14 → Room o d n fuel ls.length → ls.length ≤ g → Stops s k →
    Reads (reader o (expression o n fuel) n g s) d ls k (Same e)
  continues : ∀ s d n fuel, r ≤ s → s ≤ 14 → Loops s → Room o d n fuel ls.length →
    ∃ m ≤ ls.length, Continues o s d n fuel ls e m

section Climbing
variable {o : Options} {r : Nat} {ls : List Lexeme} {e : Expr}

theorem Operand.mono {s : Nat} (h : Operand o r ls e) (hle : r ≤ s) : Operand o s ls e :=
  ⟨h.first.imp fun _ => Exists.imp fun _ hl => ⟨hl.1, hl.2.1, fun hs => hl.2.2 (Nat.le_trans hle hs)⟩,
    fun s' d n g fuel k hs => h.reads s' d n g fuel k (Nat.le_trans hle hs),
    fun s' d n fuel hs => h.continues s' d n fuel (Nat.le_trans hle hs)⟩

/-- A loop ends in front of a token that does not belong to its row. -/
theorem turn_stops {expr : Parse Expr} {n d j : Nat} {v : Expr} {k : TokenKind} (hr : Loops r)
    (h : Stops r k) : Reads (turn o expr n r (j + 1) v) d [] k (· = v) := by
  rcases hr with rfl | hr
  · show Reads (postfixChain o expr n (j + 1) v) d [] k (· = v)
    have hstep : Reads (postfixStep o expr n v) d [] k (· = none) := by
      unfold postfixStep
      refine .current_behind fun t ht => ?_
      rw [ht]
      split <;> first | exact .pure rfl | exact absurd h (by decide)
    unfold postfixChain
    exact .bind_first hstep fun _ hnone => hnone ▸ .pure rfl
  · obtain ⟨l, rfl⟩ := Nat.exists_eq_add_of_le' hr
    show Reads (operands o (l + 1) (level o expr n l) (j + 1) v) d [] k (· = v)
    unfold operands
    refine .currentKind ?_
    rw [headKind_nil, atLevel?_of_stops h]
    exact .pure rfl

/-- What is read on the row before starts a loop without any turns. -/
theorem Continues.of_reads {d n fuel : Nat} (h : ∀ k, Stops (r - 1) k →
    Reads (reader o (expression o n fuel) n n (r - 1)) d ls k (Same e)) :
    Continues o r d n fuel ls e 0 := by
  intro j ls' k W hstops hgoes
  rw [Nat.zero_add]
  exact .bind (h _ hstops) hgoes

/-- A loop that ends. -/
theorem Continues.reads {d n g fuel m : Nat} {k : TokenKind} (h : Continues o r d n fuel ls e m)
    (hr : Loops r) (hm : m < n) (hk : Stops r k) :
    Reads (reader o (expression o n fuel) n g r) d ls k (Same e) := by
  obtain ⟨j, rfl⟩ := Nat.exists_eq_add_of_lt hm
  have hends := h (j + 1) [] k (Same e) (hk.mono (Nat.sub_le r 1)) fun v hv =>
    (turn_stops hr hk).mono fun w hw => hw ▸ hv
  rw [List.append_nil] at hends
  rw [reader_of_loops hr]
  exact hends

/-- One more turn of a loop, in which it reads some lexemes. -/
theorem Continues.step {d n fuel m : Nat} {e' : Expr} {ls₁ : List Lexeme}
    (h : Continues o r d n fuel ls e m)
    (hstops : ∀ ls' k, Stops (r - 1) (headKind (ls₁ ++ ls') k))
    (hturn : ∀ j ls' k W v, Stops (r - 1) (headKind ls' k) → Same e v →
      (∀ w, Same e' w → Reads (turn o (expression o n fuel) n r j w) d ls' k W) →
      Reads (turn o (expression o n fuel) n r (j + 1) v) d (ls₁ ++ ls') k W) :
    Continues o r d n fuel (ls ++ ls₁) e' (m + 1) := by
  intro j ls' k W hk hgoes
  rw [List.append_assoc, show m + 1 + j = m + (j + 1) by omega]
  exact h (j + 1) (ls₁ ++ ls') k W (hstops ls' k) fun v hv => hturn j ls' k W v hk hv hgoes

/-- **From row to row.**  What is read on a row is read on all looser ones, as an operand alone.  The row of
prefix operators asks that there is none. -/
theorem Operand.of_row
    (hreads : ∀ d n g fuel k, Room o d n fuel ls.length → ls.length ≤ g → Stops r k →
      Reads (reader o (expression o n fuel) n g r) d ls k (Same e))
    (hcontinues : Loops r → ∀ d n fuel, Room o d n fuel ls.length →
      ∃ m ≤ ls.length, Continues o r d n fuel ls e m)
    (hfirst : ∃ l ls', ls = l :: ls' ∧ starts l.kind = true ∧
      (r ≤ 1 → UnaryOp.ofKind? l.kind = none)) : Operand o r ls e := by
  have hall : ∀ s, r ≤ s → s ≤ 14 → ∀ d n g fuel k, Room o d n fuel ls.length → ls.length ≤ g →
      Stops s k → Reads (reader o (expression o n fuel) n g s) d ls k (Same e) := by
    intro s hrs
    induction s, hrs using Nat.le_induction with
    | base => exact fun _ => hreads
    | succ s hrs ih =>
      intro hs d n g fuel k hroom hg hk
      have htighter : ∀ k, Stops s k → Reads (reader o (expression o n fuel) n n s) d ls k (Same e) :=
        fun k => ih (by omega) d n n fuel k hroom hroom.turns.le
      by_cases hloops : Loops (s + 1)
      · exact (Continues.of_reads (r := s + 1) htighter).reads hloops (Nat.zero_lt_of_lt hroom.turns) hk
      obtain ⟨l, ls', rfl, _, hl⟩ := hfirst
      obtain ⟨g, rfl⟩ : ∃ g', g = g' + 1 := ⟨g - 1, by rw [List.length_cons] at hg; omega⟩
      obtain rfl | rfl : s = 1 ∨ s = 2 := by
        unfold Loops at hloops
        omega
      -- no prefix operator
      · show Reads (prefixed o (expression o n fuel) n (g + 1)) d (l :: ls') k (Same e)
        unfold prefixed
        refine .current fun t ht => ?_
        have hkind : t.kind = l.kind := congrArg Lexeme.kind ht
        rw [hkind, hl hrs]
        exact htighter k (hk.mono (by omega))
      -- no power
      · show Reads (power o (expression o n fuel) n (g + 1)) d (l :: ls') k (Same e)
        unfold power
        refine .bind_last (htighter k (hk.mono (by omega))) fun v hv => .currentKind ?_
        rw [headKind_nil, atLevel?_of_stops hk, if_neg (by decide)]
        exact .pure hv
  refine ⟨hfirst, fun s d n g fuel k hrs hs => hall s hrs hs d n g fuel k,
    fun s d n fuel hrs hs hloops hroom => ?_⟩
  rcases Nat.eq_or_lt_of_le hrs with rfl | hlt
  · exact hcontinues hloops d n fuel hroom
  · refine ⟨0, Nat.zero_le _, .of_reads fun k hk => ?_⟩
    exact hall (s - 1) (by omega) (by omega) d n n fuel k hroom hroom.turns.le hk

theorem Operand.of_loop (hr : Loops r)
    (hcontinues : ∀ d n fuel, Room o d n fuel ls.length →
      ∃ m ≤ ls.length, Continues o r d n fuel ls e m)
    (hfirst : ∃ l ls', ls = l :: ls' ∧ starts l.kind = true ∧
      (r ≤ 1 → UnaryOp.ofKind? l.kind = none)) : Operand o r ls e := by
  refine .of_row (fun d n g fuel k hroom _ hk => ?_) (fun _ => hcontinues) hfirst
  obtain ⟨m, hm, hcont⟩ := hcontinues d n fuel hroom
  exact hcont.reads hr (Nat.lt_of_le_of_lt hm hroom.turns) hk

/-- A loop that goes on behind an operand of its row. -/
theorem Operand.extend {e' : Expr} {ls₁ : List Lexeme} (h : Operand o r ls e) (hr : Loops r) (hle : r ≤ 14)
    (hne : ls₁ ≠ []) (hstops : ∀ ls' k, Stops (r - 1) (headKind (ls₁ ++ ls') k))
    (hturn : ∀ d n fuel, Room o d n fuel (ls ++ ls₁).length → ∀ j ls' k W v,
      Stops (r - 1) (headKind ls' k) → Same e v →
      (∀ w, Same e' w → Reads (turn o (expression o n fuel) n r j w) d ls' k W) →
      Reads (turn o (expression o n fuel) n r (j + 1) v) d (ls₁ ++ ls') k W) :
    Operand o r (ls ++ ls₁) e' := by
  have hlength := List.length_pos_of_ne_nil hne
  refine .of_loop hr (fun d n fuel hroom => ?_) ?_
  · have hroom' : Room o d n fuel ls.length := hroom.mono (by rw [List.length_append]; omega)
    obtain ⟨m, hm, hcontinues⟩ := h.continues r d n fuel (Nat.le_refl r) hle hr hroom'
    refine ⟨m + 1, ?_, hcontinues.step hstops (hturn d n fuel hroom)⟩
    rw [List.length_append]
    omega
  · obtain ⟨l, ls', rfl, hl⟩ := h.first
    exact ⟨l, ls' ++ ls₁, rfl, hl⟩

/-- An operand is an expression. -/
theorem Operand.whole (h : Operand o r ls e) (hr : r ≤ 14) (hne : ls ≠ []) : Whole o ls e := by
  intro d n fuel k hdepth hfuel hturns hk
  have hlength := List.length_pos_of_ne_nil hne
  obtain ⟨fuel, rfl⟩ : ∃ f, fuel = f + 1 := ⟨fuel - 1, by omega⟩
  have hroom : Room o (d + 1) n fuel ls.length := ⟨by omega, hfuel, hturns⟩
  have hlevel := h.reads 14 (d + 1) n n fuel k hr (Nat.le_refl 14) hroom hturns.le (hk.mono (by decide))
  refine .nested (by omega) ?_
  unfold conditional
  refine .bind_last hlevel fun v hv => .looksAt ?_
  rw [headKind_nil, not_question_of_stops hk, if_neg Bool.false_ne_true]
  exact .pure hv

/-- What a printed expression is read as: an operand of its row, and an expression. -/
structure Printed (o : Options) (ls : List Lexeme) (e : Expr) : Prop where
  begins : Begins ls
  operand : e.rank ≤ 14 → Operand o e.rank ls e
  whole : Whole o ls e

theorem Operand.printed (h : Operand o r ls e) (hrank : e.rank = r) (hr : r ≤ 14) : Printed o ls e := by
  obtain ⟨l, ls', hls, hl, _⟩ := h.first
  exact ⟨⟨l, ls', hls, hl⟩, fun _ => hrank ▸ h, h.whole hr (hls ▸ List.cons_ne_nil l ls')⟩

/-- What an expression inside of something else is read as. -/
structure Inside (expr : Parse Expr) (d : Nat) (ls : List Lexeme) (e : Expr) : Prop where
  begins : Begins ls
  reads : ∀ k, Stops 15 k → Reads expr d ls k (Same e)

theorem Printed.inside {d n fuel length : Nat} (h : Printed o ls e) (hroom : Room o d n fuel length)
    (hlt : ls.length < length) : Inside (expression o n fuel) d ls e := by
  obtain ⟨hdepth, hfuel, hturns⟩ := hroom
  exact ⟨h.begins, fun k => h.whole d n fuel k (by omega) (by omega) (by omega)⟩

/-- Any expression is an operand in parentheses. -/
theorem Printed.parenthesized (h : Printed o ls e) :
    Operand o 0 (.symbol .leftParen :: (ls ++ [.symbol .rightParen])) e := by
  refine .of_row (fun d n g fuel k hroom _ _ => ?_) (fun hloops => ?_) ⟨_, _, rfl, rfl, fun _ => rfl⟩
  · show Reads (primary o (expression o n fuel) n) d _ k (Same e)
    unfold primary
    refine .current fun t ht => ?_
    have hkind : t.kind = .symbol .leftParen := congrArg Lexeme.kind ht
    simp only [hkind]
    unfold Parse.parenthesized
    refine .advance (.looksAt ?_)
    rw [isSymbol_of_starts (h.begins.headKind _ k) rfl, if_neg Bool.false_ne_true]
    have hinside : Inside (expression o n fuel) d ls e := by
      refine h.inside hroom ?_
      rw [List.length_cons, List.length_append]
      omega
    have hstops : Stops 15 (.symbol .rightParen) := by decide
    refine .bind (hinside.reads _ hstops) fun v hv => ?_
    exact .bind_last (.close .paren t.position) fun _ _ => .pure hv
  · rcases hloops with hloops | hloops <;> omega

theorem Printed.enclose {limit : Nat} (h : Printed o ls e) (hlimit : limit ≤ 14) :
    Operand o limit (e.enclose limit ls) e := by
  unfold Expr.enclose
  split
  · rename_i hle
    exact (h.operand (Nat.le_trans hle hlimit)).mono hle
  · exact h.parenthesized.mono (Nat.zero_le _)

end Climbing

end Parse

end PipeExpr
