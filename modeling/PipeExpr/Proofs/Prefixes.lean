import PipeExpr.Proofs.Fragments
import PipeExpr.Proofs.Seams

/-!
# Stacked prefix operators

Any number of prefix operators in front of a postfix expression give as many unary nodes around its tree, if
there is room for as many more levels (`parse_prefixes`).

Every operator is a token of its own.  This is so for two hyphens as well, since every character that a
postfix expression starts with tells the scanner that an operand follows (`Scan.token_opens`), with one
exception: a dot does not.  So `--` in front of a variable behind a dot is one token, which no expression
starts with (`parse_decrement`).
-/

namespace PipeExpr

namespace UnaryOp

/-- The character of a prefix operator. -/
def char : UnaryOp → Char
  | negate => '-'
  | not => '!'
  | bitNot => '~'

theorem ofKind?_symbol (op : UnaryOp) : ofKind? (.symbol op.symbol) = some op := by
  cases op <;> rfl

end UnaryOp

/-- The tree of an expression behind prefix operators that stand next to each other, the first one in a column
of the first line. -/
def Expr.stacked : Nat → List UnaryOp → Expr → Expr
  | _, [], e => e
  | column, op :: ops, e => .unary ⟨1, column⟩ op (stacked (column + 1) ops e)

namespace Scan

theorem startsOperand_of_continuesName {c : Char} (h : continuesName c = true) : startsOperand c = true := by
  unfold continuesName at h
  unfold startsOperand
  simp only [Bool.or_eq_true, beq_iff_eq] at h ⊢
  rcases h with (h | rfl) | rfl
  · exact .inl h
  · exact .inr rfl
  · exact .inr rfl

/-- What an operand starts with: a character that the scanner expects of one, or a dot. -/
def Leading (c : Char) : Prop := c ≠ '=' ∧ c ≠ '-' ∧ (startsOperand c = true ∨ c = '.')

theorem leading_of_continuesName {c : Char} (h : continuesName c = true) : Leading c := by
  refine ⟨?_, ?_, .inl (startsOperand_of_continuesName h)⟩
  · rintro rfl
    exact absurd h (by decide)
  · rintro rfl
    exact absurd h (by decide)

/-- **A token that an operand starts with** starts with a character that the scanner expects of an operand, or
with a dot. -/
theorem token_opens {ieee afterDot : Bool} {cs : List Char} {found : Found}
    (h : token ieee afterDot cs = .ok found) (hopens : Parse.opens found.kind = true) :
    ∃ c ∈ cs.head?, Leading c := by
  cases token_reading h with
  | symbol s hs hr =>
    obtain ⟨rest, rfl⟩ := Symbol.starts_of_longest? hs
    obtain rfl := Except.ok.inj hr
    dsimp only at hopens
    by_cases hminus : s = .minusMinus
    · subst hminus
      have hkind : symbolKind .minusMinus (Symbol.minusMinus.chars ++ rest) = _ := symbolKind_minusMinus rest
      rw [hkind] at hopens
      split at hopens <;> cases hopens
    by_cases hbar : s = .bar
    · subst hbar
      have hkind : symbolKind .bar (Symbol.bar.chars ++ rest) = _ := symbolKind_bar rest
      rw [hkind] at hopens
      rcases barKind_cases rest with hrest | ⟨name, back, hname, rfl⟩
      · rw [hrest] at hopens
        cases hopens
      · rw [barKind_marker hname] at hopens
        cases hopens
    rw [symbolKind_of_ne hminus hbar] at hopens
    cases s with
    | dot => exact ⟨'.', rfl, by decide, by decide, .inr rfl⟩
    | questionDot => exact ⟨'?', rfl, by decide, by decide, .inl rfl⟩
    | leftParen => exact ⟨'(', rfl, by decide, by decide, .inl rfl⟩
    | leftBracket => exact ⟨'[', rfl, by decide, by decide, .inl rfl⟩
    | leftBrace => exact ⟨'\x7b', rfl, by decide, by decide, .inl rfl⟩
    | _ => cases hopens
  | eof _ hr =>
    obtain rfl := Except.ok.inj hr
    cases hopens
  | text raw quote rest hquote hcs =>
    subst hcs
    cases raw with
    | true => exact ⟨'r', rfl, leading_of_continuesName rfl⟩
    | false =>
      refine ⟨quote, rfl, ?_⟩
      rcases Bool.or_eq_true_iff.mp hquote with h | h
      · rw [eq_of_beq h]
        exact ⟨by decide, by decide, .inl rfl⟩
      · rw [eq_of_beq h]
        exact ⟨by decide, by decide, .inl rfl⟩
  | number c rest hc hcs => exact ⟨c, hcs ▸ rfl, leading_of_continuesName (continuesName_of_isDigit hc)⟩
  | name c rest hc _ hcs => exact ⟨c, hcs ▸ rfl, leading_of_continuesName (continuesName_of_startsName hc)⟩
  | stray _ _ _ hr => cases hr
  | invalid _ _ _ _ _ _ _ hr => cases hr

/-! ## Prefix operators as tokens -/

/-- What stands behind a hyphen that is a token of its own: no second hyphen, or one in front of an
operand. -/
def Splits (more : List Char) : Prop := ∀ rest, more = '-' :: rest → ∃ c ∈ rest.head?, startsOperand c = true

/-- **A prefix operator is a token of its own**, unless an equals sign follows, or a hyphen that belongs to
it. -/
theorem token_prefix {ieee afterDot : Bool} (op : UnaryOp) {c : Char} {rest : List Char} (hequals : c ≠ '=')
    (hsplits : op = .negate → Splits (c :: rest)) :
    token ieee afterDot (op.char :: c :: rest) = .ok { kind := .symbol op.symbol, length := 1 } := by
  have hother : ∀ {d}, c ≠ d → [d].isPrefixOf (c :: rest) = false := fun h => by
    rw [List.isPrefixOf_cons_cons, beq_eq_false_iff_ne.mpr h.symm]
    rfl
  by_cases hminus : op = .negate ∧ c = '-'
  -- two hyphens
  · obtain ⟨rfl, rfl⟩ := hminus
    obtain ⟨d, hd, hstarts⟩ := hsplits rfl rest rfl
    have hkind : symbolKind .minusMinus ('-' :: '-' :: rest) = (.symbol .minus, 1) := by
      rw [symbolKind_minusMinus, show rest.head? = some d from hd]
      exact if_pos hstarts
    show token ieee afterDot ('-' :: '-' :: rest) = _
    rw [token_of_longest (s := .minusMinus) afterDot rfl, hkind]
    rfl
  have hlongest : Symbol.longest? (op.char :: c :: rest) = some op.symbol := by
    cases op with
    | negate =>
      have hne := hother fun h => hminus ⟨rfl, h⟩
      simp [Symbol.longest?, Symbol.punctuation, Symbol.chars, UnaryOp.char, UnaryOp.symbol, hne]
    | not =>
      have hne := hother hequals
      simp [Symbol.longest?, Symbol.punctuation, Symbol.chars, UnaryOp.char, UnaryOp.symbol, hne]
    | bitNot => rfl
  rw [token_of_longest afterDot hlongest]
  cases op <;> rfl

/-- Two hyphens that no operand follows are one token. -/
theorem token_minusMinus {ieee afterDot : Bool} {rest : List Char}
    (h : ∀ c ∈ rest.head?, startsOperand c = false) :
    token ieee afterDot ('-' :: '-' :: rest) = .ok { kind := .symbol .minusMinus, length := 2 } := by
  have hkind : symbolKind .minusMinus ('-' :: '-' :: rest) = (.symbol .minusMinus, 2) := by
    rw [symbolKind_minusMinus]
    refine if_neg ?_
    cases rest with
    | nil => exact Bool.false_ne_true
    | cons c rest =>
      rw [show ((c :: rest).head?.map startsOperand).getD false = startsOperand c from rfl, h c rfl]
      exact Bool.false_ne_true
  rw [token_of_longest (s := .minusMinus) afterDot rfl, hkind]

end Scan

namespace Scanner
open Scan

/-- A text whose first token can start an operand starts with white space, or as an operand does. -/
theorem head_of_opens {s : Scanner} {before : List Char} (hs : s.Ready before) {t : Token} {ts : List Token}
    {ending : Ending} (htokens : s.tokens = (t :: ts, ending)) (ht : Parse.opens t.kind = true) :
    ∃ c ∈ s.rest.head?, Text.isBlank c = true ∨ Leading c := by
  rcases next_cases hs with ⟨last, s', hnext, -, hstops⟩ | ⟨p, s', hnext, hstands, -⟩
  · cases hstops with
    | eof =>
      rw [tokens_of_end hs hnext] at htokens
      cases htokens
    | error =>
      rw [tokens_of_error hs hnext] at htokens
      cases htokens
  rw [tokens_of_next hs hnext hstands.inner] at htokens
  obtain ⟨rfl, -⟩ := List.cons.inj (Prod.mk.inj htokens).1
  obtain ⟨gap, lexeme, back, found, hgap, hvisible, hne, hrest, hfound, hlength⟩ :=
    next_reads hs hnext hstands.inner
  have hkind : p.token.kind = found.kind := by
    have hagain := hnext.symm.trans (next_at hs hgap hvisible hne hrest hfound hlength)
    rw [Except.ok.inj (Prod.mk.inj hagain).1]
  rw [hrest]
  cases gap with
  | cons c gap => exact ⟨c, rfl, .inl (hgap c (List.mem_cons_self ..))⟩
  | nil =>
    obtain ⟨c, hc, hleading⟩ := token_opens hfound (hkind ▸ ht)
    exact ⟨c, hc, .inr hleading⟩

/-- The tokens of prefix operators that stand next to each other, from a column of the first line on. -/
def prefixTokens : Nat → List UnaryOp → List Token
  | _, [] => []
  | column, op :: ops => ⟨.symbol op.symbol, op.spelling, ⟨1, column⟩, false, false⟩ ::
      prefixTokens (column + 1) ops

/-- A text in front of which prefix operators are tokens of their own, the last ones of them too. -/
structure Leads (ops : List UnaryOp) (cs : List Char) : Prop where
  head : ∃ c ∈ cs.head?, c ≠ '='
  splits : [.negate] <:+ ops → Splits cs
  starts : [.negate, .negate] <:+ ops → ∃ c ∈ cs.head?, startsOperand c = true

theorem length_prefixTokens {column : Nat} {ops : List UnaryOp} :
    (prefixTokens column ops).length = ops.length := by
  induction ops generalizing column with
  | nil => rfl
  | cons op ops ih => rw [prefixTokens, List.length_cons, ih, List.length_cons]

theorem inner_prefixTokens {column : Nat} {ops : List UnaryOp} :
    ∀ t ∈ prefixTokens column ops, Parse.Inner t := by
  induction ops generalizing column with
  | nil => exact nofun
  | cons op ops ih => exact List.forall_mem_cons.mpr ⟨⟨rfl, rfl⟩, ih⟩

section Leads
variable {op : UnaryOp} {ops : List UnaryOp} {cs : List Char}

/-- Prefix operators are tokens of their own in front of an operand, unless two hyphens stand in front of a
dot or of white space. -/
theorem leads_of_opens {s : Scanner} {before : List Char} (hs : s.Ready before) {t : Token} {ts : List Token}
    {ending : Ending} (htokens : s.tokens = (t :: ts, ending)) (ht : Parse.opens t.kind = true)
    (hops : [.negate, .negate] <:+ ops → ∀ c ∈ s.rest.head?, c ≠ '.' ∧ Text.isBlank c = false) :
    Leads ops s.rest := by
  obtain ⟨c, hc, hstarts⟩ := head_of_opens hs htokens ht
  have hne : ∀ d, Text.isBlank d = false → (Leading c → c ≠ d) → c ≠ d := fun d hd hleading =>
    hstarts.elim (fun hblank => ne_of_isBlank hblank hd) hleading
  refine ⟨⟨c, hc, hne '=' rfl fun hleading => hleading.1⟩, fun _ rest hrest => ?_, fun htwo => ⟨c, hc, ?_⟩⟩
  · rw [hrest] at hc
    exact absurd (Option.some.inj hc).symm (hne '-' rfl fun hleading => hleading.2.1)
  · obtain ⟨hdot, hblank⟩ := hops htwo c hc
    rcases hstarts with hstarts | ⟨-, -, hstarts | hstarts⟩
    · rw [hblank] at hstarts
      cases hstarts
    · exact hstarts
    · exact absurd hstarts hdot

theorem Leads.tail (h : Leads (op :: ops) cs) : Leads ops cs where
  head := h.head
  splits hsuffix := h.splits (hsuffix.trans (List.suffix_cons op ops))
  starts hsuffix := h.starts (hsuffix.trans (List.suffix_cons op ops))

theorem Leads.next (h : Leads (op :: ops) cs) :
    ∃ c rest, ops.map UnaryOp.char ++ cs = c :: rest ∧ c ≠ '=' ∧ (op = .negate → Splits (c :: rest)) := by
  cases ops with
  | nil =>
    obtain ⟨c, hc, hne⟩ := h.head
    have hcs := List.eq_cons_of_mem_head? hc
    exact ⟨c, cs.tail, hcs, hne, by rintro rfl; exact hcs ▸ h.splits (List.suffix_refl _)⟩
  | cons op' ops =>
    refine ⟨op'.char, _, rfl, by cases op' <;> decide, ?_⟩
    rintro rfl rest hrest
    obtain ⟨hop', rfl⟩ := List.cons.inj hrest
    cases ops with
    | nil =>
      obtain rfl : op' = .negate := by
        cases op' with
        | negate => rfl
        | not | bitNot => exact absurd hop' (by decide)
      exact h.starts (List.suffix_refl _)
    | cons op'' ops => exact ⟨op''.char, rfl, by cases op'' <;> rfl⟩

/-- **Prefix operators are tokens of their own**, in front of those of the text behind them. -/
theorem tokens_prefixes (ieee : Bool) (before : List Char) {column : Nat}
    (hplace : Position.behind before = ⟨1, column⟩) (h : Leads ops cs) {w : Scanner}
    (hw : w = ⟨cs, Position.behind (before ++ ops.map UnaryOp.char), ieee, false, false⟩) :
    (⟨ops.map UnaryOp.char ++ cs, Position.behind before, ieee, false, false⟩ : Scanner).tokens =
      (prefixTokens column ops ++ w.tokens.1, w.tokens.2) := by
  induction ops generalizing before column with
  | nil =>
    rw [List.map_nil, List.append_nil] at hw
    rw [hw]
    rfl
  | cons op ops ih =>
    obtain ⟨c, rest, hrest, hequals, hsplits⟩ := h.next
    have hfound : token ieee false ([op.char] ++ (ops.map UnaryOp.char ++ cs)) = _ :=
      hrest ▸ token_prefix op hequals hsplits
    have hvisible : ∀ c ∈ [op.char].head?, Text.isBlank c = false := by
      rintro c hc
      obtain rfl := Option.some.inj hc
      cases op <;> rfl
    have hready : (⟨(op :: ops).map UnaryOp.char ++ cs, Position.behind before, ieee, false, false⟩ :
        Scanner).Ready before := ⟨rfl, rfl⟩
    have hsplit : (op :: ops).map UnaryOp.char ++ cs =
        [] ++ ([op.char] ++ (ops.map UnaryOp.char ++ cs)) := rfl
    have hnext := next_at hready (List.forall_mem_nil _) hvisible (List.cons_ne_nil _ []) hsplit hfound rfl
    have hplace' : Position.behind (before ++ [op.char]) = ⟨1, column + 1⟩ := by
      rw [Position.behind_concat, hplace]
      cases op <;> rfl
    have hdot : isDot (.symbol op.symbol) = false := by cases op <;> rfl
    have hspelling : String.ofList [op.char] = op.spelling := by cases op <;> rfl
    have htail := ih (before ++ [op.char]) hplace' h.tail (by rw [hw, List.append_assoc]; rfl)
    rw [tokens_of_next hready hnext rfl]
    dsimp only
    rw [hdot, List.nil_append, htail, hspelling, List.append_nil, hplace]
    rfl

end Leads

end Scanner

/-! ## Prefix operators around an operand -/

section Tower
variable {o : Options} {n : Nat}

open Parse Scanner

/-- **Prefix operators take a level each** around what a postfix expression needs. -/
theorem performs_prefixes {ts : List Token} {height : Nat} {e : Expr}
    (hts : ∃ t rest, ts = t :: rest ∧ UnaryOp.ofKind? t.kind = none)
    (ops : List UnaryOp) : ∀ {column fuel : Nat} {s : State}, ops.length < fuel → s.ending.fault = none →
    (∀ d, Performs (fun limit => rowReader (o.within limit) n 1) ts { s with depth := d } height e) →
    Performs (fun limit => prefixed (o.within limit) (expression (o.within limit) (n + 1) n) (n + 1) fuel)
      (prefixTokens column ops ++ ts) s (height + ops.length) (e.stacked column ops) := by
  induction ops with
  | nil =>
    intro column fuel s hfuel hs h
    obtain ⟨fuel, rfl⟩ : ∃ f, fuel = f + 1 := ⟨fuel - 1, by omega⟩
    obtain ⟨t, rest, rfl, ht⟩ := hts
    simp only [prefixed]
    refine .current ?_
    simp only [ht]
    exact h s.depth
  | cons op ops ih =>
    intro column fuel s hfuel hs h
    obtain ⟨fuel, rfl⟩ : ∃ f, fuel = f + 1 := ⟨fuel - 1, by omega⟩
    simp only [prefixed]
    refine .current ?_
    simp only [UnaryOp.ofKind?_symbol]
    refine .read hs ?_
    exact Performs.bind_last (.nested (ih (Nat.lt_of_succ_lt_succ hfuel) hs h)) (.pure _ s)

/-- A run that gives up at a token that was not expected, or for lack of room. -/
def Rejects {α : Type} (s : State) (run : Except Failure α × State) : Prop :=
  ∃ d rest, rest <:+ s.rest ∧ (d.code = .unexpectedToken ∨ d.code = .maxDepthExceeded) ∧
    run = (.error (.fault d), { s with rest })

theorem Rejects.bind {α β : Type} {p : Parse α} {g : α → Parse β} {s : State} (h : Rejects s (p s)) :
    Rejects s ((p >>= g) s) := by
  obtain ⟨d, rest, hrest, hcode, hrun⟩ := h
  refine ⟨d, rest, hrest, hcode, ?_⟩
  rw [run_bind, hrun]

theorem Rejects.nested {α : Type} {p : Parse α} {s : State}
    (h : Rejects { s with depth := s.depth + 1 } (p { s with depth := s.depth + 1 })) :
    Rejects s (Parse.nested o p s) := by
  have hnested : Parse.nested o p s = if s.depth ≥ o.maxDepth then
      (.error (.fault ((Fault.maxDepthExceeded o.maxDepth).report s.current.position)), s)
    else
      let run := p { s with depth := s.depth + 1 }
      (run.1, { run.2 with depth := run.2.depth - 1 }) := by
    show (if s.depth ≥ o.maxDepth then Parse.fail _ else Parse.deeper p : Parse α) s = _
    split <;> rfl
  rw [hnested]
  split
  · exact ⟨_, s.rest, List.suffix_refl _, .inr rfl, rfl⟩
  · obtain ⟨d, rest, hrest, hcode, hrun⟩ := h
    refine ⟨d, rest, hrest, hcode, ?_⟩
    rw [hrun]
    rfl

theorem Rejects.before {α : Type} {s : State} {run : Except Failure α × State} (h : Rejects s run)
    (ts : List Token) : Rejects (s.before ts) run := by
  obtain ⟨d, rest, hrest, hcode, hrun⟩ := h
  exact ⟨d, rest, hrest.trans (List.suffix_append ts s.rest), hcode, hrun⟩

/-- Nothing is read behind prefix operators if a decrement stands there. -/
theorem prefixed_decrement {t : Token} (ht : t.kind = .symbol .minusMinus) {expr : Parse Expr} {m : Nat}
    (more : List Token) (ops : List UnaryOp) : ∀ {column fuel : Nat} {s : State}, ops.length < fuel →
    s.ending.fault = none → Rejects (s.before (prefixTokens column ops ++ t :: more))
      (prefixed o expr m fuel (s.before (prefixTokens column ops ++ t :: more))) := by
  induction ops with
  | nil =>
    intro column fuel s hfuel hs
    obtain ⟨fuel, rfl⟩ : ∃ f, fuel = f + 1 := ⟨fuel - 1, by omega⟩
    have hprefix : prefixed o expr m (fuel + 1) (s.before (t :: more)) =
        (primary o expr m >>= postfixChain o expr m m) (s.before (t :: more)) := by
      rw [prefixed, run_bind, current_before]
      dsimp only
      rw [ht]
      rfl
    rw [prefixTokens, List.nil_append, hprefix]
    have hcode : Fault.unexpectedCode t = .unexpectedToken := by
      unfold Fault.unexpectedCode
      rw [ht]
      rfl
    exact .bind ⟨_, _, List.suffix_refl _, .inl hcode, primary_of_not_opens (by
      show opens t.kind = false
      rw [ht]
      rfl)⟩
  | cons op ops ih =>
    intro column fuel s hfuel hs
    obtain ⟨fuel, rfl⟩ : ∃ f, fuel = f + 1 := ⟨fuel - 1, by omega⟩
    rw [prefixTokens, List.cons_append, ← List.singleton_append, ← State.before_before]
    -- the operator is read, and what stands behind it one level deeper
    have hrun : ∀ u : State, u.ending.fault = none → ∀ position,
        prefixed o expr m (fuel + 1) (u.before [⟨.symbol op.symbol, op.spelling, position, false, false⟩]) =
          (Parse.nested o (prefixed o expr m fuel) >>= fun operand =>
            pure (Expr.unary position op operand)) u := by
      intro u hu position
      rw [prefixed, run_bind, current_before]
      dsimp only
      rw [UnaryOp.ofKind?_symbol]
      dsimp only
      rw [run_bind, advance_before hu]
    rw [hrun (s.before _) hs]
    refine .before (.bind (.nested ?_)) _
    exact ih (Nat.lt_of_succ_lt_succ hfuel) (s := { s with depth := s.depth + 1 }) hs

end Tower

section Sources
variable {o : Options} {u : String} {e : Expr}

open Parse Scanner

/-- The tokens of a source behind prefix operators. -/
theorem tokens_behind_prefixes {ieee : Bool} {ops : List UnaryOp} {ts : List Token} {position : Position}
    (hscan : (Scanner.ofSource u ieee).tokens = (ts, ⟨position, none⟩)) (hclosed : Closed ts)
    (hleads : Leads ops u.toList) : ∃ place,
      (Scanner.ofSource (String.ofList (ops.map UnaryOp.char) ++ u) ieee).tokens =
        (prefixTokens 1 ops ++ ts.map (Token.relocate (Position.beyond (ops.map UnaryOp.char))),
          ⟨place, none⟩) := by
  have hjoins : Joins (ops.map UnaryOp.char) [] [] (Scanner.ofSource u ieee)
      ⟨u.toList, Position.behind ([] ++ ops.map UnaryOp.char), ieee, false, false⟩ := by
    refine ⟨⟨rfl, rfl⟩, ⟨rfl, ?_⟩, (List.append_nil _).symm, rfl, rfl⟩
    rw [List.append_nil, List.nil_append]
  obtain ⟨place, hmoved⟩ := tokens_moved hscan hclosed hjoins
  have htokens := tokens_prefixes ieee [] rfl hleads rfl
  rw [hmoved] at htokens
  unfold Scanner.ofSource
  rw [String.toList_append, String.toList_ofList]
  exact ⟨place, htokens⟩

/-- The tokens of a source behind prefix operators and a decrement. -/
theorem tokens_behind_decrement (ops : List UnaryOp) {ieee : Bool} {ts : List Token} {position : Position}
    (hscan : (Scanner.ofSource u ieee).tokens = (ts, ⟨position, none⟩)) (hclosed : Closed ts)
    (hstarts : ∀ c ∈ u.toList.head?, Scan.startsOperand c = false) : ∃ t f place,
      t.kind = .symbol .minusMinus ∧
      (Scanner.ofSource (String.ofList (ops.map UnaryOp.char ++ ['-', '-']) ++ u) ieee).tokens =
        (prefixTokens 1 ops ++ t :: ts.map (Token.relocate f), ⟨place, none⟩) := by
  have hleads : Leads ops ('-' :: '-' :: u.toList) := by
    refine ⟨⟨'-', rfl, by decide⟩, fun _ rest hrest => ?_, fun _ => ⟨'-', rfl, rfl⟩⟩
    obtain ⟨-, rfl⟩ := List.cons.inj hrest
    exact ⟨'-', rfl, rfl⟩
  have htokens := tokens_prefixes ieee [] rfl hleads rfl
  have hready : (⟨'-' :: '-' :: u.toList, Position.behind ([] ++ ops.map UnaryOp.char), ieee, false, false⟩ :
      Scanner).Ready ([] ++ ops.map UnaryOp.char) := ⟨rfl, rfl⟩
  have hvisible : ∀ c ∈ ['-', '-'].head?, Text.isBlank c = false := fun c hc => Option.some.inj hc ▸ rfl
  have hfound : Scan.token ieee false (['-', '-'] ++ u.toList) = _ := Scan.token_minusMinus hstarts
  have hsplit : '-' :: '-' :: u.toList = [] ++ (['-', '-'] ++ u.toList) := rfl
  have hnext := next_at hready (List.forall_mem_nil _) hvisible (List.cons_ne_nil _ _) hsplit hfound rfl
  have hjoins : Joins (ops.map UnaryOp.char ++ ['-', '-']) [] [] (Scanner.ofSource u ieee)
      ⟨u.toList, Position.behind ([] ++ ops.map UnaryOp.char ++ ([] ++ ['-', '-'])), ieee, false, false⟩ := by
    refine ⟨⟨rfl, rfl⟩, ⟨rfl, ?_⟩, (List.append_nil _).symm, rfl, rfl⟩
    rw [List.append_nil]
    rfl
  obtain ⟨place, hmoved⟩ := tokens_moved hscan hclosed hjoins
  have hbehind := tokens_of_next hready hnext rfl
  dsimp only [isDot] at hbehind
  rw [hmoved] at hbehind
  rw [hbehind] at htokens
  unfold Scanner.ofSource
  rw [String.toList_append, String.toList_ofList, List.append_assoc]
  exact ⟨_, _, place, rfl, htokens⟩

/-- **A decrement is never read** in front of a postfix expression. -/
theorem parse_decrement (h : Fragment o 1 u e) (hstarts : ∀ c ∈ u.toList.head?, Scan.startsOperand c = false)
    (ops : List UnaryOp) (limit : Nat) : ∃ d,
      parse (String.ofList (ops.map UnaryOp.char ++ ['-', '-']) ++ u) (o.within limit) = .error [d] ∧
        (d.code = .unexpectedToken ∨ d.code = .maxDepthExceeded) := by
  obtain ⟨tokens, position, height, -, hspans⟩ := h.spans (by decide)
  obtain ⟨t, f, place, ht, hscan⟩ := tokens_behind_decrement ops hspans.scans hspans.closed hstarts
  have hinner : ∀ t' ∈ prefixTokens 1 ops ++ t :: tokens.map (Token.relocate f), Inner t' := by
    refine List.forall_mem_append.mpr ⟨inner_prefixTokens, List.forall_mem_cons.mpr ⟨?_, ?_⟩⟩
    · exact inner_of_isSymbol (s := .minusMinus) (by rw [ht]; rfl)
    · exact List.forall_mem_map.mpr hspans.inner
  have hne : prefixTokens 1 ops ++ t :: tokens.map (Token.relocate f) ≠ [] := by simp
  generalize hts : prefixTokens 1 ops ++ t :: tokens.map (Token.relocate f) = ts at hscan hinner hne
  have hlong : ops.length < ts.length + 1 := by
    rw [← hts, List.length_append, length_prefixTokens]
    omega
  -- the operators fail on their row, and so does the whole expression
  obtain ⟨d, rest, hrest, hcode, hrun⟩ : Rejects ⟨ts, ⟨place, none⟩, #[], 0⟩
      (Parse.expression (o.within limit) (ts.length + 1) (ts.length + 1) ⟨ts, ⟨place, none⟩, #[], 0⟩) := by
    have hrejects := fun expr m => @prefixed_decrement (o.within limit) t ht expr m
      (tokens.map (Token.relocate f)) ops 1 _ ⟨[], ⟨place, none⟩, #[], 1⟩ hlong rfl
    simp only [State.before_end, hts] at hrejects
    obtain ⟨d, rest, hrest, hcode, hrun⟩ := hrejects _ _
    exact .nested ⟨d, rest, hrest, hcode, rowReader_fault (Nat.le_refl 2) (by decide) (Nat.le_refl 15) hrun⟩
  exact ⟨d, parse_of_fault (o := o.within limit) hscan hne hinner hrun hrest, hcode⟩

/-- **Prefix operators in front of a postfix expression** give as many nodes around its tree, the outermost
one for the first operator, if there is room for as many more levels, and else the error that there is not.
This is so for any operators in front of every postfix expression, unless two hyphens stand in front of a dot
or of white space.  These are a decrement, which is never read. -/
theorem parse_prefixes (h : Fragment o 1 u e) : ∃ room, ∀ limit,
    ((room ≤ limit → parse u (o.within limit) = .ok e) ∧
      (limit < room → ∃ d, parse u (o.within limit) = .error [d] ∧ d.code = .maxDepthExceeded)) ∧
    (∀ ops : List UnaryOp,
      ([.negate, .negate] <:+ ops → ∀ c ∈ u.toList.head?, c ≠ '.' ∧ Text.isBlank c = false) →
      (room + ops.length ≤ limit → parse (String.ofList (ops.map UnaryOp.char) ++ u) (o.within limit) =
        .ok ((e.relocate (Position.beyond (ops.map UnaryOp.char))).stacked 1 ops)) ∧
      (limit < room + ops.length → ∃ d, parse (String.ofList (ops.map UnaryOp.char) ++ u) (o.within limit) =
        .error [d] ∧ d.code = .maxDepthExceeded)) ∧
    ∀ ops : List UnaryOp, [.negate, .negate] <:+ ops →
      (∃ c ∈ u.toList.head?, c = '.' ∨ Text.isBlank c = true) → ∃ d,
      parse (String.ofList (ops.map UnaryOp.char) ++ u) (o.within limit) = .error [d] ∧
        (d.code = .unexpectedToken ∨ d.code = .maxDepthExceeded) := by
  obtain ⟨tokens, position, height, -, hspans⟩ := h.spans (by decide)
  obtain ⟨t, rest, rfl, hleads⟩ := hspans.first
  have hopens := opens_of_leads (Nat.le_refl 1) hleads
  have hnone := ofKind?_of_opens hopens
  refine ⟨1 + height, fun limit => ⟨?_, fun ops hops => ?_, fun ops hops hstarts => ?_⟩⟩
  -- the postfix expression alone
  · exact hspans.readAs (Nat.le_refl 1) (by decide) limit
  · obtain ⟨place, hscan'⟩ := tokens_behind_prefixes hspans.scans hspans.closed
      (leads_of_opens (ready_ofSource u o.ieee) hspans.scans hopens hops)
    have hinner : ∀ t' ∈ prefixTokens 1 ops ++
        (t :: rest).map (Token.relocate (Position.beyond (ops.map UnaryOp.char))), Inner t' :=
      List.forall_mem_append.mpr ⟨inner_prefixTokens, List.forall_mem_map.mpr hspans.inner⟩
    rw [Nat.add_assoc]
    refine parse_of_row hscan' (by simp) hinner (show 1 ≤ 2 by decide) (by decide) nofun ?_ limit
    simp only [rowReader_of_le (show 2 ≤ 14 by decide), reader]
    refine @performs_prefixes o _ ((t :: rest).map _) height _ ⟨_, _, rfl, hnone⟩ ops _ _
      ⟨[], ⟨place, none⟩, #[], 1⟩ ?_ rfl fun d => ?_
    · rw [List.length_append, length_prefixTokens]
      omega
    · refine hspans.performs _ _ ⟨[], ⟨place, none⟩, #[], d⟩ ?_ rfl (stops_end (by decide) rfl)
      rw [List.length_append, List.length_map]
      exact Nat.le_add_left ..
  · obtain ⟨front, rfl⟩ := hops
    obtain ⟨c, hc, hstarts⟩ := hstarts
    rw [List.map_append]
    refine parse_decrement h (fun d hd => ?_) front limit
    obtain rfl := Option.some.inj (hc.symm.trans hd)
    rcases hstarts with rfl | hblank
    · rfl
    · exact Scan.startsOperand_of_isBlank hblank

/-- A variable behind a question mark and a dot. -/
theorem fragment_optional : Fragment {} 1 "?.x" (.reference ⟨1, 1⟩ "x" true) :=
  ⟨by decide, [⟨.symbol .questionDot, "?.", ⟨1, 1⟩, false, false⟩,
    ⟨.identifier "x", "x", ⟨1, 3⟩, false, false⟩], ⟨1, 4⟩, rfl, rfl⟩

/-- Two hyphens in front of it are two negations, with room for four levels and not for three. -/
theorem parse_prefixes_optional :
    parse "!--?.x" (Options.within {} 4) = .ok (.unary ⟨1, 1⟩ .not (.unary ⟨1, 2⟩ .negate
      (.unary ⟨1, 3⟩ .negate (.reference ⟨1, 4⟩ "x" true)))) ∧
    ∃ d, parse "!--?.x" (Options.within {} 3) = .error [d] ∧ d.code = .maxDepthExceeded := by
  obtain ⟨room, h⟩ := parse_prefixes fragment_optional
  have hone : room = 1 := by
    have hleast : ¬ room ≤ 0 := fun hroom => by
      have hfails := (h 0).1.1 hroom
      cases hfails
    have hmost : ¬ 1 < room := fun hroom => by
      obtain ⟨d, hfails, -⟩ := (h 1).1.2 hroom
      cases hfails
    omega
  subst hone
  have hmark : ∀ c ∈ "?.x".toList.head?, c ≠ '.' ∧ Text.isBlank c = false := by
    intro c hc
    obtain rfl := Option.some.inj hc
    exact ⟨by decide, rfl⟩
  exact ⟨((h 4).2.1 [.not, .negate, .negate] fun _ => hmark).1 (by decide),
    ((h 3).2.1 [.not, .negate, .negate] fun _ => hmark).2 (by decide)⟩

/-- Two hyphens in front of a variable behind a dot: an expression does not start so. -/
theorem parse_decrement_dot : parse ".x" {} = .ok (.reference ⟨1, 1⟩ "x" false) ∧
    ∃ d, parse "--.x" {} = .error [d] ∧ d.code = .unexpectedToken ∧ d.position = ⟨1, 1⟩ ∧
      d.message = "'--' is not a supported operator" :=
  ⟨rfl, _, rfl, rfl, rfl, rfl⟩

end Sources

end PipeExpr
