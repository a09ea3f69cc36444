import PipeExpr.Proofs.Replays

/-!
# Constructs are read alike wherever they stand

Each construct of the grammar is replayed (`Parse.Replays`): what a reader has read in one place, with nothing
recorded, is read from the same tokens in any other place, if there is room.  A construct that ends with a
bracket or a name is over with it.  A chain of steps and a row of operands may go on, so these are told by the
row of the table what may stand behind them.  What they read ends with a token that can end an operand
(`Parse.Closed`).
-/

namespace PipeExpr

namespace Parse

section Grammar
variable {o : Options}

/-- The token in front of a reader is a symbol. -/
theorem inner_of_eq {t : Token} {s : Symbol} (h : t.kind.isSymbol s = true) : ∀ t', t' = t → Inner t' := by
  rintro _ rfl
  exact inner_of_isSymbol h

theorem inner_of_objectKey? {t : Token} {key : String} (h : objectKey? t = some key) : Inner t := by
  unfold objectKey? at h
  unfold Inner
  cases hk : t.kind with
  | pipe | eof => rw [hk] at h; cases h
  | _ => exact ⟨rfl, rfl⟩

theorem closes_of_property? {t : Token} {property : Property} (h : property? t = some property) :
    closes t.kind = true := by
  unfold property? at h
  cases hk : t.kind with
  | symbol s =>
    rw [hk] at h
    cases s <;> first | rfl | cases h
  | pipe | eof => rw [hk] at h; cases h
  | _ => rfl

theorem inner_of_atLevel? {t : Token} {l : Nat} (h : (BinaryOp.atLevel? l t.kind).isSome = true) :
    Inner t := by
  unfold Inner
  cases hk : t.kind with
  | symbol => exact ⟨rfl, rfl⟩
  | _ => rw [hk] at h; cases h

theorem close_replays {bracket : Bracket} (hclosing : closes (.symbol bracket.closing) = true)
    (opened : Position) (opened' : (Position → Position) → Position) (row : Nat) :
    Replays o (fun _ => True) row Closed (fun _ => id) (close bracket opened)
      (fun f _ => close bracket (opened' f)) := by
  refine .looksAt fun t _ => ?_
  split
  · rename_i hclose
    refine Replays.last ?_ fun _ => rfl
    rintro _ rfl
    exact closes_of_isSymbol hclose hclosing
  · exact .never (refuses_notClosed _ _)

section Lists
variable {α : Type} {item : Parse α} {items' : (Position → Position) → Nat → Parse α}
  {move : (Position → Position) → α → α}
  (hitem : Replays o (fun _ => True) 15 Closed move item items')
include hitem

theorem listItems_replays {bracket : Bracket} (hclosing : closes (.symbol bracket.closing) = true)
    (opened : Position) (opened' : (Position → Position) → Position) (row n : Nat) (items : List α) :
    Replays o (fun _ => True) row Closed (fun f => List.map (move f)) (listItems bracket opened item n items)
      (fun f limit => listItems bracket (opened' f) (items' f limit) n (items.map (move f))) := by
  induction n generalizing items with
  | zero => exact .never refuses_exhausted
  | succ n ih =>
    simp only [listItems]
    refine .looksAt fun t _ => ?_
    split
    · rename_i hclose
      refine .last ?_ fun f => (List.map_reverse ..).symm
      rintro _ rfl
      exact closes_of_isSymbol hclose hclosing
    refine .looksAt ?_
    rintro t rfl
    split
    · rename_i hcomma
      refine .current ?_
      rintro t rfl
      have hskip : Replays o (· = t) row Closed (fun f => List.map (move f))
          (do Parse.advance; listItems bracket opened item n items)
          (fun f limit => do
            Parse.advance
            listItems bracket (opened' f) (items' f limit) n (items.map (move f))) :=
        .read (inner_of_eq hcomma) (ih items)
      exact .recorded _ _ hskip
    refine .currentKind ?_
    rintro t rfl
    split
    · exact .never (refuses_notClosed _ _)
    refine hitem.anywhere.andThen fun x => .looksAt fun t _ => ?_
    have hnext := ih (x :: items)
    simp only [List.map_cons] at hnext
    split
    · rename_i hcomma
      refine .current ?_
      rintro t rfl
      refine .read (inner_of_eq hcomma) (.looksAt fun t' _ => ?_)
      split
      · exact .recorded _ _ hnext.anywhere
      · exact hnext.anywhere
    refine .looksAt fun t _ => ?_
    split
    · exact hnext.anywhere
    · exact .never (refuses_notClosed _ _)

end Lists

section Nested
variable {expr : Parse Expr} {exprs : (Position → Position) → Nat → Parse Expr}
  (hexpr : Replays o (fun _ => True) 15 Closed Expr.relocate expr exprs)
include hexpr

/-! ### Primaries -/

theorem objectEntry_replays : Replays o (fun _ => True) 15 Closed (fun f => Prod.map id (Expr.relocate f))
    (objectEntry expr) (fun f limit => objectEntry (exprs f limit)) := by
  refine .current fun token _ => ?_
  have hkey : ∀ f, objectKey? (token.relocate f) = objectKey? token := fun _ => rfl
  simp only [hkey]
  cases hkey : objectKey? token with
  | none => exact .never (refuses_fail _)
  | some key =>
    refine .read (fun _ ht => ht ▸ inner_of_objectKey? hkey) (.looksAt fun t _ => ?_)
    split
    · rename_i hcolon
      exact .read (inner_of_eq hcolon) (hexpr.andReturn fun _ _ _ => rfl)
    · exact .never (refuses_unexpectedAs _ _)

omit hexpr in
theorem leadingDot_replays {t : Token} {s : Symbol} (ht : t.kind.isSymbol s = true) (optional : Bool)
    (row : Nat) : Replays o (· = t) row Closed Expr.relocate (leadingDot o optional t.position)
      (fun f limit => leadingDot (o.within limit) optional (f t.position)) := by
  have hchaining : ∀ limit, (o.within limit).chaining = o.chaining := fun _ => rfl
  simp only [leadingDot, hchaining]
  split
  · exact .never (refuses_disabled _)
  refine .read (inner_of_eq ht) (.currentKind ?_)
  rintro ⟨kind, lexeme, position, quoted, raw⟩ -
  cases kind with
  | identifier name =>
    refine .last ?_ fun _ => rfl
    rintro _ rfl
    rfl
  | _ => exact .never (refuses_unexpectedAs _ _)

theorem parenthesized_replays {t : Token} (ht : t.kind.isSymbol .leftParen = true) (row : Nat) :
    Replays o (· = t) row Closed Expr.relocate (parenthesized expr t.position)
      (fun f limit => parenthesized (exprs f limit) (f t.position)) := by
  refine .read (inner_of_eq ht) (.looksAt fun t' _ => ?_)
  split
  · exact .never (refuses_fail _)
  · refine hexpr.anywhere.andThen fun e => ?_
    exact (close_replays rfl _ _ row).andReturn fun _ _ _ => rfl

theorem primary_replays (n row : Nat) : Replays o (fun _ => True) row Closed Expr.relocate
    (primary o expr n) (fun f limit => primary (o.within limit) (exprs f limit) n) := by
  refine .current ?_
  rintro ⟨kind, lexeme, position, quoted, raw⟩ -
  have hleaf : ∀ {v : Expr} {w : (Position → Position) → Expr}, closes kind = true →
      (∀ f, w f = v.relocate f) →
      Replays o (· = ⟨kind, lexeme, position, quoted, raw⟩) row Closed Expr.relocate
        (do Parse.advance; return v) (fun f _ => do Parse.advance; return w f) := by
    intro v w hcloses hw
    exact .last (fun t ht => ht ▸ hcloses) hw
  cases kind with
  | number | string | boolean | null | identifier => exact hleaf rfl fun _ => rfl
  | pipe | eof => exact .never (refuses_unexpected _)
  | symbol s =>
    cases s with
    | dot => exact leadingDot_replays (s := .dot) rfl false row
    | questionDot => exact leadingDot_replays (s := .questionDot) rfl true row
    | leftParen => exact parenthesized_replays hexpr rfl row
    | leftBracket =>
      refine .read (inner_of_eq (s := .leftBracket) rfl)
        ((listItems_replays hexpr rfl _ _ row n []).andReturn fun f _ items => ?_)
      rw [Expr.relocate, Expr.relocateItems_eq_map]
      rfl
    | leftBrace =>
      refine .read (inner_of_eq (s := .leftBrace) rfl)
        ((listItems_replays (objectEntry_replays hexpr) rfl _ _ row n []).andReturn fun f _ entries => ?_)
      rw [Expr.relocate, Expr.relocateEntries_eq_map]
      rfl
    | _ => exact .never (refuses_unexpected _)

/-! ### Postfix chains -/

theorem member_replays (target : Expr) (optional : Bool) (row : Nat) :
    Replays o (fun _ => True) row Closed Expr.relocate (member expr target optional)
      (fun f limit => member (exprs f limit) (target.relocate f) optional) := by
  refine .current fun token _ => ?_
  have hproperty : ∀ f, property? (token.relocate f) = property? token := fun _ => rfl
  have hkind : ∀ f, (token.relocate f).kind = token.kind := fun _ => rfl
  simp only [hproperty, hkind, Expr.position_relocate]
  cases hproperty : property? token with
  | some property => exact .last (fun _ ht => ht ▸ closes_of_property? hproperty) fun _ => rfl
  | none =>
    dsimp only
    split
    · rename_i hparen
      refine .read (inner_of_eq hparen) ?_
      refine hexpr.anywhere.andThen fun key => ?_
      exact (close_replays rfl _ _ row).andReturn fun _ _ _ => rfl
    · exact .never (refuses_unexpectedAs _ _)

omit hexpr in
theorem some_replays {K : Token → Prop} {row : Nat} {T : List Token → Prop} {p : Parse Expr}
    {q : (Position → Position) → Nat → Parse Expr} (h : Replays o K row T Expr.relocate p q) :
    Replays o K row T (fun f => Option.map (Expr.relocate f)) (some <$> p)
      (fun f limit => some <$> q f limit) :=
  h.map fun _ _ => rfl

/-- A bound of a slice may be missing. -/
theorem sliceBound_replays (missing : Bool) {g : Option Expr → Parse Expr}
    {g' : (Position → Position) → Nat → Option Expr → Parse Expr} {row : Nat}
    (hg : ∀ bound : Option Expr, Replays o (fun _ => True) row Closed Expr.relocate (g bound)
      (fun f limit => g' f limit (bound.map (Expr.relocate f)))) (K : Token → Prop) :
    Replays o K row Closed Expr.relocate
      (if missing = true then pure none >>= g else some <$> expr >>= g)
      (fun f limit =>
        if missing = true then pure none >>= g' f limit else some <$> exprs f limit >>= g' f limit) := by
  cases missing with
  | true =>
    have hnone : Replays o K 0 (· = []) (fun f => Option.map (Expr.relocate f)) (pure none)
        (fun _ _ => pure none) := .pure none
    exact hnone.andThen hg
  | false => exact (some_replays hexpr.anywhere).andThen hg

theorem sliceRest_replays (target : Expr) (start : Option Expr) (optional : Bool)
    (opened : Position) (opened' : (Position → Position) → Position) (row : Nat) :
    Replays o (fun _ => True) row Closed Expr.relocate (sliceRest expr target start optional opened)
      (fun f limit => sliceRest (exprs f limit) (target.relocate f) (start.map (Expr.relocate f)) optional
        (opened' f)) := by
  have hclose : ∀ stop step : Option Expr, Replays o (fun _ => True) row Closed Expr.relocate
      (do close .square opened; return Expr.slice target.position target start stop step optional)
      (fun f _ => do
        close .square (opened' f)
        return Expr.slice (target.relocate f).position (target.relocate f) (start.map (Expr.relocate f))
          (stop.map (Expr.relocate f)) (step.map (Expr.relocate f)) optional) := by
    intro stop step
    refine (close_replays rfl _ _ row).andReturn fun f _ _ => ?_
    simp only [Expr.relocate, Expr.relocateBound_eq_map, Expr.position_relocate]
  refine .looksAt fun t _ => .looksAt fun t' _ =>
    sliceBound_replays hexpr _ (fun stop => .looksAt fun t _ => ?_) _
  split
  · rename_i hcolon
    exact .read (inner_of_eq hcolon) (.looksAt fun t _ => sliceBound_replays hexpr _ (hclose stop) _)
  · exact (hclose stop none).anywhere

theorem brackets_replays (target : Expr) (optional : Bool) (opened : Position)
    (opened' : (Position → Position) → Position) (row : Nat) :
    Replays o (fun _ => True) row Closed Expr.relocate (brackets expr target optional opened)
      (fun f limit => brackets (exprs f limit) (target.relocate f) optional (opened' f)) := by
  refine .looksAt fun t _ => ?_
  split
  · exact .never (refuses_fail _)
  refine .looksAt fun t' _ => ?_
  split
  · rename_i hcolon
    exact .read (inner_of_eq hcolon) (sliceRest_replays hexpr target none optional _ _ row)
  refine hexpr.anywhere.andThen fun first => .looksAt fun t _ => ?_
  split
  · rename_i hcolon
    exact .read (inner_of_eq hcolon) (sliceRest_replays hexpr target (some first) optional _ _ row)
  · refine (close_replays rfl _ _ row).anywhere.andReturn
      fun f _ _ => ?_
    simp only [Expr.relocate, Expr.position_relocate]

omit hexpr in
/-- There is no step in front of any other token. -/
theorem postfixStep_none {s : State} {n : Nat} {target : Expr} (h : s.current.kind.row ≠ 1) :
    postfixStep o expr n target s = (.ok none, s) := by
  obtain ⟨step, hstep, hnone⟩ : ∃ step : Token → Parse (Option Expr),
      postfixStep o expr n target = current >>= step ∧ ∀ t, t.kind.row ≠ 1 → step t = pure none := by
    refine ⟨_, rfl, ?_⟩
    rintro ⟨kind, lexeme, position, quoted, raw⟩ hrow
    cases kind with
    | symbol symbol => cases symbol <;> first | rfl | exact absurd rfl hrow
    | _ => rfl
  have hrun : postfixStep o expr n target s = step s.current s := by rw [hstep]; rfl
  rw [hrun, hnone _ h]
  rfl

/-- A step of a chain, seen from its first token. -/
theorem postfixStep_reads (n : Nat) (target : Expr) :
    Replays o (fun t => t.kind.row = 1) 0 Closed (fun f => Option.map (Expr.relocate f))
      (postfixStep o expr n target)
      (fun f limit => postfixStep (o.within limit) (exprs f limit) n (target.relocate f)) := by
  have hchaining : ∀ limit, (o.within limit).chaining = o.chaining := fun _ => rfl
  simp only [postfixStep, hchaining, Expr.isCallable_relocate, Expr.position_relocate]
  refine .current ?_
  rintro ⟨kind, lexeme, position, quoted, raw⟩ hrow
  cases kind with
  | symbol s =>
    have hmember := fun optional => some_replays (member_replays hexpr target optional 0)
    have hbrackets := fun optional =>
      some_replays (brackets_replays hexpr target optional position (fun f => f position) 0)
    cases s with
    | dot => exact .read (inner_of_eq (s := .dot) rfl) (hmember false)
    | leftBracket => exact .read (inner_of_eq (s := .leftBracket) rfl) (hbrackets false)
    | questionDot =>
      dsimp only [Token.relocate]
      split
      · exact .read (inner_of_eq (s := .questionDot) rfl) (hmember true)
      · exact .never (refuses_disabled _)
    | questionBracket =>
      dsimp only [Token.relocate]
      split
      · exact .read (inner_of_eq (s := .questionBracket) rfl) (hbrackets true)
      · exact .never (refuses_disabled _)
    | leftParen =>
      dsimp only [Token.relocate]
      split
      · refine .read (inner_of_eq (s := .leftParen) rfl)
          ((listItems_replays hexpr rfl position (fun f => f position) 0 n []).andReturn
            fun f _ arguments => ?_)
        simp only [Option.map_some, Expr.relocate, Expr.relocateItems_eq_map]
      · exact .never (refuses_fail _)
    | _ => exact absurd hrow (by rintro ⟨⟩)
  | _ => exact absurd hrow (by rintro ⟨⟩)

/-- A step of a chain, if there is one. -/
theorem postfixStep_replays (n : Nat) (target : Expr) :
    Replays o (fun _ => True) 1 Rounded (fun f => Option.map (Expr.relocate f)) (postfixStep o expr n target)
      (fun f limit => postfixStep (o.within limit) (exprs f limit) n (target.relocate f)) where
  grows {s v s'} _ hrun := by
    by_cases hrow : s.current.kind.row = 1
    · exact (postfixStep_reads hexpr n target).grows hrow hrun
    · rw [postfixStep_none hrow] at hrun
      cases hrun
      exact Nat.le_refl _
  replays {s v s'} hending hdepth _ hrun herrors := by
    by_cases hrow : s.current.kind.row = 1
    · exact ((postfixStep_reads hexpr n target).mono (fun _ => id) (Nat.zero_le 1) fun _ => .inr).replays
        hending hdepth hrow hrun herrors
    · rw [postfixStep_none hrow] at hrun
      cases hrun
      refine ⟨[], 0, rfl, .inl rfl, nofun, hdepth, fun f u _ hnext => .of_ok fun limit => ?_⟩
      refine postfixStep_none ?_
      show u.current.kind.row ≠ 1
      rcases hnext with hsame | hstops
      · rwa [hsame]
      · exact Nat.ne_of_gt hstops

theorem postfixChain_replays (n k : Nat) (target : Expr) :
    Replays o (fun _ => True) 1 Rounded Expr.relocate (postfixChain o expr n k target)
      (fun f limit => postfixChain (o.within limit) (exprs f limit) n k (target.relocate f)) := by
  induction k generalizing target with
  | zero => exact .never refuses_exhausted
  | succ k ih =>
    simp only [postfixChain]
    refine (postfixStep_replays hexpr n target).bind (fun longer => ?_)
      (.inl (Nat.le_refl 1)) fun _ _ => Rounded.append
    cases longer with
    | none => exact (Replays.pure target).mono (fun _ => id) (Nat.le_refl 1) fun _ => .inl
    | some longer => exact ih longer

/-! ### Operators -/

theorem prefixed_replays (n k : Nat) : Replays o (fun _ => True) 2 Closed Expr.relocate
    (prefixed o expr n k) (fun f limit => prefixed (o.within limit) (exprs f limit) n k) := by
  induction k with
  | zero => exact .never refuses_exhausted
  | succ k ih =>
    simp only [prefixed]
    refine .current fun t _ => ?_
    have hkind : ∀ f, (t.relocate f).kind = t.kind := fun _ => rfl
    simp only [hkind]
    cases hop : UnaryOp.ofKind? t.kind with
    | some op =>
      have hinner : Inner t := by
        unfold Inner
        cases hk : t.kind with
        | pipe | eof => rw [hk] at hop; cases hop
        | _ => exact ⟨rfl, rfl⟩
      exact .read (fun _ ht => ht ▸ hinner) (ih.nested.andReturn fun _ _ _ => rfl)
    | none =>
      refine (primary_replays hexpr n 1).anywhere.andMaybe
        (Nat.le_succ 1) fun e => ?_
      exact (postfixChain_replays hexpr n n e).mono (fun _ => id) (Nat.le_succ 1) fun _ => id

theorem power_replays (n k : Nat) : Replays o (fun _ => True) 3 Closed Expr.relocate
    (power o expr n k) (fun f limit => power (o.within limit) (exprs f limit) n k) := by
  induction k with
  | zero => exact .never refuses_exhausted
  | succ k ih =>
    simp only [power]
    refine (prefixed_replays hexpr n n).andMaybe (Nat.le_succ 2) fun base => .peek fun t _ => ?_
    by_cases hpower : (BinaryOp.atLevel? 0 t.kind).isSome = true
    · refine .inl ?_
      simp only [hpower, if_true, Expr.position_relocate]
      refine .read (fun _ ht => ht ▸ inner_of_atLevel? hpower) (ih.nested.andReturn fun f _ _ => ?_)
      rw [Expr.relocate]
    · refine .inr ⟨base, if_neg hpower, fun k hk f limit => if_neg ?_⟩
      rcases hk with rfl | hstops
      · exact hpower
      · rw [atLevel?_of_stops hstops]
        exact Bool.false_ne_true

omit hexpr in
theorem operands_replays {operand : Parse Expr}
    {operands' : (Position → Position) → Nat → Parse Expr} {l : Nat}
    (hoperand : Replays o (fun _ => True) (l + 2) Closed Expr.relocate operand operands')
    (k : Nat) (left : Expr) : Replays o (fun _ => True) (l + 3) Rounded Expr.relocate
      (operands o l operand k left)
      (fun f limit => operands (o.within limit) l (operands' f limit) k (left.relocate f)) := by
  induction k generalizing left with
  | zero => exact .never refuses_exhausted
  | succ k ih =>
    have hnullish : ∀ limit, (o.within limit).nullish = o.nullish := fun _ => rfl
    simp only [operands, hnullish]
    refine .peek fun t _ => ?_
    cases hop : BinaryOp.atLevel? l t.kind with
    | some op =>
      refine .inl ?_
      have hinner := inner_of_atLevel? (t := t) (by rw [hop]; rfl)
      dsimp only
      split
      · exact .never (refuses_disabled _)
      · refine .read (fun _ ht => ht ▸ hinner) (hoperand.andMaybe (Nat.le_succ _) fun right => ?_)
        have hnext := ih (.binary left.position op left right)
        simp only [Expr.relocate, Expr.position_relocate] at hnext ⊢
        exact hnext
    | none =>
      refine .inr ⟨left, rfl, fun k hk f limit => ?_⟩
      rcases hk with rfl | hstops
      · rw [hop]
      · rw [atLevel?_of_stops hstops]

theorem level_replays (n l : Nat) : Replays o (fun _ => True) (l + 3) Closed Expr.relocate
    (level o expr n l) (fun f limit => level (o.within limit) (exprs f limit) n l) := by
  induction l with
  | zero => exact power_replays hexpr n n
  | succ l ih =>
    simp only [level]
    exact ih.andMaybe (Nat.le_succ _) fun left => operands_replays ih n left

theorem conditional_replays (n : Nat) : Replays o (fun _ => True) 15 Closed Expr.relocate
    (conditional o expr n) (fun f limit => conditional (o.within limit) (exprs f limit) n) := by
  refine (level_replays hexpr n BinaryOp.loosest).andMaybe (Nat.le_succ 14) fun condition =>
    .looksBehind fun t _ => ?_
  by_cases hquestion : t.kind.isSymbol .question = true
  · refine .inl ?_
    simp only [hquestion, if_true, Expr.position_relocate]
    refine .current ?_
    rintro t rfl
    refine .read (inner_of_eq hquestion) ?_
    refine hexpr.anywhere.andThen fun consequent =>
      .looksAt fun t _ => ?_
    split
    · rename_i hcolon
      refine .read (inner_of_eq hcolon) (hexpr.andReturn fun f _ _ => ?_)
      rw [Expr.relocate]
    · refine .currentKind ?_
      rintro ⟨kind, lexeme, position, quoted, raw⟩ -
      dsimp only
      split
      · exact .never (refuses_notClosed _ _)
      · exact .never (refuses_notClosed _ _)
      · exact .never (refuses_notClosed _ _)
      · exact .never (refuses_unexpected _)
  · refine .inr ⟨condition, if_neg hquestion, fun k hk f limit => if_neg ?_⟩
    rcases hk with rfl | hstops
    · exact hquestion
    · rw [not_question_of_stops hstops]
      exact Bool.false_ne_true

end Nested

/-- **Expressions are read alike wherever they stand.** -/
theorem expression_replays (n k : Nat) : Replays o (fun _ => True) 15 Closed Expr.relocate
    (expression o n k) (fun _ limit => expression (o.within limit) n k) := by
  induction k with
  | zero => exact .never refuses_exhausted
  | succ k ih =>
    simp only [expression]
    exact (conditional_replays ih n).nested

end Grammar

end Parse

end PipeExpr
