import PipeExpr.Proofs.Climbing

/-!
# Reading printed expressions

**Each construct of the grammar is read as it was printed** (`Parse.printed`), if its parts are.  There
is one lemma for each kind of node: it says how the lexemes of the node are read, on the row of the node,
from what its parts are read as, each in its place.  Steps of access and binary operators are turns of a
loop; prefix operators, powers and conditionals call their own reader again, one level deeper.
-/

namespace PipeExpr

namespace Parse

/-! ## Lists -/

theorem isSymbol_self (s : Symbol) : (TokenKind.symbol s).isSymbol s = true := beq_self_eq_true s

/-- What closes a bracket is neither a comma nor a part of an item. -/
theorem closing_ends {bracket : Bracket} (h : bracket ≠ .question) :
    starts (.symbol bracket.closing) = false ∧ Stops 15 (.symbol bracket.closing) ∧
      (TokenKind.symbol bracket.closing).isSymbol .comma = false := by
  cases bracket with
  | question => exact absurd rfl h
  | _ => exact ⟨rfl, by decide, rfl⟩

/-- A row of printed items is an item in front of the closing bracket, or in front of a comma with other
items behind it. -/
theorem commas_cons (closing : Lexeme) (k : TokenKind) (ls : List Lexeme) {rest : List (List Lexeme)}
    (hrest : ∀ ls ∈ rest, Begins ls) :
    (rest = [] ∧ commas (ls :: rest) ++ [closing] = ls ++ [closing]) ∨
      (commas (ls :: rest) ++ [closing] = ls ++ .symbol .comma :: (commas rest ++ [closing]) ∧
        starts (headKind (commas rest ++ [closing]) k) = true) := by
  match rest, hrest with
  | [], _ => exact .inl ⟨rfl, rfl⟩
  | ls₁ :: rest, hrest =>
    refine .inr ⟨by simp [commas], ?_⟩
    obtain ⟨l, ls', rfl, hl⟩ := hrest ls₁ (List.mem_cons_self ..)
    cases rest <;> exact hl

/-- Items with commas between them, up to the closing bracket. -/
theorem reads_listItems {α ξ : Type} {bracket : Bracket} (hbracket : bracket ≠ .question)
    {opened : Position} {item : Parse α} {d : Nat} {row : ξ → List Lexeme} {V : ξ → α → Prop}
    {k : TokenKind} :
    ∀ (xs : List ξ) (turns : Nat) (before : List α), xs.length < turns →
      (∀ x ∈ xs, Begins (row x) ∧ ∀ k, Stops 15 k → Reads item d (row x) k (V x)) →
      Reads (listItems bracket opened item turns before) d
        (commas (xs.map row) ++ [.symbol bracket.closing]) k
        fun vs => ∃ after, vs = before.reverse ++ after ∧ List.Forall₂ V xs after := by
  obtain ⟨hclosing, hends, hcomma⟩ := closing_ends hbracket
  intro xs
  induction xs with
  | nil =>
    intro turns before hturns _
    obtain ⟨turns, rfl⟩ : ∃ t, turns = t + 1 := ⟨turns - 1, by omega⟩
    show Reads (listItems bracket opened item (turns + 1) before) d [.symbol bracket.closing] k _
    unfold listItems
    refine .looksAt ?_
    rw [headKind_symbol, isSymbol_self, if_pos rfl]
    exact .advance (.pure ⟨[], (List.append_nil _).symm, .nil⟩)
  | cons x xs ih =>
    intro turns before hturns hxs
    obtain ⟨turns, rfl⟩ : ∃ t, turns = t + 1 := ⟨turns - 1, by omega⟩
    rw [List.length_cons] at hturns
    obtain ⟨⟨hbegins, hitem⟩, hrest⟩ := List.forall_mem_cons.mp hxs
    have hmore : ∀ v, V x v → Reads (listItems bracket opened item turns (v :: before)) d
        (commas (xs.map row) ++ [.symbol bracket.closing]) k fun vs => ∃ after,
          vs = before.reverse ++ after ∧ List.Forall₂ V (x :: xs) after := by
      intro v hv
      refine (ih turns (v :: before) (by omega) hrest).mono ?_
      rintro vs ⟨after, rfl, hafter⟩
      exact ⟨v :: after, by simp, .cons hv hafter⟩
    have hfirsts : ∀ ls ∈ xs.map row, Begins ls := by
      intro ls hls
      obtain ⟨y, hy, rfl⟩ := List.mem_map.mp hls
      exact (hrest y hy).1
    unfold listItems
    rw [List.map_cons]
    rcases commas_cons (.symbol bracket.closing) k (row x) hfirsts with
      ⟨hnil, hrow⟩ | ⟨hrow, hnext⟩
    all_goals
      rw [hrow]
      refine .looksAt ?_
      rw [isSymbol_of_starts (hbegins.headKind _ k) hclosing, if_neg Bool.false_ne_true]
      refine .looksAt ?_
      rw [isSymbol_of_starts (hbegins.headKind _ k) rfl, if_neg Bool.false_ne_true]
      refine .currentKind ?_
      rw [isEof_of_starts (hbegins.headKind _ k), if_neg Bool.false_ne_true]
    -- the last item
    · refine .bind (hitem _ hends) fun v hv => .looksAt ?_
      rw [headKind_symbol, hcomma, if_neg Bool.false_ne_true]
      refine .looksAt ?_
      rw [headKind_symbol, isSymbol_self, if_pos rfl]
      have hlast := hmore v hv
      rw [hnil] at hlast
      exact hlast
    -- an item in front of a comma
    · have hstops : Stops 15 (.symbol .comma) := by decide
      refine .bind (hitem _ hstops) fun v hv => .looksAt ?_
      rw [headKind_symbol, isSymbol_self, if_pos rfl]
      refine .current fun t _ => .advance (.looksAt ?_)
      rw [isSymbol_of_starts hnext hclosing, if_neg Bool.false_ne_true]
      exact hmore v hv

/-- A row is not shorter than what it is made of. -/
theorem length_le_commas {ls : List Lexeme} {rows : List (List Lexeme)} (h : ls ∈ rows) :
    ls.length ≤ (commas rows).length := by
  induction rows with
  | nil => exact absurd h List.not_mem_nil
  | cons first rest ih =>
    cases rest with
    | nil => exact Nat.le_of_eq (congrArg List.length (List.mem_singleton.mp h))
    | cons second rest =>
      have hcommas : commas (first :: second :: rest) =
        first ++ .symbol .comma :: commas (second :: rest) := rfl
      rw [hcommas, List.length_append, List.length_cons]
      rcases List.mem_cons.mp h with rfl | h
      · omega
      · have := ih h
        omega

/-- Each item of a row has a token. -/
theorem length_le_length_commas {rows : List (List Lexeme)} (h : ∀ ls ∈ rows, Begins ls) :
    rows.length ≤ (commas rows).length := by
  induction rows with
  | nil => exact Nat.le_refl 0
  | cons first rest ih =>
    cases rest with
    | nil =>
      obtain ⟨l, ls, rfl, _⟩ := h first (List.mem_cons_self ..)
      exact Nat.succ_le_succ (Nat.zero_le _)
    | cons second rest =>
      have hrest := ih fun ls hls => h ls (List.mem_cons_of_mem _ hls)
      have hcommas : commas (first :: second :: rest) =
        first ++ .symbol .comma :: commas (second :: rest) := rfl
      simp only [hcommas, List.length_append, List.length_cons] at hrest ⊢
      omega

/-- **A list of printed items**, up to the bracket that closes it. -/
theorem reads_items {α ξ : Type} {o : Options} {bracket : Bracket} (hbracket : bracket ≠ .question)
    {opened : Position} {item : Parse α} {d n fuel length : Nat} {row : ξ → List Lexeme}
    {V : ξ → α → Prop} {k : TokenKind} {xs : List ξ} (hroom : Room o d n fuel length)
    (hlt : (commas (xs.map row)).length < length) (hbegins : ∀ x ∈ xs, Begins (row x))
    (hxs : ∀ x ∈ xs, (row x).length < length → ∀ k, Stops 15 k → Reads item d (row x) k (V x)) :
    Reads (listItems bracket opened item n []) d (commas (xs.map row) ++ [.symbol bracket.closing]) k
      (List.Forall₂ V xs) := by
  have hlength := length_le_length_commas (List.forall_mem_map.mpr hbegins)
  have hturns := hroom.turns
  rw [List.length_map] at hlength
  refine (reads_listItems (V := V) hbracket xs n [] (by omega) fun x hx => ⟨hbegins x hx, ?_⟩).mono ?_
  · have hle := length_le_commas (List.mem_map_of_mem (f := row) hx)
    exact hxs x hx (by omega)
  · rintro vs ⟨after, rfl, hafter⟩
    exact hafter

/-! ## Primaries -/

section Primaries
variable {o : Options}

/-- What `primary` reads is an operand in front of the table. -/
theorem Operand.of_primary {ls : List Lexeme} {e : Expr}
    (h : ∀ d n fuel k, Room o d n fuel ls.length →
      Reads (primary o (expression o n fuel) n) d ls k (Same e))
    (hfirst : ∃ l ls', ls = l :: ls' ∧ starts l.kind = true ∧ UnaryOp.ofKind? l.kind = none) :
    Operand o 0 ls e := by
  refine .of_row (fun d n g fuel k hroom _ _ => h d n fuel k hroom) (fun hloops => ?_)
    (hfirst.imp fun _ => Exists.imp fun _ hl => ⟨hl.1, hl.2.1, fun _ => hl.2.2⟩)
  rcases hloops with hloops | hloops <;> omega

/-- A literal or a name: its token alone makes an expression. -/
theorem printed_token {l : Lexeme} {e : Expr} {k : TokenKind} (hkind : l.kind = k) (hrank : e.rank = 0)
    (hstarts : starts k = true) (hunary : UnaryOp.ofKind? k = none) (f : Token → Expr)
    (hf : ∀ t, Same e (f t)) (h : ∀ expr n, ∃ body, primary o expr n = Parse.current >>= body ∧
      ∀ t, t.kind = k → body t = do Parse.advance; return f t) : Printed o [l] e := by
  subst hkind
  have hoperand : Operand o 0 [l] e := by
    refine .of_primary (fun d n fuel k _ => ?_) ⟨l, [], rfl, hstarts, hunary⟩
    obtain ⟨body, hprimary, hbody⟩ := h (expression o n fuel) n
    rw [hprimary]
    refine .current fun t ht => ?_
    rw [hbody t (congrArg Lexeme.kind ht)]
    exact .advance (.pure (hf t))
  exact hoperand.printed hrank (Nat.zero_le _)

theorem printed_number (σ : Spelling) (pos : Position) (x : Float) :
    Printed o [σ.lexeme x] (.number pos x) :=
  printed_token (k := .number x) rfl rfl rfl rfl (fun t => .number t.position x) (fun _ => rfl)
    fun expr n => ⟨_, rfl, fun t ht => by simp only [ht]⟩

theorem printed_string (pos : Position) (s : String) (style : LiteralStyle) :
    Printed o [.string s] (.string pos s style) :=
  printed_token (k := .string s) rfl rfl rfl rfl
    (fun t => .string t.position s ⟨t.raw, t.singleQuoted⟩) (fun _ => rfl)
    fun expr n => ⟨_, rfl, fun t ht => by simp only [ht]⟩

theorem printed_boolean (pos : Position) (b : Bool) :
    Printed o [.word (if b then "true" else "false")] (.boolean pos b) :=
  printed_token (k := .boolean b) (by cases b <;> rfl) rfl rfl rfl (fun t => .boolean t.position b)
    (fun _ => rfl) fun expr n => ⟨_, rfl, fun t ht => by simp only [ht]⟩

theorem printed_null (pos : Position) : Printed o [.word "null"] (.null pos) :=
  printed_token (k := .null) rfl rfl rfl rfl (fun t => .null t.position) (fun _ => rfl)
    fun expr n => ⟨_, rfl, fun t ht => by simp only [ht]⟩

theorem printed_name (pos : Position) {name : String} (h : IsName name) :
    Printed o [.word name] (.reference pos name false) :=
  printed_token (wordKind_of_name h) rfl rfl rfl (fun t => .reference t.position name false)
    (fun _ => rfl) fun expr n => ⟨_, rfl, fun t ht => by simp only [ht]⟩

theorem printed_optionalName (hchaining : o.chaining = true) (pos : Position) {name : String}
    (h : IsName name) : Printed o [.dot true, .word name] (.reference pos name true) := by
  have hword : (Lexeme.word name).kind = .identifier name := wordKind_of_name h
  have hoperand : Operand o 0 [.dot true, .word name] (.reference pos name true) := by
    refine .of_primary (fun d n fuel k _ => ?_) ⟨_, _, rfl, rfl, rfl⟩
    unfold primary
    refine .current fun t ht => ?_
    have hkind : t.kind = .symbol .questionDot := congrArg Lexeme.kind ht
    simp only [hkind]
    unfold leadingDot
    rw [hchaining, if_neg (by decide)]
    refine .advance (.currentKind ?_)
    rw [headKind_cons, hword]
    exact .advance (.pure rfl)
  exact hoperand.printed rfl (Nat.zero_le _)

theorem Same.items {items vs : List Expr} (h : List.Forall₂ Same items vs) :
    Expr.bareItems vs = Expr.bareItems items := by
  induction h with
  | nil => rfl
  | cons hv _ ih => exact congrArg₂ List.cons hv ih

theorem Same.entries {entries vs : List (String × Expr)}
    (h : List.Forall₂ (fun x v => v.1 = x.1 ∧ Same x.2 v.2) entries vs) :
    Expr.bareEntries vs = Expr.bareEntries entries := by
  induction h with
  | nil => rfl
  | cons hv _ ih =>
    obtain ⟨hkey, he⟩ := hv
    exact congrArg₂ List.cons (congrArg₂ Prod.mk hkey he) ih

/-- The items of an array or of a call. -/
theorem reads_expressions {σ : Spelling} (bracket : Bracket) (hbracket : bracket ≠ .question)
    (opened : Position) {items : List Expr} (hitems : ∀ e ∈ items, Printed o (e.lexemes σ) e)
    {d n fuel length : Nat} (hroom : Room o d n fuel length)
    (hlt : (commas (Expr.lexemesItems σ items)).length < length) (k : TokenKind) :
    Reads (listItems bracket opened (expression o n fuel) n []) d
      (commas (Expr.lexemesItems σ items) ++ [.symbol bracket.closing]) k
      fun vs => Expr.bareItems vs = Expr.bareItems items := by
  rw [Expr.lexemesItems_eq_map] at hlt ⊢
  refine (reads_items (V := Same) hbracket hroom hlt (fun e he => (hitems e he).begins) ?_).mono
    fun vs => Same.items
  exact fun e he hlt => ((hitems e he).inside hroom hlt).reads

theorem printed_array {σ : Spelling} (pos : Position) {items : List Expr}
    (h : ∀ e ∈ items, Printed o (e.lexemes σ) e) :
    Printed o (.symbol .leftBracket :: (commas (Expr.lexemesItems σ items) ++ [.symbol .rightBracket]))
      (.array pos items) := by
  refine (Operand.of_primary (fun d n fuel k hroom => ?_) ⟨_, _, rfl, rfl, rfl⟩).printed rfl
    (Nat.zero_le _)
  have hlist := fun opened => reads_expressions .square (by decide) opened h hroom
    (by rw [List.length_cons, List.length_append]; omega) k
  unfold primary
  refine .current fun t ht => ?_
  have hkind : t.kind = .symbol .leftBracket := congrArg Lexeme.kind ht
  simp only [hkind]
  exact .advance (.bind_last (hlist _) fun vs hvs => .pure (congrArg (Expr.array .start) hvs))

/-- A key with an expression behind it. -/
theorem reads_entry {expr : Parse Expr} {d : Nat} {key : String} {ls : List Lexeme} {e : Expr}
    {k : TokenKind} (h : Reads expr d ls k (Same e)) :
    Reads (objectEntry expr) d (.string key :: .symbol .colon :: ls) k
      fun v => v.1 = key ∧ Same e v.2 := by
  unfold objectEntry
  refine .current fun t ht => ?_
  have hkey : objectKey? t = some key := by
    have hkind : t.kind = .string key := congrArg Lexeme.kind ht
    unfold objectKey?
    rw [hkind]
  rw [hkey]
  refine .advance (.looksAt ?_)
  rw [headKind_symbol, isSymbol_self, if_pos rfl]
  exact .advance (.bind_last h fun v hv => .pure ⟨rfl, hv⟩)

theorem printed_object {σ : Spelling} (pos : Position) {entries : List (String × Expr)}
    (h : ∀ x ∈ entries, Printed o (x.2.lexemes σ) x.2) :
    Printed o (.symbol .leftBrace :: (commas (Expr.lexemesEntries σ entries) ++ [.symbol .rightBrace]))
      (.object pos entries) := by
  refine (Operand.of_primary (fun d n fuel k hroom => ?_) ⟨_, _, rfl, rfl, rfl⟩).printed rfl
    (Nat.zero_le _)
  rw [Expr.lexemesEntries_eq_map] at hroom ⊢
  have hlist : ∀ opened, Reads (listItems .brace opened (objectEntry (expression o n fuel)) n []) d
      (commas (entries.map fun x => .string x.1 :: .symbol .colon :: x.2.lexemes σ) ++
        [.symbol .rightBrace]) k fun vs => Expr.bareEntries vs = Expr.bareEntries entries := by
    refine fun opened => (reads_items (V := fun x v => v.1 = x.1 ∧ Same x.2 v.2) (by decide) hroom
      (by rw [List.length_cons, List.length_append]; omega) (fun x _ => ⟨_, _, rfl, rfl⟩) ?_).mono
      fun vs => Same.entries
    intro x hx hlt k hk
    rw [List.length_cons, List.length_cons] at hlt
    exact reads_entry (((h x hx).inside hroom (by omega)).reads k hk)
  unfold primary
  refine .current fun t ht => ?_
  have hkind : t.kind = .symbol .leftBrace := congrArg Lexeme.kind ht
  simp only [hkind]
  exact .advance (.bind_last (hlist _) fun vs hvs =>
    .pure (congrArg (Expr.object .start) hvs))

end Primaries

/-! ## Prefix operators -/

theorem ofKind?_symbol (op : UnaryOp) : UnaryOp.ofKind? (.symbol op.symbol) = some op := by
  cases op <;> rfl

theorem starts_symbol (op : UnaryOp) : starts (.symbol op.symbol) = true := by
  cases op <;> rfl

section Operators
variable {o : Options}

theorem printed_unary (pos : Position) (op : UnaryOp) {ls : List Lexeme} {e : Expr}
    (h : Operand o 2 ls e) : Printed o (.symbol op.symbol :: ls) (.unary pos op e) := by
  have hoperand : Operand o 2 (.symbol op.symbol :: ls) (.unary pos op e) := by
    refine .of_row (fun d n g fuel k hroom hg hk => ?_) (fun hloops => ?_)
      ⟨_, _, rfl, starts_symbol op, fun hr => absurd hr (by decide)⟩
    · obtain ⟨g, rfl⟩ : ∃ g', g = g' + 1 := ⟨g - 1, by rw [List.length_cons] at hg; omega⟩
      obtain ⟨l, ls', hls, _⟩ := h.first
      have hlength := congrArg List.length hls
      obtain ⟨hdepth, hfuel, hturns⟩ := hroom
      rw [List.length_cons] at hlength hdepth hfuel hturns hg
      show Reads (prefixed o (expression o n fuel) n (g + 1)) d _ k _
      unfold prefixed
      refine .current fun t ht => ?_
      have hkind : t.kind = .symbol op.symbol := congrArg Lexeme.kind ht
      rw [hkind, ofKind?_symbol]
      have hdeeper := h.reads 2 (d + 1) n g fuel k (Nat.le_refl 2) (by decide)
        ⟨by omega, by omega, by omega⟩ (by omega) hk
      exact .advance (.bind_last (.nested (by omega) hdeeper) fun v hv =>
        .pure (congrArg (Expr.unary .start op) hv))
    · rcases hloops with hloops | hloops <;> omega
  exact hoperand.printed rfl (by decide)

/-! ## Binary operators -/

theorem printed_power (pos : Position) {s : Symbol} (hs : BinaryOp.ofSymbol? s = some .power)
    {ls₁ ls₂ : List Lexeme} {left right : Expr}
    (hl : Operand o 2 ls₁ left) (hr : Operand o 3 ls₂ right) :
    Printed o (ls₁ ++ .symbol s :: ls₂) (.binary pos .power left right) := by
  have hoperand : Operand o 3 (ls₁ ++ .symbol s :: ls₂)
      (.binary pos .power left right) := by
    obtain ⟨l₁, ls₁', hls₁, hstarts, _⟩ := hl.first
    refine .of_row (fun d n g fuel k hroom hg hk => ?_) (fun hloops => ?_)
      ⟨l₁, _, by rw [hls₁]; rfl, hstarts, fun hr => absurd hr (by decide)⟩
    · obtain ⟨l₂, ls₂', hls₂, _⟩ := hr.first
      have hlength₁ := congrArg List.length hls₁
      have hlength₂ := congrArg List.length hls₂
      rw [List.length_append, List.length_cons] at hroom hg
      obtain ⟨hdepth, hfuel, hturns⟩ := hroom
      rw [List.length_cons] at hlength₁ hlength₂
      obtain ⟨g, rfl⟩ : ∃ g', g = g' + 1 := ⟨g - 1, by omega⟩
      show Reads (power o (expression o n fuel) n (g + 1)) d _ k _
      unfold power
      have hstops : Stops 2 (.symbol s) := by
        unfold Stops
        rw [row_of_ofSymbol? hs]
        decide
      have hbase := hl.reads 2 d n n fuel _ (Nat.le_refl 2) (by decide) ⟨by omega, by omega, by omega⟩
        (by omega) hstops
      have hexponent := hr.reads 3 (d + 1) n g fuel k (Nat.le_refl 3) (by decide)
        ⟨by omega, by omega, by omega⟩ (by omega) hk
      refine .bind hbase fun v hv => .currentKind ?_
      rw [headKind_symbol, show (0 : Nat) = BinaryOp.power.level from rfl, atLevel?_of_ofSymbol? hs,
        if_pos (by rfl)]
      exact .advance (.bind_last (.nested (by omega) hexponent) fun w hw =>
        .pure (congrArg₂ (Expr.binary .start .power) hv hw))
    · rcases hloops with hloops | hloops <;> omega
  exact hoperand.printed rfl (by decide)

theorem printed_binary (hnullish : o.nullish = true) (pos : Position) {op : BinaryOp} (hop : op ≠ .power)
    {s : Symbol} (hs : BinaryOp.ofSymbol? s = some op) {ls₁ ls₂ : List Lexeme} {left right : Expr}
    (hl : Operand o op.rank ls₁ left)
    (hr : Operand o (op.rank - 1) ls₂ right) :
    Printed o (ls₁ ++ .symbol s :: ls₂) (.binary pos op left right) := by
  obtain ⟨l, hlevel⟩ : ∃ l, op.level = l + 1 := by
    cases op with
    | power => exact absurd rfl hop
    | _ => exact ⟨_, rfl⟩
  have hrank : op.rank = l + 4 := by rw [op.rank_eq_level, hlevel]
  have hloosest : op.rank ≤ 14 := op.rank_le
  rw [hrank] at hl hr hloosest
  have hoperand : Operand o (l + 4) (ls₁ ++ .symbol s :: ls₂) (.binary pos op left right) := by
    refine hl.extend (.inr (by omega)) hloosest (List.cons_ne_nil _ _) (fun ls' k => ?_)
      fun d n fuel hroom j ls' k W v hk hv hgoes => ?_
    · show l + 3 < (TokenKind.symbol s).row
      rw [row_of_ofSymbol? hs, hrank]
      omega
    · rw [List.length_append, List.length_cons] at hroom
      have hright := hr.reads (l + 3) d n n fuel _ (Nat.le_refl _) (by omega)
        (hroom.mono (by omega)) (by have := hroom.turns; omega) hk
      have hreader : reader o (expression o n fuel) n n (l + 3) = level o (expression o n fuel) n l := by
        cases l <;> rfl
      rw [hreader] at hright
      show Reads (operands o (l + 1) (level o (expression o n fuel) n l) (j + 1) v) d
        (.symbol s :: (ls₂ ++ ls')) k W
      unfold operands
      refine .currentKind ?_
      rw [headKind_symbol, ← hlevel, atLevel?_of_ofSymbol? hs]
      simp only [hnullish, Bool.not_true, Bool.and_false, Bool.false_eq_true, if_false]
      refine .advance (.bind hright fun w hw => ?_)
      rw [hlevel]
      exact hgoes _ (congrArg₂ (Expr.binary .start op) hv hw)
  exact hoperand.printed hrank hloosest

/-! ## The conditional -/

theorem printed_conditional (pos : Position) {ls₁ ls₂ ls₃ : List Lexeme}
    {condition consequent alternate : Expr} (hc : Operand o 14 ls₁ condition)
    (ht : Whole o ls₂ consequent) (hf : Whole o ls₃ alternate) :
    Printed o (ls₁ ++ .symbol .question :: (ls₂ ++ .symbol .colon :: ls₃))
      (.conditional pos condition consequent alternate) := by
  obtain ⟨l, ls', hls, hstarts, _⟩ := hc.first
  refine ⟨⟨l, _, by rw [hls]; rfl, hstarts⟩, fun hrank => absurd hrank (show ¬ 15 ≤ 14 by decide), ?_⟩
  intro d n fuel k hdepth hfuel hturns hk
  have hlength := congrArg List.length hls
  rw [List.length_append, List.length_cons, List.length_append, List.length_cons] at hdepth hfuel hturns
  rw [List.length_cons] at hlength
  obtain ⟨fuel, rfl⟩ : ∃ f, fuel = f + 1 := ⟨fuel - 1, by omega⟩
  have hquestion : Stops 14 (.symbol .question) := by decide
  have hcolon : Stops 15 (.symbol .colon) := by decide
  have hcondition := hc.reads 14 (d + 1) n n fuel _ (Nat.le_refl 14) (Nat.le_refl 14)
    ⟨by omega, by omega, by omega⟩ (by omega) hquestion
  have hconsequent := ht (d + 1) n fuel _ (by omega) (by omega) (by omega) hcolon
  have halternate := hf (d + 1) n fuel k (by omega) (by omega) (by omega) hk
  refine .nested (by omega) ?_
  unfold conditional
  refine .bind hcondition fun u hu => .looksAt ?_
  rw [headKind_symbol, isSymbol_self, if_pos rfl]
  refine .current fun t _ => .advance (.bind hconsequent fun v hv => .looksAt ?_)
  rw [headKind_symbol, isSymbol_self, if_pos rfl]
  refine .advance (.bind_last halternate fun w hw => .pure ?_)
  show Expr.conditional .start u.bare v.bare w.bare = _
  rw [hu, hv, hw]
  rfl

/-! ## Steps of access -/

/-- A step of access that a target and some lexemes make. -/
theorem printed_access {ls ls₁ : List Lexeme} {target e : Expr} (hrank : e.rank = 1)
    (h : Operand o 1 ls target) (hne : ls₁ ≠ [])
    (hstep : ∀ d n fuel, Room o d n fuel (ls.length + ls₁.length) → ∀ v k, Same target v →
      Reads (postfixStep o (expression o n fuel) n v) d ls₁ k fun r => ∃ w, r = some w ∧ Same e w) :
    Printed o (ls ++ ls₁) e := by
  have hoperand : Operand o 1 (ls ++ ls₁) e := by
    refine h.extend (.inl rfl) (by decide) hne (fun ls' k => stops_zero _)
      fun d n fuel hroom j ls' k W v _ hv hgoes => ?_
    rw [List.length_append] at hroom
    show Reads (postfixChain o (expression o n fuel) n (j + 1) v) d (ls₁ ++ ls') k W
    unfold postfixChain
    refine .bind (hstep d n fuel hroom v _ hv) ?_
    rintro _ ⟨w, rfl, hw⟩
    exact hgoes w hw
  exact hoperand.printed hrank (by decide)

theorem printed_call {σ : Spelling} (pos : Position) {ls : List Lexeme} {callee : Expr}
    {arguments : List Expr} (hcallable : callee.isCallable = true) (h : Operand o 1 ls callee)
    (harguments : ∀ e ∈ arguments, Printed o (e.lexemes σ) e) :
    Printed o (ls ++ .symbol .leftParen :: (commas (Expr.lexemesItems σ arguments) ++
      [.symbol .rightParen])) (.call pos callee arguments) := by
  refine printed_access rfl h (List.cons_ne_nil _ _) fun d n fuel hroom v k hv => ?_
  have hlist := fun opened => reads_expressions .paren (by decide) opened harguments hroom
    (by rw [List.length_cons, List.length_append]; omega) k
  have hsame : v.isCallable = true := by
    rw [← v.isCallable_bare, hv, callee.isCallable_bare, hcallable]
  unfold postfixStep
  refine .current fun t ht => ?_
  have hkind : t.kind = .symbol .leftParen := congrArg Lexeme.kind ht
  simp only [hkind, hsame, if_true]
  exact .advance (.bind_last (hlist _) fun vs hvs =>
    .pure ⟨_, rfl, congrArg₂ (Expr.call .start) hv hvs⟩)

theorem printed_member (hchaining : o.chaining = true) (pos : Position) {ls : List Lexeme} {target : Expr}
    (h : Operand o 1 ls target) {p : Property} (hp : p.Printable) (optional : Bool) :
    Printed o (ls ++ [.dot optional, p.lexeme]) (.member pos target p optional) := by
  refine printed_access rfl h (List.cons_ne_nil _ _) fun d n fuel hroom v k hv => ?_
  have hmember : Reads (member (expression o n fuel) v optional) d [p.lexeme] k
      (Same (.member pos target p optional)) := by
    unfold member
    refine .current fun t ht => ?_
    rw [property?_lexeme hp (congrArg Lexeme.kind ht) (congrArg Lexeme.text ht)]
    refine .advance (.pure ?_)
    show Expr.member .start v.bare p optional = _
    rw [hv]
    rfl
  unfold postfixStep
  refine .current fun t ht => ?_
  have hkind : t.kind = .symbol (if optional then .questionDot else .dot) := congrArg Lexeme.kind ht
  cases optional with
  | false =>
    simp only [hkind, Bool.false_eq_true, if_false]
    exact .advance (.map hmember fun w hw => ⟨w, rfl, hw⟩)
  | true =>
    simp only [hkind, if_true, hchaining]
    exact .advance (.map hmember fun w hw => ⟨w, rfl, hw⟩)

/-- The steps that start with a bracket. -/
theorem printed_brackets (hchaining : o.chaining = true) {ls ls₁ : List Lexeme} {target e : Expr}
    (hrank : e.rank = 1) (h : Operand o 1 ls target) (optional : Bool)
    (hbrackets : ∀ d n fuel, Room o d n fuel (ls.length + (ls₁.length + 1)) → ∀ v opened k,
      Same target v → Reads (brackets (expression o n fuel) v optional opened) d ls₁ k (Same e)) :
    Printed o (ls ++ .bracket optional :: ls₁) e := by
  refine printed_access hrank h (List.cons_ne_nil _ _) fun d n fuel hroom v k hv => ?_
  unfold postfixStep
  refine .current fun t ht => ?_
  have hkind : t.kind = .symbol (if optional then .questionBracket else .leftBracket) :=
    congrArg Lexeme.kind ht
  have hread := hbrackets d n fuel hroom v t.position k hv
  cases optional with
  | false =>
    simp only [hkind, Bool.false_eq_true, if_false]
    exact .advance (.map hread fun w hw => ⟨w, rfl, hw⟩)
  | true =>
    simp only [hkind, if_true, hchaining]
    exact .advance (.map hread fun w hw => ⟨w, rfl, hw⟩)

theorem printed_index (hchaining : o.chaining = true) (pos : Position) {ls ls₁ : List Lexeme}
    {target key : Expr} (h : Operand o 1 ls target) (hk : Printed o ls₁ key) (optional : Bool) :
    Printed o (ls ++ .bracket optional :: (ls₁ ++ [.symbol .rightBracket]))
      (.index pos target key optional) := by
  refine printed_brackets hchaining rfl h optional fun d n fuel hroom v opened k hv => ?_
  have hstops : Stops 15 (.symbol .rightBracket) := by decide
  have hkey := (hk.inside hroom (by rw [List.length_append]; omega)).reads _ hstops
  have hhead := hk.begins.headKind [.symbol .rightBracket] k
  unfold brackets
  refine .looksAt ?_
  rw [isSymbol_of_starts hhead rfl, if_neg Bool.false_ne_true]
  refine .looksAt ?_
  rw [isSymbol_of_starts hhead rfl, if_neg Bool.false_ne_true]
  refine .bind hkey fun w hw => .looksAt ?_
  rw [headKind_symbol, if_neg (by decide)]
  refine .bind_last (.close .square opened) fun _ _ => .pure ?_
  show Expr.index .start v.bare w.bare optional = _
  rw [hv, hw]
  rfl

section Slices
variable {σ : Spelling} {d : Nat} {expr : Parse Expr}

/-- The end of a slice, if it is not omitted. -/
theorem reads_sliceBound {β : Type} {f : Option Expr → Parse β} {c : Bool} {bound : Option Expr}
    {ls : List Lexeme} {k : TokenKind} {W : β → Prop} (hnone : bound = none → c = true)
    (hsome : ∀ e ∈ bound, c = false ∧ Reads expr d (e.lexemes σ) (headKind ls k) (Same e))
    (hf : ∀ r, r.map Expr.bare = bound.map Expr.bare → Reads (f r) d ls k W) :
    Reads (if c = true then (do let r ← pure none; f r) else (do let r ← some <$> expr; f r)) d
      (Expr.lexemesBound σ [] bound ++ ls) k W := by
  cases bound with
  | none =>
    rw [if_pos (hnone rfl)]
    exact .bind_first (.pure (V := (· = none)) rfl) fun r hr => hf r (by rw [hr])
  | some e =>
    obtain ⟨hc, hexpr⟩ := hsome e rfl
    have hread : Reads (some <$> expr) d (e.lexemes σ) (headKind ls k)
        fun r => r.map Expr.bare = some e.bare := hexpr.map fun v hv => congrArg some hv
    rw [if_neg (by rw [hc]; exact Bool.false_ne_true)]
    exact .bind hread hf

/-- The part of a slice behind its first colon. -/
theorem reads_sliceRest (pos : Position) {target v : Expr} {start start' stop step : Option Expr}
    (optional : Bool) (opened : Position) (hstop : ∀ e ∈ stop, Inside expr d (e.lexemes σ) e)
    (hstep : ∀ e ∈ step, Inside expr d (e.lexemes σ) e) (hv : Same target v)
    (hstart : start'.map Expr.bare = start.map Expr.bare) (k : TokenKind) :
    Reads (sliceRest expr v start' optional opened) d (Expr.lexemesBound σ [] stop ++
        (Expr.lexemesBound σ [.symbol .colon] step ++ [.symbol .rightBracket])) k
      (Same (.slice pos target start stop step optional)) := by
  have hbracket : Stops 15 (.symbol .rightBracket) := by decide
  have hcolon : Stops 15 (.symbol .colon) := by decide
  have hclose : ∀ stop' step', stop'.map Expr.bare = stop.map Expr.bare →
      step'.map Expr.bare = step.map Expr.bare → Reads (do
        close .square opened
        return Expr.slice v.position v start' stop' step' optional) d [.symbol .rightBracket] k
        (Same (.slice pos target start stop step optional)) := by
    intro stop' step' hstop' hstep'
    refine .bind_last (.close .square opened) fun _ _ => .pure ?_
    show Expr.slice .start v.bare (Expr.bareBound start') (Expr.bareBound stop') (Expr.bareBound step')
      optional = Expr.slice .start target.bare (Expr.bareBound start) (Expr.bareBound stop)
        (Expr.bareBound step) optional
    rw [hv]
    simp only [Expr.bareBound_eq_map, hstart, hstop', hstep']
  -- what stands behind the end: a colon or the bracket
  obtain ⟨ls, hls⟩ : ∃ ls, ls = Expr.lexemesBound σ [.symbol .colon] step ++ [.symbol .rightBracket] :=
    ⟨_, rfl⟩
  have hbehind : Stops 15 (headKind ls k) ∧
      ((headKind ls k).isSymbol .colon || (headKind ls k).isSymbol .rightBracket) = true := by
    subst hls
    cases step with
    | none => exact ⟨hbracket, rfl⟩
    | some e => exact ⟨hcolon, rfl⟩
  rw [← hls]
  unfold sliceRest
  refine .looksAt (.looksAt (reads_sliceBound ?_ (fun e he => ?_) fun stop' hstop' => .looksAt ?_))
  · rintro rfl
    exact hbehind.2
  · obtain rfl : stop = some e := he
    have hhead := (hstop e rfl).begins.headKind ls k
    refine ⟨?_, (hstop e rfl).reads _ hbehind.1⟩
    exact Bool.or_eq_false_iff.mpr ⟨isSymbol_of_starts hhead rfl, isSymbol_of_starts hhead rfl⟩
  · subst hls
    cases step with
    | none =>
      rw [show Expr.lexemesBound σ [.symbol .colon] none = [] from rfl, List.nil_append, headKind_symbol,
        if_neg (by decide)]
      exact .bind_first (.pure (V := (· = none)) rfl) fun step' hstep' =>
        hclose stop' step' hstop' (by rw [hstep'])
    | some e =>
      have hinside := hstep e rfl
      have hread : Reads (some <$> expr) d (e.lexemes σ) (.symbol .rightBracket)
          fun r => r.map Expr.bare = some e.bare :=
        (hinside.reads _ hbracket).map fun v hv => congrArg some hv
      rw [show Expr.lexemesBound σ [.symbol .colon] (some e) = .symbol .colon :: e.lexemes σ from rfl,
        List.cons_append, headKind_symbol, isSymbol_self, if_pos rfl]
      refine .advance (.looksAt ?_)
      rw [isSymbol_of_starts (hinside.begins.headKind _ k) rfl, if_neg Bool.false_ne_true]
      exact .bind hread fun step' hstep' => hclose stop' step' hstop' hstep'

theorem length_lexemesBound (front : List Lexeme) {bound : Option Expr} {e : Expr} (h : e ∈ bound) :
    (e.lexemes σ).length ≤ (Expr.lexemesBound σ front bound).length := by
  obtain rfl : bound = some e := h
  rw [Expr.lexemesBound, List.length_append]
  exact Nat.le_add_left _ _

theorem printed_slice (hchaining : o.chaining = true) (pos : Position) {ls : List Lexeme} {target : Expr}
    {start stop step : Option Expr} (h : Operand o 1 ls target)
    (hstart : ∀ e ∈ start, Printed o (e.lexemes σ) e) (hstop : ∀ e ∈ stop, Printed o (e.lexemes σ) e)
    (hstep : ∀ e ∈ step, Printed o (e.lexemes σ) e) (optional : Bool) :
    Printed o (ls ++ .bracket optional :: (Expr.lexemesBound σ [] start ++ .symbol .colon ::
        (Expr.lexemesBound σ [] stop ++ (Expr.lexemesBound σ [.symbol .colon] step ++
          [.symbol .rightBracket]))))
      (.slice pos target start stop step optional) := by
  refine printed_brackets hchaining rfl h optional fun d n fuel hroom v opened k hv => ?_
  simp only [List.length_append, List.length_cons] at hroom
  have hcolon : Stops 15 (.symbol .colon) := by decide
  have hrest : ∀ r : Option Expr, r.map Expr.bare = start.map Expr.bare →
      Reads (sliceRest (expression o n fuel) v r optional opened) d (Expr.lexemesBound σ [] stop ++
        (Expr.lexemesBound σ [.symbol .colon] step ++ [.symbol .rightBracket])) k
        (Same (.slice pos target start stop step optional)) := by
    refine fun r hr => reads_sliceRest pos optional opened (fun e he => ?_) (fun e he => ?_) hv hr k
    · have hle := length_lexemesBound (σ := σ) [] he
      exact (hstop e he).inside hroom (by omega)
    · have hle := length_lexemesBound (σ := σ) [.symbol .colon] he
      exact (hstep e he).inside hroom (by omega)
  unfold brackets
  cases start with
  | none =>
    show Reads _ d (.symbol .colon :: _) k _
    refine .looksAt ?_
    rw [headKind_symbol, if_neg (by decide)]
    refine .looksAt ?_
    rw [headKind_symbol, isSymbol_self, if_pos rfl]
    exact .advance (hrest none rfl)
  | some e =>
    have hle : (e.lexemes σ).length ≤ (Expr.lexemesBound σ [] (some e)).length :=
      length_lexemesBound [] rfl
    have hinside := (hstart e rfl).inside hroom (by omega)
    show Reads _ d (e.lexemes σ ++ .symbol .colon :: _) k _
    have hhead := fun ls => hinside.begins.headKind ls k
    refine .looksAt ?_
    rw [isSymbol_of_starts (hhead _) rfl, if_neg Bool.false_ne_true]
    refine .looksAt ?_
    rw [isSymbol_of_starts (hhead _) rfl, if_neg Bool.false_ne_true]
    refine .bind (hinside.reads _ hcolon) fun w hw => .looksAt ?_
    rw [headKind_symbol, isSymbol_self, if_pos rfl]
    exact .advance (hrest (some w) (congrArg some hw))

end Slices

end Operators

/-! ## All expressions -/

/-- **Every expression that has a text is read as it was printed**, wherever it may stand. -/
theorem printed {o : Options} (σ : Spelling) (hnullish : o.nullish = true) (hchaining : o.chaining = true)
    {e : Expr} (h : e.Plain) : Printed o (e.lexemes σ) e := by
  induction h with
  | number pos _ => exact printed_number σ pos _
  | string pos s style => exact printed_string pos s style
  | boolean pos b => exact printed_boolean pos b
  | null pos => exact printed_null pos
  | reference pos optional hname =>
    cases optional with
    | false => exact printed_name pos hname
    | true => exact printed_optionalName hchaining pos hname
  | unary pos op _ ih => exact printed_unary pos op (ih.enclose (by decide))
  | @binary pos op left right _ _ ihl ihr =>
    have hloosest : op.rank ≤ 14 := op.rank_le
    by_cases hop : op = .power
    · subst hop
      exact printed_power pos (σ.ofSymbol? _) (ihl.enclose (by decide)) (ihr.enclose (by decide))
    · have hleft : op.leftLimit = op.rank := by
        cases op with
        | power => exact absurd rfl hop
        | _ => rfl
      have hright : op.rightLimit = op.rank - 1 := by
        cases op with
        | power => exact absurd rfl hop
        | _ => rfl
      unfold Expr.lexemes
      rw [hleft, hright]
      exact printed_binary hnullish pos hop (σ.ofSymbol? op) (ihl.enclose hloosest) (ihr.enclose (by omega))
  | conditional pos _ _ _ ihc iht ihf =>
    exact printed_conditional pos (ihc.enclose (Nat.le_refl 14)) iht.whole ihf.whole
  | array pos _ ih => exact printed_array pos ih
  | object pos _ ih => exact printed_object pos ih
  | call pos hcallable _ _ ihcallee ih => exact printed_call pos hcallable (ihcallee.enclose (by decide)) ih
  | member pos optional _ hp ih =>
    exact printed_member hchaining pos (ih.enclose (by decide)) hp optional
  | index pos optional _ _ ih ihk =>
    exact printed_index hchaining pos (ih.enclose (by decide)) ihk optional
  | slice pos optional _ _ _ _ ih ihstart ihstop ihstep =>
    exact printed_slice hchaining pos (ih.enclose (by decide)) ihstart ihstop ihstep optional

end Parse

end PipeExpr
