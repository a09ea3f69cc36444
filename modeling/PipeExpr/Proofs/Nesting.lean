import PipeExpr.Proofs.Cutoff

/-!
# Nesting

Three constructs of the grammar call themselves without a loop: expressions, operands behind a prefix operator,
and exponents.  A counter keeps them from getting too deep, and two things have to hold for that.  A reader
gives the counter back as it was, whatever happens below.  And a reader that is entered with `k` levels left
makes do with `k` levels.

The second is said by a reader that has no choice (`Recursion.within`).  It is given its levels beforehand and
goes down one of them for each call, **by recursion on the levels**, so it cannot be nested deeper; and each of
its bodies does anything at all unless the counter says that as many levels are left as it has.  The reader of
the language does the same (`within_covers`).

Both are shown in one pass over the grammar, for two readers of the same construct (`Returns`): from a state
they come to the same state with the same result, at the depth where they started, without having passed the
end of the source, and without running out of turns.
-/

namespace PipeExpr

namespace Parse

/-! ## States behind a state -/

/-- **What a reader leaves as it was**: the depth, the ending, and the tokens that it has not passed.  The end of
the source is never passed. -/
structure Onward (s s' : State) : Prop where
  depth : s'.depth = s.depth
  ending : s'.ending = s.ending
  passed : ∃ taken, s.rest = taken ++ s'.rest ∧ ∀ t ∈ taken, t.kind.isEof = false

section States
variable {s s' s'' : State}

theorem Onward.refl (s : State) : Onward s s := ⟨rfl, rfl, [], rfl, fun _ h => nomatch h⟩

theorem Onward.trans (h : Onward s s') (h' : Onward s' s'') : Onward s s'' := by
  obtain ⟨taken, hrest, htaken⟩ := h.passed
  obtain ⟨taken', hrest', htaken'⟩ := h'.passed
  refine ⟨h'.depth.trans h.depth, h'.ending.trans h.ending, taken ++ taken', ?_, fun t ht => ?_⟩
  · rw [hrest, hrest', List.append_assoc]
  · exact (List.mem_append.mp ht).elim (htaken t) (htaken' t)

theorem Onward.length_le (h : Onward s s') : s'.rest.length ≤ s.rest.length := by
  obtain ⟨taken, hrest, _⟩ := h.passed
  rw [hrest, List.length_append]
  omega

theorem Onward.record (s : State) (d : Diagnostic) : Onward s (s.record d) := by
  obtain ⟨hrest, hending, hdepth⟩ := s.record_fields d
  exact ⟨hdepth, hending, [], hrest.symm, fun _ h => nomatch h⟩

/-- Whatever is in front of a reader, but the end, is a token. -/
theorem rest_eq_cons (h : s.current.kind.isEof = false) : ∃ rest, s.rest = s.current :: rest := by
  cases hrest : s.rest with
  | cons t rest => exact ⟨rest, by rw [State.current_of_cons hrest]⟩
  | nil => rw [State.current_of_nil hrest] at h; cases h

theorem Onward.advance (h : s.current.kind.isEof = false) :
    Onward s s.advance ∧ s.rest = s.current :: s.advance.rest := by
  obtain ⟨rest, hrest⟩ := rest_eq_cons h
  have hmove : s.advance = s.moveTo rest := by
    rw [s.advance_eq, hrest]
    rfl
  obtain ⟨hmoved, hending, hdepth⟩ := s.moveTo_fields rest
  rw [hmove]
  have hcons : s.rest = s.current :: (s.moveTo rest).rest := by rw [hmoved, hrest]
  refine ⟨⟨hdepth, hending, [s.current], hcons, fun t ht => ?_⟩, hcons⟩
  rw [List.mem_singleton.mp ht]
  exact h

theorem isEof_of_isSymbol {k : TokenKind} {sym : Symbol} (h : k.isSymbol sym = true) : k.isEof = false := by
  cases k <;> first | rfl | cases h

theorem isEof_of_ofKind? {k : TokenKind} {op : UnaryOp} (h : UnaryOp.ofKind? k = some op) : k.isEof = false := by
  cases k <;> first | rfl | cases h

theorem isEof_of_atLevel? {l : Nat} {k : TokenKind} {op : BinaryOp} (h : BinaryOp.atLevel? l k = some op) :
    k.isEof = false := by
  cases k <;> first | rfl | cases h

end States

/-! ## Readers that return -/

section Returns
variable {α β : Type}

/-- A value with which `Q` holds of the state, or an error of the source. -/
def Settles (Q : α → State → Prop) : Except Failure α × State → Prop
  | (.ok v, s') => Q v s'
  | (.error (.fault _), _) => True
  | (.error .exhausted, _) => False

/-- **Two readers that do the same from a state**, and what they leave behind. -/
structure Returns (s : State) (Q : α → State → Prop) (p q : Parse α) : Prop where
  same : q s = p s
  onward : Onward s (p s).2
  settles : Settles Q (p s)

/-- A reader that gets past a token if it has a result. -/
def Shrinks (s : State) : α → State → Prop := fun _ s' => s'.rest.length < s.rest.length

namespace Returns
variable {s : State} {Q : α → State → Prop} {R : β → State → Prop} {p q : Parse α} {f g : α → Parse β}

/-- A reader that stays where it is. -/
theorem of_stay {result : Except Failure α} (hp : p s = (result, s)) (h : Settles Q (result, s)) :
    Returns s Q p p :=
  ⟨rfl, by rw [hp]; exact .refl s, by rwa [hp]⟩

theorem pure (v : α) (h : Q v s) : Returns s Q (Pure.pure v) (Pure.pure v) := of_stay rfl h

theorem mono {Q' : α → State → Prop} (h : Returns s Q p q) (hQ : ∀ v s', Onward s s' → Q v s' → Q' v s') :
    Returns s Q' p q := by
  refine ⟨h.same, h.onward, ?_⟩
  have hsettles := h.settles
  have honward := h.onward
  rcases hp : p s with ⟨_ | _, s'⟩
  · rw [hp] at hsettles
    rename_i e
    cases e <;> exact hsettles
  · rw [hp] at hsettles honward
    exact hQ _ _ honward hsettles

theorem bind (h : Returns s Q p q) (hfg : ∀ v s', Onward s s' → Q v s' → Returns s' R (f v) (g v)) :
    Returns s R (p >>= f) (q >>= g) := by
  obtain ⟨hsame, honward, hsettles⟩ := h
  rcases hp : p s with ⟨result, s'⟩
  rw [hp] at hsame honward hsettles
  have hbind : ∀ {r : Parse α} {k : α → Parse β}, r s = (result, s') → (r >>= k) s =
      match result with
      | .ok v => k v s'
      | .error e => (.error e, s') := by
    intro r k hr
    rw [run_bind, hr]
    cases result <;> rfl
  cases result with
  | error e =>
    have hfailed : ∀ {r : Parse α} {k : α → Parse β}, r s = (.error e, s') → (r >>= k) s = (.error e, s') :=
      hbind
    refine ⟨(hfailed hsame).trans (hfailed hp).symm, by rw [hfailed hp]; exact honward, ?_⟩
    rw [hfailed hp]
    cases e <;> exact hsettles
  | ok v =>
    have hgoes : ∀ {r : Parse α} {k : α → Parse β}, r s = (.ok v, s') → (r >>= k) s = k v s' := hbind
    obtain ⟨hsame', honward', hsettles'⟩ := hfg v s' honward hsettles
    refine ⟨?_, by rw [hgoes hp]; exact honward.trans honward', by rwa [hgoes hp]⟩
    rw [hgoes hsame, hgoes hp, hsame']

theorem map {γ : Type} (f : α → γ) {Q' : γ → State → Prop} (h : Returns s Q p q)
    (hQ : ∀ v s', Onward s s' → Q v s' → Q' (f v) s') : Returns s Q' (f <$> p) (f <$> q) := by
  rw [map_eq_pure_bind, map_eq_pure_bind]
  exact h.bind fun v s' honward hv => .pure _ (hQ v s' honward hv)

/-! ### Looking at the next token -/

theorem current {f g : Token → Parse β} (h : Returns s R (f s.current) (g s.current)) :
    Returns s R (Parse.current >>= f) (Parse.current >>= g) := ⟨h.same, h.onward, h.settles⟩

theorem currentKind {f g : TokenKind → Parse β} (h : Returns s R (f s.current.kind) (g s.current.kind)) :
    Returns s R (Parse.currentKind >>= f) (Parse.currentKind >>= g) :=
  ⟨h.same, h.onward, h.settles⟩

theorem looksAt {sym : Symbol} {f g : Bool → Parse β}
    (h : Returns s R (f (s.current.kind.isSymbol sym)) (g (s.current.kind.isSymbol sym))) :
    Returns s R (Parse.looksAt sym >>= f) (Parse.looksAt sym >>= g) :=
  ⟨h.same, h.onward, h.settles⟩

/-! ### Errors -/

theorem failAt (position : Position) (f : Fault) :
    Returns s Q (Parse.failAt position f) (Parse.failAt position f) := of_stay rfl trivial

theorem fail (f : Fault) : Returns s Q (Parse.fail f) (Parse.fail f) := of_stay rfl trivial

theorem unexpected (expected : String) :
    Returns s Q (Parse.unexpected expected) (Parse.unexpected expected) := of_stay rfl trivial

theorem unexpectedAs (code : ErrorCode) (expected : String) :
    Returns s Q (Parse.unexpectedAs code expected) (Parse.unexpectedAs code expected) := of_stay rfl trivial

theorem disabled (feature : Feature) : Returns s Q (Parse.disabled feature) (Parse.disabled feature) :=
  of_stay rfl trivial

theorem notClosed (bracket : Bracket) (opened : Position) :
    Returns s Q (Parse.notClosed bracket opened) (Parse.notClosed bracket opened) := by
  refine current ?_
  split
  · exact failAt _ _
  · exact fail _
  · exact fail _
  · exact unexpected _

theorem record (d : Diagnostic) :
    Returns s (fun _ s' => s'.rest = s.rest) (modify (·.record d) : Parse Unit) (modify (·.record d)) :=
  ⟨rfl, Onward.record s _, (s.record_fields _).1⟩

theorem recordAt (position : Position) (f : Fault) :
    Returns s (fun _ s' => s'.rest = s.rest) (Parse.recordAt position f) (Parse.recordAt position f) := record _

/-! ### Reading a token -/

/-- A token is read that is not the end of the source. -/
theorem read {f g : Unit → Parse β} (h : s.current.kind.isEof = false)
    (hfg : ∀ s', Onward s s' → s.rest.length = s'.rest.length + 1 → Returns s' R (f ()) (g ())) :
    Returns s R (Parse.advance >>= f) (Parse.advance >>= g) := by
  obtain ⟨honward, hrest⟩ := Onward.advance h
  have hadvance : Returns s (fun _ s' => s.rest.length = s'.rest.length + 1) Parse.advance Parse.advance :=
    ⟨rfl, honward, (congrArg List.length hrest).trans (List.length_cons ..)⟩
  exact hadvance.bind fun _ s' honward' hlength => hfg s' honward' hlength

/-! ### Nesting -/

/-- A result behind a token. -/
theorem done {s' : State} {v : α} (h : s'.rest.length < s.rest.length) :
    Returns s' (Shrinks s) (Pure.pure v) (Pure.pure v) := pure v h

theorem deeper (h : Returns { s with depth := s.depth + 1 } (Shrinks s) p q) :
    Returns s (Shrinks s) (Parse.deeper p) (Parse.deeper q) := by
  obtain ⟨hsame, honward, hsettles⟩ := h
  refine ⟨?_, ⟨?_, honward.ending, honward.passed⟩, ?_⟩
  · unfold Parse.deeper
    rw [hsame]
  · exact (congrArg (· - 1) honward.depth).trans (Nat.add_sub_cancel ..)
  · unfold Parse.deeper
    rcases hp : p { s with depth := s.depth + 1 } with ⟨_ | _, _⟩
    · rw [hp] at hsettles
      rename_i e
      cases e <;> exact hsettles
    · rw [hp] at hsettles
      exact hsettles

end Returns

end Returns

/-! ## The grammar -/

/-- A state at a depth with fewer than so many tokens left. -/
def Near (d bound : Nat) (s : State) : Prop := s.depth = d ∧ s.rest.length < bound

theorem Near.onward {d bound : Nat} {s s' : State} (hs : Near d bound s) (h : Onward s s') : Near d bound s' :=
  ⟨h.depth.trans hs.1, Nat.lt_of_le_of_lt h.length_le hs.2⟩

/-- A state behind a token of one of the states that a bound allows. -/
theorem Near.less {d bound : Nat} {s s' : State} (hs : Near d (bound + 1) s) (h : Onward s s')
    (hless : s'.rest.length < s.rest.length) : Near d bound s' :=
  ⟨h.depth.trans hs.1, Nat.lt_of_lt_of_le hless (Nat.le_of_lt_succ hs.2)⟩

theorem close_returns (bracket : Bracket) (opened : Position) (s : State) :
    Returns s (Shrinks s) (close bracket opened) (close bracket opened) := by
  refine .looksAt ?_
  by_cases h : s.current.kind.isSymbol bracket.closing = true
  · rw [if_pos h]
    obtain ⟨honward, hrest⟩ := Onward.advance (isEof_of_isSymbol h)
    refine ⟨rfl, honward, ?_⟩
    show s.advance.rest.length < s.rest.length
    rw [hrest]
    exact Nat.lt_succ_self _
  · rw [if_neg h]
    exact .notClosed _ _

section Lists
variable {α : Type} {item item' : Parse α} {d bound : Nat}
  (hitem : ∀ s, Near d bound s → Returns s (Shrinks s) item item')
include hitem

theorem listItems_returns (bracket : Bracket) (opened : Position) : ∀ (n : Nat) (items : List α) (s : State),
    Near d bound s → s.rest.length < n →
      Returns s (Shrinks s) (listItems bracket opened item n items) (listItems bracket opened item' n items) := by
  intro n
  induction n with
  | zero => intro items s _ hn; omega
  | succ n ih =>
    intro items s hs hn
    -- what follows from a state behind the next token
    have hback : ∀ (items : List α) (s' : State), Onward s s' → s'.rest.length < s.rest.length →
        Returns s' (Shrinks s) (listItems bracket opened item n items)
          (listItems bracket opened item' n items) := fun items s' honward hless =>
      (ih items s' (hs.onward honward) (by omega)).mono fun _ _ _ h => Nat.lt_trans h hless
    rw [listItems, listItems]
    refine .looksAt ?_
    by_cases hclose : s.current.kind.isSymbol bracket.closing = true
    · rw [if_pos hclose, if_pos hclose]
      exact .read (isEof_of_isSymbol hclose) fun s' _ hlength => .done (by omega)
    rw [if_neg hclose, if_neg hclose]
    refine .looksAt ?_
    by_cases hcomma : s.current.kind.isSymbol .comma = true
    · rw [if_pos hcomma, if_pos hcomma]
      refine .current (.bind (.recordAt _ _) fun _ s₁ h₁ hrest => ?_)
      have hcurrent : s₁.current = s.current := State.current_congr hrest (by rw [h₁.ending])
      refine .read (by rw [hcurrent]; exact isEof_of_isSymbol hcomma) fun s₂ h₂ hlength => ?_
      exact hback items s₂ (h₁.trans h₂) (by rw [← hrest]; omega)
    rw [if_neg hcomma, if_neg hcomma]
    refine .currentKind ?_
    by_cases heof : s.current.kind.isEof = true
    · rw [if_pos heof, if_pos heof]
      exact .notClosed _ _
    rw [if_neg heof, if_neg heof]
    refine .bind (hitem s hs) fun x s₁ h₁ (hless : s₁.rest.length < s.rest.length) => .looksAt ?_
    by_cases hnext : s₁.current.kind.isSymbol .comma = true
    · rw [if_pos hnext, if_pos hnext]
      refine .current (.read (isEof_of_isSymbol hnext) fun s₂ h₂ hlength => .looksAt ?_)
      split
      · exact .bind (.recordAt _ _) fun _ s₃ h₃ hrest =>
          hback _ s₃ ((h₁.trans h₂).trans h₃) (by rw [hrest]; omega)
      · exact hback _ s₂ (h₁.trans h₂) (by omega)
    rw [if_neg hnext, if_neg hnext]
    refine .looksAt ?_
    split
    · exact hback _ s₁ h₁ hless
    · exact .notClosed _ _

end Lists

section Nested
variable {expr expr' : Parse Expr} {d bound : Nat}
  (hexpr : ∀ s, Near d bound s → Returns s (Shrinks s) expr expr')

/-! ### Primaries -/

include hexpr in
theorem objectEntry_returns (s : State) (hs : Near d bound s) :
    Returns s (Shrinks s) (objectEntry expr) (objectEntry expr') := by
  refine .current ?_
  cases hkey : objectKey? s.current with
  | none => exact .fail _
  | some key =>
    have heof : s.current.kind.isEof = false := by
      cases hk : s.current.kind with
      | eof => rw [objectKey?, hk] at hkey; cases hkey
      | _ => rfl
    refine .read heof fun s₁ h₁ hlength => .looksAt ?_
    by_cases hcolon : s₁.current.kind.isSymbol .colon = true
    · rw [if_pos hcolon, if_pos hcolon]
      refine .read (isEof_of_isSymbol hcolon) fun s₂ h₂ hlength₂ => ?_
      exact .bind (hexpr s₂ (hs.onward (h₁.trans h₂))) fun v s₃ _ (hless : s₃.rest.length < s₂.rest.length) =>
        .done (by omega)
    · rw [if_neg hcolon, if_neg hcolon]
      exact .unexpectedAs _ _

theorem leadingDot_returns (o : Options) (optional : Bool) (position : Position) (s : State)
    (hdot : s.current.kind.isEof = false) : Returns s (Shrinks s)
      (leadingDot o optional position) (leadingDot o optional position) := by
  unfold leadingDot
  split
  · exact .disabled _
  · refine .read hdot fun s₁ h₁ hlength => .currentKind ?_
    cases hk : s₁.current.kind with
    | identifier name =>
      exact .read (by rw [hk]; rfl) fun s₂ _ hlength₂ => .done (by omega)
    | _ => exact .unexpectedAs _ _

include hexpr in
theorem parenthesized_returns (position : Position) (s : State) (hs : Near d (bound + 1) s)
    (hparen : s.current.kind.isEof = false) :
    Returns s (Shrinks s) (parenthesized expr position) (parenthesized expr' position) := by
  refine .read hparen fun s₁ h₁ hlength => .looksAt ?_
  split
  · exact .fail _
  · refine .bind (hexpr s₁ (hs.less h₁ (by omega)))
      fun e s₂ _ (hless : s₂.rest.length < s₁.rest.length) => ?_
    exact .bind (close_returns .paren position s₂) fun _ s₃ _ (hless' : s₃.rest.length < s₂.rest.length) =>
      .done (by omega)

include hexpr in
theorem primary_returns (o : Options) {n : Nat} (s : State) (hs : Near d (bound + 1) s) (hn : s.rest.length ≤ n) :
    Returns s (Shrinks s) (primary o expr n) (primary o expr' n) := by
  have hlist : ∀ {α : Type} {item item' : Parse α},
      (∀ s, Near d bound s → Returns s (Shrinks s) item item') → ∀ (bracket : Bracket) (opened : Position)
      (s₁ : State), Onward s s₁ → s.rest.length = s₁.rest.length + 1 →
      Returns s₁ (Shrinks s) (listItems bracket opened item n []) (listItems bracket opened item' n []) :=
    fun hitem bracket opened s₁ h₁ hlength =>
      (listItems_returns hitem bracket opened n [] s₁ (hs.less h₁ (by omega)) (by omega)).mono
        fun _ s₂ _ (hless : s₂.rest.length < s₁.rest.length) => show s₂.rest.length < s.rest.length by omega
  refine .current ?_
  cases hk : s.current.kind with
  | pipe | eof => exact .unexpected _
  | number | string | boolean | null | identifier =>
    exact .read (by rw [hk]; rfl) fun s₁ _ hlength => .done (by omega)
  | symbol sym =>
    have heof : s.current.kind.isEof = false := by rw [hk]; rfl
    cases sym with
    | dot | questionDot => exact leadingDot_returns o _ _ s heof
    | leftParen => exact parenthesized_returns hexpr _ s hs heof
    | leftBracket =>
      refine .read heof fun s₁ h₁ hlength => ?_
      exact .bind (hlist hexpr _ _ s₁ h₁ hlength) fun _ _ _ hless => .done hless
    | leftBrace =>
      refine .read heof fun s₁ h₁ hlength => ?_
      exact .bind (hlist (objectEntry_returns hexpr) _ _ s₁ h₁ hlength) fun _ _ _ hless => .done hless
    | _ => exact .unexpected _

/-! ### Postfix chains -/

include hexpr in
theorem member_returns (target : Expr) (optional : Bool) (s : State) (hs : Near d (bound + 1) s) :
    Returns s (Shrinks s) (member expr target optional) (member expr' target optional) := by
  refine .current ?_
  cases hproperty : property? s.current with
  | some property =>
    have heof : s.current.kind.isEof = false := by
      cases hk : s.current.kind with
      | eof => rw [property?, hk] at hproperty; cases hproperty
      | _ => rfl
    exact .read heof fun s₁ _ hlength => .done (by omega)
  | none =>
    dsimp only
    by_cases hparen : s.current.kind.isSymbol .leftParen = true
    · rw [if_pos hparen, if_pos hparen]
      refine .read (isEof_of_isSymbol hparen) fun s₁ h₁ hlength => ?_
      refine .bind (hexpr s₁ (hs.less h₁ (by omega)))
        fun e s₂ _ (hless : s₂.rest.length < s₁.rest.length) => ?_
      exact .bind (close_returns .paren _ s₂) fun _ s₃ _ (hless' : s₃.rest.length < s₂.rest.length) =>
        .done (by omega)
    · rw [if_neg hparen, if_neg hparen]
      exact .unexpectedAs _ _

include hexpr in
/-- A bound of a slice may be missing. -/
theorem sliceBound_returns {α : Type} {s : State} (hs : Near d bound s) {missing : Bool}
    {f g : Option Expr → Parse α} {Q : α → State → Prop}
    (hfg : ∀ (v : Option Expr) (s' : State), Onward s s' → Returns s' Q (f v) (g v)) :
    Returns s Q (if missing = true then pure none >>= f else some <$> expr >>= f)
      (if missing = true then pure none >>= g else some <$> expr' >>= g) := by
  cases missing with
  | true => exact hfg none s (.refl s)
  | false =>
    have hsome : Returns s (fun _ _ => True) (some <$> expr) (some <$> expr') :=
      (hexpr s hs).map some fun _ _ _ _ => trivial
    exact hsome.bind fun v s' honward _ => hfg v s' honward

include hexpr in
theorem sliceRest_returns (target : Expr) (start : Option Expr) (optional : Bool) (opened : Position)
    (s : State) (hs : Near d bound s) :
    Returns s (Shrinks s) (sliceRest expr target start optional opened)
      (sliceRest expr' target start optional opened) := by
  have hclose : ∀ (last step : Option Expr) (s' : State), Onward s s' →
      Returns s' (Shrinks s)
        (do close .square opened; return Expr.slice target.position target start last step optional)
        (do close .square opened; return Expr.slice target.position target start last step optional) :=
    fun last step s' honward => .bind (close_returns .square opened s')
      fun _ s₂ _ (hless : s₂.rest.length < s'.rest.length) => .done (Nat.lt_of_lt_of_le hless honward.length_le)
  refine .looksAt (.looksAt (sliceBound_returns hexpr hs fun last s₁ h₁ => .looksAt ?_))
  by_cases hcolon : s₁.current.kind.isSymbol .colon = true
  · rw [if_pos hcolon, if_pos hcolon]
    refine .read (isEof_of_isSymbol hcolon) fun s₂ h₂ _ => .looksAt ?_
    exact sliceBound_returns hexpr (hs.onward (h₁.trans h₂)) fun step s₃ h₃ =>
      hclose last step s₃ ((h₁.trans h₂).trans h₃)
  · rw [if_neg hcolon, if_neg hcolon]
    exact hclose last none s₁ h₁

include hexpr in
theorem brackets_returns (target : Expr) (optional : Bool) (opened : Position) (s : State)
    (hs : Near d bound s) : Returns s (Shrinks s) (brackets expr target optional opened)
      (brackets expr' target optional opened) := by
  -- a slice behind its first colon
  have hslice : ∀ (start : Option Expr) (s₁ : State), Onward s s₁ → s₁.current.kind.isSymbol .colon = true →
      Returns s₁ (Shrinks s) (advance >>= fun _ => sliceRest expr target start optional opened)
        (advance >>= fun _ => sliceRest expr' target start optional opened) :=
    fun start s₁ h₁ hcolon => .read (isEof_of_isSymbol hcolon) fun s₂ h₂ _ =>
      (sliceRest_returns hexpr target start optional opened s₂ (hs.onward (h₁.trans h₂))).mono
        fun _ _ _ h => Nat.lt_of_lt_of_le h (h₁.trans h₂).length_le
  refine .looksAt ?_
  split
  · exact .fail _
  refine .looksAt ?_
  by_cases hcolon : s.current.kind.isSymbol .colon = true
  · rw [if_pos hcolon, if_pos hcolon]
    exact hslice none s (.refl s) hcolon
  rw [if_neg hcolon, if_neg hcolon]
  refine .bind (hexpr s hs) fun first s₁ h₁ (hless : s₁.rest.length < s.rest.length) => .looksAt ?_
  by_cases hcolon : s₁.current.kind.isSymbol .colon = true
  · rw [if_pos hcolon, if_pos hcolon]
    exact hslice (some first) s₁ h₁ hcolon
  · rw [if_neg hcolon, if_neg hcolon]
    exact .bind (close_returns .square opened s₁) fun _ s₂ _ (hless' : s₂.rest.length < s₁.rest.length) =>
      .done (by omega)

include hexpr in
theorem postfixStep_returns (o : Options) {n : Nat} (target : Expr) (s : State) (hs : Near d (bound + 1) s)
    (hn : s.rest.length ≤ n) :
    Returns s (fun longer s' => longer ≠ none → s'.rest.length < s.rest.length)
      (postfixStep o expr n target) (postfixStep o expr' n target) := by
  have hnone : Returns s (fun longer s' => longer ≠ none → s'.rest.length < s.rest.length)
      (Pure.pure none : Parse (Option Expr)) (Pure.pure none) := .pure none fun h => absurd rfl h
  refine .current ?_
  cases hk : s.current.kind with
  | symbol sym =>
    have heof : s.current.kind.isEof = false := by rw [hk]; rfl
    -- whatever is read behind the first token of a step, the step gets past it
    have hstep : ∀ {p q : Parse Expr}, (∀ s₁, Near d bound s₁ → Returns s₁ (Shrinks s₁) p q) →
        Returns s (fun longer s' => longer ≠ none → s'.rest.length < s.rest.length)
          (advance >>= fun _ => some <$> p) (advance >>= fun _ => some <$> q) := by
      intro p q hpq
      refine .read heof fun s₁ h₁ hlength => ?_
      exact (hpq s₁ (hs.less h₁ (by omega))).map some
        fun _ s₂ _ (hless : s₂.rest.length < s₁.rest.length) _ => by omega
    have hnear : ∀ {s₁}, Near d bound s₁ → Near d (bound + 1) s₁ := fun h => ⟨h.1, Nat.lt_succ_of_lt h.2⟩
    cases sym with
    | dot => exact hstep fun s₁ h₁ => member_returns hexpr target false s₁ (hnear h₁)
    | leftBracket => exact hstep fun s₁ h₁ => brackets_returns hexpr target false _ s₁ h₁
    | questionDot =>
      dsimp only
      split
      · exact hstep fun s₁ h₁ => member_returns hexpr target true s₁ (hnear h₁)
      · exact .disabled _
    | questionBracket =>
      dsimp only
      split
      · exact hstep fun s₁ h₁ => brackets_returns hexpr target true _ s₁ h₁
      · exact .disabled _
    | leftParen =>
      dsimp only
      split
      · refine .read heof fun s₁ h₁ hlength => ?_
        exact .bind (listItems_returns hexpr .paren _ n [] s₁ (hs.less h₁ (by omega)) (by omega))
          fun _ s₂ _ (hless : s₂.rest.length < s₁.rest.length) => .pure _ fun _ => by omega
      · exact .fail _
    | _ => exact hnone
  | _ => exact hnone

include hexpr in
theorem postfixChain_returns (o : Options) {n : Nat} : ∀ (k : Nat) (target : Expr) (s : State),
    Near d (bound + 1) s → s.rest.length ≤ n → s.rest.length < k →
    Returns s (fun _ _ => True) (postfixChain o expr n k target) (postfixChain o expr' n k target) := by
  intro k
  induction k with
  | zero => intro target s _ _ hk; omega
  | succ k ih =>
    intro target s hs hn hk
    rw [postfixChain, postfixChain]
    refine .bind (postfixStep_returns hexpr o target s hs hn) fun longer s₁ h₁ hstep => ?_
    have hle := h₁.length_le
    cases longer with
    | none => exact .pure _ trivial
    | some longer =>
      have hless := hstep (Option.some_ne_none _)
      exact ih longer s₁ (hs.onward h₁) (by omega) (by omega)

end Nested

/-! ## Recursion -/

section Steps
variable (o : Options)

/-- Reads an operand with the prefix operators in front of it, with a reader for what stands behind one. -/
def prefixedOver (expr inner : Parse Expr) (n : Nat) : Parse Expr := do
  let token ← current
  match UnaryOp.ofKind? token.kind with
  | some op =>
    advance
    let operand ← inner
    return .unary token.position op operand
  | none => postfixChain o expr n n (← primary o expr n)

/-- Reads a power, with readers for its base and for its exponent. -/
def powerOver (operand inner : Parse Expr) : Parse Expr := do
  let base ← operand
  if (BinaryOp.atLevel? 0 (← currentKind)).isSome then
    advance
    let exponent ← inner
    return .binary base.position .power base exponent
  else return base

/-- Reads an expression of binary operators up to a level, with a reader for powers. -/
def levelOver (power : Parse Expr) (n : Nat) : Nat → Parse Expr
  | 0 => power
  | k + 1 => do
    let left ← levelOver power n k
    operands o (k + 1) (levelOver power n k) n left

/-- Reads a conditional or a plain expression of operators, with a reader for these. -/
def conditionalOver (expr operand : Parse Expr) : Parse Expr := do
  let condition ← operand
  if ← looksAt .question then
    let question := (← current).position
    advance
    let consequent ← expr
    if ← looksAt .colon then
      advance
      let alternate ← expr
      return .conditional condition.position condition consequent alternate
    else
      match ← currentKind with
      | .eof | .symbol .as | .pipe _ => notClosed .question question
      | _ => unexpected "':' in conditional expression"
  else return condition

variable {o} {expr : Parse Expr} {n k : Nat}

theorem prefixed_eq : prefixed o expr n (k + 1) = prefixedOver o expr (nested o (prefixed o expr n k)) n := rfl

theorem power_eq : power o expr n (k + 1) = powerOver (prefixed o expr n n) (nested o (power o expr n k)) := rfl

theorem level_eq : level o expr n k = levelOver o (power o expr n n) n k := by
  induction k with
  | zero => rfl
  | succ k ih => rw [level, levelOver, ih]

theorem conditional_eq : conditional o expr n =
    conditionalOver expr (levelOver o (power o expr n n) n BinaryOp.loosest) := by
  rw [← level_eq]
  rfl

end Steps

section Over
variable {o : Options} {expr expr' inner inner' operand operand' : Parse Expr} {d bound n : Nat}
  (hexpr : ∀ s, Near d bound s → Returns s (Shrinks s) expr expr')
  (hinner : ∀ s, Near d bound s → Returns s (Shrinks s) inner inner')
  (hoperand : ∀ s, Near d (bound + 1) s → Returns s (Shrinks s) operand operand')

include hexpr hinner in
theorem prefixedOver_returns (s : State) (hs : Near d (bound + 1) s) (hn : s.rest.length < n) :
    Returns s (Shrinks s) (prefixedOver o expr inner n) (prefixedOver o expr' inner' n) := by
  refine .current ?_
  cases hop : UnaryOp.ofKind? s.current.kind with
  | some op =>
    refine .read (isEof_of_ofKind? hop) fun s₁ h₁ hlength => ?_
    exact .bind (hinner s₁ (hs.less h₁ (by omega))) fun _ s₂ _ (hless : s₂.rest.length < s₁.rest.length) =>
      .done (by omega)
  | none =>
    refine .bind (primary_returns hexpr o s hs (Nat.le_of_lt hn))
      fun e s₁ h₁ (hless : s₁.rest.length < s.rest.length) => ?_
    exact (postfixChain_returns hexpr o n e s₁ (hs.onward h₁) (by omega) (by omega)).mono
      fun _ _ honward _ => Nat.lt_of_le_of_lt honward.length_le hless

include hinner hoperand in
theorem powerOver_returns (s : State) (hs : Near d (bound + 1) s) :
    Returns s (Shrinks s) (powerOver operand inner) (powerOver operand' inner') := by
  refine .bind (hoperand s hs) fun base s₁ h₁ (hless : s₁.rest.length < s.rest.length) => .currentKind ?_
  cases hop : BinaryOp.atLevel? 0 s₁.current.kind with
  | none => exact .done hless
  | some op =>
    refine .read (isEof_of_atLevel? hop) fun s₂ h₂ hlength => ?_
    exact .bind (hinner s₂ (hs.less (h₁.trans h₂) (by omega)))
      fun _ s₃ _ (hless' : s₃.rest.length < s₂.rest.length) => .done (by omega)

include hoperand in
theorem operands_returns (lvl : Nat) : ∀ (k : Nat) (left : Expr) (s : State), Near d (bound + 1) s →
    s.rest.length < k → Returns s (fun _ _ => True) (operands o lvl operand k left)
      (operands o lvl operand' k left) := by
  intro k
  induction k with
  | zero => intro left s _ hk; omega
  | succ k ih =>
    intro left s hs hk
    rw [operands, operands]
    refine .currentKind ?_
    cases hop : BinaryOp.atLevel? lvl s.current.kind with
    | none => exact .pure _ trivial
    | some op =>
      dsimp only
      split
      · exact .disabled _
      · refine .read (isEof_of_atLevel? hop) fun s₁ h₁ hlength => ?_
        refine .bind (hoperand s₁ (hs.onward h₁))
          fun right s₂ h₂ (hless : s₂.rest.length < s₁.rest.length) => ?_
        exact ih _ s₂ (hs.onward (h₁.trans h₂)) (by omega)

include hoperand in
theorem levelOver_returns (lvl : Nat) (s : State) (hs : Near d (bound + 1) s) (hn : s.rest.length < n) :
    Returns s (Shrinks s) (levelOver o operand n lvl) (levelOver o operand' n lvl) := by
  induction lvl generalizing s bound with
  | zero => exact hoperand s hs
  | succ lvl ih =>
    rw [levelOver, levelOver]
    refine .bind (ih hoperand s hs hn) fun left s₁ h₁ (hless : s₁.rest.length < s.rest.length) => ?_
    have hnext : ∀ s', Near d (s.rest.length + 1) s' →
        Returns s' (Shrinks s') (levelOver o operand n lvl) (levelOver o operand' n lvl) := fun s' hs' =>
      ih hoperand s' ⟨hs'.1, Nat.lt_of_le_of_lt (Nat.le_of_lt_succ hs'.2) hs.2⟩ (by have := hs'.2; omega)
    exact (operands_returns hnext (lvl + 1) n left s₁ ⟨h₁.depth.trans hs.1, by omega⟩ (by omega)).mono
      fun _ _ honward _ => Nat.lt_of_le_of_lt honward.length_le hless

include hexpr hoperand in
theorem conditionalOver_returns (s : State) (hs : Near d (bound + 1) s) :
    Returns s (Shrinks s) (conditionalOver expr operand) (conditionalOver expr' operand') := by
  refine .bind (hoperand s hs) fun condition s₁ h₁ (hless : s₁.rest.length < s.rest.length) => .looksAt ?_
  by_cases hquestion : s₁.current.kind.isSymbol .question = true
  · rw [if_pos hquestion, if_pos hquestion]
    refine .current (.read (isEof_of_isSymbol hquestion) fun s₂ h₂ hlength => ?_)
    have hs₂ := hs.less (h₁.trans h₂) (by omega)
    refine .bind (hexpr s₂ hs₂) fun consequent s₃ h₃ (hless₃ : s₃.rest.length < s₂.rest.length) => .looksAt ?_
    by_cases hcolon : s₃.current.kind.isSymbol .colon = true
    · rw [if_pos hcolon, if_pos hcolon]
      refine .read (isEof_of_isSymbol hcolon) fun s₄ h₄ hlength₄ => ?_
      exact .bind (hexpr s₄ (hs₂.onward (h₃.trans h₄)))
        fun alternate s₅ _ (hless₅ : s₅.rest.length < s₄.rest.length) => .done (by omega)
    · rw [if_neg hcolon, if_neg hcolon]
      refine .currentKind ?_
      split
      · exact .notClosed _ _
      · exact .notClosed _ _
      · exact .notClosed _ _
      · exact .unexpected _
  · rw [if_neg hquestion, if_neg hquestion]
    exact .done hless

end Over

/-- The readers through which the grammar calls itself. -/
structure Recursion where
  /-- Reads a nested expression. -/
  expression : Parse Expr
  /-- Reads the operand of a prefix operator. -/
  prefixed : Parse Expr
  /-- Reads an exponent. -/
  power : Parse Expr

namespace Recursion

/-- An operand whose calls go to the given readers. -/
def prefixedBody (r : Recursion) (o : Options) (n : Nat) : Parse Expr := prefixedOver o r.expression r.prefixed n

/-- A power whose calls go to the given readers. -/
def powerBody (r : Recursion) (o : Options) (n : Nat) : Parse Expr := powerOver (r.prefixedBody o n) r.power

/-- An expression of operators whose calls go to the given readers. -/
def levelBody (r : Recursion) (o : Options) (n : Nat) : Nat → Parse Expr := levelOver o (r.powerBody o n) n

/-- An expression whose calls go to the given readers. -/
def expressionBody (r : Recursion) (o : Options) (n : Nat) : Parse Expr :=
  conditionalOver r.expression (r.levelBody o n BinaryOp.loosest)

/-- A reader with `k` levels below it, entered where the counter leaves it as many.  Anywhere else it may do
anything. -/
def entered (o : Options) (bad : Parse Expr) (k : Nat) (p : Parse Expr) : Parse Expr :=
  deeper fun s => if s.depth + k = o.maxDepth then p s else bad s

/-- **The grammar within so many levels.**  Without a level left nothing is read. -/
def within (o : Options) (bad : Parse Expr) (n : Nat) : Nat → Recursion
  | 0 =>
    let refused : Parse Expr := fail (.maxDepthExceeded o.maxDepth)
    ⟨refused, refused, refused⟩
  | k + 1 =>
    let below := within o bad n k
    ⟨entered o bad k (below.expressionBody o n), entered o bad k (below.prefixedBody o n),
      entered o bad k (below.powerBody o n)⟩

/-- Readers that do what the calls of the language do, at a depth and with fewer than so many tokens left. -/
structure Covers (r : Recursion) (o : Options) (n d bound : Nat) : Prop where
  expression : ∀ fuel s, Near d bound s → s.rest.length < fuel →
    Returns s (Shrinks s) (Parse.expression o n fuel) r.expression
  prefixed : ∀ fuel turns s, Near d bound s → s.rest.length ≤ fuel → s.rest.length < turns →
    Returns s (Shrinks s) (nested o (Parse.prefixed o (Parse.expression o n fuel) n turns)) r.prefixed
  power : ∀ fuel turns s, Near d bound s → s.rest.length ≤ fuel → s.rest.length < turns →
    Returns s (Shrinks s) (nested o (Parse.power o (Parse.expression o n fuel) n turns)) r.power

end Recursion

section Within
variable {o : Options} {bad : Parse Expr} {n k d bound fuel : Nat} {s : State} {r : Recursion}

/-! ### One level -/

section Covered
variable (hr : r.Covers o n d bound) (hbound : bound < n) (hfuel : bound ≤ fuel)
include hr hfuel

theorem expression_covered (s : State) (hs : Near d bound s) :
    Returns s (Shrinks s) (expression o n fuel) r.expression :=
  hr.expression fuel s hs (Nat.lt_of_lt_of_le hs.2 hfuel)

include hbound

theorem prefixed_covered {turns : Nat} (s : State) (hs : Near d (bound + 1) s) (hturns : s.rest.length < turns) :
    Returns s (Shrinks s) (prefixed o (expression o n fuel) n turns) (r.prefixedBody o n) := by
  obtain ⟨turns, rfl⟩ : ∃ i, turns = i + 1 := ⟨turns - 1, by omega⟩
  -- what is nested in the operand stands behind its first token
  have hfront : Near d (s.rest.length + 1) s := ⟨hs.1, Nat.lt_succ_self _⟩
  have hle : s.rest.length ≤ bound := Nat.le_of_lt_succ hs.2
  rw [prefixed_eq]
  refine prefixedOver_returns (fun s' hs' => ?_) (fun s' hs' => ?_) s hfront (by omega)
  · exact expression_covered hr hfuel s' ⟨hs'.1, by have := hs'.2; omega⟩
  · exact hr.prefixed fuel turns s' ⟨hs'.1, by have := hs'.2; omega⟩ (by have := hs'.2; omega)
      (by have := hs'.2; omega)

theorem power_covered {turns : Nat} (s : State) (hs : Near d (bound + 1) s) (hturns : s.rest.length < turns) :
    Returns s (Shrinks s) (power o (expression o n fuel) n turns) (r.powerBody o n) := by
  obtain ⟨turns, rfl⟩ : ∃ i, turns = i + 1 := ⟨turns - 1, by omega⟩
  have hfront : Near d (s.rest.length + 1) s := ⟨hs.1, Nat.lt_succ_self _⟩
  have hle : s.rest.length ≤ bound := Nat.le_of_lt_succ hs.2
  rw [power_eq]
  refine powerOver_returns (fun s' hs' => ?_) (fun s' hs' => ?_) s hfront
  · exact hr.power fuel turns s' ⟨hs'.1, by have := hs'.2; omega⟩ (by have := hs'.2; omega)
      (by have := hs'.2; omega)
  · exact prefixed_covered hr hbound hfuel s' ⟨hs'.1, by have := hs'.2; omega⟩ (by have := hs'.2; omega)

theorem level_covered (lvl : Nat) (s : State) (hs : Near d (bound + 1) s) :
    Returns s (Shrinks s) (level o (expression o n fuel) n lvl) (r.levelBody o n lvl) := by
  rw [level_eq]
  refine levelOver_returns (fun s' hs' => ?_) lvl s hs (by have := hs.2; omega)
  exact power_covered hr hbound hfuel s' hs' (by have := hs'.2; omega)

theorem conditional_covered (s : State) (hs : Near d (bound + 1) s) :
    Returns s (Shrinks s) (conditional o (expression o n fuel) n) (r.expressionBody o n) := by
  rw [conditional_eq, ← level_eq]
  exact conditionalOver_returns (expression_covered hr hfuel) (level_covered hr hbound hfuel _) s hs

end Covered

/-! ### All levels -/

theorem nested_refused {α : Type} {Q : α → State → Prop} (h : o.maxDepth - s.depth = 0) (p : Parse α) :
    Returns s Q (nested o p) (fail (.maxDepthExceeded o.maxDepth)) := by
  have hnested : nested o p s = fail (.maxDepthExceeded o.maxDepth) s := by
    rcases nested_cases o p s with ⟨_, hnested⟩ | ⟨hroom, _⟩
    · exact hnested
    · omega
  obtain ⟨_, honward, hsettles⟩ := @Returns.fail α s Q (.maxDepthExceeded o.maxDepth)
  exact ⟨hnested.symm, by rw [hnested]; exact honward, by rwa [hnested]⟩

theorem nested_entered {p q : Parse Expr} (h : o.maxDepth - s.depth = k + 1)
    (hbody : Returns { s with depth := s.depth + 1 } (Shrinks { s with depth := s.depth + 1 }) p q) :
    Returns s (Shrinks s) (nested o p) (Recursion.entered o bad k q) := by
  have hnested : nested o p s = deeper p s := by
    rcases nested_cases o p s with ⟨hdeep, _⟩ | ⟨_, hnested⟩
    · omega
    · exact hnested
  have hguard : (fun s => if s.depth + k = o.maxDepth then q s else bad s : Parse Expr)
      { s with depth := s.depth + 1 } = q { s with depth := s.depth + 1 } :=
    if_pos (show s.depth + 1 + k = o.maxDepth by omega)
  obtain ⟨hsame, honward, hsettles⟩ := hbody
  obtain ⟨hsame, honward, hsettles⟩ : Returns s (Shrinks s) (deeper p) (Recursion.entered o bad k q) :=
    .deeper ⟨hguard.trans hsame, honward, hsettles⟩
  exact ⟨hsame.trans hnested.symm, by rw [hnested]; exact honward, by rwa [hnested]⟩

/-- **The readers of the language need no more levels than the counter leaves them**, and they return. -/
theorem within_covers : ∀ (k d bound : Nat), o.maxDepth - d = k → bound ≤ n →
    (Recursion.within o bad n k).Covers o n d bound := by
  intro k
  induction k with
  | zero =>
    intro d bound hd _
    have hrefused : ∀ {s : State} {α : Type} {Q : α → State → Prop} (p : Parse α), Near d bound s →
        Returns s Q (nested o p) (fail (.maxDepthExceeded o.maxDepth)) := fun p hs =>
      nested_refused (hs.1 ▸ hd) p
    refine ⟨fun fuel s hs hfuel => ?_, fun _ _ _ hs _ _ => hrefused _ hs, fun _ _ _ hs _ _ => hrefused _ hs⟩
    obtain ⟨fuel, rfl⟩ : ∃ i, fuel = i + 1 := ⟨fuel - 1, by omega⟩
    exact hrefused _ hs
  | succ k ih =>
    intro d bound hd hbound
    have hbelow : ∀ s, Near d bound s → (Recursion.within o bad n k).Covers o n (d + 1) s.rest.length :=
      fun s hs => ih (d + 1) s.rest.length (by omega) (Nat.le_trans (Nat.le_of_lt hs.2) hbound)
    have hinside : ∀ s, Near d bound s → Near (d + 1) (s.rest.length + 1) { s with depth := s.depth + 1 } :=
      fun s hs => ⟨congrArg (· + 1) hs.1, Nat.lt_succ_self _⟩
    have hlevels : ∀ s, Near d bound s → o.maxDepth - s.depth = k + 1 := fun s hs => hs.1.symm ▸ hd
    refine ⟨fun fuel s hs hfuel => ?_, fun fuel turns s hs hfuel hturns => ?_,
      fun fuel turns s hs hfuel hturns => ?_⟩
    · obtain ⟨fuel, rfl⟩ : ∃ i, fuel = i + 1 := ⟨fuel - 1, by omega⟩
      exact nested_entered (hlevels s hs) (conditional_covered (hbelow s hs) (Nat.lt_of_lt_of_le hs.2 hbound)
        (Nat.le_of_lt_succ hfuel) _ (hinside s hs))
    · exact nested_entered (hlevels s hs) (prefixed_covered (hbelow s hs) (Nat.lt_of_lt_of_le hs.2 hbound)
        hfuel _ (hinside s hs) hturns)
    · exact nested_entered (hlevels s hs) (power_covered (hbelow s hs) (Nat.lt_of_lt_of_le hs.2 hbound)
        hfuel _ (hinside s hs) hturns)

end Within

end Parse

end PipeExpr
