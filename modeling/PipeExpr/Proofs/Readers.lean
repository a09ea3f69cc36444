import PipeExpr.Proofs.ParserStates

/-!
# Readers keep to their segment

A reader of expressions never gets past a pipe marker.  What it does with the tokens in front of the
next marker, or of the end of the source, depends on these tokens and on what they end with; it does
not depend on what stands behind the marker, on errors recorded before, or on the bounds on turns, as
long as these are larger than the number of tokens.

This is a relation between two readers of the same construct (`Alike`): started in front of the same
tokens, in whatever surroundings, both have the same result, leave the same tokens and record the same
errors, and neither of them runs out of turns.  The relation passes through sequences
(`Alike.bind`), so each construct of the grammar takes one step for each of its own, and the knot is tied
by induction on the number of tokens (`Alike.expression`).
-/

namespace PipeExpr

namespace Parse

/-! ## Surroundings -/

/-- What stands behind the tokens of a segment: a marker with anything behind it, or the end of a source
that was scanned to its end. -/
inductive Ends (stop : Token) : List Token → Scanner.Ending → Prop where
  | marker (h : stop.kind.isPipe = true) (rest : List Token) (ending : Scanner.Ending) :
    Ends stop (stop :: rest) ending
  | source (ending : Scanner.Ending) (hfault : ending.fault = none)
    (hstop : stop = .eof ending.position) : Ends stop [] ending

/-- A token inside of a segment. -/
def Inner (t : Token) : Prop := t.kind.isPipe = false ∧ t.kind.isEof = false

/-- The token that a reader sees in front of the rest of a segment. -/
def front (stop : Token) (r : List Token) : Token := r.headD stop

section Surroundings
variable {stop : Token} {tail : List Token} {ending : Scanner.Ending}

theorem Ends.stop_outer (h : Ends stop tail ending) : ¬ Inner stop := by
  rintro ⟨hpipe, heof⟩
  cases h with
  | marker h => rw [h] at hpipe; cases hpipe
  | source _ _ hstop => rw [hstop] at heof; cases heof

theorem Ends.current (h : Ends stop tail ending) (r : List Token) (errors : Array Diagnostic)
    (depth : Nat) : (State.mk (r ++ tail) ending errors depth).current = front stop r := by
  cases r with
  | cons t r => rfl
  | nil =>
    cases h with
    | marker => rfl
    | source _ _ hstop => exact hstop.symm

theorem Ends.noteEnding (h : Ends stop tail ending) (r : List Token) (errors : Array Diagnostic)
    (depth : Nat) :
    (State.mk (r ++ tail) ending errors depth).noteEnding = ⟨r ++ tail, ending, errors, depth⟩ := by
  cases r with
  | cons t r => rfl
  | nil =>
    cases h with
    | marker => rfl
    | source _ hfault _ => exact State.moveTo_of_scanned (s := ⟨[], ending, errors, depth⟩) hfault []

theorem Ends.lexerFailed (h : Ends stop tail ending) (r : List Token) (errors : Array Diagnostic)
    (depth : Nat) : (State.mk (r ++ tail) ending errors depth).lexerFailed = false := by
  cases r with
  | cons t r => rfl
  | nil =>
    cases h with
    | marker => rfl
    | source _ hfault _ => exact State.lexerFailed_of_scanned hfault

theorem Ends.record (h : Ends stop tail ending) (r : List Token) (errors : Array Diagnostic)
    (depth : Nat) (d : Diagnostic) : (State.mk (r ++ tail) ending errors depth).record d =
      ⟨r ++ tail, ending, errors.push d, depth⟩ :=
  State.record_of_running (h.lexerFailed r errors depth) d

end Surroundings

/-! ## Readers that do the same -/

section Alike
variable {α β : Type}

/-- A sequence runs its second part if the first one has a result. -/
theorem run_bind (p : Parse α) (f : α → Parse β) (s : State) :
    (p >>= f) s = match p s with
      | (.ok v, s') => f v s'
      | (.error e, s') => (.error e, s') := by
  show ExceptT.bindCont f (p s).1 (p s).2 = _
  rcases p s with ⟨_ | _, _⟩ <;> rfl

/-- What a reader does in front of the tokens `r` of a segment, nested `d` levels deep. -/
def Acts (stop : Token) (p : Parse α) (r : List Token) (d : Nat) (result : Except Failure α)
    (r' : List Token) (errors : List Diagnostic) : Prop :=
  ∀ before tail ending, Ends stop tail ending →
    p ⟨r ++ tail, ending, before, d⟩ = (result, ⟨r' ++ tail, ending, before ++ errors.toArray, d⟩)

/-- A result that is an error of the source, or a value with which `Q` holds of the tokens that are left. -/
def Fair (Q : α → List Token → Prop) (r' : List Token) : Except Failure α → Prop
  | .ok v => Q v r'
  | .error (.fault _) => True
  | .error .exhausted => False

/-- **Two readers that do the same** in front of the tokens `r` of a segment. -/
def Alike (stop : Token) (r : List Token) (Q : α → List Token → Prop) (p q : Parse α) : Prop :=
  ∀ d, ∃ result r' errors, r' <:+ r ∧ Fair Q r' result ∧
    Acts stop p r d result r' errors ∧ Acts stop q r d result r' errors

namespace Alike
variable {stop t : Token} {r rest : List Token} {Q : α → List Token → Prop} {R : β → List Token → Prop}
  {p q : Parse α} {f g : α → Parse β}

/-- A reader that only gives a result, which is the same for all states in front of `r`. -/
theorem of_same (result : Except Failure α) (hfair : Fair Q r result)
    (hp : ∀ d, Acts stop p r d result r []) : Alike stop r Q p p :=
  fun d => ⟨result, r, [], List.suffix_refl r, hfair, hp d, hp d⟩

theorem pure (v : α) (h : Q v r) : Alike stop r Q (Pure.pure v) (Pure.pure v) :=
  of_same (.ok v) h fun d before tail ending _ => by simp; rfl

theorem mono {Q' : α → List Token → Prop} (h : Alike stop r Q p q)
    (hQ : ∀ v r', r' <:+ r → Q v r' → Q' v r') : Alike stop r Q' p q := by
  intro d
  obtain ⟨result, r', errors, hsuffix, hfair, hp, hq⟩ := h d
  refine ⟨result, r', errors, hsuffix, ?_, hp, hq⟩
  cases result with
  | ok v => exact hQ v r' hsuffix hfair
  | error e => cases e <;> exact hfair

theorem bind (h : Alike stop r Q p q)
    (hfg : ∀ v r', r' <:+ r → Q v r' → Alike stop r' R (f v) (g v)) :
    Alike stop r R (p >>= f) (q >>= g) := by
  intro d
  obtain ⟨result, r₁, errors₁, hsuffix₁, hfair₁, hp, hq⟩ := h d
  cases result with
  | error e =>
    refine ⟨.error e, r₁, errors₁, hsuffix₁, ?_, fun before tail ending hends => ?_,
      fun before tail ending hends => ?_⟩
    · cases e <;> exact hfair₁
    · rw [run_bind, hp before tail ending hends]
    · rw [run_bind, hq before tail ending hends]
  | ok v =>
    obtain ⟨result, r₂, errors₂, hsuffix₂, hfair₂, hf, hg⟩ := hfg v r₁ hsuffix₁ hfair₁ d
    have happend : ∀ before : Array Diagnostic,
        before ++ errors₁.toArray ++ errors₂.toArray = before ++ (errors₁ ++ errors₂).toArray := by
      simp
    refine ⟨result, r₂, errors₁ ++ errors₂, hsuffix₂.trans hsuffix₁, hfair₂,
      fun before tail ending hends => ?_, fun before tail ending hends => ?_⟩
    · rw [run_bind, hp before tail ending hends, ← happend]
      exact hf _ tail ending hends
    · rw [run_bind, hq before tail ending hends, ← happend]
      exact hg _ tail ending hends

/-! ### Looking at the next token -/

/-- What follows may depend on the next token. -/
theorem current {f g : Token → Parse β} (h : Alike stop r R (f (front stop r)) (g (front stop r))) :
    Alike stop r R (Parse.current >>= f) (Parse.current >>= g) := by
  intro d
  obtain ⟨result, r', errors, hsuffix, hfair, hf, hg⟩ := h d
  have hcurrent : ∀ (k : Token → Parse β) before tail ending, Ends stop tail ending →
      (Parse.current >>= k) ⟨r ++ tail, ending, before, d⟩ =
        k (front stop r) ⟨r ++ tail, ending, before, d⟩ := by
    intro k before tail ending hends
    rw [← hends.current r before d]
    rfl
  refine ⟨result, r', errors, hsuffix, hfair, fun before tail ending hends => ?_,
    fun before tail ending hends => ?_⟩
  · rw [hcurrent f before tail ending hends]
    exact hf before tail ending hends
  · rw [hcurrent g before tail ending hends]
    exact hg before tail ending hends

theorem currentKind {f g : TokenKind → Parse β}
    (h : Alike stop r R (f (front stop r).kind) (g (front stop r).kind)) :
    Alike stop r R (Parse.currentKind >>= f) (Parse.currentKind >>= g) :=
  @current β stop r R (fun t => f t.kind) (fun t => g t.kind) h

theorem looksAt {s : Symbol} {f g : Bool → Parse β}
    (h : Alike stop r R (f ((front stop r).kind.isSymbol s)) (g ((front stop r).kind.isSymbol s))) :
    Alike stop r R (Parse.looksAt s >>= f) (Parse.looksAt s >>= g) :=
  @current β stop r R (fun t => f (t.kind.isSymbol s)) (fun t => g (t.kind.isSymbol s)) h

/-! ### Errors -/

theorem failAt (position : Position) (f : Fault) :
    Alike stop r Q (Parse.failAt position f) (Parse.failAt position f) :=
  of_same (.error (.fault (f.report position))) trivial fun d before tail ending _ => by simp; rfl

theorem fail (f : Fault) : Alike stop r Q (Parse.fail f) (Parse.fail f) := current (failAt _ f)

theorem unexpected (expected : String) :
    Alike stop r Q (Parse.unexpected expected) (Parse.unexpected expected) := current (fail _)

theorem unexpectedAs (code : ErrorCode) (expected : String) :
    Alike stop r Q (Parse.unexpectedAs code expected) (Parse.unexpectedAs code expected) :=
  current (fail _)

theorem disabled (feature : Feature) :
    Alike stop r Q (Parse.disabled feature) (Parse.disabled feature) := current (fail _)

theorem notClosed (bracket : Bracket) (opened : Position) :
    Alike stop r Q (Parse.notClosed bracket opened) (Parse.notClosed bracket opened) := by
  refine current ?_
  split
  · exact failAt _ _
  · exact fail _
  · exact fail _
  · exact unexpected _

/-- An error that is recorded, and what follows. -/
theorem recordAt (position : Position) (f : Fault) :
    Alike stop r (fun _ r' => r' = r) (Parse.recordAt position f) (Parse.recordAt position f) := by
  have hacts : ∀ d, Acts stop (Parse.recordAt position f) r d (.ok ()) r [f.report position] := by
    intro d before tail ending hends
    show (Except.ok (), State.record ⟨r ++ tail, ending, before, d⟩ (f.report position)) = _
    rw [hends.record]
    simp
  exact fun d => ⟨.ok (), r, [f.report position], List.suffix_refl r, rfl, hacts d, hacts d⟩

/-! ### Reading a token -/

theorem advance : Alike stop (t :: rest) (fun _ r' => r' = rest) Parse.advance Parse.advance := by
  have hacts : ∀ d, Acts stop Parse.advance (t :: rest) d (.ok ()) rest [] := by
    intro d before tail ending hends
    show (Except.ok (), (State.mk (rest ++ tail) ending before d).noteEnding) = _
    rw [hends.noteEnding]
    simp
  exact fun d => ⟨.ok (), rest, [], List.suffix_cons t rest, rfl, hacts d, hacts d⟩

/-- A token of the segment is read, and the rest follows. -/
theorem read {f g : Unit → Parse β} (h : Alike stop rest R (f ()) (g ())) :
    Alike stop (t :: rest) R (Parse.advance >>= f) (Parse.advance >>= g) :=
  bind advance fun _ _ _ hr => hr ▸ h

/-! ### Nesting -/

theorem nested (o : Options) (h : Alike stop r Q p q) :
    Alike stop r Q (Parse.nested o p) (Parse.nested o q) := by
  intro d
  by_cases hdeep : d ≥ o.maxDepth
  · obtain ⟨result, r', errors, hsuffix, hfair, hp, _⟩ :=
      @fail α stop r Q (.maxDepthExceeded o.maxDepth) d
    have hacts : ∀ x : Parse α, Acts stop (Parse.nested o x) r d result r' errors := by
      intro x before tail ending hends
      show (if d ≥ o.maxDepth then Parse.fail _ else _ : Parse α) _ = _
      rw [if_pos hdeep]
      exact hp before tail ending hends
    exact ⟨result, r', errors, hsuffix, hfair, hacts p, hacts q⟩
  · obtain ⟨result, r', errors, hsuffix, hfair, hp, hq⟩ := h (d + 1)
    have hacts : ∀ x : Parse α, Acts stop x r (d + 1) result r' errors →
        Acts stop (Parse.nested o x) r d result r' errors := by
      intro x hx before tail ending hends
      show (if d ≥ o.maxDepth then Parse.fail _ else _ : Parse α) _ = _
      rw [if_neg hdeep]
      simp only [hx before tail ending hends]
      rfl
    exact ⟨result, r', errors, hsuffix, hfair, hacts p hp, hacts q hq⟩

end Alike

end Alike

/-! ## The next token -/

section Front
variable {stop : Token} {r : List Token}

/-- A token that is seen in front of the end of a segment belongs to it. -/
theorem front_cons (hstop : ¬ Inner stop) {k : TokenKind} (hk : (front stop r).kind = k)
    (hpipe : k.isPipe = false) (heof : k.isEof = false) : ∃ t rest, r = t :: rest := by
  cases r with
  | cons t rest => exact ⟨t, rest, rfl⟩
  | nil => exact absurd ⟨hk ▸ hpipe, hk ▸ heof⟩ hstop

theorem front_symbol (hstop : ¬ Inner stop) {s : Symbol} (h : (front stop r).kind.isSymbol s = true) :
    ∃ t rest, r = t :: rest := by
  cases hk : (front stop r).kind with
  | symbol t => exact front_cons hstop hk rfl rfl
  | _ =>
    rw [hk] at h
    cases h

end Front

/-! ## The grammar -/

/-- Readers that read something of a segment if they have a result. -/
def Advances {α : Type} (r : List Token) : α → List Token → Prop := fun _ r' => r'.length < r.length

theorem Alike.advances {α : Type} {stop : Token} {r r₁ : List Token} {p q : Parse α}
    (h : Alike stop r₁ (Advances r₁) p q) (hle : r₁.length ≤ r.length) :
    Alike stop r₁ (Advances r) p q :=
  h.mono fun _ _ _ hr => Nat.lt_of_lt_of_le hr hle

section Grammar
variable {α : Type} {stop : Token} (hstop : ¬ Inner stop)
include hstop

theorem close_alike (bracket : Bracket) (opened : Position) (r : List Token) :
    Alike stop r (Advances r) (close bracket opened) (close bracket opened) := by
  refine .looksAt ?_
  by_cases h : (front stop r).kind.isSymbol bracket.closing = true
  · obtain ⟨t, rest, rfl⟩ := front_symbol hstop h
    rw [if_pos h]
    exact Alike.advance.mono fun _ r' _ hr => hr ▸ Nat.lt_succ_self _
  · rw [if_neg h]
    exact .notClosed _ _

theorem listItems_alike {item item' : Parse α} {bound : Nat}
    (hitem : ∀ r : List Token, r.length < bound → Alike stop r (Advances r) item item')
    (bracket : Bracket) (opened : Position) : ∀ (n m : Nat) (items : List α) (r : List Token),
    r.length < bound → r.length < n → r.length < m →
    Alike stop r (Advances r) (listItems bracket opened item n items)
      (listItems bracket opened item' m items) := by
  intro n
  induction n with
  | zero => intro m items r _ hn; omega
  | succ n ih =>
    intro m items r hbound hn hm
    obtain ⟨m, rfl⟩ : ∃ k, m = k + 1 := ⟨m - 1, by omega⟩
    rw [listItems, listItems]
    refine .looksAt ?_
    by_cases hclose : (front stop r).kind.isSymbol bracket.closing = true
    · obtain ⟨t, rest, rfl⟩ := front_symbol hstop hclose
      rw [if_pos hclose, if_pos hclose]
      exact .read (.pure _ (Nat.lt_succ_self _))
    · rw [if_neg hclose, if_neg hclose]
      refine .looksAt ?_
      by_cases hcomma : (front stop r).kind.isSymbol .comma = true
      · obtain ⟨t, rest, rfl⟩ := front_symbol hstop hcomma
        rw [if_pos hcomma, if_pos hcomma]
        refine .current (.bind (.recordAt _ _) fun _ r' _ hr => ?_)
        subst hr
        rw [List.length_cons] at hbound hn hm
        exact .read ((ih m items rest (by omega) (by omega) (by omega)).advances (Nat.le_succ _))
      · rw [if_neg hcomma, if_neg hcomma]
        refine .currentKind ?_
        by_cases heof : (front stop r).kind.isEof = true
        · rw [if_pos heof, if_pos heof]
          exact .notClosed _ _
        · rw [if_neg heof, if_neg heof]
          refine .bind (hitem r hbound) fun x r₁ _ hr₁ => .looksAt ?_
          have hless : r₁.length < r.length := hr₁
          by_cases hnext : (front stop r₁).kind.isSymbol .comma = true
          · obtain ⟨t, rest, rfl⟩ := front_symbol hstop hnext
            rw [List.length_cons] at hless
            have hrest : Alike stop rest (Advances r) (listItems bracket opened item n (x :: items))
                (listItems bracket opened item' m (x :: items)) :=
              (ih m (x :: items) rest (by omega) (by omega) (by omega)).advances (by omega)
            rw [if_pos hnext, if_pos hnext]
            refine .current (.read (.looksAt ?_))
            split
            · exact .bind (.recordAt _ _) fun _ _ _ hr => hr ▸ hrest
            · exact hrest
          · rw [if_neg hnext, if_neg hnext]
            refine .looksAt ?_
            split
            · exact (ih m (x :: items) r₁ (by omega) (by omega) (by omega)).advances (by omega)
            · exact .notClosed _ _

omit hstop in
theorem map_alike {β : Type} {r : List Token} {p q : Parse α} (f : α → β)
    (h : Alike stop r (Advances r) p q) : Alike stop r (Advances r) (f <$> p) (f <$> q) := by
  rw [map_eq_pure_bind, map_eq_pure_bind]
  exact .bind h fun v _ _ hr => .pure _ hr

/-! ### Primaries -/

section Nested
variable {expr expr' : Parse Expr} {bound : Nat}
  (hexpr : ∀ r : List Token, r.length < bound → Alike stop r (Advances r) expr expr')
include hexpr

theorem objectEntry_alike (r : List Token) (hbound : r.length < bound) :
    Alike stop r (Advances r) (objectEntry expr) (objectEntry expr') := by
  refine .current ?_
  cases hkey : objectKey? (front stop r) with
  | none => exact .fail _
  | some key =>
    obtain ⟨t, rest, rfl⟩ : ∃ t rest, r = t :: rest := by
      cases hk : (front stop r).kind with
      | pipe | eof => rw [objectKey?, hk] at hkey; cases hkey
      | _ => exact front_cons hstop hk rfl rfl
    rw [List.length_cons] at hbound
    refine .read (.looksAt ?_)
    by_cases hcolon : (front stop rest).kind.isSymbol .colon = true
    · obtain ⟨t', rest, rfl⟩ := front_symbol hstop hcolon
      rw [List.length_cons] at hbound
      rw [if_pos hcolon, if_pos hcolon]
      refine .read (.bind (hexpr rest (by omega)) fun v r' _ hr => .pure _ ?_)
      have hless : r'.length < rest.length := hr
      show r'.length < (t :: t' :: rest).length
      rw [List.length_cons, List.length_cons]
      omega
    · rw [if_neg hcolon, if_neg hcolon]
      exact .unexpectedAs _ _

omit hexpr in
theorem leadingDot_alike (o : Options) (optional : Bool) (position : Position) (t : Token)
    (rest : List Token) : Alike stop (t :: rest) (Advances (t :: rest))
      (leadingDot o optional position) (leadingDot o optional position) := by
  unfold leadingDot
  split
  · exact .disabled _
  · refine .read (.currentKind ?_)
    cases hk : (front stop rest).kind with
    | identifier name =>
      obtain ⟨t', rest, rfl⟩ := front_cons hstop hk rfl rfl
      refine .read (.pure _ ?_)
      show rest.length < (t :: t' :: rest).length
      rw [List.length_cons, List.length_cons]
      omega
    | _ => exact .unexpectedAs _ _

theorem parenthesized_alike (position : Position) (t : Token) (rest : List Token)
    (hbound : rest.length < bound) : Alike stop (t :: rest) (Advances (t :: rest))
      (parenthesized expr position) (parenthesized expr' position) := by
  refine .read (.looksAt ?_)
  split
  · exact .fail _
  · refine .bind (hexpr rest hbound) fun e r₁ _ hr₁ => ?_
    refine .bind (close_alike hstop .paren position r₁) fun _ r₂ _ hr₂ => .pure _ ?_
    have h₁ : r₁.length < rest.length := hr₁
    have h₂ : r₂.length < r₁.length := hr₂
    show r₂.length < (t :: rest).length
    rw [List.length_cons]
    omega

theorem primary_alike (o : Options) {n m : Nat} (r : List Token) (hbound : r.length ≤ bound)
    (hn : r.length ≤ n) (hm : r.length ≤ m) :
    Alike stop r (Advances r) (primary o expr n) (primary o expr' m) := by
  refine .current ?_
  cases hk : (front stop r).kind with
  | pipe | eof => exact .unexpected _
  | number | string | boolean | null | identifier =>
    obtain ⟨t, rest, rfl⟩ := front_cons hstop hk rfl rfl
    exact .read (.pure _ (Nat.lt_succ_self _))
  | symbol s =>
    obtain ⟨t, rest, rfl⟩ := front_cons hstop hk rfl rfl
    rw [List.length_cons] at hbound hn hm
    have hlist : ∀ {α : Type} {item item' : Parse α},
        (∀ r : List Token, r.length < bound → Alike stop r (Advances r) item item') →
        ∀ bracket opened, Alike stop rest (Advances (t :: rest)) (listItems bracket opened item n [])
          (listItems bracket opened item' m []) := fun hitem bracket opened =>
      (listItems_alike hstop hitem bracket opened n m [] rest (by omega) (by omega)
        (by omega)).advances (Nat.le_succ _)
    cases s with
    | dot | questionDot => exact leadingDot_alike hstop o _ _ t rest
    | leftParen => exact parenthesized_alike hstop hexpr _ t rest (by omega)
    | leftBracket => exact .read (.bind (hlist hexpr _ _) fun _ _ _ hr => .pure _ hr)
    | leftBrace =>
      have hentry := hlist (fun r hr => objectEntry_alike hstop hexpr r hr)
      exact .read (.bind (hentry _ _) fun _ _ _ hr => .pure _ hr)
    | _ => exact .unexpected _

/-! ### Postfix chains -/

theorem member_alike (target : Expr) (optional : Bool) (r : List Token) (hbound : r.length ≤ bound) :
    Alike stop r (Advances r) (member expr target optional) (member expr' target optional) := by
  refine .current ?_
  cases hproperty : property? (front stop r) with
  | some property =>
    obtain ⟨t, rest, rfl⟩ : ∃ t rest, r = t :: rest := by
      cases hk : (front stop r).kind with
      | pipe | eof => rw [property?, hk] at hproperty; cases hproperty
      | _ => exact front_cons hstop hk rfl rfl
    exact .read (.pure _ (Nat.lt_succ_self _))
  | none =>
    dsimp only
    by_cases hparen : (front stop r).kind.isSymbol .leftParen = true
    · obtain ⟨t, rest, rfl⟩ := front_symbol hstop hparen
      rw [List.length_cons] at hbound
      rw [if_pos hparen, if_pos hparen]
      refine .read (.bind (hexpr rest (by omega)) fun e r₁ _ hr₁ => ?_)
      refine .bind (close_alike hstop .paren _ r₁) fun _ r₂ _ hr₂ => .pure _ ?_
      have h₁ : r₁.length < rest.length := hr₁
      have h₂ : r₂.length < r₁.length := hr₂
      show r₂.length < (t :: rest).length
      rw [List.length_cons]
      omega
    · rw [if_neg hparen, if_neg hparen]
      exact .unexpectedAs _ _

omit hstop in
/-- A bound of a slice may be missing. -/
theorem sliceBound_alike {r : List Token} (hbound : r.length < bound) {missing : Bool}
    {f g : Option Expr → Parse α} {Q : α → List Token → Prop}
    (hfg : ∀ (v : Option Expr) (r' : List Token), r'.length ≤ r.length → Alike stop r' Q (f v) (g v)) :
    Alike stop r Q (if missing = true then pure none >>= f else some <$> expr >>= f)
      (if missing = true then pure none >>= g else some <$> expr' >>= g) := by
  cases missing with
  | true => exact hfg none r (Nat.le_refl _)
  | false => exact .bind (map_alike some (hexpr r hbound)) fun v r' _ hr => hfg v r' (Nat.le_of_lt hr)

theorem sliceRest_alike (target : Expr) (start : Option Expr) (optional : Bool) (opened : Position)
    (r : List Token) (hbound : r.length < bound) :
    Alike stop r (Advances r) (sliceRest expr target start optional opened)
      (sliceRest expr' target start optional opened) := by
  have hclose : ∀ (last step : Option Expr) (r' : List Token), r'.length ≤ r.length →
      Alike stop r' (Advances r)
        (do close .square opened; return Expr.slice target.position target start last step optional)
        (do close .square opened; return Expr.slice target.position target start last step optional) :=
    fun last step r' hr' => .bind (close_alike hstop .square opened r') fun _ r₂ _ hr₂ =>
      .pure _ (Nat.lt_of_lt_of_le hr₂ hr')
  refine .looksAt (.looksAt (sliceBound_alike hexpr hbound fun last r₁ hr₁ => .looksAt ?_))
  by_cases hcolon : (front stop r₁).kind.isSymbol .colon = true
  · obtain ⟨t, rest, rfl⟩ := front_symbol hstop hcolon
    rw [List.length_cons] at hr₁
    rw [if_pos hcolon, if_pos hcolon]
    refine .read (.looksAt (sliceBound_alike hexpr (by omega) fun step r₂ hr₂ => ?_))
    exact hclose last step r₂ (by omega)
  · rw [if_neg hcolon, if_neg hcolon]
    exact hclose last none r₁ hr₁

theorem brackets_alike (target : Expr) (optional : Bool) (opened : Position) (r : List Token)
    (hbound : r.length < bound) : Alike stop r (Advances r) (brackets expr target optional opened)
      (brackets expr' target optional opened) := by
  refine .looksAt ?_
  by_cases hclose : (front stop r).kind.isSymbol .rightBracket = true
  · rw [if_pos hclose, if_pos hclose]
    exact .fail _
  · rw [if_neg hclose, if_neg hclose]
    refine .looksAt ?_
    by_cases hcolon : (front stop r).kind.isSymbol .colon = true
    · obtain ⟨t, rest, rfl⟩ := front_symbol hstop hcolon
      rw [List.length_cons] at hbound
      rw [if_pos hcolon, if_pos hcolon]
      exact .read ((sliceRest_alike hstop hexpr target none optional opened rest (by omega)).advances
        (Nat.le_succ _))
    · rw [if_neg hcolon, if_neg hcolon]
      refine .bind (hexpr r hbound) fun first r₁ _ hr₁ => .looksAt ?_
      have h₁ : r₁.length < r.length := hr₁
      by_cases hcolon : (front stop r₁).kind.isSymbol .colon = true
      · obtain ⟨t, rest, rfl⟩ := front_symbol hstop hcolon
        rw [List.length_cons] at h₁
        rw [if_pos hcolon, if_pos hcolon]
        exact .read ((sliceRest_alike hstop hexpr target (some first) optional opened rest (by omega)).advances
          (by omega))
      · rw [if_neg hcolon, if_neg hcolon]
        exact .bind (close_alike hstop .square opened r₁) fun _ r₂ _ hr₂ =>
          .pure _ (Nat.lt_trans hr₂ hr₁)

theorem postfixStep_alike (o : Options) {n m : Nat} (target : Expr) (r : List Token)
    (hbound : r.length ≤ bound) (hn : r.length ≤ n) (hm : r.length ≤ m) :
    Alike stop r (fun longer r' => longer ≠ none → r'.length < r.length)
      (postfixStep o expr n target) (postfixStep o expr' m target) := by
  have hnone : Alike stop r (fun longer r' => longer ≠ none → r'.length < r.length)
      (Pure.pure none : Parse (Option Expr)) (Pure.pure none) := .pure none fun h => absurd rfl h
  refine .current ?_
  cases hk : (front stop r).kind with
  | symbol s =>
    obtain ⟨t, rest, rfl⟩ := front_cons hstop hk rfl rfl
    rw [List.length_cons] at hbound hn hm
    -- whatever is read behind the first token of a step, the step gets past it
    have hstep : ∀ {α : Type} {p q : Parse α} {f : α → Option Expr},
        Alike stop rest (Advances rest) p q → Alike stop rest
          (fun longer r' => longer ≠ none → r'.length < (t :: rest).length) (f <$> p) (f <$> q) := by
      intro α p q f hpq
      exact (map_alike f hpq).mono fun _ _ _ hr _ => Nat.lt_succ_of_lt hr
    cases s with
    | dot => exact .read (hstep (member_alike hstop hexpr target false rest (by omega)))
    | leftBracket => exact .read (hstep (brackets_alike hstop hexpr target false _ rest (by omega)))
    | questionDot =>
      dsimp only
      split
      · exact .read (hstep (member_alike hstop hexpr target true rest (by omega)))
      · exact .disabled _
    | questionBracket =>
      dsimp only
      split
      · exact .read (hstep (brackets_alike hstop hexpr target true _ rest (by omega)))
      · exact .disabled _
    | leftParen =>
      dsimp only
      split
      · have hlist := listItems_alike hstop hexpr .paren (front stop (t :: rest)).position n m [] rest
          (by omega) (by omega) (by omega)
        exact .read (.bind hlist fun _ _ _ hr => .pure _ fun _ => Nat.lt_succ_of_lt hr)
      · exact .fail _
    | _ => exact hnone
  | _ => exact hnone

theorem postfixChain_alike (o : Options) {n m : Nat} : ∀ (k l : Nat) (target : Expr) (r : List Token),
    r.length ≤ bound → r.length ≤ n → r.length ≤ m → r.length < k → r.length < l →
    Alike stop r (fun _ r' => r'.length ≤ r.length) (postfixChain o expr n k target)
      (postfixChain o expr' m l target) := by
  intro k
  induction k with
  | zero => intro l target r _ _ _ hk; omega
  | succ k ih =>
    intro l target r hbound hn hm hk hl
    obtain ⟨l, rfl⟩ : ∃ i, l = i + 1 := ⟨l - 1, by omega⟩
    rw [postfixChain, postfixChain]
    refine .bind (postfixStep_alike hstop hexpr o target r hbound hn hm) fun longer r₁ hsuffix hr₁ => ?_
    have hle := hsuffix.length_le
    cases longer with
    | none => exact .pure _ hle
    | some longer =>
      have hless := hr₁ (Option.some_ne_none _)
      exact (ih l longer r₁ (by omega) (by omega) (by omega) (by omega) (by omega)).mono
        fun _ _ _ hr => Nat.le_trans hr hle

/-! ### Operators -/

theorem prefixed_alike (o : Options) {n m : Nat} : ∀ (k l : Nat) (r : List Token),
    r.length ≤ bound → r.length < n → r.length < m → r.length < k → r.length < l →
    Alike stop r (Advances r) (prefixed o expr n k) (prefixed o expr' m l) := by
  intro k
  induction k with
  | zero => intro l r _ _ _ hk; omega
  | succ k ih =>
    intro l r hbound hn hm hk hl
    obtain ⟨l, rfl⟩ : ∃ i, l = i + 1 := ⟨l - 1, by omega⟩
    rw [prefixed, prefixed]
    refine .current ?_
    cases hop : UnaryOp.ofKind? (front stop r).kind with
    | some op =>
      obtain ⟨t, rest, rfl⟩ : ∃ t rest, r = t :: rest := by
        cases hkind : (front stop r).kind with
        | pipe | eof => rw [hkind] at hop; cases hop
        | _ => exact front_cons hstop hkind rfl rfl
      rw [List.length_cons] at hbound hn hm hk hl
      refine .read (.bind (.nested o (ih l rest (by omega) (by omega) (by omega) (by omega)
        (by omega))) fun _ _ _ hr => .pure _ (Nat.lt_succ_of_lt hr))
    | none =>
      refine .bind (primary_alike hstop hexpr o r hbound (Nat.le_of_lt hn) (Nat.le_of_lt hm))
        fun e r₁ _ hr₁ => ?_
      have hless : r₁.length < r.length := hr₁
      exact (postfixChain_alike hstop hexpr o n m e r₁ (by omega) (by omega) (by omega) (by omega)
        (by omega)).mono fun _ _ _ hr => Nat.lt_of_le_of_lt hr hless

theorem power_alike (o : Options) {n m : Nat} : ∀ (k l : Nat) (r : List Token),
    r.length ≤ bound → r.length < n → r.length < m → r.length < k → r.length < l →
    Alike stop r (Advances r) (power o expr n k) (power o expr' m l) := by
  intro k
  induction k with
  | zero => intro l r _ _ _ hk; omega
  | succ k ih =>
    intro l r hbound hn hm hk hl
    obtain ⟨l, rfl⟩ : ∃ i, l = i + 1 := ⟨l - 1, by omega⟩
    rw [power, power]
    refine .bind (prefixed_alike hstop hexpr o n m r hbound hn hm hn hm) fun base r₁ _ hr₁ =>
      .currentKind ?_
    have hless : r₁.length < r.length := hr₁
    cases hop : BinaryOp.atLevel? 0 (front stop r₁).kind with
    | none => exact .pure _ hless
    | some op =>
      obtain ⟨t, rest, rfl⟩ : ∃ t rest, r₁ = t :: rest := by
        cases hkind : (front stop r₁).kind with
        | symbol s => exact front_cons hstop hkind rfl rfl
        | _ => rw [hkind] at hop; cases hop
      rw [List.length_cons] at hless
      refine .read (.bind (.nested o (ih l rest (by omega) (by omega) (by omega) (by omega)
        (by omega))) fun _ r₂ _ hr₂ => .pure _ ?_)
      have hless₂ : r₂.length < rest.length := hr₂
      show r₂.length < r.length
      omega

omit hexpr in
theorem operands_alike (o : Options) (lvl : Nat) {operand operand' : Parse Expr}
    (hoperand : ∀ r : List Token, r.length < bound →
      Alike stop r (Advances r) operand operand') : ∀ (k l : Nat) (left : Expr) (r : List Token),
    r.length ≤ bound → r.length < k → r.length < l →
    Alike stop r (fun _ r' => r'.length ≤ r.length) (operands o lvl operand k left)
      (operands o lvl operand' l left) := by
  intro k
  induction k with
  | zero => intro l left r _ hk; omega
  | succ k ih =>
    intro l left r hbound hk hl
    obtain ⟨l, rfl⟩ : ∃ i, l = i + 1 := ⟨l - 1, by omega⟩
    rw [operands, operands]
    refine .currentKind ?_
    cases hop : BinaryOp.atLevel? lvl (front stop r).kind with
    | none => exact .pure _ (Nat.le_refl _)
    | some op =>
      obtain ⟨t, rest, rfl⟩ : ∃ t rest, r = t :: rest := by
        cases hkind : (front stop r).kind with
        | symbol s => exact front_cons hstop hkind rfl rfl
        | _ => rw [hkind] at hop; cases hop
      rw [List.length_cons] at hbound hk hl
      dsimp only
      split
      · exact .disabled _
      · refine .read (.bind (hoperand rest (by omega)) fun right r₁ _ hr₁ => ?_)
        have hless : r₁.length < rest.length := hr₁
        exact (ih l _ r₁ (by omega) (by omega) (by omega)).mono fun _ r₂ _ hr₂ => by
          rw [List.length_cons]
          omega

theorem level_alike (o : Options) {n m : Nat} : ∀ (lvl : Nat) (r : List Token),
    r.length ≤ bound → r.length < n → r.length < m →
    Alike stop r (Advances r) (level o expr n lvl) (level o expr' m lvl) := by
  intro lvl
  induction lvl with
  | zero => exact fun r hbound hn hm => power_alike hstop hexpr o n m r hbound hn hm hn hm
  | succ lvl ih =>
    intro r hbound hn hm
    rw [level, level]
    refine .bind (ih r hbound hn hm) fun left r₁ _ hr₁ => ?_
    have hless : r₁.length < r.length := hr₁
    have hoperand : ∀ r' : List Token, r'.length < r.length →
        Alike stop r' (Advances r') (level o expr n lvl) (level o expr' m lvl) :=
      fun r' hr' => ih r' (by omega) (by omega) (by omega)
    exact (operands_alike hstop o (lvl + 1) hoperand n m left r₁ (by omega) (by omega)
      (by omega)).mono fun _ _ _ hr => Nat.lt_of_le_of_lt hr hless

theorem conditional_alike (o : Options) {n m : Nat} (r : List Token) (hbound : r.length ≤ bound)
    (hn : r.length < n) (hm : r.length < m) :
    Alike stop r (Advances r) (conditional o expr n) (conditional o expr' m) := by
  refine .bind (level_alike hstop hexpr o BinaryOp.loosest r hbound hn hm) fun condition r₁ _ hr₁ =>
    .looksAt ?_
  have h₁ : r₁.length < r.length := hr₁
  by_cases hquestion : (front stop r₁).kind.isSymbol .question = true
  · obtain ⟨t, rest, rfl⟩ := front_symbol hstop hquestion
    rw [List.length_cons] at h₁
    rw [if_pos hquestion, if_pos hquestion]
    refine .current (.read (.bind (hexpr rest (by omega)) fun consequent r₂ _ hr₂ => .looksAt ?_))
    have h₂ : r₂.length < rest.length := hr₂
    by_cases hcolon : (front stop r₂).kind.isSymbol .colon = true
    · obtain ⟨t', rest', rfl⟩ := front_symbol hstop hcolon
      rw [List.length_cons] at h₂
      rw [if_pos hcolon, if_pos hcolon]
      refine .read (.bind (hexpr rest' (by omega)) fun alternate r₃ _ hr₃ => .pure _ ?_)
      have h₃ : r₃.length < rest'.length := hr₃
      show r₃.length < r.length
      omega
    · rw [if_neg hcolon, if_neg hcolon]
      refine .currentKind ?_
      split
      · exact .notClosed _ _
      · exact .notClosed _ _
      · exact .notClosed _ _
      · exact .unexpected _
  · rw [if_neg hquestion, if_neg hquestion]
    exact .pure _ h₁

end Nested

/-- **Readers of expressions do the same** if the bounds on turns are larger than the number of
tokens. -/
theorem expression_alike (o : Options) {n m : Nat} : ∀ (k l : Nat) (r : List Token),
    r.length < n → r.length < m → r.length < k → r.length < l →
    Alike stop r (Advances r) (expression o n k) (expression o m l) := by
  intro k
  induction k with
  | zero => intro l r _ _ hk; omega
  | succ k ih =>
    intro l r hn hm hk hl
    obtain ⟨l, rfl⟩ : ∃ i, l = i + 1 := ⟨l - 1, by omega⟩
    have hexpr : ∀ r' : List Token, r'.length < r.length →
        Alike stop r' (Advances r') (expression o n k) (expression o m l) :=
      fun r' hr' => ih l r' (by omega) (by omega) (by omega) (by omega)
    exact .nested o (conditional_alike hstop hexpr o r (Nat.le_refl _) hn hm)

end Grammar

end Parse

end PipeExpr
