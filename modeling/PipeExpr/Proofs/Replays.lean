import PipeExpr.Proofs.Climbing
import PipeExpr.Proofs.Narrowing
import PipeExpr.Proofs.Plan

/-!
# Reading the same tokens elsewhere

A part of a source that is read as an expression, a step of a chain or an operand is read alike in every
other source that it is a part of: at other places, behind other tokens, more deeply nested, and under
another limit of nesting.

How deeply a part nests is all that its surroundings have to know.  So the readers under all limits are
looked at together (`Parse.Performs`): in front of given tokens they have a height, with room for it they
read these tokens, and without it they give up for lack of room.  A run that reads tokens without recording
anything tells which ones, and then the readers perform on the same tokens wherever these stand
(`Parse.Replays`).  The relation passes through sequences, where the height is the greater one
(`Replays.bind`), and through nesting, where it is one more (`Replays.nested`), so each construct takes one
step for each of its own.
-/

namespace PipeExpr

/-! ## Moved trees -/

/-- A token at another place. -/
def Token.relocate (f : Position → Position) (t : Token) : Token := { t with position := f t.position }

namespace Expr

mutual

/-- An expression with all its nodes at other places. -/
def relocate (f : Position → Position) : Expr → Expr
  | .number p x => .number (f p) x
  | .string p s style => .string (f p) s style
  | .boolean p b => .boolean (f p) b
  | .null p => .null (f p)
  | .reference p name optional => .reference (f p) name optional
  | .unary p op operand => .unary (f p) op (relocate f operand)
  | .binary p op left right => .binary (f p) op (relocate f left) (relocate f right)
  | .conditional p condition consequent alternate =>
    .conditional (f p) (relocate f condition) (relocate f consequent) (relocate f alternate)
  | .array p items => .array (f p) (relocateItems f items)
  | .object p entries => .object (f p) (relocateEntries f entries)
  | .call p callee arguments => .call (f p) (relocate f callee) (relocateItems f arguments)
  | .member p target property optional => .member (f p) (relocate f target) property optional
  | .index p target key optional => .index (f p) (relocate f target) (relocate f key) optional
  | .slice p target start stop step optional =>
    .slice (f p) (relocate f target) (relocateBound f start) (relocateBound f stop) (relocateBound f step)
      optional
  | .pipe p stages => .pipe (f p) (relocateStages f stages)

@[inherit_doc relocate]
def relocateItems (f : Position → Position) : List Expr → List Expr
  | [] => []
  | e :: rest => relocate f e :: relocateItems f rest

@[inherit_doc relocate]
def relocateEntries (f : Position → Position) : List (String × Expr) → List (String × Expr)
  | [] => []
  | (key, e) :: rest => (key, relocate f e) :: relocateEntries f rest

@[inherit_doc relocate]
def relocateBound (f : Position → Position) : Option Expr → Option Expr
  | none => none
  | some e => some (relocate f e)

@[inherit_doc relocate]
def relocateStages (f : Position → Position) : List (Stage Expr) → List (Stage Expr)
  | [] => []
  | ⟨handler, boundAs, p, body⟩ :: rest => ⟨handler, boundAs, f p, relocate f body⟩ :: relocateStages f rest

end

variable (f : Position → Position)

theorem relocateItems_eq_map (items : List Expr) : relocateItems f items = items.map (relocate f) := by
  induction items with
  | nil => rfl
  | cons e rest ih => rw [relocateItems, ih, List.map_cons]

theorem relocateEntries_eq_map (entries : List (String × Expr)) :
    relocateEntries f entries = entries.map (Prod.map id (relocate f)) := by
  induction entries with
  | nil => rfl
  | cons x rest ih => rw [relocateEntries, ih, List.map_cons]; rfl

theorem relocateBound_eq_map (bound : Option Expr) : relocateBound f bound = bound.map (relocate f) := by
  cases bound <;> rfl

theorem relocateStages_eq_map (stages : List (Stage Expr)) : relocateStages f stages =
    stages.map fun s => ⟨s.handler, s.boundAs, f s.position, s.body.relocate f⟩ := by
  induction stages with
  | nil => rfl
  | cons s rest ih => rw [relocateStages, ih, List.map_cons]

@[simp] theorem position_relocate (e : Expr) : (e.relocate f).position = f e.position := by
  cases e <;> rfl

@[simp] theorem isCallable_relocate (e : Expr) : (e.relocate f).isCallable = e.isCallable := by
  cases e <;> rfl

/-- An expression in its own place. -/
@[simp] theorem relocate_id (e : Expr) : e.relocate id = e := by
  have hbound : ∀ {bound : Option Expr}, (∀ e ∈ bound, e.relocate id = e) →
      bound.map (relocate id) = bound := by
    intro bound h
    cases bound with
    | none => rfl
    | some e => exact congrArg some (h e rfl)
  have hlist : ∀ {α : Type} {g : α → α} {xs : List α}, (∀ x ∈ xs, g x = x) → xs.map g = xs :=
    fun h => (List.map_congr_left h).trans (List.map_id _)
  induction e using Expr.induction with
  | number | string | boolean | null | reference => rfl
  | unary p op operand ih => rw [relocate, ih]; rfl
  | binary p op left right ihl ihr => rw [relocate, ihl, ihr]; rfl
  | conditional p condition consequent alternate ihc iht iha => rw [relocate, ihc, iht, iha]; rfl
  | array p items ih => rw [relocate, relocateItems_eq_map, hlist ih]; rfl
  | object p entries ih =>
    rw [relocate, relocateEntries_eq_map, hlist fun x hx => by rw [Prod.map, ih x hx]; rfl]
    rfl
  | call p callee arguments ihc ih =>
    rw [relocate, ihc, relocateItems_eq_map, hlist ih]
    rfl
  | member p target property optional ih => rw [relocate, ih]; rfl
  | index p target key optional iht ihk => rw [relocate, iht, ihk]; rfl
  | slice p target start stop step optional ih ihstart ihstop ihstep =>
    rw [relocate, ih, relocateBound_eq_map, relocateBound_eq_map, relocateBound_eq_map, hbound ihstart,
      hbound ihstop, hbound ihstep]
    rfl
  | pipe p stages ih =>
    rw [relocate, relocateStages_eq_map, hlist fun s hs => by rw [ih s hs]; rfl]
    rfl

/-- An expression that is moved twice. -/
theorem relocate_relocate (g : Position → Position) (e : Expr) :
    (e.relocate f).relocate g = e.relocate (g ∘ f) := by
  have hbound : ∀ {bound : Option Expr}, (∀ e ∈ bound, (e.relocate f).relocate g = e.relocate (g ∘ f)) →
      (bound.map (relocate f)).map (relocate g) = bound.map (relocate (g ∘ f)) := by
    intro bound h
    rw [Option.map_map]
    exact Option.map_congr h
  have hlist : ∀ {α : Type} {i j k : α → α} {xs : List α}, (∀ x ∈ xs, j (i x) = k x) →
      (xs.map i).map j = xs.map k := fun h => (List.map_map ..).trans (List.map_congr_left h)
  induction e using Expr.induction with
  | number | string | boolean | null | reference => rfl
  | unary p op operand ih => simp only [relocate, ih, Function.comp_apply]
  | binary p op left right ihl ihr => simp only [relocate, ihl, ihr, Function.comp_apply]
  | conditional p condition consequent alternate ihc iht iha =>
    simp only [relocate, ihc, iht, iha, Function.comp_apply]
  | array p items ih => simp only [relocate, relocateItems_eq_map, hlist ih, Function.comp_apply]
  | object p entries ih =>
    simp only [relocate, relocateEntries_eq_map, Function.comp_apply]
    exact congrArg _ (hlist fun x hx => congrArg (Prod.mk x.1) (ih x hx))
  | call p callee arguments ihc ih =>
    simp only [relocate, ihc, relocateItems_eq_map, hlist ih, Function.comp_apply]
  | member p target property optional ih => simp only [relocate, ih, Function.comp_apply]
  | index p target key optional iht ihk => simp only [relocate, iht, ihk, Function.comp_apply]
  | slice p target start stop step optional ih ihstart ihstop ihstep =>
    simp only [relocate, ih, relocateBound_eq_map, hbound ihstart, hbound ihstop, hbound ihstep,
      Function.comp_apply]
  | pipe p stages ih =>
    simp only [relocate, relocateStages_eq_map, Function.comp_apply]
    exact congrArg _ (hlist fun s hs => congrArg (Stage.mk s.handler s.boundAs _) (ih s hs))

end Expr

/-- The switches with another limit of nesting. -/
def Options.within (o : Options) (limit : Nat) : Options := { o with maxDepth := limit }

namespace Parse

/-! ## Readers under all limits -/

/-- A state with more tokens in front of it. -/
def State.before (s : State) (ts : List Token) : State := { s with rest := ts ++ s.rest }

theorem State.before_before (s : State) (ts ts' : List Token) :
    (s.before ts').before ts = s.before (ts ++ ts') := by
  unfold State.before
  rw [List.append_assoc]

theorem current_before (s : State) (t : Token) (ts : List Token) :
    Parse.current (s.before (t :: ts)) = (.ok t, s.before (t :: ts)) := rfl

/-- A token of the source, which is neither its end nor a pipe marker, is read. -/
theorem advance_before {s : State} (h : s.ending.fault = none) (t : Token) :
    Parse.advance (s.before [t]) = (.ok (), s) :=
  congrArg (Prod.mk (Except.ok ())) (State.moveTo_of_scanned h s.rest)

/-- A run that gives up for lack of room, with some tokens read and nothing recorded. -/
def Outgrows {α : Type} (limit : Nat) (s : State) (run : Except Failure α × State) : Prop :=
  ∃ position rest, rest <:+ s.rest ∧
    run = (.error (.fault ((Fault.maxDepthExceeded limit).report position)), { s with rest })

/-- **What readers under all limits do with some tokens** in front of a state: with room for as many levels
as the tokens need they read them, and otherwise they give up for lack of room. -/
def Performs {α : Type} (q : Nat → Parse α) (ts : List Token) (s : State) (height : Nat) (v : α) : Prop :=
  ∀ limit, s.depth ≤ limit →
    (s.depth + height ≤ limit → q limit (s.before ts) = (.ok v, s)) ∧
    (limit < s.depth + height → Outgrows limit (s.before ts) (q limit (s.before ts)))

namespace Performs
variable {α β : Type} {o : Options} {q : Nat → Parse α} {g : Nat → α → Parse β} {ts ts' : List Token}
  {s : State} {height height' : Nat} {v : α} {w : β}

/-- Readers that have a result under every limit. -/
theorem of_ok (h : ∀ limit, q limit (s.before ts) = (.ok v, s)) : Performs q ts s 0 v :=
  fun limit hdepth => ⟨fun _ => h limit, fun hlimit => absurd hdepth (Nat.not_le_of_lt hlimit)⟩

theorem pure (v : α) (s : State) : Performs (fun _ => Pure.pure v) [] s 0 v := of_ok fun _ => rfl

/-- A sequence needs room for both of its parts. -/
theorem bind (h : Performs q ts (s.before ts') height v)
    (hg : Performs (fun limit => g limit v) ts' s height' w) :
    Performs (fun limit => q limit >>= g limit) (ts ++ ts') s (max height height') w := by
  intro limit hdepth
  obtain ⟨hroom, hnone⟩ := h limit hdepth
  obtain ⟨hroom', hnone'⟩ := hg limit hdepth
  rw [State.before_before] at hroom hnone
  rcases Nat.lt_or_ge limit (s.depth + height) with hlimit | hlimit
  -- the first part does not fit
  · refine ⟨fun hfits => by omega, fun _ => ?_⟩
    obtain ⟨position, rest, hrest, hrun⟩ := hnone hlimit
    exact ⟨position, rest, hrest, by simp only [run_bind, hrun]⟩
  · refine ⟨fun hfits => ?_, fun hover => ?_⟩
    · simp only [run_bind, hroom hlimit]
      exact hroom' (by omega)
    · obtain ⟨position, rest, hrest, hrun⟩ := hnone' (by omega)
      refine ⟨position, rest, hrest.trans ⟨ts, (List.append_assoc ..).symm⟩, ?_⟩
      simp only [run_bind, hroom hlimit]
      exact hrun

/-- As `bind`, with nothing left for the second part. -/
theorem bind_last (h : Performs q ts s height v) (hg : Performs (fun limit => g limit v) [] s 0 w) :
    Performs (fun limit => q limit >>= g limit) ts s height w := by
  rw [← List.append_nil ts, ← Nat.max_zero height]
  exact bind h hg

theorem map (f : α → β) (h : Performs q ts s height v) :
    Performs (fun limit => f <$> q limit) ts s height (f v) := by
  simp only [map_eq_pure_bind]
  exact h.bind_last (.pure _ _)

theorem current {g : Nat → Token → Parse β} {t : Token}
    (h : Performs (fun limit => g limit t) (t :: ts) s height w) :
    Performs (fun limit => Parse.current >>= g limit) (t :: ts) s height w := h

theorem read {g : Nat → Unit → Parse β} {t : Token} (hending : s.ending.fault = none)
    (h : Performs (fun limit => g limit ()) ts s height w) :
    Performs (fun limit => Parse.advance >>= g limit) (t :: ts) s height w := by
  have hadvance : Performs (fun _ => Parse.advance) [t] (s.before ts) 0 () :=
    of_ok fun _ => @advance_before (s.before ts) hending t
  have hboth := hadvance.bind h
  rwa [Nat.zero_max] at hboth

/-- One level deeper, if there is room for it. -/
theorem nested_before (limit : Nat) (p : Parse α) : Parse.nested (o.within limit) p (s.before ts) =
    if s.depth ≥ limit then
      (.error (.fault ((Fault.maxDepthExceeded limit).report (s.before ts).current.position)), s.before ts)
    else
      let run := p (State.before { s with depth := s.depth + 1 } ts)
      (run.1, { run.2 with depth := run.2.depth - 1 }) := by
  show (if s.depth ≥ limit then Parse.fail _ else Parse.deeper p : Parse α) (s.before ts) = _
  split <;> rfl

theorem nested (h : Performs q ts { s with depth := s.depth + 1 } height v) :
    Performs (fun limit => Parse.nested (o.within limit) (q limit)) ts s (height + 1) v := by
  intro limit hdepth
  simp only [nested_before]
  by_cases hdeep : s.depth ≥ limit
  · rw [if_pos hdeep]
    exact ⟨fun hfits => by omega, fun _ => ⟨_, _, List.suffix_refl _, rfl⟩⟩
  · rw [if_neg hdeep]
    obtain ⟨hroom, hnone⟩ := h limit (Nat.lt_of_not_le hdeep)
    refine ⟨fun hfits => ?_, fun hover => ?_⟩
    · rw [hroom (by dsimp only; omega)]
      rfl
    · obtain ⟨position, rest, hrest, hrun⟩ := hnone (by dsimp only; omega)
      rw [hrun]
      exact ⟨position, rest, hrest, rfl⟩

end Performs

/-! ## Runs that are replayed -/

/-- Tokens that an operand can end with. -/
def closes : TokenKind → Bool
  | .number _ | .string _ | .boolean _ | .null | .identifier _ => true
  | .symbol s => [Symbol.as, .rightParen, .rightBracket, .rightBrace].contains s
  | .pipe _ | .eof => false

/-- Tokens of which the last one can end an operand. -/
def Closed (ts : List Token) : Prop := ∃ front t, ts = front ++ [t] ∧ closes t.kind = true

/-- Tokens of which the last one, if there are any, can end an operand. -/
def Rounded (ts : List Token) : Prop := ts = [] ∨ Closed ts

theorem Closed.ne_nil {ts : List Token} (h : Closed ts) : ts ≠ [] := by
  obtain ⟨front, t, rfl, -⟩ := h
  exact List.append_ne_nil_of_right_ne_nil front (List.cons_ne_nil t [])

theorem Closed.append {ts' : List Token} (h : Closed ts') (ts : List Token) : Closed (ts ++ ts') := by
  obtain ⟨front, t, rfl, ht⟩ := h
  exact ⟨ts ++ front, t, (List.append_assoc ..).symm, ht⟩

theorem Closed.rounded {ts ts' : List Token} (h : Closed ts) (h' : Rounded ts') : Closed (ts ++ ts') := by
  rcases h' with rfl | h'
  · rwa [List.append_nil]
  · exact h'.append ts

theorem Rounded.append {ts ts' : List Token} (h : Rounded ts) (h' : Rounded ts') : Rounded (ts ++ ts') := by
  rcases h with rfl | h
  · exact h'
  · exact .inr (h.rounded h')

theorem inner_of_closes {t : Token} (h : closes t.kind = true) : Inner t := by
  unfold Inner
  cases hk : t.kind with
  | pipe | eof => rw [hk] at h; cases h
  | _ => exact ⟨rfl, rfl⟩

theorem inner_of_isSymbol {t : Token} {s : Symbol} (h : t.kind.isSymbol s = true) : Inner t := by
  unfold Inner
  cases hk : t.kind with
  | symbol => exact ⟨rfl, rfl⟩
  | _ => rw [hk] at h; cases h

theorem closes_of_isSymbol {k : TokenKind} {s : Symbol} (h : k.isSymbol s = true)
    (hs : closes (.symbol s) = true) : closes k = true := by
  cases k with
  | symbol t =>
    obtain rfl : t = s := eq_of_beq h
    exact hs
  | _ => cases h

/-- **A reader whose runs are replayed** by readers under all limits, with the same tokens at other places
and a result that is moved there.  The run starts in front of a token of which `K` holds, reads tokens of
which `T` holds, and has recorded nothing.  Behind the tokens there is one of the same kind, or one that ends
an operand of the row. -/
structure Replays (o : Options) {α : Type} (K : Token → Prop) (row : Nat)
    (T : List Token → Prop) (move : (Position → Position) → α → α) (p : Parse α)
    (q : (Position → Position) → Nat → Parse α) : Prop where
  grows : ∀ {s v s'}, K s.current → p s = (.ok v, s') → s.errors.size ≤ s'.errors.size
  replays : ∀ {s v s'}, s.ending.fault = none → s.depth ≤ o.maxDepth → K s.current →
    p s = (.ok v, s') → s'.errors.size ≤ s.errors.size →
    ∃ ts height, s = s'.before ts ∧ T ts ∧ (∀ t ∈ ts, Inner t) ∧ s.depth + height ≤ o.maxDepth ∧
      ∀ (f : Position → Position) (u : State), u.ending.fault = none →
        (u.current.kind = s'.current.kind ∨ Stops row u.current.kind) →
        Performs (q f) (ts.map (Token.relocate f)) u height (move f v)

namespace Replays
variable {α β : Type} {o : Options} {K K' : Token → Prop} {row row' : Nat}
  {T T' : List Token → Prop} {move : (Position → Position) → α → α}
  {move' : (Position → Position) → β → β} {p : Parse α} {q : (Position → Position) → Nat → Parse α}
  {g : α → Parse β} {g' : (Position → Position) → Nat → α → Parse β}

theorem mono (h : Replays o K row T move p q) (hK : ∀ t, K' t → K t) (hrow : row ≤ row')
    (hT : ∀ ts, T ts → T' ts) : Replays o K' row' T' move p q where
  grows hs := h.grows (hK _ hs)
  replays hending hdepth hs hrun herrors := by
    obtain ⟨ts, height, hsplit, hts, hinner, hroom, hperforms⟩ :=
      h.replays hending hdepth (hK _ hs) hrun herrors
    exact ⟨ts, height, hsplit, hT ts hts, hinner, hroom, fun f u hu hnext =>
      hperforms f u hu (hnext.imp_right fun hstops => hstops.mono hrow)⟩

/-- What is read in front of any token is read in front of those of which `K` holds. -/
theorem anywhere (h : Replays o (fun _ => True) row T move p q) : Replays o K row T move p q :=
  h.mono (fun _ _ => trivial) (Nat.le_refl row) fun _ => id

theorem pure (v : α) : Replays o K row (· = []) move (Pure.pure v) (fun f _ => Pure.pure (move f v)) where
  grows _ hrun := by
    cases hrun
    exact Nat.le_refl _
  replays _ hdepth _ hrun _ := by
    cases hrun
    exact ⟨[], 0, rfl, rfl, nofun, hdepth, fun f u _ _ => .pure _ u⟩

theorem never (hp : Refuses p) : Replays o K row T move p q where
  grows {s _ _} _ hrun := by
    obtain ⟨e, he⟩ := hp s
    rw [he] at hrun
    cases hrun
  replays {s _ _} _ _ _ hrun _ := by
    obtain ⟨e, he⟩ := hp s
    rw [he] at hrun
    cases hrun

/-- **A sequence is replayed** if its parts are.  The token behind the first one is the first token of the
second one, or it stands behind both. -/
theorem bind (h : Replays o K row T move p q)
    (hg : ∀ v, Replays o (fun _ => True) row' T' move' (g v) (fun f limit => g' f limit (move f v)))
    (hrow : row ≤ row' ∨ ∀ ts, T' ts → ts ≠ []) {S : List Token → Prop}
    (hS : ∀ ts ts', T ts → T' ts' → S (ts ++ ts')) :
    Replays o K row' S move' (p >>= g) (fun f limit => q f limit >>= g' f limit) where
  grows {s _ _} hs hrun := by
    rw [run_bind] at hrun
    rcases hp : p s with ⟨e | v, s₁⟩
    · rw [hp] at hrun
      cases hrun
    · rw [hp] at hrun
      exact Nat.le_trans (h.grows hs hp) ((hg v).grows trivial hrun)
  replays {s w s'} hending hdepth hs hrun herrors := by
    rw [run_bind] at hrun
    rcases hp : p s with ⟨e | v, s₁⟩
    · rw [hp] at hrun
      cases hrun
    rw [hp] at hrun
    replace hrun : g v s₁ = (.ok w, s') := hrun
    have hgrows := h.grows hs hp
    have hgrows' := (hg v).grows trivial hrun
    obtain ⟨ts, height, rfl, hts, hinner, hroom, hperforms⟩ :=
      h.replays hending hdepth hs hp (Nat.le_trans hgrows' herrors)
    obtain ⟨ts', height', rfl, hts', hinner', hroom', hperforms'⟩ :=
      (hg v).replays (s := s₁) hending hdepth trivial hrun (Nat.le_trans herrors hgrows)
    refine ⟨ts ++ ts', max height height', State.before_before .., hS ts ts' hts hts', ?_, ?_, ?_⟩
    · exact fun t ht => (List.mem_append.mp ht).elim (hinner t) (hinner' t)
    · have hsame : (s'.before ts').depth = ((s'.before ts').before ts).depth := rfl
      omega
    intro f u hu hnext
    rw [List.map_append]
    refine (hperforms f (u.before (ts'.map (Token.relocate f))) hu ?_).bind (hperforms' f u hu hnext)
    cases ts' with
    | cons t ts' => exact .inl rfl
    | nil =>
      rcases hrow with hrow | hrow
      · exact hnext.imp_right fun hstops => hstops.mono hrow
      · exact absurd rfl (hrow [] hts')

/-- A sequence whose second part reads on. -/
theorem andThen (h : Replays o K row T move p q)
    (hg : ∀ v, Replays o (fun _ => True) row' Closed move' (g v) (fun f limit => g' f limit (move f v))) :
    Replays o K row' Closed move' (p >>= g) (fun f limit => q f limit >>= g' f limit) :=
  h.bind hg (.inr fun _ hts => hts.ne_nil) fun ts _ _ hts' => hts'.append ts

/-- A sequence whose second part may read on. -/
theorem andMaybe (h : Replays o K row Closed move p q) (hrow : row ≤ row')
    (hg : ∀ v, Replays o (fun _ => True) row' Rounded move' (g v) (fun f limit => g' f limit (move f v))) :
    Replays o K row' Closed move' (p >>= g) (fun f limit => q f limit >>= g' f limit) :=
  h.bind hg (.inl hrow) fun _ _ hts hts' => hts.rounded hts'

/-- A sequence whose second part gives a result. -/
theorem andReturn {g : α → β}
    {g' : (Position → Position) → Nat → α → β} (h : Replays o K row T move p q)
    (hg : ∀ f limit v, g' f limit (move f v) = move' f (g v)) :
    Replays o K row T move' (p >>= fun v => Pure.pure (g v))
      (fun f limit => q f limit >>= fun v => Pure.pure (g' f limit v)) := by
  have hreturn : ∀ v, Replays o (fun _ => True) row (· = []) move' (Pure.pure (g v))
      (fun f limit => Pure.pure (g' f limit (move f v))) := by
    intro v
    simp only [hg]
    exact .pure (g v)
  refine h.bind hreturn (.inl (Nat.le_refl row)) fun ts _ hts hnil => ?_
  subst hnil
  rwa [List.append_nil]

theorem map {g : α → β} (h : Replays o K row T move p q) (hg : ∀ f v, g (move f v) = move' f (g v)) :
    Replays o K row T move' (g <$> p) (fun f limit => g <$> q f limit) := by
  simp only [map_eq_pure_bind]
  exact h.andReturn fun f _ => hg f

/-! ### Looking at the next token -/

/-- What is read depends on the next token, which is one of the tokens read. -/
theorem current {g : Token → Parse β} {g' : (Position → Position) → Nat → Token → Parse β}
    (h : ∀ t, K t → Replays o (· = t) row Closed move' (g t) (fun f limit => g' f limit (t.relocate f))) :
    Replays o K row Closed move' (Parse.current >>= g) (fun f limit => Parse.current >>= g' f limit) where
  grows hs hrun := (h _ hs).grows rfl hrun
  replays {s _ _} hending hdepth hs hrun herrors := by
    obtain ⟨ts, height, rfl, hts, hinner, hroom, hperforms⟩ :=
      (h _ hs).replays hending hdepth rfl hrun herrors
    refine ⟨ts, height, rfl, hts, hinner, hroom, fun f u hu hnext => ?_⟩
    obtain ⟨t, ts, rfl⟩ := List.exists_cons_of_ne_nil hts.ne_nil
    exact .current (hperforms f u hu hnext)

theorem currentKind {g : TokenKind → Parse β} {g' : (Position → Position) → Nat → TokenKind → Parse β}
    (h : ∀ t, K t → Replays o (· = t) row Closed move' (g t.kind) (fun f limit => g' f limit t.kind)) :
    Replays o K row Closed move' (Parse.currentKind >>= g)
      (fun f limit => Parse.currentKind >>= g' f limit) :=
  @current β o K row move' (fun t => g t.kind) (fun f limit t => g' f limit t.kind) h

theorem looksAt {s : Symbol} {g : Bool → Parse β} {g' : (Position → Position) → Nat → Bool → Parse β}
    (h : ∀ t, K t → Replays o (· = t) row Closed move' (g (t.kind.isSymbol s))
      (fun f limit => g' f limit (t.kind.isSymbol s))) :
    Replays o K row Closed move' (Parse.looksAt s >>= g) (fun f limit => Parse.looksAt s >>= g' f limit) :=
  @current β o K row move' (fun t => g (t.kind.isSymbol s))
    (fun f limit t => g' f limit (t.kind.isSymbol s)) h

/-- What is read depends on the next token, which may stand behind the tokens read.  If nothing is read there,
then nothing is read in front of any token that ends an operand of the row. -/
theorem peek {g : TokenKind → Parse β} {g' : (Position → Position) → Nat → TokenKind → Parse β}
    (h : ∀ t, K t → Replays o (· = t) row Closed move' (g t.kind) (fun f limit => g' f limit t.kind) ∨
      ∃ w, g t.kind = Pure.pure w ∧
        ∀ k, (k = t.kind ∨ Stops row k) → ∀ f limit, g' f limit k = Pure.pure (move' f w)) :
    Replays o K row Rounded move' (Parse.currentKind >>= g)
      (fun f limit => Parse.currentKind >>= g' f limit) where
  grows {s w s'} hs hrun := by
    rcases h _ hs with h | ⟨v, hv, -⟩
    · exact h.grows rfl hrun
    · have hpure : g s.current.kind s = (.ok w, s') := hrun
      rw [hv] at hpure
      cases hpure
      exact Nat.le_refl _
  replays {s w s'} hending hdepth hs hrun herrors := by
    rcases h _ hs with h | ⟨v, hv, hquiet⟩
    · obtain ⟨ts, height, hsplit, hts, hinner, hroom, hperforms⟩ :=
        h.replays hending hdepth rfl hrun herrors
      refine ⟨ts, height, hsplit, .inr hts, hinner, hroom, fun f u hu hnext => ?_⟩
      obtain ⟨t, ts, rfl⟩ := List.exists_cons_of_ne_nil hts.ne_nil
      have hsame : s.current = t := by rw [hsplit]; rfl
      have hread := hperforms f u hu hnext
      rw [hsame] at hread
      exact hread
    · have hpure : g s.current.kind s = (.ok w, s') := hrun
      rw [hv] at hpure
      cases hpure
      refine ⟨[], 0, rfl, .inl rfl, nofun, hdepth, fun f u _ hnext => .of_ok fun limit => ?_⟩
      have hrun' : g' f limit u.current.kind u = (.ok (move' f w), u) := by
        rw [hquiet u.current.kind hnext f limit]
        rfl
      exact hrun'

theorem looksBehind {s : Symbol} {g : Bool → Parse β} {g' : (Position → Position) → Nat → Bool → Parse β}
    (h : ∀ t, K t → Replays o (· = t) row Closed move' (g (t.kind.isSymbol s))
        (fun f limit => g' f limit (t.kind.isSymbol s)) ∨
      ∃ w, g (t.kind.isSymbol s) = Pure.pure w ∧
        ∀ k : TokenKind, (k = t.kind ∨ Stops row k) → ∀ f limit,
          g' f limit (k.isSymbol s) = Pure.pure (move' f w)) :
    Replays o K row Rounded move' (Parse.looksAt s >>= g) (fun f limit => Parse.looksAt s >>= g' f limit) :=
  @peek β o K row move' (fun k => g (k.isSymbol s)) (fun f limit k => g' f limit (k.isSymbol s)) h

/-! ### Reading a token -/

theorem advance (row : Nat) (hK : ∀ t, K t → Inner t) :
    Replays o K row (fun ts => ∃ t, K t ∧ ts = [t]) (fun _ => id) Parse.advance
      (fun _ _ => Parse.advance) where
  grows {s _ _} _ hrun := by
    obtain ⟨-, rfl⟩ := Prod.mk.inj hrun
    obtain ⟨late, hlate⟩ := (Steady.advance.blind.keeps s).grows
    have hsize := congrArg Array.size hlate
    rw [Array.size_append] at hsize
    exact hsize ▸ Nat.le_add_right _ _
  replays {s _ _} hending hdepth hs hrun _ := by
    obtain ⟨rest, ending, errors, depth⟩ := s
    cases rest with
    | nil => exact Bool.noConfusion (hK _ hs).2
    | cons t rest =>
      have hread := advance_before (s := ⟨rest, ending, errors, depth⟩) hending t
      obtain ⟨hresult, rfl⟩ := Prod.mk.inj (hread.symm.trans hrun)
      refine ⟨[t], 0, rfl, ⟨t, hs, rfl⟩, ?_, hdepth, fun f u hu _ => .of_ok fun _ => advance_before hu _⟩
      exact fun t' ht' => List.mem_singleton.mp ht' ▸ hK t hs

/-- A token is read, and the rest follows. -/
theorem read {g : Unit → Parse β} {g' : (Position → Position) → Nat → Unit → Parse β}
    (hK : ∀ t, K t → Inner t)
    (h : Replays o (fun _ => True) row Closed move' (g ()) (fun f limit => g' f limit ())) :
    Replays o K row Closed move' (Parse.advance >>= g) (fun f limit => Parse.advance >>= g' f limit) :=
  (advance 0 hK).andThen fun _ => h

/-- A token is read as the last one. -/
theorem last {v : β} {w : (Position → Position) → β} (hK : ∀ t, K t → closes t.kind = true)
    (hw : ∀ f, w f = move' f v) :
    Replays o K row Closed move' (do Parse.advance; return v) (fun f _ => do Parse.advance; return w f) := by
  have htoken : Replays o K row Closed (fun _ => id) Parse.advance (fun _ _ => Parse.advance) := by
    refine (advance row fun t ht => inner_of_closes (hK t ht)).mono (fun _ => id) (Nat.le_refl row) ?_
    rintro _ ⟨t, ht, rfl⟩
    exact ⟨[], t, rfl, hK t ht⟩
  exact htoken.andReturn fun f _ _ => hw f

/-! ### Errors that are recorded -/

/-- A run that records an error is none that is replayed. -/
theorem recorded {g : Unit → Parse β} {q' q'' : (Position → Position) → Nat → Parse β} (position : Position)
    (fault : Fault) (h : Replays o K row T move' (g ()) q'') :
    Replays o K row T move' (Parse.recordAt position fault >>= g) q' := by
  have hgrows : ∀ {s v s'}, K s.current → (Parse.recordAt position fault >>= g) s = (.ok v, s') →
      (s.record (fault.report position)).errors.size ≤ s'.errors.size := by
    intro s v s' hs hrun
    obtain ⟨hrest, hending, -⟩ := s.record_fields (fault.report position)
    refine h.grows (s := s.record (fault.report position)) ?_ hrun
    rwa [State.current_congr hrest (by rw [hending])]
  refine ⟨fun {s v s'} hs hrun => Nat.le_trans ?_ (hgrows hs hrun),
    fun {s v s'} hending _ hs hrun herrors => ?_⟩
  · rcases s.record_cases (fault.report position) with h | h
    · rw [h]
    · rw [h]
      exact Nat.le_trans (Nat.le_succ _) (Array.size_push _).ge
  · have hless := Nat.le_trans (hgrows hs hrun) herrors
    rw [State.record_of_scanned hending] at hless
    exact absurd (Nat.le_trans (Array.size_push _).ge hless) (Nat.not_succ_le_self _)

/-! ### Nesting -/

theorem nested (h : Replays o K row T move p q) :
    Replays o K row T move (Parse.nested o p) (fun f limit => Parse.nested (o.within limit) (q f limit)) := by
  have hsplit : ∀ {s v s'}, Parse.nested o p s = (.ok v, s') → s.depth < o.maxDepth ∧
      ∃ s₁, p { s with depth := s.depth + 1 } = (.ok v, s₁) ∧ s' = { s₁ with depth := s₁.depth - 1 } := by
    intro s v s' hrun
    have hrun : (if s.depth ≥ o.maxDepth then Parse.fail _ else Parse.deeper p : Parse α) s = _ := hrun
    split at hrun
    · cases hrun
    · rename_i hdeep
      obtain ⟨hresult, hstate⟩ := Prod.mk.inj hrun
      exact ⟨Nat.lt_of_not_le hdeep, _, Prod.ext hresult rfl, hstate.symm⟩
  refine ⟨fun {s _ _} hs hrun => ?_, fun {s v s'} hending hdepth hs hrun herrors => ?_⟩
  · obtain ⟨-, s₁, hp, rfl⟩ := hsplit hrun
    have hgrows : s.errors.size ≤ s₁.errors.size := h.grows (s := { s with depth := s.depth + 1 }) hs hp
    exact hgrows
  · obtain ⟨hless, s₁, hp, rfl⟩ := hsplit hrun
    obtain ⟨ts, height, hbefore, hts, hinner, hroom, hperforms⟩ :=
      h.replays (s := { s with depth := s.depth + 1 }) hending hless hs hp herrors
    refine ⟨ts, height + 1, ?_, hts, hinner, ?_, fun f u hu hnext => .nested (hperforms f _ hu hnext)⟩
    · obtain ⟨rest, ending, errors, depth⟩ := s
      obtain ⟨rest₁, ending₁, errors₁, depth₁⟩ := s₁
      obtain ⟨rfl, rfl, rfl, rfl⟩ : rest = ts ++ rest₁ ∧ ending = ending₁ ∧ errors = errors₁ ∧
          depth + 1 = depth₁ := State.mk.inj hbefore
      rfl
    · dsimp only at hroom
      omega

end Replays

end Parse

end PipeExpr
