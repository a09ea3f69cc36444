import PipeExpr.Proofs.Cutoff
import PipeExpr.Proofs.Nodes

/-!
# Readers under fewer switches

A reader under some switches is compared with the same reader under all of them and a limit of nesting that
is not smaller (`Narrows`).  What the first one reads, the second one reads as well, from the same tokens
and with the same errors on the way; the result has only nodes that the switches allow and the grammar has.
If the limits are the same, this can be turned around: a result of the second reader that has only such
nodes is one of the first.

A feature is switched off at several places of the grammar, and each of them is passed in the same way:
behind it a node is built that the switches do not allow (`Narrows.gate`).  So the condition on what has
been read so far goes through a sequence in both directions (`Narrows.bind`), forwards to what is read next
and backwards to what has been read before, and no construct needs more than one step for each of its own.

Only the tokens from which positions are read matter to the grammar; they are never negative in a source, so
this is asked of the tokens in front of a reader (`State.Natural`).
-/

namespace PipeExpr

namespace Parse

/-! ## Tokens -/

/-- A token that spells no negative position. -/
def Natural (t : Token) : Prop := ∀ p, property? t = some p → p.Natural

/-- Tokens in front of a reader that spell no negative positions. -/
def State.Natural (s : State) : Prop := ∀ t ∈ s.rest, Parse.Natural t

section States
variable {s s' : State}

theorem State.Natural.current (h : s.Natural) : Parse.Natural s.current := by
  cases hrest : s.rest with
  | cons t rest =>
    rw [State.current_of_cons hrest]
    exact h t (hrest ▸ List.mem_cons_self ..)
  | nil =>
    rw [State.current_of_nil hrest]
    exact fun p hp => nomatch hp

theorem State.Natural.suffix (h : s.Natural) (hrest : s'.rest <:+ s.rest) : s'.Natural :=
  fun t ht => h t (hrest.subset ht)

theorem State.advance_suffix (s : State) : s.advance.rest <:+ s.rest := by
  rw [s.advance_eq]
  split
  · exact List.suffix_refl _
  · rw [(s.moveTo_fields _).1]
    exact List.tail_suffix _

end States

/-! ## The comparison -/

/-- The switches all on, with a limit of nesting. -/
def unlocked (o : Options) (limit : Nat) : Options :=
  { o with nullish := true, chaining := true, pipes := true, maxDepth := limit }

/-- **A reader that narrows another one.**  If `A` holds of what has been read before, its results are those
of the other one of which `P` holds. -/
structure Narrows (o : Options) (limit : Nat) {α : Type} (A : Prop) (P : α → Prop) (p q : Parse α) :
    Prop where
  widen : ∀ {s v s'}, s.Natural → A → p s = (.ok v, s') → P v ∧ q s = (.ok v, s')
  narrow : limit = o.maxDepth → ∀ {s v s'}, s.Natural → P v → q s = (.ok v, s') → A ∧ p s = (.ok v, s')
  natural : ∀ {s}, s.Natural → (q s).2.Natural

/-- A reader that gives up at once. -/
def Refuses {α : Type} (p : Parse α) : Prop := ∀ s, ∃ e, p s = (.error e, s)

section Refusals
variable {α : Type}

theorem refuses_exhausted : Refuses (throw .exhausted : Parse α) := fun _ => ⟨_, rfl⟩

theorem refuses_failAt (position : Position) (f : Fault) : Refuses (failAt position f : Parse α) :=
  fun _ => ⟨_, rfl⟩

theorem refuses_fail (f : Fault) : Refuses (fail f : Parse α) := fun _ => ⟨_, rfl⟩

theorem refuses_unexpected (expected : String) : Refuses (unexpected expected : Parse α) := fun _ => ⟨_, rfl⟩

theorem refuses_unexpectedAs (code : ErrorCode) (expected : String) :
    Refuses (unexpectedAs code expected : Parse α) := fun _ => ⟨_, rfl⟩

theorem refuses_disabled (feature : Feature) : Refuses (disabled feature : Parse α) := fun _ => ⟨_, rfl⟩

theorem refuses_notClosed (bracket : Bracket) (opened : Position) :
    Refuses (notClosed bracket opened : Parse α) := by
  have hcurrent : ∀ f : Token → Parse α, (∀ t, Refuses (f t)) → Refuses (current >>= f) :=
    fun f hf s => hf s.current s
  refine hcurrent _ fun token => ?_
  split
  · exact refuses_failAt _ _
  · exact refuses_fail _
  · exact refuses_fail _
  · exact refuses_unexpected _

end Refusals

namespace Narrows

variable {α β : Type} {o : Options} {limit : Nat} {A : Prop} {P : α → Prop} {R : β → Prop}
  {p q : Parse α} {f g : α → Parse β} {v : α}

theorem pure (h : A ↔ P v) : Narrows o limit A P (Pure.pure v) (Pure.pure v) where
  widen _ hA hrun := by
    cases hrun
    exact ⟨h.mp hA, rfl⟩
  narrow _ _ _ _ _ hv hrun := by
    cases hrun
    exact ⟨h.mpr hv, rfl⟩
  natural hs := hs

/-- A sequence hands on what is known of its first result, and back what is known of its last one. -/
theorem bind (h : Narrows o limit A P p q) (hfg : ∀ v, Narrows o limit (P v) R (f v) (g v)) :
    Narrows o limit A R (p >>= f) (q >>= g) where
  widen {s _ _} hs hA hrun := by
    rw [run_bind] at hrun ⊢
    rcases hp : p s with ⟨e | v, s₁⟩
    · rw [hp] at hrun
      cases hrun
    · rw [hp] at hrun
      obtain ⟨hv, hq⟩ := h.widen hs hA hp
      have hs₁ := h.natural hs
      rw [hq] at hs₁ ⊢
      exact (hfg v).widen hs₁ hv hrun
  narrow hlimit s _ _ hs hw hrun := by
    rw [run_bind] at hrun ⊢
    have hs₁ := h.natural hs
    rcases hq : q s with ⟨e | v, s₁⟩
    · rw [hq] at hrun
      cases hrun
    · rw [hq] at hrun hs₁
      obtain ⟨hv, hf⟩ := (hfg v).narrow hlimit hs₁ hw hrun
      obtain ⟨hA, hp⟩ := h.narrow hlimit hs hv hq
      rw [hp]
      exact ⟨hA, hf⟩
  natural {s} hs := by
    rw [run_bind]
    have hs₁ := h.natural hs
    rcases hq : q s with ⟨e | v, s₁⟩
    · rw [hq] at hs₁
      exact hs₁
    · rw [hq] at hs₁
      exact (hfg v).natural hs₁

/-- A reader tells nothing new if it is the same under all switches. -/
theorem same (hp : ∀ s, (p s).2.rest <:+ s.rest) : Narrows o limit A (fun _ => A) p p :=
  ⟨fun _ hA hrun => ⟨hA, hrun⟩, fun _ _ _ _ _ hA hrun => ⟨hA, hrun⟩, fun hs => hs.suffix (hp _)⟩

theorem never (hp : Refuses p) (hq : Refuses q) : Narrows o limit A P p q where
  widen {s _ _} _ _ hrun := by
    obtain ⟨e, he⟩ := hp s
    rw [he] at hrun
    cases hrun
  narrow _ s _ _ _ _ hrun := by
    obtain ⟨e, he⟩ := hq s
    rw [he] at hrun
    cases hrun
  natural {s} hs := by
    obtain ⟨e, he⟩ := hq s
    rw [he]
    exact hs

/-- **A feature that is switched off.**  What the reader would build is not allowed then. -/
theorem gate {c : Prop} [Decidable c] {r : Parse α} (h : Narrows o limit (A ∧ c) P p q) (hr : Refuses r) :
    Narrows o limit A P (if c then p else r) q := by
  by_cases hc : c
  · rw [if_pos hc]
    refine ⟨fun hs hA => h.widen hs ⟨hA, hc⟩, fun hlimit _ _ _ hs hv hrun => ?_, h.natural⟩
    obtain ⟨⟨hA, _⟩, hp⟩ := h.narrow hlimit hs hv hrun
    exact ⟨hA, hp⟩
  · rw [if_neg hc]
    refine ⟨fun {s _ _} _ _ hrun => ?_, fun hlimit _ _ _ hs hv hrun => ?_, h.natural⟩
    · obtain ⟨e, he⟩ := hr s
      rw [he] at hrun
      cases hrun
    · exact absurd (h.narrow hlimit hs hv hrun).1.2 hc

/-- What is known from before stays known. -/
theorem behind (h : Narrows o limit True P p q) (A : Prop) : Narrows o limit A (fun v => A ∧ P v) p q where
  widen hs hA hrun := by
    obtain ⟨hv, hq⟩ := h.widen hs trivial hrun
    exact ⟨⟨hA, hv⟩, hq⟩
  narrow hlimit _ _ _ hs hv hrun := ⟨hv.1, (h.narrow hlimit hs hv.2 hrun).2⟩
  natural := h.natural

theorem congr {A' : Prop} (h : Narrows o limit A P p q) (hA : A' ↔ A) : Narrows o limit A' P p q where
  widen hs hA' := h.widen hs (hA.mp hA')
  narrow hlimit _ _ _ hs hv hrun := (h.narrow hlimit hs hv hrun).imp_left hA.mpr
  natural := h.natural

theorem map (f : α → β) (h : Narrows o limit A P p q) (hP : ∀ v, P v ↔ R (f v)) :
    Narrows o limit A R (f <$> p) (f <$> q) := by
  rw [map_eq_pure_bind, map_eq_pure_bind]
  exact h.bind fun v => pure (hP v)

/-! ### Primitives -/

theorem current {f g : Token → Parse β} (h : ∀ t, Natural t → Narrows o limit A R (f t) (g t)) :
    Narrows o limit A R (Parse.current >>= f) (Parse.current >>= g) where
  widen {s _ _} hs := (h s.current hs.current).widen hs
  narrow hlimit s _ _ hs := (h s.current hs.current).narrow hlimit hs
  natural {s} hs := (h s.current hs.current).natural hs

theorem currentKind {f g : TokenKind → Parse β} (h : ∀ k, Narrows o limit A R (f k) (g k)) :
    Narrows o limit A R (Parse.currentKind >>= f) (Parse.currentKind >>= g) :=
  @current β o limit A R (fun t => f t.kind) (fun t => g t.kind) fun t _ => h t.kind

theorem looksAt (s : Symbol) {f g : Bool → Parse β} (h : ∀ b, Narrows o limit A R (f b) (g b)) :
    Narrows o limit A R (Parse.looksAt s >>= f) (Parse.looksAt s >>= g) :=
  @current β o limit A R (fun t => f (t.kind.isSymbol s)) (fun t => g (t.kind.isSymbol s)) fun _ _ => h _

theorem advance : Narrows o limit A (fun _ => A) Parse.advance Parse.advance :=
  same State.advance_suffix

theorem recordAt (position : Position) (f : Fault) :
    Narrows o limit A (fun _ => A) (Parse.recordAt position f) (Parse.recordAt position f) :=
  same fun s => by
    have hrest := (s.record_fields (f.report position)).1
    exact hrest ▸ List.suffix_refl _

theorem deeper (h : Narrows o limit A P p q) : Narrows o limit A P (Parse.deeper p) (Parse.deeper q) where
  widen {s _ _} hs hA hrun := by
    obtain ⟨hresult, hstate⟩ := Prod.mk.inj hrun
    obtain ⟨hv, hq⟩ := @h.widen { s with depth := s.depth + 1 } _ _ hs hA (Prod.ext hresult rfl)
    refine ⟨hv, ?_⟩
    rw [← hstate]
    unfold Parse.deeper
    rw [hq]
  narrow hlimit s _ _ hs hv hrun := by
    obtain ⟨hresult, hstate⟩ := Prod.mk.inj hrun
    obtain ⟨hA, hp⟩ := @h.narrow hlimit { s with depth := s.depth + 1 } _ _ hs hv (Prod.ext hresult rfl)
    refine ⟨hA, ?_⟩
    rw [← hstate]
    unfold Parse.deeper
    rw [hp]
  natural {s} hs := @h.natural { s with depth := s.depth + 1 } hs

/-- A smaller limit of nesting is kept wherever a greater one is, and the greater one if it is the same. -/
theorem nested (hlimit : o.maxDepth ≤ limit) (h : Narrows o limit A P p q) :
    Narrows o limit A P (Parse.nested o p) (Parse.nested (unlocked o limit) q) := by
  have hdeep : ∀ (o : Options) (p : Parse α) {s : State}, o.maxDepth ≤ s.depth →
      Parse.nested o p s = Parse.fail (.maxDepthExceeded o.maxDepth) s := by
    intro o p s hs
    show (if s.depth ≥ o.maxDepth then Parse.fail _ else Parse.deeper p : Parse α) s = _
    rw [if_pos hs]
  have hroom : ∀ (o : Options) (p : Parse α) {s : State}, s.depth < o.maxDepth →
      Parse.nested o p s = Parse.deeper p s := by
    intro o p s hs
    show (if s.depth ≥ o.maxDepth then Parse.fail _ else Parse.deeper p : Parse α) s = _
    rw [if_neg (Nat.not_le.mpr hs)]
  refine ⟨fun {s _ _} hs hA hrun => ?_, fun hsame s _ _ hs hv hrun => ?_, fun {s} hs => ?_⟩
  · rcases Nat.lt_or_ge s.depth o.maxDepth with hs' | hs'
    · rw [hroom o p hs'] at hrun
      rw [hroom (unlocked o limit) q (Nat.lt_of_lt_of_le hs' hlimit)]
      exact h.deeper.widen hs hA hrun
    · rw [hdeep o p hs'] at hrun
      cases hrun
  · rcases Nat.lt_or_ge s.depth limit with hs' | hs'
    · rw [hroom (unlocked o limit) q hs'] at hrun
      rw [hroom o p (hsame ▸ hs')]
      exact h.deeper.narrow hsame hs hv hrun
    · rw [hdeep (unlocked o limit) q hs'] at hrun
      cases hrun
  · rcases Nat.lt_or_ge s.depth limit with hs' | hs'
    · rw [hroom (unlocked o limit) q hs']
      exact h.deeper.natural hs
    · rw [hdeep (unlocked o limit) q hs']
      exact hs

end Narrows

end Parse

/-! ## The grammar -/

namespace Expr

/-- Whether all nodes of a tree are allowed by the switches, and such that the grammar has them. -/
def Fits (o : Options) (e : Expr) : Prop := e.All fun x => x.AllowedBy o ∧ x.Formed

section Fits
variable {o : Options} {pos : Position} {e target : Expr} {optional : Bool}

theorem fits_iff : e.Fits o ↔ (e.AllowedBy o ∧ e.Formed) ∧ ∀ y ∈ e.children, y.Fits o := all_iff

theorem fits_leaf (hallowed : e.AllowedBy o) (hformed : e.Formed) (hchildren : e.children = []) : e.Fits o :=
  Iff.mpr fits_iff ⟨⟨hallowed, hformed⟩, by simp [hchildren]⟩

theorem fits_reference {name : String} :
    (reference pos name optional).Fits o ↔ (optional = true → o.chaining = true) := by
  refine Iff.trans fits_iff ?_
  show ((optional = true → o.chaining = true) ∧ True) ∧ (∀ y ∈ ([] : List Expr), y.Fits o) ↔ _
  simp

theorem fits_unary {op : UnaryOp} : (unary pos op e).Fits o ↔ e.Fits o := by
  refine Iff.trans fits_iff ?_
  show (True ∧ True) ∧ (∀ y ∈ [e], y.Fits o) ↔ _
  simp

theorem fits_binary {op : BinaryOp} {left right : Expr} : (binary pos op left right).Fits o ↔
    (op = .nullCoalesce → o.nullish = true) ∧ left.Fits o ∧ right.Fits o := by
  refine Iff.trans fits_iff ?_
  show ((op = .nullCoalesce → o.nullish = true) ∧ True) ∧ (∀ y ∈ [left, right], y.Fits o) ↔ _
  simp

theorem fits_conditional {condition consequent alternate : Expr} :
    (conditional pos condition consequent alternate).Fits o ↔
      condition.Fits o ∧ consequent.Fits o ∧ alternate.Fits o := by
  refine Iff.trans fits_iff ?_
  show (True ∧ True) ∧ (∀ y ∈ [condition, consequent, alternate], y.Fits o) ↔ _
  simp

theorem fits_array {items : List Expr} : (array pos items).Fits o ↔ ∀ e ∈ items, e.Fits o := by
  refine Iff.trans fits_iff ?_
  show (True ∧ True) ∧ (∀ y ∈ items, y.Fits o) ↔ _
  simp

theorem fits_object {entries : List (String × Expr)} :
    (object pos entries).Fits o ↔ ∀ entry ∈ entries, entry.2.Fits o := by
  refine Iff.trans fits_iff ?_
  show (True ∧ True) ∧ (∀ y ∈ entries.map Prod.snd, y.Fits o) ↔ _
  simp only [List.forall_mem_map, true_and]

theorem fits_call {arguments : List Expr} : (call pos target arguments).Fits o ↔
    target.isCallable = true ∧ target.Fits o ∧ ∀ e ∈ arguments, e.Fits o := by
  refine Iff.trans fits_iff ?_
  show (True ∧ target.isCallable = true) ∧ (∀ y ∈ target :: arguments, y.Fits o) ↔ _
  simp

theorem fits_member {property : Property} : (member pos target property optional).Fits o ↔
    (optional = true → o.chaining = true) ∧ property.Natural ∧ target.Fits o := by
  refine Iff.trans fits_iff ?_
  show ((optional = true → o.chaining = true) ∧ property.Natural) ∧ (∀ y ∈ [target], y.Fits o) ↔ _
  simp [and_assoc]

theorem fits_index {key : Expr} : (index pos target key optional).Fits o ↔
    (optional = true → o.chaining = true) ∧ target.Fits o ∧ key.Fits o := by
  refine Iff.trans fits_iff ?_
  show ((optional = true → o.chaining = true) ∧ True) ∧ (∀ y ∈ [target, key], y.Fits o) ↔ _
  simp

theorem fits_slice {start stop step : Option Expr} : (slice pos target start stop step optional).Fits o ↔
    (optional = true → o.chaining = true) ∧ target.Fits o ∧ (∀ e ∈ start, e.Fits o) ∧
      (∀ e ∈ stop, e.Fits o) ∧ ∀ e ∈ step, e.Fits o := by
  refine Iff.trans fits_iff ?_
  show ((optional = true → o.chaining = true) ∧ True) ∧
    (∀ y ∈ target :: (start.toList ++ stop.toList ++ step.toList), y.Fits o) ↔ _
  simp [or_imp, forall_and]

end Fits

end Expr

namespace Parse

variable {o : Options} {limit : Nat} {A : Prop}

theorem close_narrows (bracket : Bracket) (opened : Position) :
    Narrows o limit A (fun _ => A) (close bracket opened) (close bracket opened) := by
  refine .looksAt _ fun found => ?_
  split
  · exact .advance
  · exact .never (refuses_notClosed _ _) (refuses_notClosed _ _)

section Lists
variable {α : Type} {P : α → Prop} {item item' : Parse α} (hitem : Narrows o limit True P item item')
include hitem

theorem listItems_narrows (bracket : Bracket) (opened : Position) (n : Nat) (items : List α) :
    Narrows o limit (∀ x ∈ items, P x) (fun read => ∀ x ∈ read, P x)
      (listItems bracket opened item n items) (listItems bracket opened item' n items) := by
  have hclosed : Refuses (notClosed bracket opened : Parse (List α)) := refuses_notClosed _ _
  induction n generalizing items with
  | zero => exact .never refuses_exhausted refuses_exhausted
  | succ n ih =>
    rw [listItems, listItems]
    refine .looksAt _ fun closing => ?_
    split
    · exact .bind .advance fun _ => .pure (by simp only [List.mem_reverse])
    refine .looksAt _ fun comma => ?_
    split
    · exact .current fun _ _ => (Narrows.recordAt _ _).bind fun _ => .bind .advance fun _ => ih items
    refine .currentKind fun kind => ?_
    split
    · exact .never hclosed hclosed
    refine (hitem.behind _).bind fun x => ?_
    have hnext : Narrows o limit ((∀ x ∈ items, P x) ∧ P x) (fun read => ∀ x ∈ read, P x)
        (listItems bracket opened item n (x :: items)) (listItems bracket opened item' n (x :: items)) :=
      (ih (x :: items)).congr (by rw [List.forall_mem_cons, and_comm])
    refine .looksAt _ fun comma => ?_
    split
    · refine .current fun _ _ => .bind .advance fun _ => .looksAt _ fun closing => ?_
      split
      · exact (Narrows.recordAt _ _).bind fun _ => hnext
      · exact hnext
    refine .looksAt _ fun closing => ?_
    split
    · exact hnext
    · exact .never hclosed hclosed

theorem list_narrows (bracket : Bracket) (opened : Position) (n : Nat) :
    Narrows o limit A (fun read => A ∧ ∀ x ∈ read, P x)
      (listItems bracket opened item n []) (listItems bracket opened item' n []) :=
  Narrows.behind ((listItems_narrows hitem bracket opened n []).congr (by simp)) A

end Lists

section Nested
variable {expr expr' : Parse Expr} (hexpr : Narrows o limit True (Expr.Fits o) expr expr')
include hexpr

/-! ### Primaries -/

theorem objectEntry_narrows :
    Narrows o limit True (fun entry => entry.2.Fits o) (objectEntry expr) (objectEntry expr') := by
  refine .current fun token _ => ?_
  split
  · exact .never (refuses_fail _) (refuses_fail _)
  · refine .bind .advance fun _ => .looksAt _ fun colon => ?_
    split
    · exact .bind .advance fun _ => hexpr.bind fun _ => .pure Iff.rfl
    · exact .never (refuses_unexpectedAs _ _) (refuses_unexpectedAs _ _)

omit hexpr in
theorem leadingDot_narrows (optional : Bool) (position : Position) :
    Narrows o limit True (Expr.Fits o) (leadingDot o optional position)
      (leadingDot (unlocked o limit) optional position) := by
  unfold leadingDot
  rw [if_neg (show ¬ (optional && !(unlocked o limit).chaining) = true by simp [unlocked]), ← ite_not]
  refine .gate ?_ (refuses_disabled _)
  refine .bind .advance fun _ => .currentKind fun kind => ?_
  split
  · refine .bind .advance fun _ => .pure ?_
    rw [Expr.fits_reference]
    simp
  · exact .never (refuses_unexpectedAs _ _) (refuses_unexpectedAs _ _)

theorem parenthesized_narrows (position : Position) :
    Narrows o limit True (Expr.Fits o) (parenthesized expr position) (parenthesized expr' position) := by
  refine .bind .advance fun _ => .looksAt _ fun closing => ?_
  split
  · exact .never (refuses_fail _) (refuses_fail _)
  · exact hexpr.bind fun _ => (close_narrows _ _).bind fun _ => .pure Iff.rfl

theorem primary_narrows (n : Nat) :
    Narrows o limit True (Expr.Fits o) (primary o expr n) (primary (unlocked o limit) expr' n) := by
  have hleaf : ∀ e : Expr, e.AllowedBy o → e.Formed → e.children = [] →
      Narrows o limit True (Expr.Fits o) (do Parse.advance; return e) (do Parse.advance; return e) := by
    intro e hallowed hformed hchildren
    exact .bind .advance fun _ =>
      .pure (iff_of_true trivial (Expr.fits_leaf hallowed hformed hchildren))
  refine .current fun token _ => ?_
  dsimp only
  split
  · exact hleaf _ trivial trivial rfl
  · exact hleaf _ trivial trivial rfl
  · exact hleaf _ trivial trivial rfl
  · exact hleaf _ trivial trivial rfl
  · exact hleaf _ Bool.noConfusion trivial rfl
  · exact leadingDot_narrows _ _
  · exact leadingDot_narrows _ _
  · exact parenthesized_narrows hexpr _
  · exact .bind .advance fun _ => (list_narrows hexpr _ _ _).bind fun items =>
      .pure (by rw [Expr.fits_array, true_and])
  · exact .bind .advance fun _ => (list_narrows (objectEntry_narrows hexpr) _ _ _).bind fun entries =>
      .pure (by rw [Expr.fits_object, true_and])
  · exact .never (refuses_unexpected _) (refuses_unexpected _)

/-! ### Postfix chains -/

/-- What is asked of a step of a chain: its target fits, and chaining is on if the step is optional. -/
def Attached (o : Options) (target : Expr) (optional : Bool) : Prop :=
  (optional = true → o.chaining = true) ∧ target.Fits o

omit hexpr in
theorem attached_required {target : Expr} : target.Fits o ↔ Attached o target false := by simp [Attached]

omit hexpr in
theorem attached_optional {target : Expr} :
    target.Fits o ∧ o.chaining = true ↔ Attached o target true := by simp [Attached, and_comm]

theorem member_narrows (target : Expr) (optional : Bool) :
    Narrows o limit (Attached o target optional) (Expr.Fits o) (member expr target optional)
      (member expr' target optional) := by
  refine .current fun token htoken => ?_
  split
  · rename_i property hproperty
    refine .bind .advance fun _ => .pure ?_
    rw [Expr.fits_member, Attached, and_iff_right (htoken property hproperty)]
  split
  · refine .bind .advance fun _ => (hexpr.behind _).bind fun key =>
      (close_narrows _ _).bind fun _ => .pure ?_
    rw [Expr.fits_index, Attached, and_assoc]
  · exact .never (refuses_unexpectedAs _ _) (refuses_unexpectedAs _ _)

/-- A bound of a slice may be missing. -/
theorem sliceBound_narrows {α : Type} {R : α → Prop} (missing : Bool) {f g : Option Expr → Parse α}
    (hfg : ∀ bound : Option Expr, Narrows o limit (A ∧ ∀ e ∈ bound, e.Fits o) R (f bound) (g bound)) :
    Narrows o limit A R (if missing = true then pure none >>= f else some <$> expr >>= f)
      (if missing = true then pure none >>= g else some <$> expr' >>= g) := by
  have hnone : Narrows o limit A (fun bound => A ∧ ∀ e ∈ bound, e.Fits o) (pure none : Parse (Option Expr))
      (pure none) := .pure (by simp)
  have hsome : Narrows o limit A (fun bound => A ∧ ∀ e ∈ bound, e.Fits o) (some <$> expr) (some <$> expr') :=
    (hexpr.behind A).map some fun e => by simp
  split
  · exact hnone.bind hfg
  · exact hsome.bind hfg

theorem sliceRest_narrows (target : Expr) (start : Option Expr) (optional : Bool) (opened : Position) :
    Narrows o limit (Attached o target optional ∧ ∀ e ∈ start, e.Fits o) (Expr.Fits o)
      (sliceRest expr target start optional opened) (sliceRest expr' target start optional opened) := by
  refine .looksAt _ fun colon => .looksAt _ fun closing =>
    sliceBound_narrows hexpr _ fun stop => .looksAt _ fun colon => ?_
  split
  · refine .bind .advance fun _ => .looksAt _ fun closing =>
      sliceBound_narrows hexpr _ fun step => (close_narrows _ _).bind fun _ => .pure ?_
    simp only [Expr.fits_slice, Attached, and_assoc]
  · refine (close_narrows _ _).bind fun _ => .pure ?_
    simp only [Expr.fits_slice, Attached, and_assoc]
    simp

theorem brackets_narrows (target : Expr) (optional : Bool) (opened : Position) :
    Narrows o limit (Attached o target optional) (Expr.Fits o) (brackets expr target optional opened)
      (brackets expr' target optional opened) := by
  refine .looksAt _ fun closing => ?_
  split
  · exact .never (refuses_fail _) (refuses_fail _)
  refine .looksAt _ fun colon => ?_
  split
  · exact .bind .advance fun _ =>
      (sliceRest_narrows hexpr _ none _ _).congr (by simp)
  refine (hexpr.behind _).bind fun first => .looksAt _ fun colon => ?_
  split
  · exact .bind .advance fun _ =>
      (sliceRest_narrows hexpr _ (some first) _ _).congr (by simp)
  · refine (close_narrows _ _).bind fun _ => .pure ?_
    rw [Expr.fits_index, Attached, and_assoc]

/-- What a step of a chain leaves behind is what it has read, or the target if there is no step. -/
theorem postfixStep_narrows (n : Nat) (target : Expr) :
    Narrows o limit (target.Fits o) (fun longer => (longer.getD target).Fits o)
      (postfixStep o expr n target) (postfixStep (unlocked o limit) expr' n target) := by
  have hchaining : (unlocked o limit).chaining = true := rfl
  refine .current fun token _ => ?_
  split
  · exact .bind .advance fun _ =>
      ((member_narrows hexpr target false).congr attached_required).map some fun _ => Iff.rfl
  · rw [if_pos hchaining]
    exact .gate (.bind .advance fun _ =>
      ((member_narrows hexpr target true).congr attached_optional).map some fun _ => Iff.rfl)
      (refuses_disabled _)
  · exact .bind .advance fun _ =>
      ((brackets_narrows hexpr target false _).congr attached_required).map some fun _ => Iff.rfl
  · rw [if_pos hchaining]
    exact .gate (.bind .advance fun _ =>
      ((brackets_narrows hexpr target true _).congr attached_optional).map some fun _ => Iff.rfl)
      (refuses_disabled _)
  · split
    · rename_i hcallable
      refine .bind .advance fun _ => (list_narrows hexpr _ _ _).bind fun arguments => .pure ?_
      rw [Option.getD_some, Expr.fits_call, and_iff_right hcallable]
    · exact .never (refuses_fail _) (refuses_fail _)
  · exact .pure Iff.rfl

theorem postfixChain_narrows (n k : Nat) (target : Expr) :
    Narrows o limit (target.Fits o) (Expr.Fits o) (postfixChain o expr n k target)
      (postfixChain (unlocked o limit) expr' n k target) := by
  induction k generalizing target with
  | zero => exact .never refuses_exhausted refuses_exhausted
  | succ k ih =>
    rw [postfixChain, postfixChain]
    refine (postfixStep_narrows hexpr n target).bind fun longer => ?_
    cases longer with
    | none => exact .pure Iff.rfl
    | some longer => exact ih longer

/-! ### Operators -/

section Operators
variable (hlimit : o.maxDepth ≤ limit)
include hlimit

theorem prefixed_narrows (n k : Nat) :
    Narrows o limit True (Expr.Fits o) (prefixed o expr n k) (prefixed (unlocked o limit) expr' n k) := by
  induction k with
  | zero => exact .never refuses_exhausted refuses_exhausted
  | succ k ih =>
    rw [prefixed, prefixed]
    refine .current fun token _ => ?_
    split
    · exact .bind .advance fun _ => (ih.nested hlimit).bind fun operand => .pure (Iff.symm Expr.fits_unary)
    · exact (primary_narrows hexpr n).bind fun first => postfixChain_narrows hexpr n n first

theorem power_narrows (n k : Nat) :
    Narrows o limit True (Expr.Fits o) (power o expr n k) (power (unlocked o limit) expr' n k) := by
  induction k with
  | zero => exact .never refuses_exhausted refuses_exhausted
  | succ k ih =>
    rw [power, power]
    refine (prefixed_narrows hexpr hlimit n n).bind fun base => .currentKind fun kind => ?_
    split
    · refine .bind .advance fun _ => ((ih.nested hlimit).behind _).bind fun exponent => .pure ?_
      simp [Expr.fits_binary]
    · exact .pure Iff.rfl

omit hexpr hlimit in
theorem operands_narrows (lvl : Nat) {operand operand' : Parse Expr}
    (hoperand : Narrows o limit True (Expr.Fits o) operand operand') (k : Nat) (left : Expr) :
    Narrows o limit (left.Fits o) (Expr.Fits o) (operands o lvl operand k left)
      (operands (unlocked o limit) lvl operand' k left) := by
  induction k generalizing left with
  | zero => exact .never refuses_exhausted refuses_exhausted
  | succ k ih =>
    rw [operands, operands]
    refine .currentKind fun kind => ?_
    split
    · exact .pure Iff.rfl
    · rename_i op _
      have hunlocked : ¬ (op = .nullCoalesce && !(unlocked o limit).nullish) = true := by simp [unlocked]
      rw [if_neg hunlocked, ← ite_not]
      refine .gate ?_ (refuses_disabled _)
      refine .bind .advance fun _ => (hoperand.behind _).bind fun right => ?_
      refine (ih (.binary left.position op left right)).congr ?_
      simp only [Expr.fits_binary]
      cases o.nullish <;> simp [and_comm, and_assoc]

theorem level_narrows (n lvl : Nat) :
    Narrows o limit True (Expr.Fits o) (level o expr n lvl) (level (unlocked o limit) expr' n lvl) := by
  induction lvl with
  | zero => exact power_narrows hexpr hlimit n n
  | succ lvl ih =>
    rw [level, level]
    exact ih.bind fun left => operands_narrows _ ih n left

theorem conditional_narrows (n : Nat) :
    Narrows o limit True (Expr.Fits o) (conditional o expr n) (conditional (unlocked o limit) expr' n) := by
  refine (level_narrows hexpr hlimit n _).bind fun condition => .looksAt _ fun question => ?_
  split
  · refine .current fun _ _ => .bind .advance fun _ => (hexpr.behind _).bind fun consequent =>
      .looksAt _ fun colon => ?_
    split
    · refine .bind .advance fun _ => (hexpr.behind _).bind fun alternate => .pure ?_
      rw [Expr.fits_conditional, and_assoc]
    refine .currentKind fun kind => ?_
    split
    · exact .never (refuses_notClosed _ _) (refuses_notClosed _ _)
    · exact .never (refuses_notClosed _ _) (refuses_notClosed _ _)
    · exact .never (refuses_notClosed _ _) (refuses_notClosed _ _)
    · exact .never (refuses_unexpected _) (refuses_unexpected _)
  · exact .pure Iff.rfl

end Operators

end Nested

/-- **Expressions are read under fewer switches as under all of them**, if their trees fit. -/
theorem expression_narrows (hlimit : o.maxDepth ≤ limit) (n k : Nat) :
    Narrows o limit True (Expr.Fits o) (expression o n k) (expression (unlocked o limit) n k) := by
  induction k with
  | zero => exact .never refuses_exhausted refuses_exhausted
  | succ k ih =>
    rw [expression, expression]
    exact (conditional_narrows ih hlimit n).nested hlimit

/-! ### Stages -/

/-- What a stage of a chain consists of: a tree that fits, and if it has an alias, a local name. -/
structure Sound (o : Options) (stage : Stage Expr) : Prop where
  body : stage.body.Fits o
  boundAs : ∀ name ∈ stage.boundAs, isLocalName name = true ∧ 1 < name.length

theorem aliasName_narrows : Narrows o limit A
    (fun name => A ∧ isLocalName name = true ∧ 1 < name.length) aliasName aliasName := by
  refine .currentKind fun kind => ?_
  split
  · rename_i name
    by_cases hname : (isLocalName name && decide (name.length > 1)) = true
    · rw [if_pos hname]
      simp only [Bool.and_eq_true, decide_eq_true_eq] at hname
      exact .bind .advance fun _ => .pure (by simp [hname])
    · rw [if_neg hname]
      exact .never (refuses_fail _) (refuses_fail _)
  · exact .never (refuses_unexpected _) (refuses_unexpected _)

theorem optionalAlias_narrows : Narrows o limit A
    (fun boundAs => A ∧ ∀ name ∈ boundAs, isLocalName name = true ∧ 1 < name.length)
    optionalAlias optionalAlias := by
  refine .looksAt _ fun found => ?_
  split
  · refine .bind .advance fun _ => .bind aliasName_narrows fun name => .looksAt _ fun again => ?_
    split
    · exact .never (refuses_fail _) (refuses_fail _)
    · exact .pure (by simp)
  · exact .pure (by simp)

theorem stage_narrows {expr expr' : Parse Expr} (hexpr : Narrows o limit True (Expr.Fits o) expr expr')
    (handler : String) (position : Position) :
    Narrows o limit True (Sound o) (stage expr handler position) (stage expr' handler position) := by
  have hbody : Narrows o limit True (Sound o)
      (do let body ← expr; let boundAs ← optionalAlias; return Stage.mk handler boundAs position body)
      (do let body ← expr'; let boundAs ← optionalAlias; return Stage.mk handler boundAs position body) :=
    hexpr.bind fun _ => .bind optionalAlias_narrows fun _ =>
      .pure ⟨fun h => ⟨h.1, h.2⟩, fun h => ⟨h.body, h.boundAs⟩⟩
  have hfail : ∀ f : Fault, Narrows o limit True (fun _ => True) (failAt position f : Parse PUnit)
      (failAt position f) := fun f => .never (refuses_failAt _ _) (refuses_failAt _ _)
  unfold stage
  split
  · refine .currentKind fun kind => ?_
    split
    · exact (hfail _).bind fun _ => hbody
    · exact (hfail _).bind fun _ => hbody
    · exact (hfail _).bind fun _ => hbody
    · exact hbody
  · exact hbody

end Parse

end PipeExpr
