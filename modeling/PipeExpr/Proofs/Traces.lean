import PipeExpr.Proofs.Nesting
import PipeExpr.Proofs.Nodes

/-!
# What tokens leave in a tree

A tree keeps of its tokens the places of some.  Which ones is told without looking at the places: a row of tokens
*leaves* a row of trees (`Leaves`) if each tree comes from a stretch of the row that is its own, in the order of
the trees.  The stretch of a node starts with a token of its own, which gives the node its place, or it starts
with that of its first child, which hands its place on.  Brackets, commas and whatever else a tree does not keep
are tokens that are skipped.

**A reader that has a tree has passed a row of tokens that leaves this tree** (`Parse.expression_yields`).  If
the places in the row increase, all that is known of places in trees follows from this (`Leaves.placed`).
-/

namespace PipeExpr

/-- The order of places in a text. -/
def Position.Before (p q : Position) : Prop := p.line < q.line ∨ p.line = q.line ∧ p.column < q.column

namespace Expr

/-- Whether a node starts with a token of its own. -/
def starts : Expr → Bool
  | .binary .. | .conditional .. | .call .. | .member .. | .index .. | .slice .. | .pipe .. => false
  | _ => true

/-- **Where a node stands.**  A node that starts with a token of its own stands in front of its children, and one
of operators or of access where its first child stands. -/
def Anchored (e : Expr) : Prop :=
  match e with
  | .unary .. | .array .. | .object .. => ∀ c ∈ e.children, e.position.Before c.position
  | .binary .. | .conditional .. | .call .. | .member .. | .index .. | .slice .. =>
    ∃ c rest, e.children = c :: rest ∧ e.position = c.position
  | _ => True

/-- **A node in its place** among the tokens of a row: it has the place of one of them, is anchored, and its
children stand in the order of the source. -/
structure InPlace (ts : List Token) (e : Expr) : Prop where
  token : ∃ t ∈ ts, t.position = e.position
  anchored : e.Anchored
  siblings : e.children.Pairwise fun a b => a.position.Before b.position

end Expr

/-- **A row of tokens leaves a row of trees.** -/
inductive Leaves : List Token → List Expr → Prop where
  | done (ts : List Token) : Leaves ts []
  | skip {t : Token} {ts : List Token} {es : List Expr} (h : Leaves ts es) : Leaves (t :: ts) es
  | own {t : Token} {ts ts' : List Token} {e : Expr} {es : List Expr} (place : e.position = t.position)
    (starts : e.starts = true) (children : Leaves ts e.children) (rest : Leaves ts' es) :
    Leaves (t :: (ts ++ ts')) (e :: es)
  | first {ts ts' : List Token} {e c : Expr} {cs es : List Expr} (parts : e.children = c :: cs)
    (place : e.position = c.position) (follows : e.starts = false) (children : Leaves ts e.children)
    (rest : Leaves ts' es) : Leaves (ts ++ ts') (e :: es)

section Leaves
variable {t : Token} {ts ts' : List Token} {e c : Expr} {es es' cs : List Expr}

theorem Leaves.append (h : Leaves ts es) (h' : Leaves ts' es') : Leaves (ts ++ ts') (es ++ es') := by
  induction h with
  | done ts =>
    induction ts with
    | nil => exact h'
    | cons t ts ih => exact .skip ih
  | skip _ ih => exact .skip ih
  | own place starts children _ _ ih =>
    rw [List.cons_append, List.append_assoc]
    exact .own place starts children ih
  | first parts place follows children _ _ ih =>
    rw [List.append_assoc]
    exact .first parts place follows children ih

/-- Tokens in front are skipped. -/
theorem Leaves.behind (h : Leaves ts es) (front : List Token) : Leaves (front ++ ts) es :=
  (Leaves.done front).append h

/-- Tokens behind are skipped. -/
theorem Leaves.front (h : Leaves ts es) (back : List Token) : Leaves (ts ++ back) es := by
  have happend := h.append (.done back)
  rwa [List.append_nil] at happend

/-- A node with a token of its own, alone. -/
theorem Leaves.of_own (place : e.position = t.position) (starts : e.starts = true) (h : Leaves ts e.children) :
    Leaves (t :: ts) [e] := by
  have hown := Leaves.own place starts h (.done [])
  rwa [List.append_nil] at hown

/-- A node behind its first child, alone. -/
theorem Leaves.of_first (parts : e.children = c :: cs) (place : e.position = c.position)
    (follows : e.starts = false) (h : Leaves ts (c :: cs)) : Leaves ts [e] := by
  have hfirst := Leaves.first parts place follows (parts ▸ h) (.done [])
  rwa [List.append_nil] at hfirst

/-- A node that starts with a token of its own stands in front of children that stand behind this token. -/
theorem Expr.anchored_of_starts (starts : e.starts = true)
    (h : ∀ c ∈ e.children, e.position.Before c.position) : e.Anchored := by
  cases e <;> first | exact h | exact True.intro | cases starts

theorem Expr.anchored_of_follows (follows : e.starts = false) (parts : e.children = c :: cs)
    (place : e.position = c.position) : e.Anchored := by
  have hfirst : ∃ c rest, e.children = c :: rest ∧ e.position = c.position := ⟨c, cs, parts, place⟩
  cases e <;> first | exact hfirst | exact True.intro | cases follows

theorem Expr.InPlace.mono (h : e.InPlace ts) (hts : ts ⊆ ts') : e.InPlace ts' := by
  obtain ⟨⟨t, ht, hplace⟩, hanchored, hsiblings⟩ := h
  exact ⟨⟨t, hts ht, hplace⟩, hanchored, hsiblings⟩

theorem Expr.all_inPlace_mono (h : e.All fun x => x.InPlace ts) (hts : ts ⊆ ts') :
    e.All fun x => x.InPlace ts' := fun x hx => (h x hx).mono hts

/-- A tree and the trees behind it, which come from two stretches of a row. -/
theorem inPlace_cons (hts : (ts ++ ts').Pairwise fun t u => t.position.Before u.position)
    (he : e.All fun x => x.InPlace ts) (hes : ∀ e ∈ es, e.All fun x => x.InPlace ts')
    (hpairwise : es.Pairwise fun a b => a.position.Before b.position) :
    (∀ x ∈ e :: es, x.All fun y => y.InPlace (ts ++ ts')) ∧
      (e :: es).Pairwise fun a b => a.position.Before b.position := by
  refine ⟨List.forall_mem_cons.mpr ⟨Expr.all_inPlace_mono he (List.subset_append_left ..), fun x hx =>
    Expr.all_inPlace_mono (hes x hx) (List.subset_append_right ..)⟩,
    List.pairwise_cons.mpr ⟨fun x hx => ?_, hpairwise⟩⟩
  obtain ⟨t, ht, hplace⟩ := (he e .root).token
  obtain ⟨u, hu, hplace'⟩ := (hes x hx x .root).token
  rw [← hplace, ← hplace']
  exact (List.pairwise_append.mp hts).2.2 t ht u hu

/-- **What a row of tokens leaves is in its place**, if the places in the row increase. -/
theorem Leaves.placed (h : Leaves ts es) (hts : ts.Pairwise fun t u => t.position.Before u.position) :
    (∀ e ∈ es, e.All fun x => x.InPlace ts) ∧ es.Pairwise fun a b => a.position.Before b.position := by
  induction h with
  | done => exact ⟨fun _ h => absurd h List.not_mem_nil, .nil⟩
  | skip _ ih =>
    obtain ⟨hall, hpairwise⟩ := ih (List.pairwise_cons.mp hts).2
    exact ⟨fun e he => Expr.all_inPlace_mono (hall e he) (List.subset_cons_self ..), hpairwise⟩
  | @own t ts ts' e es place starts _ _ ihc ih =>
    rw [← List.cons_append] at hts ⊢
    obtain ⟨hfront, hback, _⟩ := List.pairwise_append.mp hts
    obtain ⟨hbefore, hchildren⟩ := List.pairwise_cons.mp hfront
    obtain ⟨hall, hsiblings⟩ := ihc hchildren
    obtain ⟨hes, hpairwise⟩ := ih hback
    have hinFront : ∀ c ∈ e.children, e.position.Before c.position := by
      intro c hc
      obtain ⟨u, hu, hplace⟩ := (hall c hc c .root).token
      rw [place, ← hplace]
      exact hbefore u hu
    have hroot : e.InPlace (t :: ts) :=
      ⟨⟨t, List.mem_cons_self .., place.symm⟩, Expr.anchored_of_starts starts hinFront, hsiblings⟩
    exact inPlace_cons hts (Expr.all_iff.mpr ⟨hroot, fun c hc =>
      Expr.all_inPlace_mono (hall c hc) (List.subset_cons_self ..)⟩) hes hpairwise
  | @first ts ts' e c cs es parts place follows _ _ ihc ih =>
    obtain ⟨hfront, hback, _⟩ := List.pairwise_append.mp hts
    obtain ⟨hall, hsiblings⟩ := ihc hfront
    obtain ⟨hes, hpairwise⟩ := ih hback
    obtain ⟨t, ht, hplace⟩ := (hall c (parts ▸ List.mem_cons_self ..) c .root).token
    have hroot : e.InPlace ts :=
      ⟨⟨t, ht, hplace.trans place.symm⟩, Expr.anchored_of_follows follows parts place, hsiblings⟩
    exact inPlace_cons hts (Expr.all_iff.mpr ⟨hroot, hall⟩) hes hpairwise

end Leaves

namespace Parse

/-! ## Readers that have a result -/

section Yields
variable {α β : Type}

/-- **A reader that has a result** has passed tokens with which `Q` holds of it. -/
def Yields (s : State) (Q : α → List Token → Prop) (p : Parse α) : Prop :=
  ∀ v s', p s = (.ok v, s') → ∃ taken, s.rest = taken ++ s'.rest ∧ Q v taken

namespace Yields
variable {s : State} {Q : α → List Token → Prop} {R : β → List Token → Prop} {p : Parse α} {f : α → Parse β}

/-- A reader that gives up. -/
theorem of_error {e : Failure} (h : (p s).1 = .error e) : Yields s Q p := by
  intro v s' hrun
  rw [hrun] at h
  cases h

theorem pure {v : α} (h : Q v []) : Yields s Q (Pure.pure v) := by
  intro w s' hrun
  obtain ⟨hw, rfl⟩ := Prod.mk.inj hrun
  obtain rfl := Except.ok.inj hw
  exact ⟨[], rfl, h⟩

theorem mono {Q' : α → List Token → Prop} (h : Yields s Q p) (hQ : ∀ v taken, Q v taken → Q' v taken) :
    Yields s Q' p := by
  intro v s' hrun
  obtain ⟨taken, hrest, hv⟩ := h v s' hrun
  exact ⟨taken, hrest, hQ v taken hv⟩

theorem bind (h : Yields s Q p)
    (hf : ∀ v taken s', Q v taken → Yields s' (fun w more => R w (taken ++ more)) (f v)) :
    Yields s R (p >>= f) := by
  intro w s'' hrun
  rw [run_bind] at hrun
  rcases hp : p s with ⟨result, s'⟩
  rw [hp] at hrun
  cases result with
  | error e => cases hrun
  | ok v =>
    obtain ⟨taken, hrest, hv⟩ := h v s' hp
    obtain ⟨more, hmore, hw⟩ := hf v taken s' hv w s'' hrun
    exact ⟨taken ++ more, by rw [hrest, hmore, List.append_assoc], hw⟩

theorem map {γ : Type} (f : α → γ) {Q' : γ → List Token → Prop} (h : Yields s Q p)
    (hQ : ∀ v taken, Q v taken → Q' (f v) taken) : Yields s Q' (f <$> p) := by
  rw [map_eq_pure_bind]
  refine h.bind fun v taken s' hv => .pure ?_
  rw [List.append_nil]
  exact hQ v taken hv

theorem current {f : Token → Parse β} (h : Yields s R (f s.current)) : Yields s R (Parse.current >>= f) := h

theorem currentKind {f : TokenKind → Parse β} (h : Yields s R (f s.current.kind)) :
    Yields s R (Parse.currentKind >>= f) := h

theorem looksAt {sym : Symbol} {f : Bool → Parse β} (h : Yields s R (f (s.current.kind.isSymbol sym))) :
    Yields s R (Parse.looksAt sym >>= f) := h

theorem fail (f : Fault) : Yields s Q (Parse.fail f) := of_error rfl

theorem unexpected (expected : String) : Yields s Q (Parse.unexpected expected) := of_error rfl

theorem unexpectedAs (code : ErrorCode) (expected : String) : Yields s Q (Parse.unexpectedAs code expected) :=
  of_error rfl

theorem disabled (feature : Feature) : Yields s Q (Parse.disabled feature) := of_error rfl

theorem notClosed (bracket : Bracket) (opened : Position) : Yields s Q (Parse.notClosed bracket opened) := by
  refine current ?_
  split <;> exact of_error rfl

/-- Recording an error passes nothing. -/
theorem recordAt (position : Position) (f : Fault) : Yields s (fun _ taken => taken = []) (Parse.recordAt position f) := by
  intro v s' hrun
  obtain ⟨_, rfl⟩ := Prod.mk.inj hrun
  exact ⟨[], (s.record_fields _).1.symm, rfl⟩

/-- Whatever is read, it is passed. -/
theorem advance : Yields s (fun _ _ => True) Parse.advance := by
  intro v s' hrun
  obtain ⟨_, rfl⟩ := Prod.mk.inj hrun
  by_cases heof : s.current.kind.isEof = false
  · exact ⟨[s.current], (Onward.advance heof).2, trivial⟩
  · refine ⟨s.rest.take (s.rest.length - s.advance.rest.length), ?_, trivial⟩
    rw [s.advance_eq]
    cases hrest : s.rest with
    | nil => simp [hrest]
    | cons t rest => simp [(s.moveTo_fields rest).1]

/-- A token that is read is passed, if it is not the end. -/
theorem read {f : Unit → Parse β} (h : s.current.kind.isEof = false)
    (hf : ∀ s', Yields s' (fun w more => R w (s.current :: more)) (f ())) :
    Yields s R (Parse.advance >>= f) := by
  have hadvance : Yields s (fun _ taken => taken = [s.current]) Parse.advance := by
    intro v s' hrun
    obtain ⟨_, rfl⟩ := Prod.mk.inj hrun
    exact ⟨[s.current], (Onward.advance h).2, rfl⟩
  refine hadvance.bind fun _ taken s' htaken => ?_
  rw [htaken]
  exact hf s'

theorem nested (o : Options) (h : Yields { s with depth := s.depth + 1 } Q p) : Yields s Q (Parse.nested o p) := by
  intro v s' hrun
  rcases nested_cases o p s with ⟨_, hnested⟩ | ⟨_, hnested⟩
  · rw [hnested] at hrun
    cases hrun
  · rw [hnested] at hrun
    unfold deeper at hrun
    rcases hp : p { s with depth := s.depth + 1 } with ⟨result, s₁⟩
    rw [hp] at hrun
    obtain ⟨rfl, rfl⟩ := Prod.mk.inj hrun
    exact h v s₁ hp

end Yields

end Yields

/-! ## The grammar -/

/-- The tree of a reader is what the tokens that it has passed leave. -/
def Left (e : Expr) (taken : List Token) : Prop := Leaves taken [e]

theorem close_yields (bracket : Bracket) (opened : Position) (s : State) :
    Yields s (fun _ _ => True) (close bracket opened) := by
  refine .looksAt ?_
  split
  · exact .advance
  · exact .notClosed _ _

/-- The trees of items are what the tokens leave that have been passed since the first of them. -/
theorem listItems_yields {α : Type} {item : Parse α} (tree : α → Expr)
    (hitem : ∀ s, Yields s (fun x taken => Leaves taken [tree x]) item) (bracket : Bracket) (opened : Position) :
    ∀ (n : Nat) (items : List α) (before : List Token) (s : State), Leaves before (items.reverse.map tree) →
      Yields s (fun xs taken => Leaves (before ++ taken) (xs.map tree))
        (listItems bracket opened item n items) := by
  intro n
  induction n with
  | zero => exact fun _ _ _ _ => .of_error rfl
  | succ n ih =>
    intro items before s hbefore
    have hback : ∀ (items : List α) (taken : List Token) (s' : State),
        Leaves (before ++ taken) (items.reverse.map tree) →
        Yields s' (fun xs more => Leaves (before ++ (taken ++ more)) (xs.map tree))
          (listItems bracket opened item n items) := fun items taken s' h =>
      (ih items (before ++ taken) s' h).mono fun _ more h => by rwa [← List.append_assoc]
    rw [listItems]
    refine .looksAt ?_
    split
    · exact .bind .advance fun _ taken _ _ => .pure (hbefore.front _)
    refine .looksAt ?_
    split
    · refine .current (.bind (.recordAt _ _) fun _ taken₁ s₁ _ => .bind .advance fun _ taken₂ s₂ _ => ?_)
      exact (hback items (taken₁ ++ taken₂) s₂ (hbefore.front _)).mono
        fun _ more h => by rwa [← List.append_assoc taken₁]
    refine .currentKind ?_
    split
    · exact .notClosed _ _
    refine .bind (hitem s) fun x taken s₁ hx => .looksAt ?_
    have hitems : Leaves (before ++ taken) ((x :: items).reverse.map tree) := by
      rw [List.reverse_cons, List.map_append]
      exact hbefore.append hx
    split
    · refine .current (.bind .advance fun _ taken₂ s₂ _ => .looksAt ?_)
      have hmore : ∀ taken₃ s₃, Yields s₃
          (fun xs more => Leaves (before ++ (taken ++ (taken₂ ++ (taken₃ ++ more)))) (xs.map tree))
          (listItems bracket opened item n (x :: items)) := fun taken₃ s₃ =>
        (hback (x :: items) (taken ++ (taken₂ ++ taken₃)) s₃
          (by rw [← List.append_assoc]; exact hitems.front _)).mono fun _ more h => by
            simpa only [List.append_assoc] using h
      split
      · exact .bind (.recordAt _ _) fun _ taken₃ s₃ _ => hmore taken₃ s₃
      · exact hmore [] s₂
    refine .looksAt ?_
    split
    · exact hback (x :: items) taken s₁ hitems
    · exact .notClosed _ _

section Nested
variable {expr : Parse Expr} (hexpr : ∀ s, Yields s Left expr)

/-! ### Primaries -/

include hexpr in
theorem objectEntry_yields (s : State) : Yields s (fun x taken => Leaves taken [x.2]) (objectEntry expr) := by
  refine .current ?_
  split
  · exact .fail _
  · refine .bind .advance fun _ taken s₁ _ => .looksAt ?_
    split
    · refine .bind .advance fun _ taken₂ s₂ _ => .bind (hexpr s₂) fun e taken₃ _ he => .pure ?_
      exact ((Leaves.front he []).behind taken₂).behind taken
    · exact .unexpectedAs _ _

/-- A node without children, behind its token. -/
theorem leaf_yields {s : State} {e : Expr} (heof : s.current.kind.isEof = false)
    (hplace : e.position = s.current.position) (hstarts : e.starts = true) (hchildren : e.children = []) :
    Yields s Left (advance >>= fun _ => pure e) :=
  .read heof fun _ => .pure (.of_own hplace hstarts (hchildren ▸ .done []))

theorem leadingDot_yields (o : Options) (optional : Bool) {s : State} (hdot : s.current.kind.isEof = false) :
    Yields s Left (leadingDot o optional s.current.position) := by
  unfold leadingDot
  split
  · exact .disabled _
  · refine .read hdot fun s₁ => .currentKind ?_
    split
    · refine .bind .advance fun _ taken s₂ _ => .pure ?_
      exact .of_own rfl rfl (.done _)
    · exact .unexpectedAs _ _

include hexpr in
theorem parenthesized_yields (position : Position) (s : State) : Yields s Left (parenthesized expr position) := by
  refine .bind .advance fun _ taken s₁ _ => .looksAt ?_
  split
  · exact .fail _
  · refine .bind (hexpr s₁) fun e taken₂ s₂ he => .bind (close_yields _ _ _) fun _ taken₃ _ _ => .pure ?_
    exact (Leaves.front he _).behind taken

include hexpr in
theorem primary_yields (o : Options) (n : Nat) (s : State) : Yields s Left (primary o expr n) := by
  refine .current ?_
  cases hk : s.current.kind with
  | pipe | eof => exact .unexpected _
  | number | string | boolean | null | identifier => exact leaf_yields (by rw [hk]; rfl) rfl rfl rfl
  | symbol sym =>
    have heof : s.current.kind.isEof = false := by rw [hk]; rfl
    cases sym with
    | dot | questionDot => exact leadingDot_yields o _ heof
    | leftParen => exact parenthesized_yields hexpr _ s
    | leftBracket =>
      refine .read heof fun s₁ => .bind (listItems_yields id hexpr _ _ n [] [] s₁ (.done []))
        fun items taken _ hitems => .pure ?_
      rw [List.map_id] at hitems
      exact .of_own rfl rfl (hitems.front _)
    | leftBrace =>
      refine .read heof fun s₁ => .bind (listItems_yields Prod.snd (objectEntry_yields hexpr) _ _ n [] [] s₁
        (.done [])) fun entries taken _ hentries => .pure ?_
      exact .of_own rfl rfl (hentries.front _)
    | _ => exact .unexpected _

/-! ### Postfix chains -/

/-- A longer chain is what the tokens leave that its target has left, with those behind it. -/
def Extends (before : List Token) : Expr → List Token → Prop := fun e taken => Left e (before ++ taken)

/-- Tokens behind the target may be counted among those that have been passed. -/
theorem Yields.behind {s : State} {p : Parse Expr} {before taken : List Token}
    (h : Yields s (Extends (before ++ taken)) p) :
    Yields s (fun e more => Extends before e (taken ++ more)) p := by
  refine h.mono fun e more hmore => ?_
  unfold Extends at hmore ⊢
  rwa [← List.append_assoc]

section Targets
variable {target : Expr} {before : List Token} (htarget : Left target before)
include hexpr htarget

theorem member_yields (optional : Bool) (s : State) :
    Yields s (Extends before) (member expr target optional) := by
  refine .current ?_
  split
  · refine .bind .advance fun _ taken _ _ => .pure ?_
    exact .of_first rfl rfl rfl (Leaves.front htarget _)
  · split
    · refine .bind .advance fun _ taken s₁ _ => .bind (hexpr s₁) fun key taken₂ s₂ hkey =>
        .bind (close_yields _ _ _) fun _ taken₃ _ _ => .pure ?_
      exact .of_first rfl rfl rfl (htarget.append ((Leaves.front hkey _).behind taken))
    · exact .unexpectedAs _ _

omit htarget in
/-- A bound of a slice may be missing. -/
theorem sliceBound_yields {α : Type} {s : State} {missing : Bool} {f : Option Expr → Parse α}
    {R : α → List Token → Prop}
    (hf : ∀ (v : Option Expr) taken s', Leaves taken v.toList → Yields s' (fun w more => R w (taken ++ more)) (f v)) :
    Yields s R (if missing = true then pure none >>= f else some <$> expr >>= f) := by
  have hsome : Yields s (fun v taken => Leaves taken v.toList) (some <$> expr) := (hexpr s).map some fun _ _ h => h
  have hnone : Yields s (fun v taken => Leaves taken v.toList) (pure none : Parse (Option Expr)) := .pure (.done [])
  split
  · exact hnone.bind hf
  · exact hsome.bind hf

theorem sliceRest_yields (start : Option Expr) {first : List Token} (hstart : Leaves first start.toList)
    (optional : Bool) (opened : Position) (s : State) :
    Yields s (Extends (before ++ first)) (sliceRest expr target start optional opened) := by
  have hnode : ∀ {stop step : Option Expr} {taken₁ taken₂ : List Token} (taken₃ taken₄ : List Token),
      Leaves taken₁ stop.toList → Leaves taken₂ step.toList →
      Left (.slice target.position target start stop step optional)
        (before ++ first ++ (taken₁ ++ (taken₃ ++ (taken₂ ++ taken₄)))) := by
    intro stop step taken₁ taken₂ taken₃ taken₄ hstop hstep
    have hbounds := (hstart.append hstop).append ((hstep.behind taken₃).front taken₄)
    have hall := htarget.append hbounds
    rw [List.singleton_append] at hall
    refine .of_first rfl rfl rfl ?_
    simpa only [List.append_assoc] using hall
  refine .looksAt (.looksAt (sliceBound_yields hexpr fun stop taken₁ s₁ hstop => .looksAt ?_))
  split
  · refine .bind .advance fun _ taken₃ s₂ _ => .looksAt ?_
    refine sliceBound_yields hexpr fun step taken₂ s₃ hstep => ?_
    refine .bind (close_yields _ _ _) fun _ taken₄ _ _ => .pure ?_
    exact hnode taken₃ (taken₄ ++ []) hstop hstep
  · show Yields s₁ _ (do close .square opened; return Expr.slice target.position target start stop none optional)
    refine .bind (close_yields _ _ _) fun _ taken₄ _ _ => .pure ?_
    exact @hnode stop none taken₁ [] [] (taken₄ ++ []) hstop (.done [])

theorem brackets_yields (optional : Bool) (opened : Position) (s : State) :
    Yields s (Extends before) (brackets expr target optional opened) := by
  refine .looksAt ?_
  split
  · exact .fail _
  refine .looksAt ?_
  split
  · refine .bind .advance fun _ taken s₁ _ => ?_
    exact (sliceRest_yields hexpr htarget none (.done taken) optional opened s₁).behind
  refine .bind (hexpr s) fun first taken s₁ hfirst => .looksAt ?_
  split
  · refine .bind .advance fun _ taken₂ s₂ _ => ?_
    refine (sliceRest_yields hexpr htarget (some first) (Leaves.front hfirst taken₂) optional opened
      s₂).mono fun _ more h => ?_
    unfold Extends at h ⊢
    simpa only [List.append_assoc] using h
  · refine .bind (close_yields _ _ _) fun _ taken₂ _ _ => .pure ?_
    exact .of_first rfl rfl rfl (htarget.append (Leaves.front hfirst _))

theorem postfixStep_yields (o : Options) (n : Nat) (s : State) :
    Yields s (fun longer taken => ∀ e ∈ longer, Extends before e taken) (postfixStep o expr n target) := by
  have hstep : ∀ {p : Parse Expr}, (∀ s₁ before', Left target before' → Yields s₁ (Extends before') p) →
      Yields s (fun longer taken => ∀ e ∈ longer, Extends before e taken) (advance >>= fun _ => some <$> p) := by
    intro p hp
    refine .bind .advance fun _ taken s₁ _ => ?_
    refine (hp s₁ (before ++ taken) (Leaves.front htarget taken)).behind.map some fun longer more h e he => ?_
    obtain rfl := Option.mem_some.mp he
    exact h
  refine .current ?_
  split
  · exact hstep fun s₁ _ h => member_yields hexpr h _ s₁
  · split
    · exact hstep fun s₁ _ h => member_yields hexpr h _ s₁
    · exact .disabled _
  · exact hstep fun s₁ _ h => brackets_yields hexpr h _ _ s₁
  · split
    · exact hstep fun s₁ _ h => brackets_yields hexpr h _ _ s₁
    · exact .disabled _
  · split
    · refine .bind .advance fun _ taken s₁ _ => ?_
      refine .bind (listItems_yields id hexpr _ _ n [] [] s₁ (.done [])) fun arguments taken₂ _ hitems =>
        .pure fun e he => ?_
      obtain rfl := Option.mem_some.mp he
      rw [List.map_id] at hitems
      exact .of_first rfl rfl rfl (htarget.append ((hitems.front []).behind taken))
    · exact .fail _
  · exact .pure fun e he => nomatch he

omit htarget in
theorem postfixChain_yields (o : Options) (n : Nat) : ∀ (k : Nat) (target : Expr) (before : List Token)
    (s : State), Left target before → Yields s (Extends before) (postfixChain o expr n k target) := by
  intro k
  induction k with
  | zero => exact fun _ _ _ _ => .of_error rfl
  | succ k ih =>
    intro target before s htarget
    rw [postfixChain]
    refine .bind (postfixStep_yields hexpr htarget o n s) fun longer taken s₁ hlonger => ?_
    cases longer with
    | none => exact .pure (Leaves.front htarget _)
    | some longer => exact (ih longer (before ++ taken) s₁ (hlonger longer rfl)).behind

end Targets

/-! ### Operators -/

include hexpr in
theorem prefixed_yields (o : Options) (n : Nat) : ∀ (k : Nat) (s : State), Yields s Left (prefixed o expr n k) := by
  intro k
  induction k with
  | zero => exact fun _ => .of_error rfl
  | succ k ih =>
    intro s
    rw [prefixed]
    refine .current ?_
    cases hop : UnaryOp.ofKind? s.current.kind with
    | some op =>
      refine .read (isEof_of_ofKind? hop) fun s₁ => .bind (.nested o (ih _)) fun operand taken _ hoperand => .pure ?_
      exact .of_own rfl rfl (Leaves.front hoperand _)
    | none =>
      exact .bind (primary_yields hexpr o n s) fun e taken s₁ he => postfixChain_yields hexpr o n n e taken s₁ he

/-- A node of a binary operator between what two stretches leave. -/
theorem binary_left {left right : Expr} {before taken : List Token} (op : BinaryOp) (hleft : Left left before)
    (between : List Token) (hright : Left right taken) :
    Left (.binary left.position op left right) (before ++ (between ++ taken)) :=
  .of_first rfl rfl rfl (hleft.append (hright.behind between))

include hexpr in
theorem power_yields (o : Options) (n : Nat) : ∀ (k : Nat) (s : State), Yields s Left (power o expr n k) := by
  intro k
  induction k with
  | zero => exact fun _ => .of_error rfl
  | succ k ih =>
    intro s
    rw [power]
    refine .bind (prefixed_yields hexpr o n n s) fun base taken s₁ hbase => .currentKind ?_
    split
    · refine .bind .advance fun _ taken₂ s₂ _ => .bind (.nested o (ih _)) fun exponent taken₃ _ hexponent =>
        .pure ?_
      exact binary_left .power hbase taken₂ (Leaves.front hexponent _)
    · exact .pure (Leaves.front hbase _)

theorem operands_yields (o : Options) (lvl : Nat) {operand : Parse Expr} (hoperand : ∀ s, Yields s Left operand) :
    ∀ (k : Nat) (left : Expr) (before : List Token) (s : State), Left left before →
      Yields s (Extends before) (operands o lvl operand k left) := by
  intro k
  induction k with
  | zero => exact fun _ _ _ _ => .of_error rfl
  | succ k ih =>
    intro left before s hleft
    rw [operands]
    refine .currentKind ?_
    split
    · exact .pure (Leaves.front hleft _)
    split
    · exact .disabled _
    refine .bind .advance fun _ taken s₁ _ => .bind (hoperand s₁) fun right taken₂ s₂ hright => ?_
    refine (ih _ (before ++ (taken ++ taken₂)) s₂ (binary_left _ hleft taken hright)).mono fun e more h => ?_
    unfold Extends at h ⊢
    simpa only [List.append_assoc] using h

include hexpr in
theorem level_yields (o : Options) (n lvl : Nat) (s : State) : Yields s Left (level o expr n lvl) := by
  induction lvl generalizing s with
  | zero => exact power_yields hexpr o n n s
  | succ lvl ih =>
    rw [level]
    exact .bind (ih s) fun left taken s₁ hleft => operands_yields o (lvl + 1) ih n left taken s₁ hleft

include hexpr in
theorem conditional_yields (o : Options) (n : Nat) (s : State) : Yields s Left (conditional o expr n) := by
  refine .bind (level_yields hexpr o n _ s) fun condition taken s₁ hcondition => .looksAt ?_
  split
  · refine .current (.bind .advance fun _ taken₂ s₂ _ => .bind (hexpr s₂) fun consequent taken₃ s₃ hconsequent =>
      .looksAt ?_)
    split
    · refine .bind .advance fun _ taken₄ s₄ _ => .bind (hexpr s₄) fun alternate taken₅ _ halternate => .pure ?_
      exact .of_first rfl rfl rfl (hcondition.append ((hconsequent.append
        ((Leaves.front halternate []).behind taken₄)).behind taken₂))
    refine .currentKind ?_
    split
    · exact .notClosed _ _
    · exact .notClosed _ _
    · exact .notClosed _ _
    · exact .unexpected _
  · exact .pure (Leaves.front hcondition _)

end Nested

/-- **A reader of expressions that has a tree** has passed tokens that leave this tree. -/
theorem expression_yields (o : Options) (n : Nat) : ∀ (fuel : Nat) (s : State),
    Yields s Left (expression o n fuel) := by
  intro fuel
  induction fuel with
  | zero => exact fun _ => .of_error rfl
  | succ fuel ih => exact fun s => .nested o (conditional_yields ih o n _)

theorem optionalAlias_yields (s : State) : Yields s (fun _ _ => True) optionalAlias := by
  have hname : ∀ s, Yields s (fun _ _ => True) aliasName := by
    intro s
    refine .currentKind ?_
    split
    · split
      · exact .bind .advance fun _ _ _ _ => .pure trivial
      · exact .fail _
    · exact .unexpected _
  refine .looksAt ?_
  split
  · refine .bind .advance fun _ _ s₁ _ => .bind (hname s₁) fun name _ s₂ _ => .looksAt ?_
    split
    · exact .fail _
    · exact .pure trivial
  · exact .pure trivial

/-- A stage has the place that it is read for, and its body is what its tokens leave. -/
theorem stage_yields {expr : Parse Expr} (hexpr : ∀ s, Yields s Left expr) (handler : String)
    (position : Position) (s : State) :
    Yields s (fun read taken => read.position = position ∧ Left read.body taken) (stage expr handler position) := by
  have hbody : Yields s (fun read taken => read.position = position ∧ Left read.body taken)
      (do let body ← expr; let boundAs ← optionalAlias; return Stage.mk handler boundAs position body) :=
    .bind (hexpr s) fun body taken s₁ hbody => .bind (optionalAlias_yields s₁) fun _ taken₂ _ _ =>
      .pure ⟨rfl, Leaves.front hbody _⟩
  -- an empty segment has no stage
  have hempty : ∀ (f : Fault) {k : Unit → Parse (Stage Expr)}, Yields s
      (fun read taken => read.position = position ∧ Left read.body taken) (failAt position f >>= k) :=
    fun f _ => .of_error rfl
  unfold stage
  split
  · refine .currentKind ?_
    split
    · exact hempty _
    · exact hempty _
    · exact hempty _
    · exact hbody
  · exact hbody

end Parse

end PipeExpr
