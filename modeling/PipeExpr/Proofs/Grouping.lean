import PipeExpr.Proofs.Forgiveness

/-!
# Chains of `??`

Chains of `??` are grouped to the left, and only the step that a left side ends with is softened.  The left side
of the last `??` of a chain is no step but a chain, so of all operands only the first one is softened.  One in
the middle that is missing fails, although the same operand falls through where it stands to the left of a
single `??`.

So the grouping of `a ?? b ?? c` counts in one case (`Site.coalesce_grouping`): where `a` falls through and `b`
fails in a way that would be forgiven.  Then `(a ?? b) ?? c` fails as `b` does, and `a ?? (b ?? c)` gives what
`c` gives.  In all other cases, an overflow of the stack included, both have the same outcome.
-/

namespace PipeExpr

/-- The chain `first ?? e₁ ?? … ?? eₙ`, as it is read. -/
def Expr.coalesceAll (first : Expr) (others : List (Position × Expr)) : Expr :=
  others.foldl (fun left x => .binary x.1 .nullCoalesce left x.2) first

namespace Expr
variable {first : Expr} {others : List (Position × Expr)}

theorem coalesceAll_append (first : Expr) (before after : List (Position × Expr)) (x : Position × Expr) :
    first.coalesceAll (before ++ x :: after) =
      coalesceAll (.binary x.1 .nullCoalesce (first.coalesceAll before) x.2) after := by
  unfold coalesceAll
  rw [List.foldl_append, List.foldl_cons]

theorem coalesceAll_root (h : first.isPipe = false) : (first.coalesceAll others).isPipe = false := by
  induction others generalizing first with
  | nil => exact h
  | cons x rest ih => exact ih rfl

/-- The operands of a chain compile on their own. -/
theorem coalesceAll_compiles (h : (first.coalesceAll others).Compiles) :
    first.Compiles ∧ ∀ x ∈ others, x.2.Compiles := by
  induction others generalizing first with
  | nil => exact ⟨h, fun x hx => absurd hx List.not_mem_nil⟩
  | cons x rest ih =>
    obtain ⟨hleft, hrest⟩ := ih h
    obtain ⟨q, hq⟩ := hleft.program
    have hcode := compile_coalesce hq
    exact ⟨hcode.left_compiles, List.forall_mem_cons.mpr ⟨hcode.right_compiles, hrest⟩⟩

end Expr

namespace Site
variable {m : Site} {a b c e first : Expr} {p : Program} {pos pos' pos₁ pos₂ : Position} {soft soft' : Bool}
  {others : List (Position × Expr)}

/-- Whether a left side makes the right one count: it gives null, or its failure is forgiven. -/
def FallsThrough (m : Site) (e : Expr) : Prop :=
  m.Gives e (.ok .null) ∨ ((∃ err, m.Gives e (.error err)) ∧ m.Forgives e)

theorem fallsThrough_of_soft_null (he : e.Compiles) (h : m.value e true = .ok .null) : m.FallsThrough e := by
  rcases value_soft (m := m) he with hsame | ⟨⟨err, herr⟩, hf⟩
  · exact .inl ((gives_iff he _).mpr (hsame.symm.trans h))
  · exact .inr ⟨⟨err, (gives_iff he _).mpr herr⟩, hf⟩

theorem FallsThrough.soft_null (h : m.FallsThrough e) (he : e.Compiles) (hroom : m.HasRoom e) :
    m.value e true = .ok .null := by
  rcases h with hnull | ⟨-, hf⟩
  · exact value_soft_ok he ((gives_iff he _).mp hnull)
  · exact value_soft_null he hroom hf

/-- **Grouping counts only where the middle operand is reached** and fails in a forgiven way. -/
theorem value_regroup (ha : a.Compiles) (hb : b.Compiles)
    (h : ¬ (m.FallsThrough a ∧ (∃ err, m.Gives b (.error err)) ∧ m.Forgives b)) :
    m.value (.binary pos .nullCoalesce (.binary pos' .nullCoalesce a b) c) soft =
      m.value (.binary pos₁ .nullCoalesce a (.binary pos₂ .nullCoalesce b c)) soft' := by
  cases hvalue : m.value a true with
  | error err => rw [value_coalesce_error (value_coalesce_error hvalue), value_coalesce_error hvalue]
  | ok v =>
    by_cases hv : v.isNull = true
    · obtain rfl : v = .null := by cases v <;> first | rfl | cases hv
      have hsame : m.value b true = m.value b false := by
        rcases value_soft (m := m) hb with hsame | ⟨⟨err, herr⟩, hf⟩
        · exact hsame
        · exact absurd ⟨fallsThrough_of_soft_null ha hvalue, ⟨err, (gives_iff hb _).mpr herr⟩, hf⟩ h
      rw [value_coalesce_null hvalue rfl, value_coalesce, value_coalesce_null hvalue rfl, value_coalesce, hsame]
    · have hv : v.isNull = false := Bool.eq_false_of_not_eq_true hv
      rw [value_coalesce_value (value_coalesce_value hvalue hv) hv, value_coalesce_value hvalue hv]

/-! ## Chains -/

theorem HasRoom.chain_first (h : m.HasRoom (first.coalesceAll others)) : m.HasRoom first := by
  induction others generalizing first with
  | nil => exact h
  | cons x rest ih => exact (ih h).left

theorem value_chain_null (hfirst : m.value first true = .ok .null)
    (hothers : ∀ x ∈ others, m.value x.2 false = .ok .null) :
    m.value (first.coalesceAll others) true = .ok .null := by
  induction others generalizing first with
  | nil => exact hfirst
  | cons x rest ih =>
    obtain ⟨hx, hrest⟩ := List.forall_mem_cons.mp hothers
    exact ih ((value_coalesce_null hfirst rfl).trans hx) hrest

/-- Nothing behind an operand that decides changes the outcome. -/
theorem value_chain_decided {r : Except RunError Value} (hfirst : ∀ soft, m.value first soft = r)
    (hr : r ≠ .ok .null) : m.value (first.coalesceAll others) soft = r := by
  induction others generalizing first with
  | nil => exact hfirst soft
  | cons x rest ih =>
    refine ih fun soft => ?_
    cases r with
    | error err => exact value_coalesce_error (hfirst true)
    | ok v =>
      refine value_coalesce_value (hfirst true) ?_
      cases v <;> first | rfl | exact absurd rfl hr

/-- **An operand behind the first one is not softened**: it decides with what it gives on its own. -/
theorem value_chain {before after : List (Position × Expr)} {x : Position × Expr} {r : Except RunError Value}
    (hfirst : m.value first true = .ok .null) (hbefore : ∀ y ∈ before, m.value y.2 false = .ok .null)
    (hx : m.value x.2 false = r) (hr : r = .ok .null → after = []) :
    m.value (first.coalesceAll (before ++ x :: after)) soft = r := by
  have hdecided : ∀ soft, m.value (.binary x.1 .nullCoalesce (first.coalesceAll before) x.2) soft = r :=
    fun soft => (value_coalesce_null (value_chain_null hfirst hbefore) rfl).trans hx
  rw [Expr.coalesceAll_append]
  by_cases hnull : r = .ok .null
  · rw [hr hnull]
    exact hdecided soft
  · exact value_chain_decided hdecided hnull

/-- **The grouping of `??` counts in one case.**  Unless `a` falls through and `b` fails in a way that is
forgiven, `(a ?? b) ?? c` and `a ?? (b ?? c)` have the same outcome.  In this case the first one fails as `b`
does, and the second one gives what `c` gives.  So it is in a chain of any length whose first operand falls
through: operands are tried in their order, each as it is on its own, and the first one that does not give null
decides, also by failing. -/
theorem coalesce_grouping (m : Site) :
    (∀ (pos pos' pos₁ pos₂ : Position) (a b c : Expr) (p q : Program),
      (Expr.binary pos .nullCoalesce (.binary pos' .nullCoalesce a b) c).compile = .ok p →
      (Expr.binary pos₁ .nullCoalesce a (.binary pos₂ .nullCoalesce b c)).compile = .ok q →
      (¬ (m.FallsThrough a ∧ (∃ err, m.Gives b (.error err)) ∧ m.Forgives b) → m.outcome p = m.outcome q) ∧
      ∀ err, m.HasRoom (.binary pos .nullCoalesce (.binary pos' .nullCoalesce a b) c) → m.FallsThrough a →
        m.Gives b (.error err) → m.Forgives b →
        m.outcome p = .error (.error err) ∧ ∃ r, c.compile = .ok r ∧ m.outcome q = m.outcome r) ∧
    ∀ (first : Expr) (before after : List (Position × Expr)) (x : Position × Expr) (p : Program)
      (r : Except RunError Value), (first.coalesceAll (before ++ x :: after)).compile = .ok p →
      m.HasRoom (first.coalesceAll (before ++ x :: after)) → m.FallsThrough first →
      (∀ y ∈ before, m.Gives y.2 (.ok .null)) → m.Gives x.2 r → (r = .ok .null → after = []) →
      m.outcome p = r.mapError .error := by
  constructor
  · intro pos pos' pos₁ pos₂ a b c p q hp hq
    have hright := Expr.compile_coalesce hq
    obtain ⟨q', hq'⟩ := hright.right_compiles.program
    have hinner := Expr.compile_coalesce hq'
    have ha := hright.left_compiles
    have hb := hinner.left_compiles
    rw [outcome_eq_value rfl hp, outcome_eq_value rfl hq]
    refine ⟨fun h => by rw [value_regroup ha hb h], fun err hroom hfalls hfails hf => ?_⟩
    have hnull := hfalls.soft_null ha hroom.left.left
    obtain ⟨r, hr⟩ := hinner.right_compiles.program
    constructor
    · have hb' := (gives_iff hb _).mp hfails
      rw [value_coalesce_error ((value_coalesce_null hnull rfl).trans hb')]
      rfl
    · refine ⟨r, hr, ?_⟩
      have hb' := value_soft_null hb hroom.left.right hf
      rw [value_coalesce_null hnull rfl, value_coalesce_null hb' rfl,
        outcome_eq_value hinner.right_compiles.root hr]
  · intro first before after x p r hp hroom hfalls hbefore hx hr
    have hroot : (first.coalesceAll (before ++ x :: after)).isPipe = false := by
      rw [Expr.coalesceAll_append]
      exact Expr.coalesceAll_root rfl
    obtain ⟨hfirst, hothers⟩ := Expr.coalesceAll_compiles ⟨hroot, p, hp⟩
    have hbefore' : ∀ y ∈ before, m.value y.2 false = .ok .null := by
      intro y hy
      exact (gives_iff (hothers y (List.mem_append_left _ hy)) _).mp (hbefore y hy)
    have hx' := (gives_iff (hothers x (List.mem_append_right _ (List.mem_cons_self ..))) _).mp hx
    rw [outcome_eq_value hroot hp,
      value_chain (hfalls.soft_null hfirst hroom.chain_first) hbefore' hx' hr]

/-- Where the middle operand is missing, it fails as long as the chain is grouped to the left: in
`null ?? [false].1 ?? true`, but not in `null ?? ([false].1 ?? true)`. -/
theorem coalesce_grouping_outside : ∃ p q,
    (Expr.binary ⟨1, 1⟩ .nullCoalesce (.binary ⟨1, 1⟩ .nullCoalesce (.null ⟨1, 1⟩) outside)
      (.boolean ⟨1, 22⟩ true)).compile = .ok p ∧
    (Expr.binary ⟨1, 1⟩ .nullCoalesce (.null ⟨1, 1⟩)
      (.binary ⟨1, 10⟩ .nullCoalesce outside (.boolean ⟨1, 22⟩ true))).compile = .ok q ∧
    fresh.outcome p = .error (.error (.indexOutOfRange 1 1)) ∧ fresh.outcome q = .ok (.boolean true) := by
  obtain ⟨p, hp⟩ : ∃ p, (Expr.binary ⟨1, 1⟩ .nullCoalesce (.binary ⟨1, 1⟩ .nullCoalesce (.null ⟨1, 1⟩) outside)
      (.boolean ⟨1, 22⟩ true)).compile = .ok p := ⟨_, rfl⟩
  obtain ⟨q, hq⟩ : ∃ q, (Expr.binary ⟨1, 1⟩ .nullCoalesce (.null ⟨1, 1⟩)
      (.binary ⟨1, 10⟩ .nullCoalesce outside (.boolean ⟨1, 22⟩ true))).compile = .ok q := ⟨_, rfl⟩
  have hnull : fresh.Gives (.null ⟨1, 1⟩) (.ok .null) := (gives_iff ⟨rfl, _, rfl⟩ _).mpr rfl
  have htarget : fresh.Gives (.array ⟨1, 1⟩ [.boolean ⟨1, 2⟩ false]) (.ok (.array [.boolean false])) :=
    (gives_iff ⟨rfl, _, rfl⟩ _).mpr rfl
  have houtside : fresh.Gives outside (.error (.indexOutOfRange 1 1)) := (gives_iff ⟨rfl, _, rfl⟩ _).mpr rfl
  have hforgives : fresh.Forgives outside := .member htarget rfl trivial
  obtain ⟨hleft, r, hr, hright⟩ :=
    ((coalesce_grouping fresh).1 _ _ _ _ _ _ _ _ _ hp hq).2 _ (by decide) (.inl hnull) houtside hforgives
  exact ⟨p, q, hp, hq, hleft, hright.trans (outcome_eq_value rfl hr)⟩

end Site

set_option maxRecDepth 2000 in
/-- The grouping of `??` can be seen: `a ?? b ?? c` is `(a ?? b) ?? c`, in which `b` is not softened. -/
theorem evaluate_regrouped :
    evaluate "null ?? [false].1 ?? true" [] = .error (.run (.indexOutOfRange 1 1)) ∧
      evaluate "null ?? ([false].1 ?? true)" [] = .ok (.boolean true) := by
  have hleft : parse "null ?? [false].1 ?? true" {} = .ok (.binary ⟨1, 1⟩ .nullCoalesce
      (.binary ⟨1, 1⟩ .nullCoalesce (.null ⟨1, 1⟩)
        (.member ⟨1, 9⟩ (.array ⟨1, 9⟩ [.boolean ⟨1, 10⟩ false]) (.position 1) false))
      (.boolean ⟨1, 22⟩ true)) := by rfl
  have hright : parse "null ?? ([false].1 ?? true)" {} = .ok (.binary ⟨1, 1⟩ .nullCoalesce
      (.null ⟨1, 1⟩)
      (.binary ⟨1, 10⟩ .nullCoalesce
        (.member ⟨1, 10⟩ (.array ⟨1, 10⟩ [.boolean ⟨1, 11⟩ false]) (.position 1) false)
        (.boolean ⟨1, 23⟩ true))) := by rfl
  constructor
  · exact Site.evaluate_eq_eval hleft rfl rfl (by decide)
  · exact Site.evaluate_eq_eval hright rfl rfl (by decide)

end PipeExpr
