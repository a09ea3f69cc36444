import PipeExpr.Evaluate
import PipeExpr.Proofs.Operands
import PipeExpr.Proofs.Room

/-!
# Programs in the middle of a run

A program may run on a machine that is in the middle of a run: with values on its stack, inside of blocks and
with locals bound (`Site`).  What it gives there (`Site.outcome`) is the value of its expression with these
locals, if the stack has the room that the expression needs (`Site.outcome_eq`).  So programs of different
expressions can be compared at the same place, where names mean the same to all of them.

Room only matters in one direction: what a program does above some values on the stack, if it does not overflow,
it also does above fewer of them (`Expr.within_sinks`).
-/

namespace PipeExpr

open Machine (Halt)

/-! ## Fewer values on the stack -/

section Lower
variable {S : Setting} {size : Nat}

/-- A plan that does above `h + 1` values what it does above `h` of them, or overflows. -/
def Plan.Sinks (S : Setting) (size : Nat) (p : Plan) : Prop :=
  ∀ h, UpToOverflow size (p.within S size (h + 1)) (p.within S size h)

theorem place_sinks (h : Nat) (v : Value) : UpToOverflow size (place size (h + 1) v) (place size h v) := by
  by_cases hroom : h + 1 < size
  · rw [place_eq_ok hroom, place_eq_ok (Nat.lt_of_succ_lt hroom)]
    exact .refl _
  · exact .inr (place_eq_error (Nat.le_of_not_lt hroom) v)

theorem Plan.Sinks.row {ps : List Plan} {ns : List Nat} (hall : List.Forall₂ (fun p _ => p.Sinks S size) ps ns) :
    ∀ h, UpToOverflow size (withinRow S size (h + 1) ps) (withinRow S size h ps) := by
  induction hall with
  | nil => exact fun h => .refl _
  | cons hp _ ih =>
    intro h
    rw [withinRow, withinRow]
    exact (hp h).bind fun v _ => (ih (h + 1)).bind fun vs _ => .refl _

theorem Plan.Sinks.measure : Plan.Measure (fun p _ => p.Sinks S size) where
  constant v := fun h => place_sinks h v
  lookup name flags := fun h => by
    rw [within, within]
    exact (UpToOverflow.refl _).bind fun v _ => place_sinks h v
  gather finish hall := fun h => by
    rw [within, within]
    exact (row hall h).bind fun vs _ => (UpToOverflow.refl _).bind fun v _ => place_sinks h v
  junction decisive hl hr := fun h => by
    rw [within, within]
    refine (hl h).bind fun l _ => ?_
    split
    · exact place_sinks h _
    · exact (hr (h + 1)).bind fun r _ => place_sinks h _
  coalesce hl hr := fun h => by
    rw [within, within]
    refine (hl h).bind fun l _ => ?_
    split
    · exact hr h
    · exact .refl _
  choose hc hx hy := fun h => by
    rw [within, within]
    refine (hc h).bind fun c _ => ?_
    split
    · exact hx h
    · exact hy h
  absent n := fun _ => .refl _

/-- **Above one more value** an expression does the same, or overflows. -/
theorem Expr.within_sinks (e : Expr) (soft : Bool) : (e.plan soft).Sinks S size :=
  Plan.Sinks.measure.plan e soft

/-- A plan that has the values it has above `h + 1` values above `h` of them as well. -/
def Plan.Lowers (S : Setting) (size : Nat) (p : Plan) : Prop :=
  ∀ {h : Nat} {v : Value}, p.within S size (h + 1) = .ok v → p.within S size h = .ok v

/-- **What has a value above some values on a stack has it above fewer of them.** -/
theorem Expr.within_lower (e : Expr) (soft : Bool) : (e.plan soft).Lowers S size := by
  intro h v hv
  refine ((e.within_sinks soft h).eq fun hover => ?_).symm.trans hv
  cases hv.symm.trans hover

/-- The values of two plans, the second one above the value of the first. -/
theorem withinRow_pair {p q : Plan} {h : Nat} {v w : Value}
    (hrow : Plan.withinRow S size h [p, q] = .ok [v, w]) :
    p.within S size h = .ok v ∧ q.within S size (h + 1) = .ok w := by
  obtain ⟨_, _, heq, hv, hrest⟩ := withinRow_cons_ok hrow
  obtain ⟨rfl, rfl⟩ := List.cons.inj heq
  obtain ⟨_, _, heq, hw, -⟩ := withinRow_cons_ok hrest
  obtain ⟨rfl, -⟩ := List.cons.inj heq
  exact ⟨hv, hw⟩

/-- With enough room an expression has its value, above any number of values. -/
theorem Expr.within_eq_eval {h : Nat} (e : Expr) (soft : Bool) (hroom : h + e.need ≤ size) :
    (e.plan soft).within S size h = e.eval S soft := by
  have hwithin : UpToOverflow size ((e.plan soft).within S size h) (e.eval S soft) := e.plan_within soft h
  exact hwithin.eq fun hover => (e.fits soft hroom) _ hover

end Lower

/-! ## Sites -/

/-- Where a program runs: a machine in any state. -/
structure Site where
  library : Library
  stackSize : Nat
  context : Fields Value
  state : Machine.State

theorem mapError_inj {x y : Except RunError Value}
    (h : x.mapError Halt.error = y.mapError Halt.error) : x = y := by
  cases x <;> cases y <;> cases h <;> rfl

namespace Site

/-- What expressions are evaluated in at a site. -/
def setting (m : Site) : Setting := ⟨m.library.functions, m.context, Machine.lookupLocal m.state⟩

/-- What a program gives at a site. -/
def outcome (m : Site) (p : Program) : Except Halt Value :=
  (Machine.execute ⟨m.library, m.stackSize, p, m.context⟩ p.fuel p.main m.state).1

/-- The value of an expression on the stack of a site. -/
def value (m : Site) (e : Expr) (soft : Bool) : Except RunError Value :=
  (e.plan soft).within m.setting m.stackSize m.state.stack.size

/-- Whether the stack has the room that an expression needs. -/
def HasRoom (m : Site) (e : Expr) : Prop := m.state.stack.size + e.need ≤ m.stackSize

instance (m : Site) (e : Expr) : Decidable (m.HasRoom e) := inferInstanceAs (Decidable (_ ≤ _))

/-- Whether the program of an expression gives an outcome. -/
def Gives (m : Site) (e : Expr) (r : Except RunError Value) : Prop :=
  ∃ p, e.compile = .ok p ∧ m.outcome p = r.mapError .error

/-- Whether the program of an expression, if there is one, gives an outcome, or overflows for want of room. -/
def Yields (m : Site) (e : Expr) (r : Except RunError Value) : Prop :=
  ∀ p, e.compile = .ok p → m.outcome p = r.mapError .error ∨
    (¬ m.HasRoom e ∧ m.outcome p = .error (.error (.stackOverflow m.stackSize)))

/-- Where the program of a source starts. -/
def start (context : Fields Value) : Site := ⟨.standard, defaultStackSize, context, .initial⟩

theorem outcome_start (p : Program) (context : Fields Value) :
    (start context).outcome p = p.run .standard defaultStackSize context := rfl

section Outcomes
variable {m : Site} {e x : Expr} {p : Program}

/-- **At every site a program gives the value of its expression** on the stack of the site. -/
theorem outcome_eq_value (hroot : e.isPipe = false) (h : e.compile = .ok p) :
    m.outcome p = (m.value e false).mapError .error := by
  obtain ⟨a, t, hcode, rfl⟩ := Expr.code_of_compile hroot h
  have hemits := Compile.emits_of_code e hcode
  have hserves : t.Serves
      (Machine.Env.mk m.library m.stackSize (programOf a.toList [] t) m.context).program :=
    ⟨List.prefix_rfl, List.prefix_rfl⟩
  have hfuel : (streamOf a.toList).size < (programOf a.toList [] t).fuel :=
    Nat.lt_of_succ_lt (Program.lt_fuel (programOf a.toList [] t)).1
  have hframe := hemits.frame_eq NameTable.empty_valid hserves hfuel m.state
  exact congrArg Prod.fst hframe

theorem value_eq_eval (hroom : m.HasRoom e) (soft : Bool) : m.value e soft = e.eval m.setting soft :=
  e.within_eq_eval soft hroom

/-- **With enough room it gives the value of its expression.** -/
theorem outcome_eq (hroot : e.isPipe = false) (h : e.compile = .ok p) (hroom : m.HasRoom e) :
    m.outcome p = (e.eval m.setting false).mapError .error := by
  rw [outcome_eq_value hroot h, value_eq_eval hroom]

/-- **A source of an expression evaluates to the value of its tree.** -/
theorem evaluate_eq_eval {source : String} {context : Fields Value} (hparse : parse source {} = .ok e)
    (hroot : e.isPipe = false) (h : e.compile = .ok p) (hroom : (start context).HasRoom e) :
    evaluate source context = (e.eval (start context).setting false).mapError .run := by
  have hstages : evaluate source context = ((start context).outcome p).mapError .ofHalt := by
    unfold evaluate parseSource compileExpr
    rw [hparse]
    show (e.compile.mapError EvaluationError.compile >>= fun p => runProgram p context) = _
    rw [h, outcome_start]
    rfl
  rw [hstages, outcome_eq hroot h hroom]
  cases e.eval (start context).setting false <;> rfl

/-- What an expression gives at a site is its value there. -/
theorem gives_iff (he : e.Compiles) (r : Except RunError Value) : m.Gives e r ↔ m.value e false = r := by
  obtain ⟨p, hp⟩ := he.program
  have houtcome : m.outcome p = _ := outcome_eq_value he.root hp
  constructor
  · rintro ⟨q, hq, hgives⟩
    obtain rfl := Except.ok.inj (hp.symm.trans hq)
    exact mapError_inj (houtcome.symm.trans hgives)
  · intro hvalue
    exact ⟨p, hp, by rw [houtcome, hvalue]⟩

/-- A value that is given is the value of the expression, whether there is room for all of it or not. -/
theorem Gives.eval {v : Value} (h : m.Gives e (.ok v)) (he : e.Compiles) : e.eval m.setting false = .ok v := by
  have hvalue : m.value e false = .ok v := (gives_iff he _).mp h
  have hwithin : UpToOverflow m.stackSize (m.value e false) (e.eval m.setting false) := e.plan_within false _
  refine (hwithin.eq fun hover => ?_).symm.trans hvalue
  cases hvalue.symm.trans hover

/-- An expression yields its value. -/
theorem yields_of_eval {r : Except RunError Value} (hroot : e.isPipe = false)
    (heval : e.Compiles → e.eval m.setting false = r) : m.Yields e r := by
  intro p hp
  have hr := heval ⟨hroot, p, hp⟩
  rw [outcome_eq_value hroot hp]
  by_cases hroom : m.HasRoom e
  · exact .inl (by rw [value_eq_eval hroom, hr])
  · have hwithin : UpToOverflow m.stackSize (m.value e false) (e.eval m.setting false) := e.plan_within false _
    rcases hwithin with hvalue | hover
    · exact .inl (by rw [hvalue, hr])
    · exact .inr ⟨hroom, by rw [hover]; rfl⟩

theorem HasRoom.mono (h : m.HasRoom e) (hneed : x.need ≤ e.need) : m.HasRoom x :=
  Nat.le_trans (Nat.add_le_add_left hneed _) h

theorem HasRoom.left {pos : Position} {l r : Expr} (h : m.HasRoom (.binary pos .nullCoalesce l r)) :
    m.HasRoom l :=
  h.mono (Nat.le_max_left _ _)

theorem HasRoom.right {pos : Position} {l r : Expr} (h : m.HasRoom (.binary pos .nullCoalesce l r)) :
    m.HasRoom r :=
  h.mono (Nat.le_max_right _ _)

end Outcomes

end Site

end PipeExpr
