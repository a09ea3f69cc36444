import PipeExpr.Proofs.Chains
import PipeExpr.Proofs.Failures

/-!
# The room that a program needs

How high the stack of a run gets can be read off the tree (`Expr.need`): only the order of evaluation
counts, and not the values.  A stack with that much room never overflows, and for trees that evaluate
everything in them a smaller one always does (`Expr.compile_need`).

Both halves are one induction.  A relation between plans and numbers that follows the shape of plans
(`Plan.Measure`) holds of the plan of every expression and its need.  The first half takes the relation
"evaluates without an overflow where there is room for so much", the second one "evaluates to the same
value where there is room for so much, and overflows where there is not".
-/

namespace PipeExpr

/-! ## Needs -/

/-- The room for parts that stay on the stack while the ones behind them are evaluated, above `i` values
that are there already: the most that any part needs above those in front of it. -/
def rowNeed : Nat → List Nat → Nat
  | _, [] => 0
  | i, n :: ns => max (i + n) (rowNeed (i + 1) ns)

/-- The room for the key and the value of every entry, in a row. -/
def keyedNeeds (entries : List (String × Nat)) : List Nat := entries.flatMap fun x => [1, x.2]

namespace Expr

mutual

/-- The number of values that the stack has to hold for an expression. -/
def need : Expr → Nat
  | .number .. | .string .. | .boolean .. | .null .. | .reference .. => 1
  | .unary _ _ operand => need operand
  | .binary _ .nullCoalesce left right => max (need left) (need right)
  | .binary _ _ left right => max (need left) (1 + need right)
  | .conditional _ condition consequent alternate =>
    max (need condition) (max (need consequent) (need alternate))
  | .array _ items => max 1 (rowNeed 0 (needItems items))
  -- keys are evaluated in ascending order, each in front of its value
  | .object _ entries => max 1 (rowNeed 0 (keyedNeeds (byName (needEntries entries))))
  | .call _ _ arguments => max 1 (rowNeed 0 (needItems arguments))
  | .member _ target _ _ => max (need target) (1 + 1)
  | .index _ target key _ => max (need target) (1 + need key)
  | .slice _ target start stop step _ =>
    rowNeed 0 [need target, needBound start, needBound stop, needBound step]
  | .pipe _ stages => max 1 (needStages stages)

/-- The needs of expressions. -/
def needItems : List Expr → List Nat
  | [] => []
  | e :: rest => need e :: needItems rest

/-- The needs of entries, in source order. -/
def needEntries : List (String × Expr) → List (String × Nat)
  | [] => []
  | (key, e) :: rest => (key, need e) :: needEntries rest

/-- The need of a bound of a slice; an omitted one is a null. -/
def needBound : Option Expr → Nat
  | none => 1
  | some e => need e

/-- The most that a stage needs. A block starts with nothing on the stack. -/
def needStages : List (Stage Expr) → Nat
  | [] => 0
  | ⟨_, _, _, body⟩ :: rest => max (need body) (needStages rest)

end

theorem needItems_eq_map (items : List Expr) : needItems items = items.map need := by
  induction items with
  | nil => rfl
  | cons e rest ih => rw [needItems, ih, List.map_cons]

theorem needEntries_eq_map (entries : List (String × Expr)) :
    needEntries entries = entries.map (Prod.map id need) := by
  induction entries with
  | nil => rfl
  | cons x rest ih => rw [needEntries, ih, List.map_cons]; rfl

theorem need_le_needStages {stage : Stage Expr} {stages : List (Stage Expr)} (h : stage ∈ stages) :
    stage.body.need ≤ needStages stages := by
  induction stages with
  | nil => cases h
  | cons first rest ih =>
    rw [needStages]
    rcases List.mem_cons.mp h with rfl | h
    · exact Nat.le_max_left _ _
    · exact Nat.le_trans (ih h) (Nat.le_max_right _ _)

theorem need_pos (e : Expr) : 0 < e.need := by
  induction e using Expr.induction with
  | binary p op left right ihl ihr => cases op <;> rw [need] <;> first | omega | exact nofun
  | unary p op operand ih => rw [need]; exact ih
  | slice p target start stop step optional ih => rw [need, rowNeed]; omega
  | _ => rw [need]; omega

/-- Whether some part of an expression may be left out of its evaluation, or be evaluated elsewhere. -/
def branches : Expr → Bool
  | .binary _ .and _ _ | .binary _ .or _ _ | .binary _ .nullCoalesce _ _ => true
  | .conditional .. | .pipe .. => true
  | _ => false

/-- An expression all of which is evaluated, in order. -/
def Straight (e : Expr) : Prop := ∀ x, Within x e → x.branches = false

theorem Straight.of_parts {e : Expr} (he : e.branches = false) (hparts : ∀ y ∈ e.parts, y.Straight) :
    e.Straight := by
  intro x hx
  cases hx with
  | self => exact he
  | part hx hy => exact hparts _ hy x hx

end Expr

/-! ## Relations that follow the shape of plans -/

/-- A relation between plans and the room for them that follows the shape of plans. -/
structure Plan.Measure (R : Plan → Nat → Prop) : Prop where
  constant : ∀ v, R (.constant v) 1
  lookup : ∀ name flags, R (.variable name flags) 1
  gather : ∀ {parts ns} finish, List.Forall₂ R parts ns →
    R (.gather parts finish) (max 1 (rowNeed 0 ns))
  junction : ∀ {left right a b} decisive, R left a → R right b →
    R (.junction decisive left right) (max a (1 + b))
  coalesce : ∀ {left right a b}, R left a → R right b → R (.coalesce left right) (max a b)
  choose : ∀ {condition consequent alternate a b c}, R condition a → R consequent b →
    R alternate c → R (.choose condition consequent alternate) (max a (max b c))
  absent : ∀ n, R .absent n

namespace Plan.Measure
variable {R : Plan → Nat → Prop}

theorem items (items : List Expr) (h : ∀ e ∈ items, R (e.plan false) e.need) :
    List.Forall₂ R (Expr.planItems items) (Expr.needItems items) := by
  rw [Expr.planItems_eq_map, Expr.needItems_eq_map, List.forall₂_map_left_iff,
    List.forall₂_map_right_iff]
  exact List.forall₂_same.mpr h

theorem bound (hR : Measure R) (bound : Option Expr) (h : ∀ e ∈ bound, R (e.plan false) e.need) :
    R (Expr.planBound bound) (Expr.needBound bound) := by
  cases bound with
  | none => exact hR.constant .null
  | some e => exact h e rfl

theorem entries (hR : Measure R) (entries : List (String × Expr))
    (h : ∀ x ∈ entries, R (x.2.plan false) x.2.need) :
    List.Forall₂ R (keyedParts (entries.map (Prod.map id (Expr.plan · false))))
      (keyedNeeds (entries.map (Prod.map id Expr.need))) := by
  induction entries with
  | nil => exact .nil
  | cons x rest ih =>
    obtain ⟨hx, hrest⟩ := List.forall_mem_cons.mp h
    exact .cons (hR.constant _) (.cons hx (ih hrest))

/-- A node that takes the values of two parts. -/
theorem pair (hR : Measure R) {p q : Plan} {a b : Nat} (finish : Finish) (hp : R p a) (hq : R q b)
    (ha : 0 < a) : R (.gather [p, q] finish) (max a (1 + b)) := by
  have hrow := hR.gather finish (.cons hp (.cons hq .nil))
  have hneed : max 1 (rowNeed 0 [a, b]) = max a (1 + b) := by simp only [rowNeed]; omega
  rwa [hneed] at hrow

/-- **What follows the shape of plans holds of every expression**: of its plan and its need. -/
theorem plan (hR : Measure R) (e : Expr) : ∀ soft, R (e.plan soft) e.need := by
  induction e using Expr.induction with
  | number | string | boolean | null => exact fun _ => hR.constant _
  | reference p name optional => exact fun _ => hR.lookup _ _
  | unary p op operand ih =>
    intro soft
    have hrow := hR.gather (.unary op) (.cons (ih false) .nil)
    have hneed : max 1 (rowNeed 0 [operand.need]) = operand.need := by
      have := operand.need_pos
      simp only [rowNeed]
      omega
    rwa [hneed] at hrow
  | binary p op left right ihl ihr =>
    intro soft
    cases op
    case and | or => exact hR.junction _ (ihl false) (ihr false)
    case nullCoalesce => exact hR.coalesce (ihl true) (ihr false)
    all_goals exact hR.pair _ (ihl false) (ihr false) left.need_pos
  | conditional p condition consequent alternate ihc ih₁ ih₂ =>
    exact fun _ => hR.choose (ihc false) (ih₁ false) (ih₂ false)
  | array p items ih => exact fun _ => hR.gather .array (Measure.items items fun e he => ih e he false)
  | object p entries ih =>
    intro soft
    rw [Expr.plan_object, Expr.need, Expr.needEntries_eq_map, byName_map]
    exact hR.gather .object (hR.entries _ fun x hx => ih x (mem_byName.mp hx) false)
  | call p callee arguments ihc ih =>
    intro soft
    cases callee with
    | reference q name optional =>
      exact hR.gather (.call name) (Measure.items arguments fun e he => ih e he false)
    | _ => exact hR.absent _
  | member p target property optional ih =>
    exact fun _ => hR.pair _ (ih false) (hR.constant _) target.need_pos
  | index p target key optional iht ihk =>
    exact fun _ => hR.pair _ (iht false) (ihk false) target.need_pos
  | slice p target start stop step optional iht ih₁ ih₂ ih₃ =>
    intro soft
    have hrow := hR.gather (.slice ⟨optional, false⟩) (.cons (iht false)
      (.cons (hR.bound start fun e he => ih₁ e he false)
      (.cons (hR.bound stop fun e he => ih₂ e he false)
      (.cons (hR.bound step fun e he => ih₃ e he false) .nil))))
    have hneed : max 1 (rowNeed 0 [target.need, Expr.needBound start, Expr.needBound stop,
        Expr.needBound step]) = (Expr.slice p target start stop step optional).need := by
      have := target.need_pos
      rw [Expr.need]
      simp only [rowNeed]
      omega
    rwa [hneed] at hrow
  | pipe p stages ih => exact fun _ => hR.absent _

end Plan.Measure

/-! ## Enough room -/

/-- An error that is no overflow of the stack. -/
def RunError.Roomy : RunError → Prop
  | .stackOverflow _ => False
  | _ => True

theorem RunError.Ordinary.roomy {e : RunError} (h : e.Ordinary) : e.Roomy := by
  cases e with
  | stackOverflow limit => exact h
  | _ => trivial

/-- An outcome that is no overflow of the stack. -/
abbrev FailsRoomily {α : Type} (x : Except RunError α) : Prop := FailsWith RunError.Roomy x

theorem FailsWith.roomy {α : Type} {x : Except RunError α} (hx : FailsOrdinarily x) :
    FailsRoomily x :=
  hx.mono fun _ => RunError.Ordinary.roomy

theorem place_eq_ok {size h : Nat} (hroom : h < size) (v : Value) : place size h v = .ok v :=
  if_neg (Nat.not_le_of_lt hroom)

theorem place_eq_error {size h : Nat} (hfull : size ≤ h) (v : Value) :
    place size h v = .error (.stackOverflow size) :=
  if_pos hfull

section Operations
variable (S : Setting)

theorem UnaryOp.apply_failsOrdinarily (op : UnaryOp) (v : Value) : FailsOrdinarily (op.apply v) := by
  have hop : Compile.unaryOpcode op ∈ Operator.unaryOpcodes := by cases op <;> decide
  cases op <;> exact Operator.unary_failsOrdinarily hop v

theorem BinaryOp.apply_failsOrdinarily (op : BinaryOp) (l r : Value) :
    FailsOrdinarily (op.apply l r) := by
  cases op with
  | add | subtract | multiply | divide | modulo | power | bitAnd | bitOr | bitXor | shiftLeft
  | shiftRight =>
    rw [apply]
    exact Operator.binary_failsOrdinarily (by decide) l r
  | equal | notEqual | lessThan | greaterThan | lessEqual | greaterEqual =>
    rw [apply]
    exact (Operator.compare_failsOrdinarily (by decide) l r).map _
  | and | or | nullCoalesce => exact .ok _

theorem Setting.lookup_failsOrdinarily (name : String) (lenient : Bool) :
    FailsOrdinarily (S.lookup name lenient) := by
  unfold lookup
  split
  · split
    · exact .ok _
    · exact .error trivial
  · split
    · exact .ok _
    · split
      · exact .ok _
      · exact .error trivial

theorem Setting.call_failsOrdinarily (name : String) (arguments : List Value) :
    FailsOrdinarily (S.call name arguments) := by
  unfold call
  split
  · exact .error trivial
  · split
    · exact .ok _
    · exact .error trivial

/-- No operation on the values of parts overflows the stack. -/
theorem Finish.apply_failsRoomily (finish : Finish) (vs : List Value) :
    FailsRoomily (finish.apply S vs) := by
  unfold apply
  split
  · exact (UnaryOp.apply_failsOrdinarily _ _).roomy
  · exact (BinaryOp.apply_failsOrdinarily _ _ _).roomy
  · exact .ok _
  · exact .ok _
  · exact (Access.index_failsOrdinarily _ _ _).roomy
  · exact (Access.slice_failsOrdinarily _ _ _ _ _).roomy
  · exact (S.call_failsOrdinarily _ _).roomy
  · exact .error trivial

end Operations

/-- A plan that evaluates without an overflow where there is room for `n` values. -/
def Plan.FitsIn (S : Setting) (p : Plan) (n : Nat) : Prop :=
  ∀ {size h : Nat}, h + n ≤ size → FailsRoomily (p.within S size h)

section Fits
variable {S : Setting}

theorem FailsWith.place {size h : Nat} (hroom : h + 1 ≤ size) (v : Value) :
    FailsRoomily (PipeExpr.place size h v) := by
  rw [place_eq_ok hroom]
  exact .ok v

theorem Plan.FitsIn.row {ps : List Plan} {ns : List Nat} (hall : List.Forall₂ (FitsIn S) ps ns) :
    ∀ {i size h : Nat}, h + rowNeed i ns ≤ size → FailsRoomily (withinRow S size (h + i) ps) := by
  induction hall with
  | nil => exact fun _ => .ok _
  | @cons p n ps ns hp _ ih =>
    intro i size h hroom
    rw [rowNeed] at hroom
    rw [withinRow]
    have hfirst : FailsRoomily (p.within S size (h + i)) := hp (by omega)
    have hrest : FailsRoomily (withinRow S size (h + i + 1) ps) := ih (i := i + 1) (by omega)
    exact hfirst.bind fun v => hrest.bind fun vs => .ok _

/-- The relation "evaluates without an overflow where there is room". -/
theorem Plan.FitsIn.measure : Plan.Measure (FitsIn S) where
  constant v := fun hroom => FailsWith.place hroom v
  lookup name flags := fun hroom => by
    rw [within]
    exact (S.lookup_failsOrdinarily _ _).roomy.bind fun v => FailsWith.place hroom v
  gather finish hall := fun {size h} hroom => by
    rw [within]
    refine (row hall (i := 0) (h := h) (by omega)).bind fun vs => ?_
    exact (finish.apply_failsRoomily S vs).bind fun v => FailsWith.place (by omega) v
  junction {left right a b} decisive hl hr := fun {size h} hroom => by
    rw [within]
    refine (hl (by omega)).bind fun l => ?_
    by_cases hdecides : l.isTruthy = decisive
    · rw [if_pos hdecides]
      exact FailsWith.place (by omega) _
    · rw [if_neg hdecides]
      exact (hr (by omega)).bind fun r => FailsWith.place (by omega) _
  coalesce hl hr := fun hroom => by
    rw [within]
    refine (hl (by omega)).bind fun l => ?_
    split
    · exact hr (by omega)
    · exact .ok l
  choose hc hx hy := fun hroom => by
    rw [within]
    refine (hc (by omega)).bind fun c => ?_
    split
    · exact hx (by omega)
    · exact hy (by omega)
  absent n := fun _ => .ok _

/-- **The need of an expression is enough.** -/
theorem Expr.fits (e : Expr) (soft : Bool) {size h : Nat} (hroom : h + e.need ≤ size) :
    FailsRoomily ((e.plan soft).within S size h) :=
  Plan.FitsIn.measure.plan e soft hroom

end Fits

/-! ## Not enough room -/

/-- Whether a plan may leave out some part of its evaluation. -/
def Plan.branches : Plan → Bool
  | .junction .. | .coalesce .. | .choose .. | .absent => true
  | .constant _ | .variable _ _ | .gather _ _ => false

/-- A plan all of which is evaluated, in order. -/
def Plan.Straight (p : Plan) : Prop := ∀ q, Within q p → q.branches = false

theorem Plan.Straight.parts {p q : Plan} (h : p.Straight) (hq : q ∈ p.parts) : q.Straight :=
  fun x hx => h x (.part hx hq)

theorem Expr.plan_branches {e : Expr} {soft : Bool} (he : e.branches = false)
    (hplan : e.plan soft ≠ .absent) : (e.plan soft).branches = false := by
  cases e with
  | binary p op left right =>
    cases op with
    | and | or | nullCoalesce => cases he
    | _ => rfl
  | conditional | pipe => cases he
  | call p callee arguments =>
    cases callee with
    | reference => rfl
    | _ => exact absurd rfl hplan
  | _ => rfl

theorem Expr.Straight.plan {e : Expr} {soft : Bool} (he : e.Straight)
    (hall : ∀ q, Plan.Within q (e.plan soft) → q ≠ .absent) : (e.plan soft).Straight := by
  intro q hq
  rcases Expr.within_of_plan hq rfl with ⟨v, _, rfl⟩ | ⟨x, s, hx, rfl⟩
  · rfl
  · exact Expr.plan_branches (he x hx) (hall _ hq)

/-- The outcome of something with the value `v` that needs room for `n` values. -/
def outcomeIn {α : Type} (size h n : Nat) (v : α) : Except RunError α :=
  if h + n ≤ size then .ok v else .error (.stackOverflow size)

/-- A plan that, if it is evaluated as a whole and has a value on some stack, has this value where there is
room for `n` values and else overflows. -/
def Plan.Needs (S : Setting) (p : Plan) (n : Nat) : Prop :=
  p.Straight → 0 < n ∧ ∀ {large k : Nat} {v : Value}, p.within S large k = .ok v →
    ∀ {size h : Nat}, h ≤ size → p.within S size h = outcomeIn size h n v

section Needs
variable {S : Setting}

theorem bind_eq_ok {α β : Type} {x : Except RunError α} {f : α → Except RunError β} {b : β}
    (h : (x >>= f) = .ok b) : ∃ a, x = .ok a ∧ f a = .ok b := by
  cases x with
  | error e => cases h
  | ok a => exact ⟨a, rfl, h⟩

theorem place_ok {size h : Nat} {v w : Value} (hplace : place size h v = .ok w) : v = w := by
  unfold place at hplace
  split at hplace
  · cases hplace
  · exact Except.ok.inj hplace

theorem place_eq_outcomeIn (size h : Nat) (v : Value) : place size h v = outcomeIn size h 1 v := by
  by_cases hroom : h + 1 ≤ size
  · rw [place_eq_ok hroom, outcomeIn, if_pos hroom]
  · rw [place_eq_error (Nat.le_of_not_lt hroom), outcomeIn, if_neg hroom]

theorem outcomeIn_bind {α β : Type} {size h n : Nat} {v : α} {f : α → Except RunError β}
    {m : Nat} {w : β} (hf : h + n ≤ size → f v = outcomeIn size h m w) :
    (outcomeIn size h n v >>= f) = outcomeIn size h (max n m) w := by
  by_cases hroom : h + n ≤ size
  · have hv : outcomeIn size h n v = .ok v := if_pos hroom
    rw [hv]
    refine (hf hroom).trans ?_
    have hiff : h + max n m ≤ size ↔ h + m ≤ size := by omega
    simp only [outcomeIn, hiff]
  · have hv : outcomeIn size h n v = .error (.stackOverflow size) := if_neg hroom
    have hw : outcomeIn size h (max n m) w = .error (.stackOverflow size) := if_neg (by omega)
    rw [hv, hw]
    rfl

theorem Plan.Needs.row {ps : List Plan} {ns : List Nat} (hall : List.Forall₂ (Needs S) ps ns) :
    (∀ p ∈ ps, p.Straight) → ∀ {large k : Nat} {vs : List Value},
    withinRow S large k ps = .ok vs → ∀ {i size h : Nat}, h + i ≤ size →
      withinRow S size (h + i) ps = outcomeIn size h (rowNeed i ns) vs := by
  induction hall with
  | nil =>
    intro _ large k vs hvs i size h hroom
    cases hvs
    exact (if_pos (by rw [rowNeed]; omega)).symm
  | @cons p n ps ns hp _ ih =>
    intro hstraight large k vs hvs i size h hroom
    obtain ⟨hfirst, hrest⟩ := List.forall_mem_cons.mp hstraight
    obtain ⟨hn, hp⟩ := hp hfirst
    rw [withinRow] at hvs
    obtain ⟨v, hv, hvs⟩ := bind_eq_ok hvs
    obtain ⟨ws, hws, hvs⟩ := bind_eq_ok hvs
    cases hvs
    have hshift : outcomeIn size (h + i) n v = outcomeIn size h (i + n) v := by
      rw [outcomeIn, outcomeIn, Nat.add_assoc]
    rw [withinRow, hp hv hroom, hshift, rowNeed]
    -- the rest finds the first value on the stack, for which there was room
    refine outcomeIn_bind fun henough => ?_
    rw [Nat.add_assoc, ih hrest hws (by omega)]
    unfold outcomeIn
    split <;> rfl

/-- The relation "has its value exactly where there is room". -/
theorem Plan.Needs.measure : Plan.Measure (Needs S) where
  constant v := fun _ => ⟨Nat.one_pos, fun {large k w} hw {size h} _ => by
    obtain rfl := place_ok hw
    exact place_eq_outcomeIn size h v⟩
  lookup name flags := fun _ => ⟨Nat.one_pos, fun {large k w} hw {size h} _ => by
    rw [within] at hw ⊢
    obtain ⟨v, hv, hplace⟩ := bind_eq_ok hw
    obtain rfl := place_ok hplace
    rw [hv]
    exact place_eq_outcomeIn size h v⟩
  gather {parts ns} finish hall := fun hstraight => ⟨by omega, fun {large k w} hw {size h} hle => by
    rw [within] at hw ⊢
    obtain ⟨vs, hvs, hw⟩ := bind_eq_ok hw
    obtain ⟨v, hv, hplace⟩ := bind_eq_ok hw
    obtain rfl := place_ok hplace
    have hrow : withinRow S size h parts = outcomeIn size h (rowNeed 0 ns) vs :=
      row hall (fun p hp => hstraight.parts hp) hvs (i := 0) hle
    rw [hrow, Nat.max_comm]
    refine outcomeIn_bind fun _ => ?_
    rw [hv]
    exact place_eq_outcomeIn size h v⟩
  junction decisive _ _ := fun hstraight => nomatch hstraight _ (.self _)
  coalesce _ _ := fun hstraight => nomatch hstraight _ (.self _)
  choose _ _ _ := fun hstraight => nomatch hstraight _ (.self _)
  absent n := fun hstraight => nomatch hstraight _ (.self _)

end Needs

/-! ## Chains -/

section Chains
variable {library : Library} {context : Fields Value} {size : Nat}

theorem PipeProgram.FailsWith.answerBy {P : RunError → Prop} {prog : PipeProgram}
    {answers : Fields Value → Except RunError Value} (hprog : prog.FailsWith P)
    (hanswers : ∀ bindings, PipeExpr.FailsWith P (answers bindings)) :
    PipeExpr.FailsWith P (prog.answerBy answers) := by
  induction prog with
  | done outcome => exact hprog
  | eval bindings next ih => exact ih _ (hprog _ (hanswers bindings))

theorem stagesWithin_failsRoomily (hlibrary : library.FailsWith RunError.Roomy) :
    ∀ (stages : List (Stage Expr)) (aliases : Fields Value) (input : Value),
    0 < size → Expr.needStages stages ≤ size →
    FailsRoomily (stagesWithin library context size aliases input stages)
  | [], _, _, _, _ => .ok _
  | stage :: rest, aliases, input, hpos, hneed => by
    have hbody : stage.body.need ≤ size := (Expr.need_le_needStages (List.mem_cons_self ..)).trans hneed
    have hrest : Expr.needStages rest ≤ size := by
      rw [Expr.needStages] at hneed
      omega
    rw [stagesWithin]
    cases hget : library.handlers.get? stage.handler with
    | none => exact .error trivial
    | some handler =>
      have hanswers : ∀ bindings,
          FailsRoomily (blockWithin library context size aliases stage bindings) :=
        fun bindings => stage.body.fits false (by omega)
      refine ((hlibrary _ handler hget _ input).answerBy hanswers).bind fun output => ?_
      refine (FailsWith.place (by omega) output).bind fun output => ?_
      exact stagesWithin_failsRoomily hlibrary rest _ output hpos hrest

theorem chainWithin_failsRoomily (hlibrary : library.FailsWith RunError.Roomy) (head : Stage Expr)
    (rest : List (Stage Expr)) (hneed : max 1 (Expr.needStages (head :: rest)) ≤ size) :
    FailsRoomily (chainWithin library context size head rest) := by
  rw [Expr.needStages] at hneed
  have hhead : FailsRoomily
      ((head.body.plan false).within ⟨library.functions, context, fun _ => none⟩ size 0) :=
    head.body.fits false (by omega)
  exact hhead.bind fun v => stagesWithin_failsRoomily hlibrary rest _ v (by omega) (by omega)

end Chains

/-! ## Programs -/

section Programs
variable {e : Expr} {p : Program} {context : Fields Value}

theorem mapError_eq_ok {ε δ α : Type} {f : ε → δ} {x : Except ε α} {v : α}
    (h : x.mapError f = .ok v) : x = .ok v := by
  cases x with
  | error e => cases h
  | ok w => cases h; rfl

/-- A stack with room for what a program needs does not overflow, if no handler says so on its own. -/
theorem Expr.run_failsRoomily {library : Library} (hlibrary : library.FailsWith RunError.Roomy)
    (h : e.compile = .ok p) {size : Nat} (hneed : e.need ≤ size) (context : Fields Value) :
    ∃ outcome, FailsRoomily outcome ∧ p.run library size context = outcome.mapError .error := by
  obtain ⟨main, blocks, t, _, rfl, hemits⟩ := Expr.emits_of_compile h
  generalize main.toList = row at hemits h ⊢
  cases hemits with
  | expr hroot he => exact ⟨_, e.fits false (by omega), he.run_eq library size context⟩
  | empty pos =>
    -- the program of a chain without stages is that of a null
    have he : Emits .empty 0 [.constant .null] [⟨.constant, [0]⟩] (Tables.empty.push .null) :=
      .constant .empty 0 .null (by decide)
    have hone : (Expr.null pos).need ≤ size := Nat.le_trans (Expr.need_pos (.pipe pos [])) hneed
    exact ⟨_, (Expr.null pos).fits false (by omega), he.run_eq library size context⟩
  | chain => exact ⟨_, chainWithin_failsRoomily hlibrary _ _ hneed, Expr.run_eq_chainWithin h⟩

/-- A stack without room for what a program needs overflows, if everything in the expression is
evaluated. -/
theorem Expr.run_overflow {library : Library} (hstraight : e.Straight) (h : e.compile = .ok p)
    {large : Nat} {v : Value} (hlarge : p.run library large context = .ok v) {size : Nat}
    (hneed : size < e.need) :
    p.run library size context = .error (.error (.stackOverflow size)) := by
  obtain ⟨main, blocks, t, _, rfl, hemits⟩ := Expr.emits_of_compile h
  generalize main.toList = row at hemits hlarge ⊢
  cases hemits with
  | expr hroot he =>
    rw [he.run_eq] at hlarge ⊢
    have hall := List.forall_mem_singleton.mp he.writable
    have hplan : (e.plan false).Straight := hstraight.plan fun q hq => (hall q hq).1
    rw [(Plan.Needs.measure.plan e false hplan).2 (mapError_eq_ok hlarge) (Nat.zero_le size),
      outcomeIn, if_neg (by omega)]
    rfl
  | empty | chain => nomatch hstraight _ (.self _)

/-- **The need of an expression is the room for its program.**  With the standard library, a stack that
holds so many values never overflows.  If everything in the expression is evaluated, a smaller one
overflows wherever the program has a value at all. -/
theorem Expr.compile_need (h : e.compile = .ok p) (context : Fields Value) :
    (∀ size, e.need ≤ size → ∀ limit,
      p.run .standard size context ≠ .error (.error (.stackOverflow limit))) ∧
    (e.Straight → ∀ {large : Nat} {v : Value}, p.run .standard large context = .ok v →
      ∀ size < e.need, p.run .standard size context = .error (.error (.stackOverflow size))) := by
  constructor
  · intro size hneed limit hover
    have hlibrary : Library.standard.FailsWith RunError.Roomy :=
      Library.standard_failsWith fun _ _ => trivial
    obtain ⟨outcome, hroomy, hrun⟩ := Expr.run_failsRoomily hlibrary h hneed context
    cases outcome with
    | ok v => rw [hrun] at hover; cases hover
    | error e =>
      rw [hrun] at hover
      cases hover
      exact hroomy _ rfl
  · intro hstraight large v hlarge size hneed
    exact Expr.run_overflow hstraight h hlarge hneed

end Programs

/-- A row in a row: the second value of the inner one is the third one on the stack. -/
def nest : Expr :=
  .array ⟨1, 1⟩ [.null ⟨1, 2⟩, .array ⟨1, 8⟩ [.boolean ⟨1, 9⟩ true, .boolean ⟨1, 15⟩ false]]

theorem nest_need : nest.need = 3 := by decide

theorem nest_straight : nest.Straight := by
  have hvalue : ∀ {e : Expr}, e.parts = [] → e.branches = false → e.Straight :=
    fun hparts hbranches => .of_parts hbranches fun y hy => by rw [hparts] at hy; cases hy
  refine .of_parts rfl (List.forall_mem_cons.mpr ⟨hvalue rfl rfl, List.forall_mem_singleton.mpr ?_⟩)
  exact .of_parts rfl (List.forall_mem_cons.mpr
    ⟨hvalue rfl rfl, List.forall_mem_singleton.mpr (hvalue rfl rfl)⟩)

theorem nest_room : ∃ p, nest.compile = .ok p ∧
    (∀ limit, p.run .standard 3 [] ≠ .error (.error (.stackOverflow limit))) ∧
    p.run .standard 2 [] = .error (.error (.stackOverflow 2)) := by
  have hc : nest.compile = .ok _ := rfl
  have hlarge : Program.run _ .standard 3 [] = .ok _ := (Expr.run_eq_within rfl hc).trans rfl
  obtain ⟨henough, hexact⟩ := Expr.compile_need hc []
  exact ⟨_, hc, henough 3 (by rw [nest_need]), hexact nest_straight hlarge 2 (by rw [nest_need]; decide)⟩

end PipeExpr
