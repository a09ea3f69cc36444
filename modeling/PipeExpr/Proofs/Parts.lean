import PipeExpr.Proofs.Plan

/-!
# Parts of expressions and of plans

An expression is *within* another one if it is this one or within one of its parts
(`Expr.Within`).  The function that a call names is no part of the call, so its name does not pass for
a variable.

Plans have parts as well.  Those of the plan of an expression are the plans of its parts, and scalar constants
besides (`Expr.mem_parts_plan`, `Expr.plan_mem_parts`).  So an expression and its plan speak of the
same variables and have the same numbers of elements, unless something in it has no plan.
-/

namespace PipeExpr

/-! ## Expressions -/

namespace Expr

/-- The expressions that an expression consists of. -/
def parts : Expr → List Expr
  | .unary _ _ operand => [operand]
  | .binary _ _ left right => [left, right]
  | .conditional _ condition consequent alternate => [condition, consequent, alternate]
  | .array _ items => items
  | .object _ entries => entries.map Prod.snd
  | .call _ _ arguments => arguments
  | .member _ target _ _ => [target]
  | .index _ target key _ => [target, key]
  | .slice _ target start stop step _ =>
    target :: (start.toList ++ stop.toList ++ step.toList)
  | .pipe _ stages => stages.map Stage.body
  | _ => []

/-- Whether an expression stands somewhere in another one. -/
inductive Within : Expr → Expr → Prop where
  | self (e : Expr) : Within e e
  | part {x y e : Expr} (hx : Within x y) (hy : y ∈ e.parts) : Within x e

/-- The number of elements that an expression lists. -/
def count? : Expr → Option Nat
  | .array _ items => some items.length
  | .object _ entries => some entries.length
  | .call _ _ arguments => some arguments.length
  | _ => none

/-- Whether a context variable comes up in an expression. -/
def UsesVariable (e : Expr) (name : String) : Prop :=
  isLocalName name = false ∧ ∃ pos optional, Within (.reference pos name optional) e

end Expr

/-! ## Plans -/

/-- A value that is neither an array nor an object. -/
def Value.Scalar : Value → Prop
  | .array _ | .object _ => False
  | _ => True

namespace Plan

/-- The plans that a plan consists of. -/
def parts : Plan → List Plan
  | .gather parts _ => parts
  | .junction _ left right | .coalesce left right => [left, right]
  | .choose condition consequent alternate => [condition, consequent, alternate]
  | .constant _ | .variable _ _ | .absent => []

/-- Whether a plan stands somewhere in another one. -/
inductive Within : Plan → Plan → Prop where
  | self (p : Plan) : Within p p
  | part {q p r : Plan} (hq : Within q p) (hp : p ∈ r.parts) : Within q r

/-- The number of elements that a plan lists; an object has two parts for each of its entries. -/
def count? : Plan → Option Nat
  | .gather parts .array | .gather parts (.call _) => some parts.length
  | .gather parts .object => some (parts.length / 2)
  | _ => none

/-- Whether a context variable comes up in a plan. -/
def UsesVariable (p : Plan) (name : String) : Prop :=
  isLocalName name = false ∧ ∃ flags, Within (.variable name flags) p

/-- Whether all constants in a plan are scalars. -/
def Scalar (p : Plan) : Prop := ∀ v, Within (.constant v) p → v.Scalar

variable {p : Plan}

theorem Scalar.parts (h : p.Scalar) : ∀ q ∈ p.parts, q.Scalar := fun _ hq v hv => h v (.part hv hq)

/-- What holds of everything in a plan holds of the plan itself and of everything in its parts. -/
theorem forall_within {P : Plan → Prop} (hp : P p)
    (hparts : ∀ y ∈ p.parts, ∀ q, Within q y → P q) : ∀ q, Within q p → P q := by
  intro q hq
  cases hq with
  | self => exact hp
  | part hq hy => exact hparts _ hy q hq

/-- The variables of a plan that is no variable are those of its parts. -/
theorem usesVariable_iff_parts (hp : ∀ name flags, p ≠ .variable name flags) (name : String) :
    p.UsesVariable name ↔ ∃ y ∈ p.parts, y.UsesVariable name := by
  constructor
  · rintro ⟨hname, flags, h⟩
    cases h with
    | self => exact absurd rfl (hp name flags)
    | part h hy => exact ⟨_, hy, hname, flags, h⟩
  · rintro ⟨y, hy, hname, flags, h⟩
    exact ⟨hname, flags, .part h hy⟩

theorem usesVariable_variable (x : String) (flags : AccessFlags) (name : String) :
    (Plan.variable x flags).UsesVariable name ↔ isLocalName name = false ∧ name = x := by
  constructor
  · rintro ⟨hname, flags', h⟩
    cases h with
    | self => exact ⟨hname, rfl⟩
    | part _ hy => cases hy
  · rintro ⟨hname, rfl⟩
    exact ⟨hname, flags, .self _⟩

theorem not_usesVariable_constant (v : Value) (name : String) :
    ¬ (constant v).UsesVariable name := by
  rw [usesVariable_iff_parts (by rintro _ _ ⟨⟩)]
  exact fun ⟨_, hy, _⟩ => nomatch hy

theorem usesVariable_gather (parts : List Plan) (finish : Finish) (name : String) :
    (gather parts finish).UsesVariable name ↔ ∃ y ∈ parts, y.UsesVariable name :=
  usesVariable_iff_parts (by rintro _ _ ⟨⟩) name

theorem usesVariable_junction (decisive : Bool) (left right : Plan) (name : String) :
    (junction decisive left right).UsesVariable name ↔
      ∃ y ∈ [left, right], y.UsesVariable name :=
  usesVariable_iff_parts (by rintro _ _ ⟨⟩) name

theorem usesVariable_coalesce (left right : Plan) (name : String) :
    (coalesce left right).UsesVariable name ↔ ∃ y ∈ [left, right], y.UsesVariable name :=
  usesVariable_iff_parts (by rintro _ _ ⟨⟩) name

theorem usesVariable_choose (condition consequent alternate : Plan) (name : String) :
    (choose condition consequent alternate).UsesVariable name ↔
      ∃ y ∈ [condition, consequent, alternate], y.UsesVariable name :=
  usesVariable_iff_parts (by rintro _ _ ⟨⟩) name

end Plan

theorem mem_keyedParts {q : Plan} {entries : List (String × Plan)} (h : q ∈ keyedParts entries) :
    (∃ v, v.Scalar ∧ q = .constant v) ∨ q ∈ entries.map Prod.snd := by
  induction entries with
  | nil => cases h
  | cons x rest ih =>
    rcases List.mem_cons.mp h with rfl | h
    · exact .inl ⟨.string x.1, trivial, rfl⟩
    · rcases List.mem_cons.mp h with rfl | h
      · exact .inr (List.mem_cons_self ..)
      · exact (ih h).imp_right (List.mem_cons_of_mem _)

theorem keyedParts_of_mem {x : String × Plan} {entries : List (String × Plan)} (h : x ∈ entries) :
    x.2 ∈ keyedParts entries := by
  induction entries with
  | nil => cases h
  | cons y rest ih =>
    rcases List.mem_cons.mp h with rfl | h
    · exact List.mem_cons_of_mem _ (List.mem_cons_self ..)
    · exact List.mem_cons_of_mem _ (List.mem_cons_of_mem _ (ih h))

/-! ## The plan of an expression -/

namespace Expr

theorem plan_binary_parts (p : Position) (op : BinaryOp) (left right : Expr) (soft : Bool) :
    ∃ s, ((Expr.binary p op left right).plan soft).parts = [left.plan s, right.plan false] := by
  cases op <;> exact ⟨_, rfl⟩

theorem planBound_constant_or (bound : Option Expr) :
    (∃ v, v.Scalar ∧ planBound bound = .constant v) ∨ ∃ y ∈ bound.toList, planBound bound = y.plan false := by
  cases bound with
  | none => exact .inl ⟨.null, trivial, rfl⟩
  | some y => exact .inr ⟨y, List.mem_singleton_self y, rfl⟩

/-- The parts of a plan are plans of parts, or scalar constants. -/
theorem mem_parts_plan {e : Expr} {soft : Bool} {q : Plan} (h : q ∈ (e.plan soft).parts) :
    (∃ v, v.Scalar ∧ q = .constant v) ∨ ∃ y ∈ e.parts, ∃ s, q = y.plan s := by
  cases e with
  | number | string | boolean | null | reference | pipe => cases h
  | unary p op operand =>
    obtain rfl := List.mem_singleton.mp h
    exact .inr ⟨operand, List.mem_singleton_self _, _, rfl⟩
  | binary p op left right =>
    obtain ⟨s, hs⟩ := plan_binary_parts p op left right soft
    rw [hs] at h
    rcases List.mem_cons.mp h with rfl | h
    · exact .inr ⟨left, List.mem_cons_self .., _, rfl⟩
    · obtain rfl := List.mem_singleton.mp h
      exact .inr ⟨right, List.mem_cons_of_mem _ (List.mem_singleton_self _), _, rfl⟩
  | conditional p condition consequent alternate =>
    have h' : q ∈ [condition, consequent, alternate].map (plan · false) := h
    obtain ⟨y, hy, rfl⟩ := List.mem_map.mp h'
    exact .inr ⟨y, hy, _, rfl⟩
  | array p items =>
    rw [plan_array] at h
    obtain ⟨y, hy, rfl⟩ := List.mem_map.mp h
    exact .inr ⟨y, hy, _, rfl⟩
  | object p entries =>
    rw [plan_object] at h
    -- the keys are constants, the values are plans of parts
    refine (mem_keyedParts h).imp_right fun hmem => ?_
    obtain ⟨x, hx, rfl⟩ := List.mem_map.mp hmem
    obtain ⟨y, hy, rfl⟩ := List.mem_map.mp hx
    exact ⟨y.2, List.mem_map.mpr ⟨y, mem_byName.mp hy, rfl⟩, _, rfl⟩
  | call p callee arguments =>
    cases callee with
    | reference q name optional =>
      rw [plan_call] at h
      obtain ⟨y, hy, rfl⟩ := List.mem_map.mp h
      exact .inr ⟨y, hy, _, rfl⟩
    | _ => cases h
  | member p target property optional =>
    rcases List.mem_cons.mp h with rfl | h
    · exact .inr ⟨target, List.mem_singleton_self _, _, rfl⟩
    · obtain rfl := List.mem_singleton.mp h
      exact .inl ⟨property.key, by cases property <;> trivial, rfl⟩
  | index p target key optional =>
    have h' : q ∈ [target, key].map (plan · false) := h
    obtain ⟨y, hy, rfl⟩ := List.mem_map.mp h'
    exact .inr ⟨y, hy, _, rfl⟩
  | slice p target start stop step optional =>
    have hbound : ∀ bound : Option Expr, (∀ y ∈ bound.toList,
        y ∈ target :: (start.toList ++ stop.toList ++ step.toList)) → q = planBound bound →
        (∃ v, v.Scalar ∧ q = .constant v) ∨
          ∃ y ∈ target :: (start.toList ++ stop.toList ++ step.toList), ∃ s, q = y.plan s := by
      intro bound hsub hq
      rw [hq]
      exact (planBound_constant_or bound).imp_right fun ⟨y, hy, hplan⟩ => ⟨y, hsub y hy, _, hplan⟩
    have h' : q ∈ [target.plan false, planBound start, planBound stop, planBound step] := h
    simp only [List.mem_cons, List.not_mem_nil, or_false] at h'
    rcases h' with rfl | rfl | rfl | rfl
    · exact .inr ⟨target, List.mem_cons_self .., _, rfl⟩
    · exact hbound start (fun y hy => by simp [hy]) rfl
    · exact hbound stop (fun y hy => by simp [hy]) rfl
    · exact hbound step (fun y hy => by simp [hy]) rfl

/-- If an expression has a plan, the plans of its parts are parts of it. -/
theorem plan_mem_parts {e y : Expr} {soft : Bool} (hplan : e.plan soft ≠ .absent)
    (hy : y ∈ e.parts) : ∃ s, y.plan s ∈ (e.plan soft).parts := by
  cases e with
  | number | string | boolean | null | reference => cases hy
  | unary p op operand =>
    obtain rfl := List.mem_singleton.mp hy
    exact ⟨false, List.mem_singleton_self _⟩
  | binary p op left right =>
    obtain ⟨s, hs⟩ := plan_binary_parts p op left right soft
    rw [hs]
    rcases List.mem_cons.mp hy with rfl | hy
    · exact ⟨s, List.mem_cons_self ..⟩
    · obtain rfl := List.mem_singleton.mp hy
      exact ⟨false, List.mem_cons_of_mem _ (List.mem_singleton_self _)⟩
  | conditional p condition consequent alternate =>
    have hmem : y.plan false ∈ [condition, consequent, alternate].map (plan · false) :=
      List.mem_map_of_mem hy
    exact ⟨false, hmem⟩
  | array p items =>
    rw [plan_array]
    exact ⟨false, List.mem_map_of_mem hy⟩
  | object p entries =>
    rw [plan_object]
    obtain ⟨x, hx, rfl⟩ := List.mem_map.mp hy
    refine ⟨false, keyedParts_of_mem (x := (x.1, x.2.plan false)) ?_⟩
    exact List.mem_map.mpr ⟨x, mem_byName.mpr hx, rfl⟩
  | call p callee arguments =>
    cases callee with
    | reference q name optional =>
      rw [plan_call]
      exact ⟨false, List.mem_map_of_mem hy⟩
    | _ => exact absurd rfl hplan
  | member p target property optional =>
    obtain rfl := List.mem_singleton.mp hy
    exact ⟨false, List.mem_cons_self ..⟩
  | index p target key optional =>
    have hmem : y.plan false ∈ [target, key].map (plan · false) := List.mem_map_of_mem hy
    exact ⟨false, hmem⟩
  | slice p target start stop step optional =>
    refine ⟨false, ?_⟩
    show y.plan false ∈ [target.plan false, planBound start, planBound stop, planBound step]
    simp only [parts, List.mem_cons, List.mem_append, Option.mem_toList] at hy
    rcases hy with rfl | (rfl | rfl) | rfl
    · simp
    · simp [planBound]
    · simp [planBound]
    · simp [planBound]
  | pipe p stages => exact absurd rfl hplan

/-- If an expression has a plan, both list the same number of elements. -/
theorem plan_count? {e : Expr} {soft : Bool} (hplan : e.plan soft ≠ .absent) :
    (e.plan soft).count? = e.count? := by
  cases e with
  | binary p op left right => cases op <;> rfl
  | array p items =>
    rw [plan_array]
    exact congrArg some (List.length_map _)
  | object p entries =>
    rw [plan_object]
    refine congrArg some ?_
    rw [length_keyedParts, List.length_map, length_byName]
    omega
  | call p callee arguments =>
    cases callee with
    | reference q name optional =>
      rw [plan_call]
      exact congrArg some (List.length_map _)
    | _ => exact absurd rfl hplan
  | pipe p stages => exact absurd rfl hplan
  | number | string | boolean | null | reference | unary | conditional | member | index | slice =>
    rfl

theorem plan_eq_variable {e : Expr} {soft : Bool} {name : String} {flags : AccessFlags}
    (h : e.plan soft = .variable name flags) : ∃ pos optional, e = .reference pos name optional := by
  cases e with
  | reference pos x optional =>
    obtain ⟨rfl, _⟩ := Plan.variable.inj h
    exact ⟨pos, optional, rfl⟩
  | binary p op left right => cases op <;> cases h
  | call p callee arguments => cases callee <;> cases h
  | number | string | boolean | null | unary | conditional | array | object | member | index
  | slice | pipe => cases h

/-- What stands in an expression all of which has plans stands in its plan. -/
theorem Within.plan {x e : Expr} (h : Within x e) : ∀ {soft : Bool},
    (∀ q, Plan.Within q (e.plan soft) → q ≠ .absent) →
    ∃ s, Plan.Within (x.plan s) (e.plan soft) := by
  induction h with
  | self => exact fun {soft} _ => ⟨soft, .self _⟩
  | @part y e _ hy ih =>
    intro soft hall
    obtain ⟨s, hs⟩ := plan_mem_parts (hall _ (.self _)) hy
    obtain ⟨s', hx⟩ := ih fun q hq => hall q (.part hq hs)
    exact ⟨s', .part hx hs⟩

/-- What stands in the plan of an expression is the plan of something in it, or a scalar constant. -/
theorem within_of_plan {q p : Plan} (h : Plan.Within q p) : ∀ {e : Expr} {soft : Bool},
    p = e.plan soft → (∃ v, v.Scalar ∧ q = .constant v) ∨ ∃ x s, Within x e ∧ q = x.plan s := by
  induction h with
  | self => exact fun {e soft} hp => .inr ⟨e, soft, .self e, hp⟩
  | @part p r hq hp ih =>
    intro e soft hr
    subst hr
    rcases mem_parts_plan hp with ⟨v, hv, rfl⟩ | ⟨y, hy, s, rfl⟩
    · cases hq with
      | self => exact .inl ⟨v, hv, rfl⟩
      | part _ hmem => cases hmem
    · exact (ih rfl).imp_right fun ⟨x, s, hx, hplan⟩ => ⟨x, s, .part hx hy, hplan⟩

/-- The constants in the plan of an expression are scalars: literals, keys and omitted bounds. -/
theorem scalar_plan (e : Expr) (soft : Bool) : (e.plan soft).Scalar := by
  intro v h
  rcases within_of_plan h rfl with ⟨w, hw, hplan⟩ | ⟨x, s, _, hplan⟩
  · cases hplan
    exact hw
  · cases x with
    | number | string | boolean | null =>
      cases hplan
      trivial
    | binary p op left right => cases op <;> cases hplan
    | call p callee arguments => cases callee <;> cases hplan
    | reference | unary | conditional | array | object | member | index | slice | pipe => cases hplan

/-- **An expression all of which has plans uses the variables of its plan.** -/
theorem usesVariable_plan {e : Expr} {soft : Bool}
    (hall : ∀ q, Plan.Within q (e.plan soft) → q ≠ .absent) (name : String) :
    (e.plan soft).UsesVariable name ↔ e.UsesVariable name := by
  constructor
  · rintro ⟨hname, flags, h⟩
    rcases within_of_plan h rfl with ⟨v, _, hv⟩ | ⟨x, s, hx, hplan⟩
    · cases hv
    · obtain ⟨pos, optional, rfl⟩ := plan_eq_variable hplan.symm
      exact ⟨hname, pos, optional, hx⟩
  · rintro ⟨hname, pos, optional, h⟩
    obtain ⟨s, hs⟩ := h.plan hall
    exact ⟨hname, _, hs⟩

end Expr

end PipeExpr
