import PipeExpr.Proofs.Fields
import PipeExpr.Proofs.Plan

/-!
# Evaluation on a stack of limited size

A machine that evaluates a plan needs room on its stack.  `Plan.within` is the value of a plan if `h`
values are on the stack already and it holds at most `size` of them: each value is put on the stack
(`place`) where the machine does so, and fails if there is no room.

Room is the only difference to the meaning of the expression: either the outcome is the same, or it is
an overflow (`Expr.plan_within`).  On the way keys and values that alternate become the fields that
`eval` collects (`ofList_eq_keepLast`).
-/

namespace PipeExpr

/-! ## Plans on a limited stack -/

/-- A value for which there has to be room on a stack that holds `h` values. -/
def place (size h : Nat) (v : Value) : Except RunError Value :=
  if h ≥ size then .error (.stackOverflow size) else .ok v

namespace Plan

mutual

/-- The value of a plan above `h` values on a stack for `size` of them. -/
def within (S : Setting) (size : Nat) : Nat → Plan → Except RunError Value
  | h, .constant v => place size h v
  | h, .variable name flags => do
    let v ← S.lookup name (flags.optional || flags.soft)
    place size h v
  | h, .gather parts finish => do
    let vs ← withinRow S size h parts
    let v ← finish.apply S vs
    place size h v
  | h, .junction decisive left right => do
    let l ← within S size h left
    if l.isTruthy = decisive then place size h (.boolean decisive)
    else
      let r ← within S size (h + 1) right
      place size h (.boolean r.isTruthy)
  | h, .coalesce left right => do
    let l ← within S size h left
    if l.isNull then within S size h right else return l
  | h, .choose condition consequent alternate => do
    let c ← within S size h condition
    if c.isTruthy then within S size h consequent else within S size h alternate
  | _, .absent => .ok .null

/-- The values of plans that stay on the stack. -/
def withinRow (S : Setting) (size : Nat) : Nat → List Plan → Except RunError (List Value)
  | _, [] => .ok []
  | h, p :: rest => do
    let v ← within S size h p
    let vs ← withinRow S size (h + 1) rest
    return v :: vs

end

end Plan

/-! ## Outcomes up to an overflow -/

/-- An outcome that is the one expected or an overflow of a stack. -/
def UpToOverflow {α : Type} (size : Nat) (actual expected : Except RunError α) : Prop :=
  actual = expected ∨ actual = .error (.stackOverflow size)

namespace UpToOverflow
variable {α β : Type} {size : Nat} {x y : Except RunError α}

theorem refl (x : Except RunError α) : UpToOverflow size x x := .inl rfl

theorem bind {f g : α → Except RunError β} (hx : UpToOverflow size x y)
    (hf : ∀ v, y = .ok v → UpToOverflow size (f v) (g v)) :
    UpToOverflow size (x >>= f) (y >>= g) := by
  rcases hx with rfl | rfl
  · cases x with
    | ok v => exact hf v rfl
    | error e => exact .inl rfl
  · exact .inr rfl

theorem place (h : Nat) (v : Value) : UpToOverflow size (place size h v) (.ok v) := by
  unfold PipeExpr.place
  split
  · exact .inr rfl
  · exact .inl rfl

theorem constant {S : Setting} (h : Nat) (v : Value) :
    UpToOverflow size ((Plan.constant v).within S size h) (pure v) :=
  place h v

/-- The first plan of a row, and those behind it one value higher. -/
theorem cons {S : Setting} {h : Nat} {p : Plan} {ps : List Plan} {v : Except RunError Value}
    {vs : Except RunError (List Value)} (hp : UpToOverflow size (p.within S size h) v)
    (hps : UpToOverflow size (Plan.withinRow S size (h + 1) ps) vs) :
    UpToOverflow size (Plan.withinRow S size h (p :: ps))
      (v >>= fun v => vs >>= fun vs => pure (v :: vs)) := by
  rw [Plan.withinRow]
  exact hp.bind fun v _ => hps.bind fun vs _ => .refl _

theorem nil {S : Setting} {h : Nat} : UpToOverflow size (Plan.withinRow S size h []) (pure []) :=
  .refl _

theorem gather {S : Setting} {h : Nat} {parts : List Plan} {vs : Except RunError (List Value)}
    (hparts : UpToOverflow size (Plan.withinRow S size h parts) vs) (finish : Finish) :
    UpToOverflow size ((Plan.gather parts finish).within S size h) (vs >>= finish.apply S) := by
  rw [Plan.within]
  refine hparts.bind fun vs _ => ?_
  cases finish.apply S vs with
  | error e => exact .refl _
  | ok v => exact .place h v

/-- Where there is no overflow, the outcome is the one expected. -/
theorem eq (hx : UpToOverflow size x y) (h : x ≠ .error (.stackOverflow size)) : x = y :=
  hx.resolve_right h

end UpToOverflow

/-! ## Fields -/

section Fields
variable {α : Type}

theorem keepLast_eq_self {entries : List (String × α)} (h : (entries.map Prod.fst).Nodup) :
    keepLast entries = entries := by
  induction entries with
  | nil => rfl
  | cons x rest ih =>
    obtain ⟨hx, hrest⟩ := List.nodup_cons.mp h
    rw [keepLast, if_neg hx, ih hrest]

/-- Entries in ascending order that are inserted behind an entry that is not above them. -/
theorem foldl_insert_sorted {name : String} {v : α} : ∀ {entries : List (String × α)}
    {fields : Fields α}, (((name, v) :: entries).map Prod.fst).Pairwise (· ≤ ·) →
    (∀ x ∈ (name, v) :: entries, x.1 ∉ fields.map Prod.fst) →
    entries.foldl (fun fields (name, value) => Fields.insert fields name value)
      (fields ++ [(name, v)]) = fields ++ keepLast ((name, v) :: entries)
  | [], fields, _, _ => rfl
  | (key, w) :: rest, fields, hsorted, hfresh => by
    obtain ⟨hbelow, htail⟩ := List.pairwise_cons.mp hsorted
    have hname : name ∉ fields.map Prod.fst := hfresh (name, v) (List.mem_cons_self ..)
    by_cases hkey : name = key
    · -- the entry gives the name a new value
      subst hkey
      have hstep : Fields.insert (fields ++ [(name, v)]) name w = fields ++ [(name, w)] := by
        rw [Fields.insert_append_of_notMem hname]
        simp [Fields.insert]
      show List.foldl _ (Fields.insert (fields ++ [(name, v)]) name w) rest = _
      rw [hstep, foldl_insert_sorted htail fun x hx => hfresh x (List.mem_cons_of_mem _ hx),
        keepLast.eq_def ((name, v) :: _)]
      simp
    · -- the name does not come up again
      have hlater : ∀ x ∈ (key, w) :: rest, x.1 ≠ name := by
        intro x hx heq
        have hle : key ≤ name := by
          rcases List.mem_cons.mp hx with rfl | hx
          · exact heq ▸ String.le_refl _
          · exact heq ▸ (List.pairwise_cons.mp htail).1 _ (List.mem_map_of_mem hx)
        exact hkey (String.le_antisymm (hbelow _ (List.mem_cons_self ..)) hle)
      have hstep : Fields.insert (fields ++ [(name, v)]) key w =
          (fields ++ [(name, v)]) ++ [(key, w)] := by
        rw [Fields.insert_append_of_notMem fun h => hfresh (key, w) (by simp) h]
        simp [Fields.insert, hkey]
      have hmem : name ∉ ((key, w) :: rest).map Prod.fst := fun h => by
        obtain ⟨x, hx, heq⟩ := List.mem_map.mp h
        exact hlater x hx heq
      show List.foldl _ (Fields.insert (fields ++ [(name, v)]) key w) rest = _
      rw [hstep, foldl_insert_sorted htail, keepLast.eq_def ((name, v) :: _)]
      · simp only [if_neg hmem, List.append_assoc, List.singleton_append]
      · intro x hx
        rw [List.map_append, List.mem_append, not_or]
        refine ⟨hfresh x (List.mem_cons_of_mem _ hx), fun h => hlater x hx ?_⟩
        exact List.mem_singleton.mp h

/-- **Of entries in ascending order the last one of each name counts.** -/
theorem ofList_eq_keepLast {entries : List (String × α)}
    (h : (entries.map Prod.fst).Pairwise (· ≤ ·)) : Fields.ofList entries = keepLast entries := by
  unfold Fields.ofList
  split
  · exact (keepLast_eq_self (Fields.nodup_of_distinct ‹_›)).symm
  · cases entries with
    | nil => rfl
    | cons x rest =>
      have hnew : ∀ y ∈ x :: rest, y.1 ∉ ([] : Fields α).map Prod.fst :=
        fun _ _ => List.not_mem_nil
      exact foldl_insert_sorted h hnew

theorem nameLe_trans (a b c : String × α) (hab : decide (a.1 ≤ b.1) = true)
    (hbc : decide (b.1 ≤ c.1) = true) :
    decide (a.1 ≤ c.1) = true := by
  rw [decide_eq_true_eq] at hab hbc ⊢
  exact String.le_trans hab hbc

theorem nameLe_total (a b : String × α) : (decide (a.1 ≤ b.1) || decide (b.1 ≤ a.1)) = true := by
  simpa using String.le_total a.1 b.1

theorem byName_sorted (entries : List (String × α)) :
    ((byName entries).map Prod.fst).Pairwise (· ≤ ·) := by
  refine List.pairwise_map.mpr ?_
  exact (List.pairwise_mergeSort nameLe_trans nameLe_total entries).imp fun hab => by simpa using hab

end Fields

/-! ## Plans and meanings -/

namespace Expr

section Meaning
variable {S : Setting} {size : Nat}

/-- Whether the plan of an expression has its value up to an overflow, above any number of values. -/
def Agrees (S : Setting) (size : Nat) (e : Expr) : Prop :=
  ∀ (soft : Bool) (h : Nat), UpToOverflow size ((e.plan soft).within S size h) (e.eval S soft)

theorem Agrees.row {items : List Expr} (hall : ∀ e ∈ items, e.Agrees S size) : ∀ h,
    UpToOverflow size (Plan.withinRow S size h (planItems items)) (evalItems S items) := by
  induction items with
  | nil => exact fun h => .refl _
  | cons e rest ih =>
    obtain ⟨he, hrest⟩ := List.forall_mem_cons.mp hall
    intro h
    rw [planItems, Plan.withinRow, evalItems]
    exact (he false h).bind fun v _ => (ih hrest (h + 1)).bind fun vs _ => .refl _

theorem Agrees.bound {bound : Option Expr} (hall : ∀ e ∈ bound, e.Agrees S size) (h : Nat) :
    UpToOverflow size ((planBound bound).within S size h) (evalBound S bound) := by
  cases bound with
  | none => exact .place h .null
  | some e => exact hall e rfl false h

/-- Keys and values in a row, each of the keys in front of its value. -/
def keyed (fields : Fields Value) : List Value := fields.flatMap fun x => [.string x.1, x.2]

theorem pairs_keyed (fields : Fields Value) : Machine.objectOf.pairs (keyed fields) = fields := by
  induction fields with
  | nil => rfl
  | cons x rest ih => exact congrArg (x :: ·) ih

/-- The row of an object holds the fields that are collected from its entries. -/
theorem Agrees.entries {entries : List (String × Expr)} (hall : ∀ x ∈ entries, x.2.Agrees S size) :
    ∀ h, UpToOverflow size
      (Plan.withinRow S size h (keyedParts (entries.map (Prod.map id (plan · false)))))
      (keyed <$> collect (entries.map (Prod.map id (eval S · false)))) := by
  induction entries with
  | nil => exact fun h => .refl _
  | cons x rest ih =>
    obtain ⟨hx, hrest⟩ := List.forall_mem_cons.mp hall
    intro h
    rw [List.map_cons, keyedParts]
    have hrow := UpToOverflow.cons (UpToOverflow.constant h (.string x.1))
      (UpToOverflow.cons (hx false (h + 1)) (ih hrest (h + 1 + 1)))
    have heq : keyed <$> collect ((x :: rest).map (Prod.map id (eval S · false))) =
        (do
          let v ← x.2.eval S false
          let vs ← keyed <$> collect (rest.map (Prod.map id (eval S · false)))
          return .string x.1 :: v :: vs) := by
      rw [List.map_cons]
      simp only [collect, map_bind, bind_map_left, map_pure]
      rfl
    rw [heq]
    simpa only [bind_assoc, pure_bind, Prod.map, id] using hrow

theorem eval_strict {op : BinaryOp} {c : Opcode} (h : Compile.strategy op = .strict c)
    (p : Position) (left right : Expr) (soft : Bool) :
    (Expr.binary p op left right).eval S soft = (do
      let l ← left.eval S false
      let r ← right.eval S false
      op.apply l r) := by
  cases op <;> first | rfl | cases h

theorem evalEntries_eq_map (entries : List (String × Expr)) :
    evalEntries S entries = entries.map (Prod.map id (eval S · false)) := by
  induction entries with
  | nil => rfl
  | cons x rest ih => rw [evalEntries, ih, List.map_cons]; rfl

/-- Collected values keep the names of their entries. -/
theorem collect_names {ε α : Type} : ∀ {entries : List (String × Except ε α)}
    {fields : List (String × α)}, collect entries = .ok fields →
    fields.map Prod.fst = entries.map Prod.fst
  | [], _, h => by cases h; rfl
  | (name, outcome) :: rest, fields, h => by
    cases outcome with
    | error e => cases h
    | ok v =>
      cases hrest : collect rest with
      | error e => rw [collect, hrest] at h; cases h
      | ok values =>
        rw [collect, hrest] at h
        cases h
        rw [List.map_cons, List.map_cons, collect_names hrest]

/-- **On a limited stack an expression has its value, or the stack overflows.** -/
theorem plan_within (e : Expr) : e.Agrees S size := by
  induction e using Expr.induction with
  | number p x => exact fun soft h => .place h _
  | string p s style => exact fun soft h => .place h _
  | boolean p b => exact fun soft h => .place h _
  | null p => exact fun soft h => .place h _
  | reference p name optional =>
    intro soft h
    rw [plan, Plan.within, eval]
    cases S.lookup name (optional || soft) with
    | error e => exact .refl _
    | ok v => exact .place h v
  | unary p op operand ih =>
    intro soft h
    have hv := ((ih false h).cons .nil).gather (.unary op)
    simpa only [plan, eval, bind_assoc, pure_bind, Finish.apply] using hv
  | binary p op left right ihl ihr =>
    intro soft h
    cases hs : Compile.strategy op with
    | strict c =>
      have hv := ((ihl false h).cons ((ihr false (h + 1)).cons .nil)).gather (.strict op)
      rw [plan_strict hs, eval_strict hs]
      simpa only [bind_assoc, pure_bind, Finish.apply] using hv
    | shortCircuit short combine =>
      cases op <;> cases hs
      all_goals
        rw [plan, Plan.within, eval]
        refine (ihl false h).bind fun l _ => ?_
        cases l.isTruthy
      -- where the left side decides, and where it does not
      · exact .place h _
      · exact (ihr false (h + 1)).bind fun r _ => .place h _
      · exact (ihr false (h + 1)).bind fun r _ => .place h _
      · exact .place h _
    | coalesce =>
      cases op <;> cases hs
      rw [plan, Plan.within, eval]
      refine (ihl true h).bind fun l _ => ?_
      split
      · exact ihr false h
      · exact .refl _
  | conditional p condition consequent alternate ihc ih₁ ih₂ =>
    intro soft h
    rw [plan, Plan.within, eval]
    refine (ihc false h).bind fun c _ => ?_
    split
    · exact ih₁ false h
    · exact ih₂ false h
  | array p items ih =>
    intro soft h
    rw [plan, eval]
    exact (Agrees.row ih h).gather .array
  | object p entries ih =>
    intro soft h
    have hsorted : ∀ x ∈ byName entries, x.2.Agrees S size := fun x hx => ih x (mem_byName.mp hx)
    have hv := (Agrees.entries hsorted h).gather .object
    rw [plan_object, eval, evalEntries_eq_map, byName_map]
    have heq : (do
          let fields ← collect ((byName entries).map (Prod.map id (eval S · false)))
          return Value.object (keepLast fields)) =
        keyed <$> collect ((byName entries).map (Prod.map id (eval S · false))) >>=
          Finish.object.apply S := by
      cases hc : collect ((byName entries).map (Prod.map id (eval S · false))) with
      | error e => rfl
      | ok fields =>
        have hnames : (fields.map Prod.fst).Pairwise (· ≤ ·) := by
          rw [collect_names hc, ← byName_map]
          exact byName_sorted _
        show Except.ok (Value.object (keepLast fields)) = .ok (Machine.objectOf (keyed fields))
        rw [Machine.objectOf, pairs_keyed, ofList_eq_keepLast hnames]
    rw [heq]
    exact hv
  | call p callee arguments ihc ih =>
    intro soft h
    cases callee with
    | reference q name optional =>
      rw [plan, eval]
      exact (Agrees.row ih h).gather (.call name)
    | _ => exact .refl _
  | member p target property optional ih =>
    intro soft h
    have hv := ((ih false h).cons (.cons (.constant (h + 1) property.key) .nil)).gather
      (.index ⟨optional, soft⟩)
    simpa only [plan, eval, bind_assoc, pure_bind, Finish.apply] using hv
  | index p target key optional iht ihk =>
    intro soft h
    have hv := ((iht false h).cons ((ihk false (h + 1)).cons .nil)).gather
      (.index ⟨optional, soft⟩)
    simpa only [plan, eval, bind_assoc, pure_bind, Finish.apply] using hv
  | slice p target start stop step optional iht ih₁ ih₂ ih₃ =>
    intro soft h
    have hv := ((iht false h).cons ((Agrees.bound ih₁ (h + 1)).cons
      ((Agrees.bound ih₂ (h + 1 + 1)).cons ((Agrees.bound ih₃ (h + 1 + 1 + 1)).cons .nil)))).gather
      (.slice ⟨optional, false⟩)
    simpa only [plan, eval, bind_assoc, pure_bind, Finish.apply] using hv
  | pipe p stages ih => exact fun soft h => .refl _

end Meaning

end Expr

end PipeExpr
