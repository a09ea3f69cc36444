import PipeExpr.Bytecode.Compile
import PipeExpr.Machine.Run
import PipeExpr.Proofs.Evaluator

/-!
# Plans of evaluation

Between an expression and its code stands the *plan* of its evaluation (`Plan`).  Nearly every
node is evaluated the same way: its parts one after the other, then one operation on all their
values.  A plan has a single constructor for these (`Plan.gather`), in which keys of objects, names
behind a dot and omitted bounds of slices are parts like any other; only the nodes that leave
something out have constructors of their own.

Code is written for plans (`Emits`, in `Emission`) and everything about stacks and offsets is
proved about plans.  That is six cases where expressions have fifteen.  What has no program is `absent` from its plan.

`Expr.induction` is the induction on expressions that this and later modules use: the parts in
lists, entries and bounds come with the property already.
-/

namespace PipeExpr

/-! ## Plans -/

/-- What is done with the values of all parts of a node. -/
inductive Finish where
  | unary (op : UnaryOp)
  /-- A binary operator that takes the values of both operands. -/
  | strict (op : BinaryOp)
  | array
  /-- Keys and values alternate. -/
  | object
  | index (flags : AccessFlags)
  /-- The parts are the target, the start, the end and the step. -/
  | slice (flags : AccessFlags)
  | call (name : String)

/-- How an expression is evaluated. -/
inductive Plan where
  | constant (v : Value)
  | variable (name : String) (flags : AccessFlags)
  /-- All parts in order, then an operation on their values. -/
  | gather (parts : List Plan) (finish : Finish)
  /-- The left side decides if its truth is `decisive`; otherwise the right side does. -/
  | junction (decisive : Bool) (left right : Plan)
  | coalesce (left right : Plan)
  | choose (condition consequent alternate : Plan)
  /-- What has no program. -/
  | absent

/-- The parts of an object: each key in front of its value. -/
def keyedParts : List (String × Plan) → List Plan
  | [] => []
  | (key, p) :: rest => .constant (.string key) :: p :: keyedParts rest

/-- The result of an operation on the values of all parts; no other number of parts comes up. -/
def Finish.apply (S : Setting) : Finish → List Value → Except RunError Value
  | .unary op, [v] => op.apply v
  | .strict op, [l, r] => op.apply l r
  | .array, vs => .ok (.array vs)
  | .object, vs => .ok (Machine.objectOf vs)
  | .index flags, [target, key] => Access.index target key flags
  | .slice flags, [target, start, stop, step] => Access.slice target start stop step flags
  | .call name, vs => S.call name vs
  | _, _ => .error .stackUnderflow

/-! ## Entries by name -/

theorem byName_map {α β : Type} (f : α → β) (entries : List (String × α)) :
    byName (entries.map (Prod.map id f)) = (byName entries).map (Prod.map id f) := by
  refine (List.map_mergeSort (f := Prod.map id f) (l := entries) ?_).symm
  exact fun _ _ _ _ => rfl

theorem mem_byName {α : Type} {x : String × α} {entries : List (String × α)} :
    x ∈ byName entries ↔ x ∈ entries :=
  List.mem_mergeSort

@[simp] theorem length_byName {α : Type} (entries : List (String × α)) :
    (byName entries).length = entries.length :=
  List.length_mergeSort _

@[simp] theorem length_keyedParts (entries : List (String × Plan)) :
    (keyedParts entries).length = 2 * entries.length := by
  induction entries with
  | nil => rfl
  | cons x rest ih => simp [keyedParts, ih]; omega

/-! ## Plans of expressions -/

namespace Expr

mutual

/-- The plan of an expression. -/
def plan : Expr → Bool → Plan
  | .number _ x, _ => .constant (.number x)
  | .string _ s _, _ => .constant (.string s)
  | .boolean _ b, _ => .constant (.boolean b)
  | .null _, _ => .constant .null
  | .reference _ name optional, soft => .variable name ⟨optional, soft⟩
  | .unary _ op operand, _ => .gather [plan operand false] (.unary op)
  | .binary _ .and left right, _ => .junction false (plan left false) (plan right false)
  | .binary _ .or left right, _ => .junction true (plan left false) (plan right false)
  | .binary _ .nullCoalesce left right, _ => .coalesce (plan left true) (plan right false)
  | .binary _ op left right, _ => .gather [plan left false, plan right false] (.strict op)
  | .conditional _ condition consequent alternate, _ =>
    .choose (plan condition false) (plan consequent false) (plan alternate false)
  | .array _ items, _ => .gather (planItems items) .array
  | .object _ entries, _ => .gather (keyedParts (byName (planEntries entries))) .object
  | .call _ (.reference _ name _) arguments, _ => .gather (planItems arguments) (.call name)
  | .call .., _ => .absent
  | .member _ target property optional, soft =>
    .gather [plan target false, .constant property.key] (.index ⟨optional, soft⟩)
  | .index _ target key optional, soft =>
    .gather [plan target false, plan key false] (.index ⟨optional, soft⟩)
  | .slice _ target start stop step optional, _ =>
    .gather [plan target false, planBound start, planBound stop, planBound step]
      (.slice ⟨optional, false⟩)
  | .pipe .., _ => .absent

/-- The plans of expressions. -/
def planItems : List Expr → List Plan
  | [] => []
  | e :: rest => plan e false :: planItems rest

/-- The plans of entries, in source order. -/
def planEntries : List (String × Expr) → List (String × Plan)
  | [] => []
  | (key, e) :: rest => (key, plan e false) :: planEntries rest

/-- The plan of a bound of a slice; an omitted one is null. -/
def planBound : Option Expr → Plan
  | none => .constant .null
  | some e => plan e false

end

theorem planItems_eq_map (items : List Expr) : planItems items = items.map (plan · false) := by
  induction items with
  | nil => rfl
  | cons e rest ih => rw [planItems, ih, List.map_cons]

theorem planEntries_eq_map (entries : List (String × Expr)) :
    planEntries entries = entries.map (Prod.map id (plan · false)) := by
  induction entries with
  | nil => rfl
  | cons x rest ih => rw [planEntries, ih, List.map_cons]; rfl

theorem plan_array (p : Position) (items : List Expr) (soft : Bool) :
    (Expr.array p items).plan soft = .gather (items.map (plan · false)) .array := by
  rw [← planItems_eq_map]
  rfl

theorem plan_object (p : Position) (entries : List (String × Expr)) (soft : Bool) :
    (Expr.object p entries).plan soft =
      .gather (keyedParts ((byName entries).map (Prod.map id (plan · false)))) .object := by
  rw [← byName_map, ← planEntries_eq_map]
  rfl

theorem plan_call (p q : Position) (name : String) (optional : Bool) (arguments : List Expr)
    (soft : Bool) : (Expr.call p (.reference q name optional) arguments).plan soft =
      .gather (arguments.map (plan · false)) (.call name) := by
  rw [← planItems_eq_map]
  rfl

theorem plan_slice (p : Position) (target : Expr) (start stop step : Option Expr)
    (optional soft : Bool) : (Expr.slice p target start stop step optional).plan soft =
      .gather [target.plan false, planBound start, planBound stop, planBound step]
        (.slice ⟨optional, false⟩) := rfl

/-- A binary operator whose code takes both operands is planned that way. -/
theorem plan_strict {op : BinaryOp} {c : Opcode} (h : Compile.strategy op = .strict c)
    (p : Position) (left right : Expr) (soft : Bool) :
    (Expr.binary p op left right).plan soft =
      .gather [left.plan false, right.plan false] (.strict op) := by
  cases op <;> first | rfl | cases h

/-! ## Induction on expressions -/

/-- Induction on expressions, with the property for the parts in lists, entries and bounds. -/
theorem induction {P : Expr → Prop}
    (number : ∀ p x, P (.number p x))
    (string : ∀ p s style, P (.string p s style))
    (boolean : ∀ p b, P (.boolean p b))
    (null : ∀ p, P (.null p))
    (reference : ∀ p name optional, P (.reference p name optional))
    (unary : ∀ p op operand, P operand → P (.unary p op operand))
    (binary : ∀ p op left right, P left → P right → P (.binary p op left right))
    (conditional : ∀ p condition consequent alternate, P condition → P consequent → P alternate →
      P (.conditional p condition consequent alternate))
    (array : ∀ p items, (∀ e ∈ items, P e) → P (.array p items))
    (object : ∀ p entries, (∀ x ∈ entries, P x.2) → P (.object p entries))
    (call : ∀ p callee arguments, P callee → (∀ e ∈ arguments, P e) →
      P (.call p callee arguments))
    (member : ∀ p target property optional, P target → P (.member p target property optional))
    (index : ∀ p target key optional, P target → P key → P (.index p target key optional))
    (slice : ∀ p target start stop step optional, P target → (∀ e ∈ start, P e) →
      (∀ e ∈ stop, P e) → (∀ e ∈ step, P e) → P (.slice p target start stop step optional))
    (pipe : ∀ p stages, (∀ s ∈ stages, P s.body) → P (.pipe p stages)) : ∀ e, P e := by
  intro e
  refine @Expr.rec P (fun items => ∀ e ∈ items, P e) (fun entries => ∀ x ∈ entries, P x.2)
    (fun bound => ∀ e ∈ bound, P e) (fun stages => ∀ s ∈ stages, P s.body) (fun x => P x.2)
    (fun s => P s.body) number string boolean null reference unary binary conditional array object
    call member index slice pipe ?_ ?_ ?_ ?_ ?_ ?_ ?_ ?_ ?_ ?_ e
  · exact fun _ h => nomatch h
  · exact fun _ _ hd ht => List.forall_mem_cons.mpr ⟨hd, ht⟩
  · exact fun _ h => nomatch h
  · exact fun _ _ hd ht => List.forall_mem_cons.mpr ⟨hd, ht⟩
  · exact fun _ h => nomatch h
  · exact fun _ h _ he => Option.some.inj he ▸ h
  · exact fun _ h => nomatch h
  · exact fun _ _ hd ht => List.forall_mem_cons.mpr ⟨hd, ht⟩
  · exact fun _ _ h => h
  · exact fun _ _ _ _ h => h

end Expr

end PipeExpr
