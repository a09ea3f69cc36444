import PipeExpr.Proofs.Encoding
import PipeExpr.Proofs.Plan

/-!
# The code of a plan

`Emits t offset plans row t'` says that `row` is code for the plans, one behind the other, if it is
placed at `offset` and the tables of the program grow from `t` to `t'`.  It is compilation
without its failures: no positions, no depth, and the row as a plain list.

Compilation that succeeds has emitted code for the plan of its expression (`emits_of_code`), so
whatever holds of emitted code holds of compiled programs.  What compiled programs do is proved by
induction on `Emits`, and the definition of the compiler is not opened again for that.
-/

namespace PipeExpr

open Compile (jumpSize strategy unaryOpcode)

/-! ## The relation -/

/-- The tables with one more constant. -/
def Tables.push (t : Tables) (v : Value) : Tables := { t with constants := t.constants.push v }

/-- The operation that lets a left side decide. -/
def shortCircuitOpcode : Bool → Opcode
  | false => .andShortCircuit
  | true => .orShortCircuit

/-- The operation on both sides if the left one has not decided. -/
def combineOpcode : Bool → Opcode
  | false => .and
  | true => .or

theorem length_shortCircuit (decisive : Bool) (target : Nat) :
    (Instruction.mk (shortCircuitOpcode decisive) [target]).length = jumpSize := by
  cases decisive <;> rfl

theorem length_combine (decisive : Bool) : (Instruction.mk (combineOpcode decisive) []).length = 1 := by
  cases decisive <;> rfl

/-- The instruction that finishes a node behind the code of `n` parts. -/
inductive Finish.Emits : Finish → Nat → Tables → Instruction → Tables → Prop where
  | unary (t : Tables) (op : UnaryOp) : Emits (.unary op) 1 t ⟨unaryOpcode op, []⟩ t
  | strict (t : Tables) {op : BinaryOp} {c : Opcode} (h : strategy op = .strict c) :
    Emits (.strict op) 2 t ⟨c, []⟩ t
  | array (t : Tables) {n : Nat} (h : n ≤ maxOperand) : Emits .array n t ⟨.array, [n]⟩ t
  | object (t : Tables) {n : Nat} (h : n ≤ maxOperand) : Emits .object (2 * n) t ⟨.object, [n]⟩ t
  | index (t : Tables) (flags : AccessFlags) :
    Emits (.index flags) 2 t ⟨.index, [flags.toNat]⟩ t
  | slice (t : Tables) (flags : AccessFlags) :
    Emits (.slice flags) 4 t ⟨.slice, [flags.toNat]⟩ t
  | call (t : Tables) (name : String) {n : Nat} (h : n ≤ maxOperand)
    (hroom : t.constants.size < maxOperand) :
    Emits (.call name) n t ⟨.call, [t.constants.size, n]⟩ (t.push (.string name))

/-- The code of plans, one behind the other. -/
inductive Emits : Tables → Nat → List Plan → List Instruction → Tables → Prop where
  | nil (t : Tables) (o : Nat) : Emits t o [] [] t
  | cons {t t₁ t₂ : Tables} {o : Nat} {p : Plan} {ps : List Plan} {a b : List Instruction}
    (ha : Emits t o [p] a t₁) (hb : Emits t₁ (o + rowSize a) ps b t₂) :
    Emits t o (p :: ps) (a ++ b) t₂
  | constant (t : Tables) (o : Nat) (v : Value) (h : t.constants.size < maxOperand) :
    Emits t o [.constant v] [⟨.constant, [t.constants.size]⟩] (t.push v)
  | pipeLocal (t : Tables) (o : Nat) {name : String} (flags : AccessFlags)
    (hname : isLocalName name = true) (h : t.constants.size < maxOperand) :
    Emits t o [.variable name flags] [⟨.loadLocal, [t.constants.size]⟩] (t.push (.string name))
  | contextVar (t : Tables) (o : Nat) {name : String} (flags : AccessFlags)
    (hname : isLocalName name = false) (h : (t.contextVars.slot name).1 < maxOperand) :
    Emits t o [.variable name flags]
      [⟨.loadVar, [(t.contextVars.slot name).1, flags.toNat]⟩]
      { t with contextVars := (t.contextVars.slot name).2 }
  | gather {t t₁ t₂ : Tables} {o : Nat} {parts : List Plan} {finish : Finish}
    {row : List Instruction} {i : Instruction}
    (hparts : Emits t o parts row t₁) (hfinish : finish.Emits parts.length t₁ i t₂) :
    Emits t o [.gather parts finish] (row ++ [i]) t₂
  | junction {t t₁ t₂ : Tables} {o : Nat} {decisive : Bool} {left right : Plan}
    {a b : List Instruction} {target : Nat}
    (hleft : Emits t o [left] a t₁) (hright : Emits t₁ (o + rowSize a + jumpSize) [right] b t₂)
    (htarget : target = o + rowSize a + jumpSize + rowSize b + 1) (hmax : target ≤ maxOperand) :
    Emits t o [.junction decisive left right]
      (a ++ ⟨shortCircuitOpcode decisive, [target]⟩ :: (b ++ [⟨combineOpcode decisive, []⟩])) t₂
  | coalesce {t t₁ t₂ : Tables} {o : Nat} {left right : Plan} {a b : List Instruction}
    {target : Nat} (hleft : Emits t o [left] a t₁)
    (hright : Emits t₁ (o + rowSize a + jumpSize) [right] b t₂)
    (htarget : target = o + rowSize a + jumpSize + rowSize b) (hmax : target ≤ maxOperand) :
    Emits t o [.coalesce left right] (a ++ ⟨.jumpIfNotNull, [target]⟩ :: b) t₂
  | choose {t t₁ t₂ t₃ : Tables} {o : Nat} {condition consequent alternate : Plan}
    {a b c : List Instruction} {second final : Nat} (hcondition : Emits t o [condition] a t₁)
    (hconsequent : Emits t₁ (o + rowSize a + jumpSize) [consequent] b t₂)
    (halternate : Emits t₂ second [alternate] c t₃)
    (hsecond : second = o + rowSize a + jumpSize + rowSize b + jumpSize)
    (hfinal : final = second + rowSize c) (hsecondMax : second ≤ maxOperand)
    (hfinalMax : final ≤ maxOperand) :
    Emits t o [.choose condition consequent alternate]
      (a ++ ⟨.jumpIfFalse, [second]⟩ :: (b ++ ⟨.jump, [final]⟩ :: c)) t₃

/-- What lets its left side decide is planned as a junction. -/
theorem Expr.plan_shortCircuit {op : BinaryOp} {short combine : Opcode}
    (h : strategy op = .shortCircuit short combine) :
    ∃ decisive, short = shortCircuitOpcode decisive ∧ combine = combineOpcode decisive ∧
      ∀ p left right soft, (Expr.binary p op left right).plan soft =
        .junction decisive (left.plan false) (right.plan false) := by
  cases op <;> try cases h
  · exact ⟨false, rfl, rfl, fun _ _ _ _ => rfl⟩
  · exact ⟨true, rfl, rfl, fun _ _ _ _ => rfl⟩

theorem Expr.plan_coalesce {op : BinaryOp} (h : strategy op = .coalesce) (p : Position)
    (left right : Expr) (soft : Bool) :
    (Expr.binary p op left right).plan soft = .coalesce (left.plan true) (right.plan false) := by
  cases op <;> first | rfl | cases h

/-- Code behind code, where the second part starts at the end of the first one. -/
theorem Emits.cons_assembly {t t₁ t₂ : Tables} {o : Nat} {p : Plan} {ps : List Plan}
    {a : Assembly} {b : List Instruction} (ha : Emits t o [p] a.toList t₁)
    (hb : Emits t₁ (o + Assembly.size a) ps b t₂) : Emits t o (p :: ps) (a.toList ++ b) t₂ := by
  rw [Assembly.size_eq] at hb
  exact .cons ha hb

/-- The operand for an alias. -/
inductive EmitsAlias : Tables → Option String → Nat → Tables → Prop where
  | none (t : Tables) : EmitsAlias t none noAlias t
  | some (t : Tables) (name : String) (h : t.constants.size < maxOperand) :
    EmitsAlias t (some name) t.constants.size (t.push (.string name))

/-- The code that binds the result of the head of a chain. -/
inductive EmitsBinding : Tables → Option String → List Instruction → Tables → Prop where
  | none (t : Tables) : EmitsBinding t none [] t
  | some (t : Tables) (name : String) (h : t.constants.size < maxOperand) :
    EmitsBinding t (some name) [⟨.storeLocal, [t.constants.size]⟩] (t.push (.string name))

/-- The code of the stages behind the head, with their blocks; `k` is the number of blocks so far.
Each block is written from scratch, behind the names that its stage needs. -/
inductive EmitsStages :
    Tables → Nat → List (Stage Expr) → List Instruction → List (List Instruction) → Tables → Prop
    where
  | nil (t : Tables) (k : Nat) : EmitsStages t k [] [] [] t
  | cons {t t₁ t₂ t₃ : Tables} {k bound : Nat} {stage : Stage Expr} {rest : List (Stage Expr)}
    {block : Assembly} {row : List Instruction} {blocks : List (List Instruction)}
    (hroom : t.constants.size < maxOperand)
    (halias : EmitsAlias (t.push (.string stage.handler)) stage.boundAs bound t₁)
    (hcount : k < maxOperand) (hcode : Compile.code stage.body false 0 0 t₁ = .ok (block, t₂))
    (hrest : EmitsStages t₂ (k + 1) rest row blocks t₃) :
    EmitsStages t k (stage :: rest) (⟨.pipe, [t.constants.size, bound, k]⟩ :: row)
      (block.toList :: blocks) t₃

/-- The tables in which nothing stands yet. -/
def Tables.empty : Tables := ⟨#[], .empty⟩

/-- The main row and the blocks of a whole program. -/
inductive EmitsProgram : Expr → List Instruction → List (List Instruction) → Tables → Prop where
  | expr {e : Expr} {row : List Instruction} {t : Tables} (hroot : e.isPipe = false)
    (h : Emits .empty 0 [e.plan false] row t) : EmitsProgram e row [] t
  | empty (p : Position) :
    EmitsProgram (.pipe p []) [⟨.constant, [0]⟩] [] (Tables.empty.push .null)
  | chain {p : Position} {head : Stage Expr} {rest : List (Stage Expr)} {t₁ t₂ t₃ : Tables}
    {a b row : List Instruction} {blocks : List (List Instruction)}
    (hhead : Emits .empty 0 [head.body.plan false] a t₁)
    (hbinding : EmitsBinding t₁ head.boundAs b t₂) (hstages : EmitsStages t₂ 0 rest row blocks t₃) :
    EmitsProgram (.pipe p (head :: rest)) (a ++ (b ++ row)) blocks t₃

/-- The program that consists of rows and tables. -/
def programOf (row : List Instruction) (blocks : List (List Instruction)) (t : Tables) : Program :=
  ⟨streamOf row, t.constants, t.contextVars.names, (blocks.map streamOf).toArray⟩

/-! ## Steps of compilation that succeed -/

namespace Compile

section Steps
variable {α β : Type} {t t' : Tables}

theorem bind_ok {x : Compile α} {f : α → Compile β} {b : β}
    (h : (x >>= f) t = .ok (b, t')) : ∃ a t₁, x t = .ok (a, t₁) ∧ f a t₁ = .ok (b, t') := by
  have hrun : (x t >>= fun y => f y.1 y.2) = .ok (b, t') := h
  cases hx : x t with
  | error e =>
    rw [hx] at hrun
    nomatch hrun
  | ok y =>
    rw [hx] at hrun
    exact ⟨y.1, y.2, rfl, hrun⟩

theorem pure_ok {a b : α} (h : (pure a : Compile α) t = .ok (b, t')) : b = a ∧ t' = t := by
  have hrun : Except.ok (a, t) = .ok (b, t') := h
  obtain ⟨rfl, rfl⟩ := Prod.mk.inj (Except.ok.inj hrun)
  exact ⟨rfl, rfl⟩

theorem throw_ok {e : CompileError} {b : α} : ¬ (throw e : Compile α) t = .ok (b, t') :=
  fun h => nomatch (show Except.error e = Except.ok (b, t') from h)

theorem deeper_ok {soft : Bool} {depth n : Nat} {p : Position}
    (h : deeper soft depth p t = .ok (n, t')) : t' = t := by
  unfold deeper at h
  split at h
  · exact (pure_ok h).2
  · split at h
    · exact (throw_ok h).elim
    · exact (pure_ok h).2

theorem constantIndex_ok {v : Value} {p : Position} {n : Nat}
    (h : constantIndex v p t = .ok (n, t')) :
    t.constants.size < maxOperand ∧ n = t.constants.size ∧ t' = t.push v := by
  have h' : (if t.constants.size ≥ maxOperand then throw (.tooManyConstants p)
      else do set (t.push v); return t.constants.size : Compile Nat) t = .ok (n, t') := h
  split at h'
  · exact (throw_ok h').elim
  · obtain ⟨u, t₁, hset, hret⟩ := bind_ok h'
    obtain ⟨rfl, rfl⟩ := pure_ok hret
    exact ⟨Nat.lt_of_not_le ‹_›, rfl, (Prod.ext_iff.mp (Except.ok.inj hset)).2.symm⟩

theorem emit_ok {op : Opcode} {operands : List Nat} {a : Assembly}
    (h : emit op operands t = .ok (a, t')) :
    Instruction.Fits ⟨op, operands⟩ ∧ a = #[⟨op, operands⟩] ∧ t' = t := by
  unfold emit at h
  cases hbytes : Instruction.encode ⟨op, operands⟩ with
  | error e =>
    rw [hbytes] at h
    exact (throw_ok h).elim
  | ok bytes =>
    rw [hbytes] at h
    exact ⟨((Instruction.encode_eq_ok_iff _ _).mp hbytes).1, pure_ok h⟩

/-- An instruction that finishes a row. -/
theorem emit_behind_ok {op : Opcode} {operands : List Nat} {row a : Assembly}
    (h : (do return row ++ (← emit op operands) : Compile Assembly) t = .ok (a, t')) :
    a = row ++ #[⟨op, operands⟩] ∧ t' = t := by
  obtain ⟨i, t₁, hi, hret⟩ := bind_ok h
  obtain ⟨_, rfl, rfl⟩ := emit_ok hi
  exact pure_ok hret

/-- A target that can be written has two bytes. -/
theorem emit_target {op : Opcode} {target : Nat} {a : Assembly} (hop : op.widths = [2])
    (h : emit op [target] t = .ok (a, t')) :
    target ≤ maxOperand ∧ a = #[⟨op, [target]⟩] ∧ t' = t := by
  obtain ⟨hfits, hrest⟩ := emit_ok h
  have hbound : target < 256 ^ 2 := hfits.bound (target, 2) (by rw [hop]; exact List.mem_singleton_self _)
  exact ⟨Nat.le_of_lt_succ hbound, hrest⟩

theorem count_ok {n m : Nat} {p : Position} (h : count n p t = .ok (m, t')) :
    n ≤ maxOperand ∧ m = n ∧ t' = t := by
  unfold count at h
  split at h
  · exact (throw_ok h).elim
  · exact ⟨Nat.le_of_not_lt ‹_›, pure_ok h⟩

theorem emits_of_constant {v : Value} {p : Position} {a : Assembly} {o : Nat}
    (h : constant v p t = .ok (a, t')) : Emits t o [.constant v] a.toList t' := by
  obtain ⟨n, t₁, hn, hemit⟩ := bind_ok h
  obtain ⟨hroom, rfl, rfl⟩ := constantIndex_ok hn
  obtain ⟨_, rfl, rfl⟩ := emit_ok hemit
  exact .constant t o v hroom

/-- A variable takes a constant or a slot, as its name says. The flags of a local do not count. -/
theorem emits_of_reference {name : String} {flags flags' : AccessFlags} {p : Position}
    {a : Assembly} {o : Nat} (hflags : isLocalName name = false → flags' = flags)
    (h : reference name flags p t = .ok (a, t')) :
    Emits t o [.variable name flags'] a.toList t' := by
  unfold reference at h
  split at h
  · rename_i hname
    obtain ⟨n, t₁, hn, hemit⟩ := bind_ok h
    obtain ⟨hroom, rfl, rfl⟩ := constantIndex_ok hn
    obtain ⟨_, rfl, rfl⟩ := emit_ok hemit
    exact .pipeLocal t o flags' hname hroom
  · rename_i hname
    have hcontext := Bool.eq_false_of_not_eq_true hname
    have h' : (do
        set { t with contextVars := (t.contextVars.slot name).2 }
        if (t.contextVars.slot name).1 ≥ maxOperand then throw (.tooManyVariables p)
        else emit .loadVar [(t.contextVars.slot name).1, flags.toNat] :
          Compile Assembly) t = .ok (a, t') := h
    obtain ⟨u, t₁, hset, hrest⟩ := bind_ok h'
    obtain rfl := (Prod.ext_iff.mp (Except.ok.inj hset)).2
    split at hrest
    · exact (throw_ok hrest).elim
    · obtain ⟨_, rfl, rfl⟩ := emit_ok hrest
      rw [hflags hcontext]
      exact .contextVar t o flags hcontext (Nat.lt_of_not_le ‹_›)

end Steps

/-! ## Compilation emits code of plans -/

/-- Whatever code is written for an expression is code of its plan. -/
def Writes (e : Expr) : Prop :=
  ∀ {soft : Bool} {depth o : Nat} {t t' : Tables} {a : Assembly},
    code e soft depth o t = .ok (a, t') → Emits t o [e.plan soft] a.toList t'

theorem emits_of_itemsCode {depth : Nat} : ∀ {items : List Expr} {o : Nat} {done a : Assembly}
    {t t' : Tables}, (∀ e ∈ items, Writes e) → itemsCode items depth o done t = .ok (a, t') →
    ∃ row, a.toList = done.toList ++ row ∧ Emits t o (items.map (Expr.plan · false)) row t'
  | [], o, done, a, t, t', _, h => by
    obtain ⟨rfl, rfl⟩ := pure_ok h
    exact ⟨[], (List.append_nil _).symm, .nil t' o⟩
  | e :: rest, o, done, a, t, t', ih, h => by
    obtain ⟨he, hrest⟩ := List.forall_mem_cons.mp ih
    obtain ⟨item, t₁, hitem, htail⟩ := bind_ok h
    obtain ⟨row, hrow, hemits⟩ := emits_of_itemsCode hrest htail
    refine ⟨item.toList ++ row, ?_, (he hitem).cons_assembly hemits⟩
    rw [hrow, Array.toList_append, List.append_assoc]

theorem emits_of_entriesCode {p : Position} {depth : Nat} : ∀ {entries : List (String × Expr)}
    {o : Nat} {done a : Assembly} {t t' : Tables}, (∀ x ∈ entries, Writes x.2) →
    entriesCode p depth o done (entries.map (Prod.map id (code · false))) t = .ok (a, t') →
    ∃ row, a.toList = done.toList ++ row ∧
      Emits t o (keyedParts (entries.map (Prod.map id (Expr.plan · false)))) row t'
  | [], o, done, a, t, t', _, h => by
    obtain ⟨rfl, rfl⟩ := pure_ok h
    exact ⟨[], (List.append_nil _).symm, .nil t' o⟩
  | (key, e) :: rest, o, done, a, t, t', ih, h => by
    obtain ⟨he, hrest⟩ := List.forall_mem_cons.mp ih
    obtain ⟨keyCode, t₁, hkey, h₁⟩ := bind_ok h
    obtain ⟨valueCode, t₂, hvalue, h₂⟩ := bind_ok h₁
    obtain ⟨row, hrow, hemits⟩ := emits_of_entriesCode hrest h₂
    refine ⟨keyCode.toList ++ (valueCode.toList ++ row), ?_, ?_⟩
    · simp only [hrow, Array.toList_append, List.append_assoc]
    · exact (emits_of_constant hkey).cons_assembly ((he hvalue).cons_assembly hemits)

theorem entryWriters_eq_map (entries : List (String × Expr)) :
    entryWriters entries = entries.map (Prod.map id (code · false)) := by
  induction entries with
  | nil => rfl
  | cons x rest ih => rw [entryWriters, ih, List.map_cons]; rfl

theorem emits_of_boundCode {bound : Option Expr} {p : Position} {depth o : Nat} {t t' : Tables}
    {a : Assembly} (ih : ∀ e ∈ bound, Writes e) (h : boundCode bound p depth o t = .ok (a, t')) :
    Emits t o [Expr.planBound bound] a.toList t' := by
  cases bound with
  | none => exact emits_of_constant h
  | some e => exact ih e rfl h

theorem emits_of_literal {v : Value} {p : Position} {depth o : Nat} {t t' : Tables} {a : Assembly}
    (h : (do let _ ← deeper false depth p; constant v p : Compile Assembly) t = .ok (a, t')) :
    Emits t o [.constant v] a.toList t' := by
  obtain ⟨d, t₁, hd, hv⟩ := bind_ok h
  obtain rfl := deeper_ok hd
  exact emits_of_constant hv

namespace Writes

/-- A binary operator is written by its strategy: both sides first, or a jump between them. -/
theorem binary {p : Position} {op : BinaryOp} {left right : Expr} (ihl : Writes left)
    (ihr : Writes right) : Writes (.binary p op left right) := by
  intro soft depth o t t' a h
  obtain ⟨d, t₁, hd, h₁⟩ := bind_ok h
  obtain rfl := deeper_ok hd
  cases hs : strategy op with
  | strict c =>
    rw [Expr.plan_strict hs]
    simp only [hs] at h₁
    obtain ⟨x, t₂, hx, h₂⟩ := bind_ok h₁
    obtain ⟨y, t₃, hy, h₃⟩ := bind_ok h₂
    obtain ⟨rfl, rfl⟩ := emit_behind_ok h₃
    rw [Array.toList_append, Array.toList_append]
    exact .gather ((ihl hx).cons_assembly (ihr hy)) (.strict _ hs)
  | shortCircuit short combine =>
    obtain ⟨decisive, rfl, rfl, hplan⟩ := Expr.plan_shortCircuit hs
    simp only [hs] at h₁
    obtain ⟨x, t₂, hx, h₂⟩ := bind_ok h₁
    obtain ⟨y, t₃, hy, h₃⟩ := bind_ok h₂
    obtain ⟨i, t₄, hi, h₄⟩ := bind_ok h₃
    obtain ⟨_, rfl, rfl⟩ := emit_ok hi
    obtain ⟨j, t₅, hj, h₅⟩ := bind_ok h₄
    obtain ⟨hmax, rfl, rfl⟩ := emit_target (by cases decisive <;> rfl) hj
    obtain ⟨rfl, rfl⟩ := pure_ok h₅
    have hright := ihr hy
    rw [Assembly.size_eq] at hright
    rw [hplan]
    simp only [Array.toList_append, List.append_assoc, List.singleton_append]
    refine .junction (ihl hx) hright ?_ hmax
    simp only [Assembly.size_eq, Array.toList_append, rowSize_append, ← Nat.add_assoc]
    cases decisive <;> rfl
  | coalesce =>
    simp only [hs] at h₁
    obtain ⟨x, t₂, hx, h₂⟩ := bind_ok h₁
    obtain ⟨y, t₃, hy, h₃⟩ := bind_ok h₂
    obtain ⟨j, t₄, hj, h₄⟩ := bind_ok h₃
    obtain ⟨hmax, rfl, rfl⟩ := emit_target rfl hj
    obtain ⟨rfl, rfl⟩ := pure_ok h₄
    have hright := ihr hy
    rw [Assembly.size_eq] at hright
    rw [Expr.plan_coalesce hs]
    simp only [Array.toList_append, List.append_assoc, List.singleton_append]
    refine .coalesce (ihl hx) hright ?_ hmax
    rw [Assembly.size_eq, Assembly.size_eq]

theorem conditional {p : Position} {condition consequent alternate : Expr} (ihc : Writes condition)
    (ih₁ : Writes consequent) (ih₂ : Writes alternate) :
    Writes (.conditional p condition consequent alternate) := by
  intro soft depth o t t' a h
  obtain ⟨d, t₁, hd, h₁⟩ := bind_ok h
  obtain rfl := deeper_ok hd
  obtain ⟨c, t₂, hc, h₂⟩ := bind_ok h₁
  obtain ⟨x, t₃, hx, h₃⟩ := bind_ok h₂
  obtain ⟨j, t₄, hj, h₄⟩ := bind_ok h₃
  obtain ⟨hmax, rfl, rfl⟩ := emit_target rfl hj
  obtain ⟨y, t₅, hy, h₅⟩ := bind_ok h₄
  obtain ⟨j', t₆, hj', h₆⟩ := bind_ok h₅
  obtain ⟨hmax', rfl, rfl⟩ := emit_target rfl hj'
  obtain ⟨rfl, rfl⟩ := pure_ok h₆
  have hconsequent := ih₁ hx
  rw [Assembly.size_eq] at hconsequent
  simp only [Array.toList_append, List.append_assoc, List.singleton_append]
  refine .choose (ihc hc) hconsequent (ih₂ hy) ?_ ?_ hmax hmax'
  · rw [Assembly.size_eq, Assembly.size_eq]
  · rw [Assembly.size_eq y]

theorem array {p : Position} {items : List Expr} (ih : ∀ e ∈ items, Writes e) :
    Writes (.array p items) := by
  intro soft depth o t t' a h
  obtain ⟨d, t₁, hd, h₁⟩ := bind_ok h
  obtain rfl := deeper_ok hd
  obtain ⟨n, t₂, hn, h₂⟩ := bind_ok h₁
  obtain ⟨hmax, rfl, rfl⟩ := count_ok hn
  obtain ⟨x, t₃, hx, h₃⟩ := bind_ok h₂
  obtain ⟨rfl, rfl⟩ := emit_behind_ok h₃
  obtain ⟨row, (hrow : x.toList = row), hemits⟩ := emits_of_itemsCode ih hx
  rw [Array.toList_append, hrow, Expr.plan_array]
  refine .gather hemits ?_
  rw [List.length_map]
  exact .array _ hmax

/-- Entries are written in ascending order of their names. -/
theorem object {p : Position} {entries : List (String × Expr)} (ih : ∀ x ∈ entries, Writes x.2) :
    Writes (.object p entries) := by
  intro soft depth o t t' a h
  obtain ⟨d, t₁, hd, h₁⟩ := bind_ok h
  obtain rfl := deeper_ok hd
  obtain ⟨n, t₂, hn, h₂⟩ := bind_ok h₁
  obtain ⟨hmax, rfl, rfl⟩ := count_ok hn
  obtain ⟨x, t₃, hx, h₃⟩ := bind_ok h₂
  obtain ⟨rfl, rfl⟩ := emit_behind_ok h₃
  have hx' : entriesCode p d o #[] (byName (entries.map (Prod.map id (code · false)))) t₂ =
      .ok (x, t') := by rw [← entryWriters_eq_map]; exact hx
  rw [byName_map] at hx'
  have hsorted : ∀ y ∈ byName entries, Writes y.2 := fun y hy => ih y (mem_byName.mp hy)
  obtain ⟨row, (hrow : x.toList = row), hemits⟩ := emits_of_entriesCode hsorted hx'
  rw [Array.toList_append, hrow, Expr.plan_object]
  refine .gather hemits ?_
  rw [length_keyedParts, List.length_map, length_byName]
  exact .object _ hmax

/-- The name of a function is written behind the code of the arguments. -/
theorem call {p : Position} {callee : Expr} {arguments : List Expr}
    (ih : ∀ e ∈ arguments, Writes e) : Writes (.call p callee arguments) := by
  intro soft depth o t t' a h
  obtain ⟨d, t₁, hd, h₁⟩ := bind_ok h
  obtain rfl := deeper_ok hd
  cases hname : calleeName? callee with
  | none =>
    rw [hname] at h₁
    exact (throw_ok h₁).elim
  | some name =>
    rw [hname] at h₁
    obtain ⟨q, rfl⟩ : ∃ q, callee = .reference q name false := by
      unfold calleeName? at hname
      split at hname
      · split at hname
        · cases hname
        · exact ⟨_, by rw [Option.some.inj hname]⟩
      · cases hname
    obtain ⟨n, t₂, hn, h₂⟩ := bind_ok h₁
    obtain ⟨hmax, rfl, rfl⟩ := count_ok hn
    obtain ⟨x, t₃, hx, h₃⟩ := bind_ok h₂
    obtain ⟨k, t₄, hk, h₄⟩ := bind_ok h₃
    obtain ⟨hroom, rfl, rfl⟩ := constantIndex_ok hk
    obtain ⟨rfl, rfl⟩ := emit_behind_ok h₄
    obtain ⟨row, (hrow : x.toList = row), hemits⟩ := emits_of_itemsCode ih hx
    rw [Array.toList_append, hrow, Expr.plan_call]
    refine .gather hemits ?_
    rw [List.length_map]
    exact .call _ name hmax hroom

theorem slice {p : Position} {target : Expr} {start stop step : Option Expr} {optional : Bool}
    (iht : Writes target) (ih₁ : ∀ e ∈ start, Writes e) (ih₂ : ∀ e ∈ stop, Writes e)
    (ih₃ : ∀ e ∈ step, Writes e) : Writes (.slice p target start stop step optional) := by
  intro soft depth o t t' a h
  obtain ⟨d, t₁, hd, h₁⟩ := bind_ok h
  obtain rfl := deeper_ok hd
  obtain ⟨x, t₂, hx, h₂⟩ := bind_ok h₁
  obtain ⟨a₁, t₃, ha₁, h₃⟩ := bind_ok h₂
  obtain ⟨a₂, t₄, ha₂, h₄⟩ := bind_ok h₃
  obtain ⟨a₃, t₅, ha₃, h₅⟩ := bind_ok h₄
  obtain ⟨rfl, rfl⟩ := emit_behind_ok h₅
  simp only [Assembly.size_append, ← Nat.add_assoc] at ha₂ ha₃
  have hbounds := (emits_of_boundCode ih₁ ha₁).cons_assembly
    ((emits_of_boundCode ih₂ ha₂).cons_assembly (emits_of_boundCode ih₃ ha₃))
  have hrow := Emits.gather ((iht hx).cons_assembly hbounds) (.slice _ ⟨optional, false⟩)
  rw [Expr.plan_slice]
  simpa only [Array.toList_append, List.append_assoc] using hrow

end Writes

/-- **Compilation emits code of plans**: what is written for an expression is code of its plan. -/
theorem emits_of_code (e : Expr) : Writes e := by
  induction e using Expr.induction with
  | number p x => exact emits_of_literal
  | string p s style => exact emits_of_literal
  | boolean p b => exact emits_of_literal
  | null p => exact emits_of_literal
  | reference p name optional =>
    intro soft depth o t t' a h
    obtain ⟨d, t₁, hd, hname⟩ := bind_ok h
    obtain rfl := deeper_ok hd
    exact emits_of_reference (fun hc => by rw [hc, Bool.not_false, Bool.and_true]) hname
  | unary p op operand ih =>
    intro soft depth o t t' a h
    obtain ⟨d, t₁, hd, h₁⟩ := bind_ok h
    obtain rfl := deeper_ok hd
    obtain ⟨x, t₂, hx, h₂⟩ := bind_ok h₁
    obtain ⟨rfl, rfl⟩ := emit_behind_ok h₂
    rw [Array.toList_append]
    exact .gather (ih hx) (.unary _ op)
  | binary p op left right ihl ihr => exact Writes.binary ihl ihr
  | conditional p condition consequent alternate ihc ih₁ ih₂ => exact Writes.conditional ihc ih₁ ih₂
  | array p items ih => exact Writes.array ih
  | object p entries ih => exact Writes.object ih
  | call p callee arguments ihc ih => exact Writes.call ih
  | member p target property optional ih =>
    intro soft depth o t t' a h
    obtain ⟨d, t₁, hd, h₁⟩ := bind_ok h
    obtain rfl := deeper_ok hd
    obtain ⟨x, t₂, hx, h₂⟩ := bind_ok h₁
    obtain ⟨key, t₃, hkey, h₃⟩ := bind_ok h₂
    obtain ⟨rfl, rfl⟩ := emit_behind_ok h₃
    rw [Array.toList_append, Array.toList_append]
    exact .gather ((ih hx).cons_assembly (emits_of_constant hkey)) (.index _ _)
  | index p target key optional iht ihk =>
    intro soft depth o t t' a h
    obtain ⟨d, t₁, hd, h₁⟩ := bind_ok h
    obtain rfl := deeper_ok hd
    obtain ⟨x, t₂, hx, h₂⟩ := bind_ok h₁
    obtain ⟨y, t₃, hy, h₃⟩ := bind_ok h₂
    obtain ⟨rfl, rfl⟩ := emit_behind_ok h₃
    rw [Array.toList_append, Array.toList_append]
    exact .gather ((iht hx).cons_assembly (ihk hy)) (.index _ _)
  | slice p target start stop step optional iht ih₁ ih₂ ih₃ => exact Writes.slice iht ih₁ ih₂ ih₃
  | pipe p stages ih =>
    intro soft depth o t t' a h
    obtain ⟨d, t₁, hd, h₁⟩ := bind_ok h
    exact (throw_ok h₁).elim

/-! ## Whole programs -/

theorem emits_of_bindAlias {name : Option String} {p : Position} {t t' : Tables} {a : Assembly}
    (h : bindAlias name p t = .ok (a, t')) : EmitsBinding t name a.toList t' := by
  cases name with
  | none =>
    obtain ⟨rfl, rfl⟩ := pure_ok h
    exact .none t'
  | some name =>
    obtain ⟨n, t₁, hn, h₁⟩ := bind_ok h
    obtain ⟨hroom, rfl, rfl⟩ := constantIndex_ok hn
    obtain ⟨_, rfl, rfl⟩ := emit_ok h₁
    exact .some t name hroom

theorem emits_of_aliasOperand {name : Option String} {p : Position} {t t' : Tables} {bound : Nat}
    (h : aliasOperand name p t = .ok (bound, t')) : EmitsAlias t name bound t' := by
  cases name with
  | none =>
    obtain ⟨rfl, rfl⟩ := pure_ok h
    exact .none t'
  | some name =>
    obtain ⟨hroom, rfl, rfl⟩ := constantIndex_ok h
    exact .some t name hroom

theorem blockCode_ok {k : Nat} {stage : Stage Expr} {t t' : Tables} {block : Assembly}
    (h : blockCode k stage t = .ok (block, t')) :
    k < maxOperand ∧ code stage.body false 0 0 t = .ok (block, t') := by
  unfold blockCode at h
  split at h
  · exact (throw_ok h).elim
  · exact ⟨Nat.lt_of_not_le ‹_›, h⟩

theorem emits_of_stagesCode : ∀ {stages : List (Stage Expr)} {done a : Assembly}
    {blocks bs : Array Code} {t t' : Tables},
    stagesCode done blocks stages t = .ok ((a, bs), t') →
    ∃ row rows, a.toList = done.toList ++ row ∧ bs.toList = blocks.toList ++ rows.map streamOf ∧
      EmitsStages t blocks.size stages row rows t'
  | [], done, a, blocks, bs, t, t', h => by
    obtain ⟨heq, rfl⟩ := pure_ok h
    cases heq
    exact ⟨[], [], by simp, by simp, .nil t' _⟩
  | stage :: rest, done, a, blocks, bs, t, t', h => by
    obtain ⟨n, t₁, hn, h₁⟩ := bind_ok h
    obtain ⟨hroom, rfl, rfl⟩ := constantIndex_ok hn
    obtain ⟨bound, t₂, hbound, h₂⟩ := bind_ok h₁
    obtain ⟨block, t₃, hblock, h₃⟩ := bind_ok h₂
    obtain ⟨hcount, hcode⟩ := blockCode_ok hblock
    obtain ⟨i, t₄, hi, h₄⟩ := bind_ok h₃
    obtain ⟨_, rfl, rfl⟩ := emit_ok hi
    obtain ⟨row, rows, hrow, hrows, hstages⟩ := emits_of_stagesCode h₄
    rw [Array.size_push] at hstages
    refine ⟨_, block.toList :: rows, ?_, ?_,
      .cons hroom (emits_of_aliasOperand hbound) hcount hcode hstages⟩
    · simp [hrow]
    · simp [hrows, Assembly.stream_eq]

theorem emits_of_streams {e : Expr} {a : Assembly} {bs : Array Code} {t : Tables}
    (h : streams e .empty = .ok ((a, bs), t)) :
    ∃ rows, bs.toList = rows.map streamOf ∧ EmitsProgram e a.toList rows t := by
  have plain : e.isPipe = false →
      (do return (← code e false 0 0, #[]) : Compile (Assembly × Array Code)) .empty =
        .ok ((a, bs), t) →
      ∃ rows, bs.toList = rows.map streamOf ∧ EmitsProgram e a.toList rows t := by
    intro hroot h
    obtain ⟨x, t₁, hx, h₁⟩ := bind_ok h
    obtain ⟨heq, rfl⟩ := pure_ok h₁
    cases heq
    exact ⟨[], rfl, .expr hroot (emits_of_code e hx)⟩
  cases e with
  | pipe p stages =>
    cases stages with
    | nil =>
      obtain ⟨x, t₁, hx, h₁⟩ := bind_ok h
      obtain ⟨heq, rfl⟩ := pure_ok h₁
      cases heq
      obtain ⟨n, t₂, hn, h₂⟩ := bind_ok hx
      obtain ⟨_, rfl, rfl⟩ := constantIndex_ok hn
      obtain ⟨_, rfl, rfl⟩ := emit_ok h₂
      exact ⟨[], rfl, .empty p⟩
    | cons head rest =>
      obtain ⟨x, t₁, hx, h₁⟩ := bind_ok h
      obtain ⟨y, t₂, hy, h₂⟩ := bind_ok h₁
      obtain ⟨row, rows, hrow, hrows, hstages⟩ := emits_of_stagesCode h₂
      refine ⟨rows, by simpa using hrows, ?_⟩
      rw [hrow, Array.toList_append, List.append_assoc]
      exact .chain (emits_of_code _ hx) (emits_of_bindAlias hy) hstages
  | _ => exact plain rfl h

end Compile

/-- **A compiled program consists of emitted rows**, those that compilation assembles. -/
theorem Expr.emits_of_compile {e : Expr} {p : Program} (h : e.compile = .ok p) :
    ∃ (main : Assembly) (blocks : List (List Instruction)) (t : Tables),
      Compile.streams e .empty = .ok ((main, (blocks.map streamOf).toArray), t) ∧
      p = programOf main.toList blocks t ∧ EmitsProgram e main.toList blocks t := by
  unfold Expr.compile at h
  cases hs : (Compile.streams e).run ⟨#[], .empty⟩ with
  | error err => rw [hs] at h; cases h
  | ok x =>
    obtain ⟨⟨main, bs⟩, t⟩ := x
    rw [hs] at h
    obtain ⟨blocks, hblocks, hemits⟩ := Compile.emits_of_streams hs
    have hbs : bs = (blocks.map streamOf).toArray := by rw [← hblocks]
    rw [hbs] at hs
    refine ⟨main, blocks, t, hs, ?_, hemits⟩
    rw [← Except.ok.inj h, programOf, ← hbs, Assembly.stream_eq]

end PipeExpr
