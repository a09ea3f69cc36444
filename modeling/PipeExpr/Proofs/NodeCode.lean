import PipeExpr.Proofs.Operands
import PipeExpr.Proofs.Simulation

/-!
# The code of each node

A program has code for each node of its tree: the code that compilation writes for it stands in a stream of the
program, from one offset to another (`Program.HasCode`).  In the code of an expression stands that of each of its
parts (`Compile.code_part`), and so that of everything within it (`Compile.HasCode.within`).  So what emitted code
does, wherever it stands (`Emits.leads`), a program does for each node.

For objects this says which keys come out: those of the literal, each of them once and in strictly ascending
order, whether the literal is evaluated as a tree (`Expr.eval_object`) or its code is run (`Expr.object_built`).
-/

namespace PipeExpr

open Machine

/-! ## Code in rows -/

namespace Compile

/-- **A row has the code of an expression**: what compilation writes for it where it stands, behind some
instructions and in front of others.  The tables behind the row have all that it refers to. -/
def HasCode (x : Expr) (o : Nat) (row : List Instruction) (t' : Tables) : Prop :=
  ∃ front a back soft depth t₁ t₂, row = front ++ (Array.toList a ++ back) ∧ t₁.contextVars.Valid ∧
    code x soft depth (o + rowSize front) t₁ = .ok (a, t₂) ∧ t₂.Serves t'.program

namespace HasCode
variable {x y : Expr} {soft : Bool} {depth o : Nat} {t t' : Tables} {a : Assembly} {row : List Instruction}

theorem self (h : code x soft depth o t = .ok (a, t')) (hv : t.contextVars.Valid) : HasCode x o a.toList t' :=
  ⟨[], a, [], soft, depth, t, t', (List.append_nil _).symm, hv, h, .refl t'⟩

theorem behind (front : List Instruction) (h : HasCode x (o + rowSize front) row t') :
    HasCode x o (front ++ row) t' := by
  obtain ⟨front', a, back, soft, depth, t₁, t₂, rfl, hv, hcode, hs⟩ := h
  refine ⟨front ++ front', a, back, soft, depth, t₁, t₂, by simp, hv, ?_, hs⟩
  rwa [rowSize_append, ← Nat.add_assoc]

theorem behind_jump {i : Instruction} (hi : i.length = jumpSize) (front : List Instruction)
    (h : HasCode x (o + rowSize front + jumpSize) row t') : HasCode x o (front ++ i :: row) t' := by
  have hsize : o + rowSize (front ++ [i]) = o + rowSize front + jumpSize := by
    rw [rowSize_append, rowSize_cons, rowSize_nil, hi, Nat.add_zero, Nat.add_assoc]
  rw [← hsize] at h
  have hbehind := h.behind
  rwa [List.append_assoc] at hbehind

theorem before (back : List Instruction) (hs : t.Serves t'.program) (h : HasCode x o row t) :
    HasCode x o (row ++ back) t' := by
  obtain ⟨front, a, back', soft, depth, t₁, t₂, rfl, hv, hcode, hs'⟩ := h
  exact ⟨front, a, back' ++ back, soft, depth, t₁, t₂, by simp, hv, hcode, hs'.trans hs⟩

end HasCode

/-! ## Code of parts -/

section Parts
variable {soft : Bool} {depth o : Nat} {t t' : Tables} {a : Assembly} {p : Position}

/-- What code refers to is in the tables behind it. -/
theorem serves_of_code {e : Expr} (h : code e soft depth o t = .ok (a, t')) (hv : t.contextVars.Valid) :
    t.Serves t'.program ∧ t'.contextVars.Valid :=
  (emits_of_code e h).serves hv

theorem serves_of_boundCode {bound : Option Expr} (h : boundCode bound p depth o t = .ok (a, t'))
    (hv : t.contextVars.Valid) : t.Serves t'.program ∧ t'.contextVars.Valid :=
  (emits_of_boundCode (fun e _ => emits_of_code e) h).serves hv

theorem itemsCode_part : ∀ {items : List Expr} {o : Nat} {done : Assembly} {t : Tables},
    itemsCode items depth o done t = .ok (a, t') → t.contextVars.Valid →
    ∃ row, a.toList = done.toList ++ row ∧ ∀ y ∈ items, HasCode y o row t'
  | [], o, done, t, h, _ => by
    obtain ⟨rfl, rfl⟩ := pure_ok h
    exact ⟨[], (List.append_nil _).symm, fun _ hy => nomatch hy⟩
  | e :: rest, o, done, t, h, hv => by
    obtain ⟨item, t₁, hitem, htail⟩ := bind_ok h
    obtain ⟨_, hv₁⟩ := serves_of_code hitem hv
    obtain ⟨_, _, hemits⟩ := emits_of_itemsCode (fun e _ => emits_of_code e) htail
    obtain ⟨row, hrow, hparts⟩ := itemsCode_part htail hv₁
    refine ⟨item.toList ++ row, by rw [hrow, Array.toList_append, List.append_assoc], ?_⟩
    refine List.forall_mem_cons.mpr ⟨(HasCode.self hitem hv).before row (hemits.serves hv₁).1, fun y hy => ?_⟩
    have hpart := hparts y hy
    rw [Assembly.size_eq] at hpart
    exact hpart.behind _

theorem entriesCode_part : ∀ {entries : List (String × Expr)} {o : Nat} {done : Assembly} {t : Tables},
    entriesCode p depth o done (entries.map (Prod.map id (code · false))) t = .ok (a, t') →
    t.contextVars.Valid → ∃ row, a.toList = done.toList ++ row ∧ ∀ x ∈ entries, HasCode x.2 o row t'
  | [], o, done, t, h, _ => by
    obtain ⟨rfl, rfl⟩ := pure_ok h
    exact ⟨[], (List.append_nil _).symm, fun _ hx => nomatch hx⟩
  | (name, e) :: rest, o, done, t, h, hv => by
    obtain ⟨key, t₁, hkey, h₁⟩ := bind_ok h
    obtain ⟨value, t₂, hvalue, h₂⟩ := bind_ok h₁
    obtain ⟨_, hv₁⟩ := (emits_of_constant (o := o) hkey).serves hv
    obtain ⟨_, hv₂⟩ := serves_of_code hvalue hv₁
    obtain ⟨_, _, hemits⟩ := emits_of_entriesCode (fun x _ => emits_of_code x.2) h₂
    obtain ⟨row, hrow, hparts⟩ := entriesCode_part h₂ hv₂
    rw [Assembly.size_eq] at hvalue
    refine ⟨key.toList ++ (value.toList ++ row), by simp only [hrow, Array.toList_append, List.append_assoc], ?_⟩
    refine List.forall_mem_cons.mpr ⟨?_, fun x hx => ?_⟩
    · exact ((HasCode.self hvalue hv₁).before row (hemits.serves hv₂).1).behind _
    · have hpart := hparts x hx
      rw [Assembly.size_eq, Assembly.size_eq] at hpart
      exact hpart.behind.behind

theorem boundCode_part {bound : Option Expr} (h : boundCode bound p depth o t = .ok (a, t'))
    (hv : t.contextVars.Valid) : ∀ y ∈ bound.toList, HasCode y o a.toList t' := by
  cases bound with
  | none => exact fun _ hy => nomatch hy
  | some e => exact List.forall_mem_singleton.mpr (.self h hv)

/-- The sides of an operator, one behind the other or with a jump in between. -/
theorem binary_part {op : BinaryOp} {left right : Expr}
    (h : code (.binary p op left right) soft depth o t = .ok (a, t')) (hv : t.contextVars.Valid) :
    HasCode left o a.toList t' ∧ HasCode right o a.toList t' := by
  obtain ⟨d, t₁, hd, h₁⟩ := bind_ok h
  obtain rfl := deeper_ok hd
  cases hs : strategy op with
  | strict c =>
    simp only [hs] at h₁
    obtain ⟨x, t₂, hx, h₂⟩ := bind_ok h₁
    obtain ⟨y, t₃, hy, h₃⟩ := bind_ok h₂
    obtain ⟨rfl, rfl⟩ := emit_behind_ok h₃
    obtain ⟨_, hv₂⟩ := serves_of_code hx hv
    obtain ⟨hright, _⟩ := serves_of_code hy hv₂
    rw [Assembly.size_eq] at hy
    rw [Array.toList_append, Array.toList_append]
    exact ⟨((HasCode.self hx hv).before _ hright).before _ (.refl _),
      ((HasCode.self hy hv₂).behind _).before _ (.refl _)⟩
  | shortCircuit short combine =>
    obtain ⟨decisive, rfl, rfl, _⟩ := Expr.plan_shortCircuit hs
    simp only [hs] at h₁
    obtain ⟨x, t₂, hx, h₂⟩ := bind_ok h₁
    obtain ⟨y, t₃, hy, h₃⟩ := bind_ok h₂
    obtain ⟨i, t₄, hi, h₄⟩ := bind_ok h₃
    obtain ⟨_, rfl, rfl⟩ := emit_ok hi
    obtain ⟨j, t₅, hj, h₅⟩ := bind_ok h₄
    obtain ⟨_, rfl, rfl⟩ := emit_ok hj
    obtain ⟨rfl, rfl⟩ := pure_ok h₅
    obtain ⟨_, hv₂⟩ := serves_of_code hx hv
    obtain ⟨hright, _⟩ := serves_of_code hy hv₂
    rw [Assembly.size_eq] at hy
    simp only [Array.toList_append, List.append_assoc, List.singleton_append]
    exact ⟨(HasCode.self hx hv).before _ hright,
      ((HasCode.self hy hv₂).before _ (.refl _)).behind_jump (length_shortCircuit ..) _⟩
  | coalesce =>
    simp only [hs] at h₁
    obtain ⟨x, t₂, hx, h₂⟩ := bind_ok h₁
    obtain ⟨y, t₃, hy, h₃⟩ := bind_ok h₂
    obtain ⟨j, t₄, hj, h₄⟩ := bind_ok h₃
    obtain ⟨_, rfl, rfl⟩ := emit_ok hj
    obtain ⟨rfl, rfl⟩ := pure_ok h₄
    obtain ⟨_, hv₂⟩ := serves_of_code hx hv
    obtain ⟨hright, _⟩ := serves_of_code hy hv₂
    rw [Assembly.size_eq] at hy
    simp only [Array.toList_append, List.append_assoc, List.singleton_append]
    exact ⟨(HasCode.self hx hv).before _ hright, (HasCode.self hy hv₂).behind_jump rfl _⟩

/-- The parts of a conditional, with a jump behind the first and the second one. -/
theorem conditional_part {condition consequent alternate : Expr}
    (h : code (.conditional p condition consequent alternate) soft depth o t = .ok (a, t'))
    (hv : t.contextVars.Valid) : HasCode condition o a.toList t' ∧ HasCode consequent o a.toList t' ∧
      HasCode alternate o a.toList t' := by
  obtain ⟨d, t₁, hd, h₁⟩ := bind_ok h
  obtain rfl := deeper_ok hd
  obtain ⟨c, t₂, hc, h₂⟩ := bind_ok h₁
  obtain ⟨x, t₃, hx, h₃⟩ := bind_ok h₂
  obtain ⟨j, t₄, hj, h₄⟩ := bind_ok h₃
  obtain ⟨_, rfl, rfl⟩ := emit_ok hj
  obtain ⟨y, t₅, hy, h₅⟩ := bind_ok h₄
  obtain ⟨j', t₆, hj', h₆⟩ := bind_ok h₅
  obtain ⟨_, rfl, rfl⟩ := emit_ok hj'
  obtain ⟨rfl, rfl⟩ := pure_ok h₆
  obtain ⟨_, hv₂⟩ := serves_of_code hc hv
  obtain ⟨hfirst, hv₃⟩ := serves_of_code hx hv₂
  obtain ⟨hsecond, _⟩ := serves_of_code hy hv₃
  rw [Assembly.size_eq] at hx
  rw [Assembly.size_eq, Assembly.size_eq] at hy
  simp only [Array.toList_append, List.append_assoc, List.singleton_append]
  refine ⟨(HasCode.self hc hv).before _ (hfirst.trans hsecond), ?_, ?_⟩
  · exact ((HasCode.self hx hv₂).before _ hsecond).behind_jump rfl _
  · exact ((HasCode.self hy hv₃).behind_jump rfl _).behind_jump rfl _

/-- The target of a slice and its bounds. -/
theorem slice_part {target : Expr} {start stop step : Option Expr} {optional : Bool}
    (h : code (.slice p target start stop step optional) soft depth o t = .ok (a, t'))
    (hv : t.contextVars.Valid) : HasCode target o a.toList t' ∧
      (∀ y ∈ start.toList, HasCode y o a.toList t') ∧ (∀ y ∈ stop.toList, HasCode y o a.toList t') ∧
      ∀ y ∈ step.toList, HasCode y o a.toList t' := by
  obtain ⟨d, t₁, hd, h₁⟩ := bind_ok h
  obtain rfl := deeper_ok hd
  obtain ⟨x, t₂, hx, h₂⟩ := bind_ok h₁
  obtain ⟨a₁, t₃, ha₁, h₃⟩ := bind_ok h₂
  obtain ⟨a₂, t₄, ha₂, h₄⟩ := bind_ok h₃
  obtain ⟨a₃, t₅, ha₃, h₅⟩ := bind_ok h₄
  obtain ⟨rfl, rfl⟩ := emit_behind_ok h₅
  obtain ⟨_, hv₂⟩ := serves_of_code hx hv
  obtain ⟨hs₁, hv₃⟩ := serves_of_boundCode ha₁ hv₂
  obtain ⟨hs₂, hv₄⟩ := serves_of_boundCode ha₂ hv₃
  obtain ⟨hs₃, _⟩ := serves_of_boundCode ha₃ hv₄
  simp only [Assembly.size_append, ← Nat.add_assoc] at ha₂ ha₃
  simp only [Assembly.size_eq] at ha₁ ha₂ ha₃
  simp only [Array.toList_append, List.append_assoc]
  refine ⟨(HasCode.self hx hv).before _ ((hs₁.trans hs₂).trans hs₃), fun y hy => ?_, fun y hy => ?_,
    fun y hy => ?_⟩
  · exact ((boundCode_part ha₁ hv₂ y hy).before _ (hs₂.trans hs₃)).behind _
  · exact (((boundCode_part ha₂ hv₃ y hy).before _ hs₃).behind _).behind _
  · exact ((((boundCode_part ha₃ hv₄ y hy).before _ (.refl _)).behind _).behind _).behind _

/-- **In the code of an expression stands the code of each of its parts.** -/
theorem code_part {e : Expr} (h : code e soft depth o t = .ok (a, t')) (hv : t.contextVars.Valid) :
    ∀ y ∈ e.parts, HasCode y o a.toList t' := by
  cases e with
  | number | string | boolean | null | reference => exact fun _ hy => nomatch hy
  | unary p op operand =>
    obtain ⟨d, t₁, hd, h₁⟩ := bind_ok h
    obtain rfl := deeper_ok hd
    obtain ⟨x, t₂, hx, h₂⟩ := bind_ok h₁
    obtain ⟨rfl, rfl⟩ := emit_behind_ok h₂
    rw [Array.toList_append]
    exact List.forall_mem_singleton.mpr ((HasCode.self hx hv).before _ (.refl _))
  | binary p op left right =>
    obtain ⟨hleft, hright⟩ := binary_part h hv
    exact List.forall_mem_cons.mpr ⟨hleft, List.forall_mem_singleton.mpr hright⟩
  | conditional p condition consequent alternate =>
    obtain ⟨hcondition, hconsequent, halternate⟩ := conditional_part h hv
    exact List.forall_mem_cons.mpr ⟨hcondition, List.forall_mem_cons.mpr
      ⟨hconsequent, List.forall_mem_singleton.mpr halternate⟩⟩
  | array p items =>
    obtain ⟨d, t₁, hd, h₁⟩ := bind_ok h
    obtain rfl := deeper_ok hd
    obtain ⟨n, t₂, hn, h₂⟩ := bind_ok h₁
    obtain ⟨_, rfl, rfl⟩ := count_ok hn
    obtain ⟨x, t₃, hx, h₃⟩ := bind_ok h₂
    obtain ⟨rfl, rfl⟩ := emit_behind_ok h₃
    obtain ⟨row, (hrow : x.toList = row), hparts⟩ := itemsCode_part hx hv
    rw [Array.toList_append, hrow]
    exact fun y hy => (hparts y hy).before _ (.refl _)
  | object p entries =>
    obtain ⟨d, t₁, hd, h₁⟩ := bind_ok h
    obtain rfl := deeper_ok hd
    obtain ⟨n, t₂, hn, h₂⟩ := bind_ok h₁
    obtain ⟨_, rfl, rfl⟩ := count_ok hn
    obtain ⟨x, t₃, hx, h₃⟩ := bind_ok h₂
    obtain ⟨rfl, rfl⟩ := emit_behind_ok h₃
    have hsorted : entriesCode p d o #[] ((byName entries).map (Prod.map id (code · false))) t₂ = .ok (x, t') := by
      rw [← byName_map, ← entryWriters_eq_map]
      exact hx
    obtain ⟨row, (hrow : x.toList = row), hparts⟩ := entriesCode_part hsorted hv
    rw [Array.toList_append, hrow]
    refine List.forall_mem_map.mpr fun y hy => ?_
    exact (hparts y (mem_byName.mpr hy)).before _ (.refl _)
  | call p callee arguments =>
    obtain ⟨d, t₁, hd, h₁⟩ := bind_ok h
    obtain rfl := deeper_ok hd
    cases hname : calleeName? callee with
    | none =>
      rw [hname] at h₁
      exact (throw_ok h₁).elim
    | some name =>
      rw [hname] at h₁
      obtain ⟨n, t₂, hn, h₂⟩ := bind_ok h₁
      obtain ⟨_, rfl, rfl⟩ := count_ok hn
      obtain ⟨x, t₃, hx, h₃⟩ := bind_ok h₂
      obtain ⟨k, t₄, hk, h₄⟩ := bind_ok h₃
      obtain ⟨_, rfl, rfl⟩ := constantIndex_ok hk
      obtain ⟨rfl, rfl⟩ := emit_behind_ok h₄
      obtain ⟨row, (hrow : x.toList = row), hparts⟩ := itemsCode_part hx hv
      rw [Array.toList_append, hrow]
      exact fun y hy => (hparts y hy).before _ (.push t₃ _)
  | member p target property optional =>
    obtain ⟨d, t₁, hd, h₁⟩ := bind_ok h
    obtain rfl := deeper_ok hd
    obtain ⟨x, t₂, hx, h₂⟩ := bind_ok h₁
    obtain ⟨key, t₃, hkey, h₃⟩ := bind_ok h₂
    obtain ⟨rfl, rfl⟩ := emit_behind_ok h₃
    obtain ⟨_, hv₂⟩ := serves_of_code hx hv
    obtain ⟨hs, _⟩ := (emits_of_constant (o := o) hkey).serves hv₂
    rw [Array.toList_append, Array.toList_append, List.append_assoc]
    exact List.forall_mem_singleton.mpr ((HasCode.self hx hv).before _ hs)
  | index p target key optional =>
    obtain ⟨d, t₁, hd, h₁⟩ := bind_ok h
    obtain rfl := deeper_ok hd
    obtain ⟨x, t₂, hx, h₂⟩ := bind_ok h₁
    obtain ⟨y, t₃, hy, h₃⟩ := bind_ok h₂
    obtain ⟨rfl, rfl⟩ := emit_behind_ok h₃
    obtain ⟨_, hv₂⟩ := serves_of_code hx hv
    obtain ⟨hs, _⟩ := serves_of_code hy hv₂
    rw [Assembly.size_eq] at hy
    rw [Array.toList_append, Array.toList_append, List.append_assoc]
    exact List.forall_mem_cons.mpr ⟨(HasCode.self hx hv).before _ hs,
      List.forall_mem_singleton.mpr (((HasCode.self hy hv₂).before _ (.refl _)).behind _)⟩
  | slice p target start stop step optional =>
    obtain ⟨htarget, hstart, hstop, hstep⟩ := slice_part h hv
    exact List.forall_mem_cons.mpr ⟨htarget, List.forall_mem_append.mpr
      ⟨List.forall_mem_append.mpr ⟨hstart, hstop⟩, hstep⟩⟩
  | pipe p stages =>
    obtain ⟨d, t₁, hd, h₁⟩ := bind_ok h
    exact (throw_ok h₁).elim

end Parts

/-- **Code has the code of everything within its expression.** -/
theorem HasCode.within {x e : Expr} (hx : Expr.Within x e) : ∀ {o : Nat} {row : List Instruction} {t' : Tables},
    HasCode e o row t' → HasCode x o row t' := by
  induction hx with
  | self => exact id
  | part _ hy ih =>
    rintro o row t' ⟨front, a, back, soft, depth, t₁, t₂, rfl, hv, hcode, hs⟩
    exact ih (((code_part hcode hv _ hy).before back hs).behind front)

end Compile

/-! ## Code in programs -/

/-- **A program has the code of an expression** in one of its streams, from one offset to another: what
compilation writes for it at the first one, with all that it refers to in the tables of the program. -/
structure Program.HasCode (p : Program) (x : Expr) (soft : Bool) (stream : Code) (start finish : Nat) :
    Prop where
  place : stream = p.main ∨ stream ∈ p.blocks
  written : ∃ depth t a t', t.contextVars.Valid ∧ Compile.code x soft depth start t = .ok (a, t') ∧
    t'.Serves p ∧ Placed stream start a.toList ∧ finish = start + a.size

section Programs
variable {p : Program} {x : Expr}

/-- What stands in a row stands in the stream of the row. -/
theorem Compile.HasCode.program {stream : Code} (hplace : stream = p.main ∨ stream ∈ p.blocks) {o : Nat}
    {row : List Instruction} {t' : Tables} (h : HasCode x o row t') (hs : t'.Serves p)
    (hplaced : Placed stream o row) : ∃ soft stream start finish, p.HasCode x soft stream start finish := by
  obtain ⟨front, a, back, soft, depth, t₁, t₂, rfl, hv, hcode, hs₂⟩ := h
  exact ⟨soft, stream, o + rowSize front, _, hplace, depth, t₁, a, t₂, hv, hcode, hs₂.trans hs,
    hplaced.right.left, rfl⟩

/-- The blocks of stages have the code of what stands in their expressions. -/
theorem EmitsStages.hasCode {t t' : Tables} {k : Nat} {stages : List (Stage Expr)} {row : List Instruction}
    {blocks : List (List Instruction)} (h : EmitsStages t k stages row blocks t') (hv : t.contextVars.Valid)
    (hs : t'.Serves p) (hblocks : ∀ block ∈ blocks, streamOf block ∈ p.blocks) :
    ∀ stage ∈ stages, Expr.Within x stage.body →
      ∃ soft stream start finish, p.HasCode x soft stream start finish := by
  induction h with
  | nil => exact fun _ hstage => nomatch hstage
  | cons hroom halias hcount hcode hrest ih =>
    obtain ⟨hblock, hblocks⟩ := List.forall_mem_cons.mp hblocks
    have hv₁ := halias.serves.2 ▸ hv
    obtain ⟨_, hv₂⟩ := Compile.serves_of_code hcode hv₁
    refine List.forall_mem_cons.mpr ⟨fun hx => ?_, ih hv₂ hs hblocks⟩
    have hplain := (Compile.emits_of_code _ hcode).plain hv₁
    exact ((Compile.HasCode.self hcode hv₁).within hx).program (.inr hblock) ((hrest.serves hv₂).1.trans hs)
      (.streamOf fun i hi => (hplain i hi).fits)

/-- The streams of a chain have the code of what stands in the expressions of its stages. -/
theorem Compile.hasCode_of_chain {pos : Position} {head : Stage Expr} {rest : List (Stage Expr)}
    {main : Assembly} {blocks : List (List Instruction)} {t : Tables}
    (h : streams (.pipe pos (head :: rest)) .empty = .ok ((main, (blocks.map streamOf).toArray), t))
    (hplaced : Placed (streamOf main.toList) 0 main.toList) : ∀ stage ∈ head :: rest, Expr.Within x stage.body →
      ∃ soft stream start finish, (programOf main.toList blocks t).HasCode x soft stream start finish := by
  obtain ⟨a, t₁, ha, h₁⟩ := bind_ok h
  obtain ⟨b, t₂, hb, h₂⟩ := bind_ok h₁
  obtain ⟨row, rows, hrow, hrows, hstages⟩ := emits_of_stagesCode h₂
  obtain ⟨_, hv₁⟩ := serves_of_code ha NameTable.empty_valid
  obtain ⟨hs₁, hsame⟩ := (emits_of_bindAlias hb).serves
  have hv₂ : t₂.contextVars.Valid := hsame ▸ hv₁
  have hs₂ := (hstages.serves hv₂).1
  have hserves : t.Serves (programOf main.toList blocks t) := ⟨List.prefix_rfl, List.prefix_rfl⟩
  refine List.forall_mem_cons.mpr ⟨fun hx => ?_, hstages.hasCode hv₂ hserves fun block hblock => ?_⟩
  · have hmain : main.toList = a.toList ++ (b.toList ++ row) := by
      rw [hrow, Array.toList_append, List.append_assoc]
    rw [hmain] at hplaced
    refine ((HasCode.self ha NameTable.empty_valid).within hx).program (.inl ?_)
      ((hs₁.trans hs₂).trans hserves) hplaced.left
    rw [programOf, hmain]
  · have hmem : streamOf block ∈ (blocks.map streamOf).toArray.toList := by
      rw [hrows]
      exact List.mem_append_right _ (List.mem_map_of_mem hblock)
    exact Array.mem_toList_iff.mp hmem

/-- **A compiled program has the code of each node** below the root, and of the root if it is no chain. -/
theorem Expr.hasCode_node {e : Expr} (h : e.compile = .ok p) (hx : Within x e) (hnode : x.isPipe = false) :
    ∃ soft stream start finish, p.HasCode x soft stream start finish := by
  cases hroot : e.isPipe with
  | false =>
    obtain ⟨a, t, hcode, rfl⟩ := code_of_compile hroot h
    have hplain := (Compile.emits_of_code e hcode).plain NameTable.empty_valid
    exact ((Compile.HasCode.self hcode NameTable.empty_valid).within hx).program (.inl rfl)
      ⟨List.prefix_rfl, List.prefix_rfl⟩ (.streamOf fun i hi => (hplain i hi).fits)
  | true =>
    cases hx with
    | self => cases hnode.symm.trans hroot
    | @part y _ hx hy =>
      obtain ⟨main, blocks, t, hstreams, rfl, hemits⟩ := Expr.emits_of_compile h
      have hplaced : Placed (streamOf main.toList) 0 main.toList := .streamOf fun i hi => (hemits.main.1 i hi).1
      cases e with
      | pipe pos stages =>
        obtain ⟨stage, hstage, rfl⟩ := List.mem_map.mp hy
        cases stages with
        | nil => cases hstage
        | cons head rest => exact Compile.hasCode_of_chain hstreams hplaced stage hstage hx
      | _ => cases hroot

/-- **Code means what its expression means**: a run that comes to it, whatever the state of the machine is, comes
to its end with the value of the expression on the stack, or fails with its failure, unless the stack is too
small. -/
theorem Program.HasCode.leads {soft : Bool} {stream : Code} {start finish : Nat}
    (h : p.HasCode x soft stream start finish) {env : Env} {base : Nat} {s : State} (henv : env.program = p)
    (hbase : base ≤ s.stack.size) : ∃ r, Leads env stream base start s finish s (r >>= fun v => pure [v]) ∧
      UpToOverflow env.stackSize r (x.eval (setting env s) soft) := by
  obtain ⟨_, depth, t, a, t', hv, hcode, hs, hplaced, rfl⟩ := h
  have hleads := (Compile.emits_of_code x hcode).leads hv (henv ▸ hs) hplaced hbase
  rw [withinRow_singleton, ← Assembly.size_eq] at hleads
  exact ⟨_, hleads, x.plan_within soft _⟩

end Programs

/-! ## Objects -/

theorem keepLast_sublist {α : Type} (entries : List (String × α)) : (keepLast entries).Sublist entries := by
  induction entries with
  | nil => exact .slnil
  | cons x rest ih =>
    rw [keepLast]
    split
    · exact ih.cons x
    · exact ih.cons_cons x

/-- Of sorted entries, those that are kept ascend strictly. -/
theorem keepLast_ascending {α : Type} {entries : List (String × α)}
    (h : (entries.map Prod.fst).Pairwise (· ≤ ·)) : ((keepLast entries).map Prod.fst).Pairwise (· < ·) := by
  induction entries with
  | nil => exact .nil
  | cons x rest ih =>
    obtain ⟨hx, hrest⟩ := List.pairwise_cons.mp h
    rw [keepLast]
    split
    · exact ih hrest
    · rename_i hnew
      refine List.pairwise_cons.mpr ⟨fun name hname => ?_, ih hrest⟩
      have hmem := ((keepLast_sublist rest).map Prod.fst).subset hname
      exact String.not_le.mp fun hle => hnew (String.le_antisymm (hx name hmem) hle ▸ hmem)

/-- Each name is kept. -/
theorem mem_keepLast {α : Type} (entries : List (String × α)) (name : String) :
    name ∈ (keepLast entries).map Prod.fst ↔ name ∈ entries.map Prod.fst := by
  induction entries with
  | nil => exact Iff.rfl
  | cons x rest ih =>
    rw [keepLast]
    split
    · rename_i hlater
      rw [ih, List.map_cons, List.mem_cons]
      refine ⟨.inr, fun h => h.elim (fun heq => heq ▸ hlater) id⟩
    · rw [List.map_cons, List.map_cons, List.mem_cons, List.mem_cons, ih]

/-- The names of an object are those of a literal, each of them once and in strictly ascending order. -/
structure Fields.KeysOf {α β : Type} (fields : Fields α) (entries : List (String × β)) : Prop where
  ascending : fields.names.Pairwise (· < ·)
  names : ∀ name, name ∈ fields.names ↔ name ∈ entries.map Prod.fst

/-- **The value of a literal is an object with its keys in strictly ascending order.** -/
theorem Expr.eval_object {S : Setting} {soft : Bool} {pos : Position} {entries : List (String × Expr)} {v : Value}
    (h : (Expr.object pos entries).eval S soft = .ok v) :
    ∃ fields : Fields Value, v = .object fields ∧ fields.KeysOf entries := by
  rw [eval, evalEntries_eq_map, byName_map] at h
  cases hc : collect ((byName entries).map (Prod.map id (eval S · false))) with
  | error err =>
    rw [hc] at h
    cases h
  | ok fields =>
    rw [hc] at h
    have hnames : fields.map Prod.fst = (byName entries).map Prod.fst := by
      rw [collect_names hc, List.map_map]
      rfl
    have hsorted : (fields.map Prod.fst).Pairwise (· ≤ ·) := hnames ▸ byName_sorted entries
    refine ⟨keepLast fields, (Except.ok.inj h).symm, keepLast_ascending hsorted, fun name => ?_⟩
    show name ∈ (keepLast fields).map Prod.fst ↔ _
    rw [mem_keepLast, hnames]
    exact ((List.mergeSort_perm entries _).map Prod.fst).mem_iff

/-- **A program builds the object of a literal.**  It has the code of the literal; and wherever it has, a run that
comes to this code, whatever the state of the machine is, comes to its end with the value of the literal on the
stack, which is an object with the keys of the literal in strictly ascending order, or it fails with the failure of
the literal, or it overflows. -/
structure Program.Builds (p : Program) (pos : Position) (entries : List (String × Expr)) : Prop where
  code : ∃ soft stream start finish, p.HasCode (.object pos entries) soft stream start finish
  run : ∀ {soft : Bool} {stream : Code} {start finish : Nat},
    p.HasCode (.object pos entries) soft stream start finish → ∀ {env : Env} {base : Nat} {s : State},
    env.program = p → base ≤ s.stack.size → ∃ r,
      Leads env stream base start s finish s (r >>= fun v => pure [v]) ∧
      UpToOverflow env.stackSize r ((Expr.object pos entries).eval (setting env s) soft) ∧
      ∀ v, r = .ok v → ∃ fields : Fields Value, v = .object fields ∧ fields.KeysOf entries

/-- **Compiled programs build the objects of their literals**, wherever these stand. -/
theorem Expr.object_built {e : Expr} {p : Program} (h : e.compile = .ok p) {pos : Position}
    {entries : List (String × Expr)} (hx : Within (.object pos entries) e) : p.Builds pos entries where
  code := hasCode_node h hx rfl
  run := by
    intro soft stream start finish hcode env base s henv hbase
    obtain ⟨r, hleads, hvalue⟩ := hcode.leads henv hbase
    refine ⟨r, hleads, hvalue, fun v hv => ?_⟩
    rcases hvalue with heq | hover
    · exact eval_object (heq.symm.trans hv)
    · cases hover.symm.trans hv

end PipeExpr
