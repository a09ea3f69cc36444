import PipeExpr.Proofs.Operands

/-!
# What an expression takes of the limits

How deep an expression nests, how many constants its code takes and in how many bytes it is written can be read
off the tree (`Expr.extent`).  Compilation has a limit for each of the three, and it does not give up early: where
the code of an expression fails with a limit, what is there already and what the expression takes exceed it
together (`Compile.code_extent`).

The names that are in use are not counted, nor are the elements that a node lists.  These limits have nothing to do
with where an expression stands.
-/

namespace PipeExpr

open Compile (jumpSize strategy)

/-! ## Extents -/

/-- What the code of an expression takes of the limits of a program. -/
@[ext]
structure Extent where
  /-- How deep it nests. -/
  levels : Nat
  /-- How many constants it adds. -/
  constants : Nat
  /-- In how many bytes it is written. -/
  bytes : Nat
  deriving DecidableEq, Repr

namespace Extent

/-- The code of one part behind that of another. -/
def beside (x y : Extent) : Extent :=
  ⟨max x.levels y.levels, x.constants + y.constants, x.bytes + y.bytes⟩

/-- The code of parts, one behind the other. -/
def row : List Extent → Extent
  | [] => ⟨0, 0, 0⟩
  | x :: rest => x.beside (row rest)

/-- A node with constants and bytes of its own, a level above its parts. -/
def node (x : Extent) (constants bytes : Nat) : Extent :=
  ⟨x.levels + 1, x.constants + constants, x.bytes + bytes⟩

/-- An access, which is no level of its own where it is softened. -/
def access (x : Extent) (soft : Bool) (constants bytes : Nat) : Extent :=
  ⟨x.levels + if soft then 0 else 1, x.constants + constants, x.bytes + bytes⟩

end Extent

namespace Expr

mutual

/-- What the code of an expression takes.  An instruction has a byte and those of its operands: two for each
constant, count and target, and one for flags. -/
def extent : Expr → Bool → Extent
  | .number .., _ | .string .., _ | .boolean .., _ | .null .., _ => ⟨1, 1, 3⟩
  | .reference _ name _, soft =>
    if isLocalName name then ⟨1, 1, 3⟩ else ⟨if soft then 0 else 1, 0, 4⟩
  | .unary _ _ operand, _ => (extent operand false).node 0 1
  | .binary _ op left right, _ =>
    match strategy op with
    | .strict _ => ((extent left false).beside (extent right false)).node 0 1
    | .shortCircuit _ _ => ((extent left false).beside (extent right false)).node 0 (jumpSize + 1)
    | .coalesce => ((extent left true).beside (extent right false)).node 0 jumpSize
  | .conditional _ condition consequent alternate, _ =>
    ((extent condition false).beside ((extent consequent false).beside (extent alternate false))).node 0
      (2 * jumpSize)
  | .array _ items, _ => (Extent.row (extentItems items)).node 0 3
  -- each entry has its name in front of it
  | .object _ entries, _ =>
    (Extent.row (extentEntries entries)).node entries.length (3 * entries.length + 3)
  | .call _ _ arguments, _ => (Extent.row (extentItems arguments)).node 1 5
  | .member _ target _ _, soft => (extent target false).access soft 1 5
  | .index _ target key _, soft => ((extent target false).beside (extent key false)).access soft 0 2
  | .slice _ target start stop step _, _ =>
    ((extent target false).beside ((extentBound start).beside ((extentBound stop).beside
      (extentBound step)))).node 0 2
  | .pipe .., _ => ⟨1, 0, 0⟩

/-- The extents of expressions. -/
def extentItems : List Expr → List Extent
  | [] => []
  | e :: rest => extent e false :: extentItems rest

/-- The extents of the values of entries, in source order. -/
def extentEntries : List (String × Expr) → List Extent
  | [] => []
  | (_, e) :: rest => extent e false :: extentEntries rest

/-- The extent of a bound of a slice; an omitted one is a constant. -/
def extentBound : Option Expr → Extent
  | none => ⟨0, 1, 3⟩
  | some e => extent e false

end

theorem extent_reference (p : Position) (name : String) (optional soft : Bool) :
    (Expr.reference p name optional).extent soft =
      if isLocalName name then ⟨1, 1, 3⟩ else ⟨if soft then 0 else 1, 0, 4⟩ := rfl

section Binary
variable {op : BinaryOp} (p : Position) (left right : Expr) (soft : Bool)

theorem extent_binary : (Expr.binary p op left right).extent soft =
    match strategy op with
    | .strict _ => ((extent left false).beside (extent right false)).node 0 1
    | .shortCircuit _ _ => ((extent left false).beside (extent right false)).node 0 (jumpSize + 1)
    | .coalesce => ((extent left true).beside (extent right false)).node 0 jumpSize := rfl

variable {p left right soft}

theorem extent_strict {c : Opcode} (h : strategy op = .strict c) : (Expr.binary p op left right).extent soft =
    ((extent left false).beside (extent right false)).node 0 1 := by
  rw [extent_binary, h]

theorem extent_shortCircuit {short combine : Opcode} (h : strategy op = .shortCircuit short combine) :
    (Expr.binary p op left right).extent soft =
      ((extent left false).beside (extent right false)).node 0 (jumpSize + 1) := by
  rw [extent_binary, h]

theorem extent_coalesce (h : strategy op = .coalesce) : (Expr.binary p op left right).extent soft =
    ((extent left true).beside (extent right false)).node 0 jumpSize := by
  rw [extent_binary, h]

end Binary

theorem extentEntries_eq_map (entries : List (String × Expr)) :
    extentEntries entries = entries.map fun x => x.2.extent false := by
  induction entries with
  | nil => rfl
  | cons x rest ih => exact congrArg (extent x.2 false :: ·) ih

end Expr

/-- The order of the parts does not matter. -/
theorem Extent.row_perm {xs ys : List Extent} (h : xs.Perm ys) : row xs = row ys := by
  induction h with
  | nil => rfl
  | cons x _ ih => rw [row, row, ih]
  | swap x y rest => simp only [row, beside, Nat.max_left_comm, Nat.add_left_comm]
  | trans _ _ ih ih' => exact ih.trans ih'

/-! ## Limits that are met -/

/-- **An error tells of a limit that is met**: what is there already and what is to be written exceed it. -/
def CompileError.Beyond (depth constants offset : Nat) (x : Extent) : CompileError → Prop
  | .nestingTooDeep _ => maxNesting < depth + x.levels
  | .tooManyConstants _ => maxOperand < constants + x.constants
  | .encode _ => maxOperand < offset + x.bytes
  | _ => True

theorem CompileError.Beyond.mono {d d' n n' o o' : Nat} {x x' : Extent} {err : CompileError}
    (h : err.Beyond d n o x) (hx : d + x.levels ≤ d' + x'.levels ∧ n + x.constants ≤ n' + x'.constants ∧
      o + x.bytes ≤ o' + x'.bytes) : err.Beyond d' n' o' x' := by
  obtain ⟨hlevels, hconstants, hbytes⟩ := hx
  cases err with
  | nestingTooDeep p => exact Nat.lt_of_lt_of_le h hlevels
  | tooManyConstants p => exact Nat.lt_of_lt_of_le h hconstants
  | encode e => exact Nat.lt_of_lt_of_le h hbytes
  | _ => trivial

namespace Compile

/-- **A step that fills the tables** from `n` constants to `n'`, with a result as `Q` says, or fails with an error
as `L` says. -/
def Fills (n n' : Nat) (L : CompileError → Prop) {α : Type} (Q : α → Prop) (m : Compile α) : Prop :=
  ∀ t, t.constants.size = n → (∃ err, m t = .error err ∧ L err) ∨
    ∃ a u, m t = .ok (a, u) ∧ u.constants.size = n' ∧ Q a

namespace Fills
variable {α β : Type} {n n' n₁ : Nat} {L L' : CompileError → Prop} {Q : α → Prop} {R : β → Prop} {m : Compile α}

theorem pure {a : α} (hn : n = n') (h : Q a) : Fills n n' L Q (Pure.pure a) :=
  fun t ht => .inr ⟨a, t, rfl, ht.trans hn, h⟩

theorem throw {err : CompileError} (h : L err) : Fills n n' L Q (MonadExcept.throw err) :=
  fun _ _ => .inl ⟨err, rfl, h⟩

theorem bind {f : α → Compile β} (h : Fills n n₁ L Q m) (hf : ∀ a, Q a → Fills n₁ n' L R (f a)) :
    Fills n n' L R (m >>= f) := by
  intro t ht
  show (∃ err, (m t >>= fun y => f y.1 y.2) = _ ∧ L err) ∨ ∃ b u, (m t >>= fun y => f y.1 y.2) = _ ∧ _
  rcases h t ht with ⟨err, herr, hL⟩ | ⟨a, u, hm, hu, ha⟩
  · exact .inl ⟨err, by rw [herr]; rfl, hL⟩
  · rw [hm]
    exact hf a ha u hu

theorem mono (h : Fills n n' L Q m) (hL : ∀ err, L err → L' err) : Fills n n' L' Q m :=
  fun t ht => (h t ht).imp_left fun ⟨err, herr, h⟩ => ⟨err, herr, hL err h⟩

/-- The same outcome in other words. -/
theorem imp {n₂ : Nat} {Q' : α → Prop} (h : Fills n n' L Q m) (hn : n' = n₂) (hQ : ∀ a, Q a → Q' a) :
    Fills n n₂ L Q' m :=
  fun t ht => (h t ht).imp_right fun ⟨a, u, hm, hu, ha⟩ => ⟨a, u, hm, hu.trans hn, hQ a ha⟩

end Fills

/-! ## Steps -/

section Steps
variable {d n o : Nat} {x : Extent} {depth k : Nat} (p : Position)

theorem deeper_fills (h : depth + 1 ≤ d + x.levels) :
    Fills k k (CompileError.Beyond d n o x) (· = depth + 1) (deeper false depth p) := by
  by_cases hdepth : depth < maxNesting
  · rw [deeper_room p hdepth]
    exact .pure rfl rfl
  · have hfull := Nat.le_of_not_lt hdepth
    rw [deeper_full p hfull]
    exact .throw (Nat.lt_of_lt_of_le (Nat.lt_succ_of_le hfull) h)

/-- A node that may be softened. -/
theorem softened_fills (soft : Bool) (h : depth + (if soft then 0 else 1) ≤ d + x.levels) :
    Fills k k (CompileError.Beyond d n o x) (· = depth + if soft then 0 else 1) (deeper soft depth p) := by
  cases soft with
  | true => exact .pure rfl rfl
  | false => exact deeper_fills p h

theorem constantIndex_fills (v : Value) (h : k + 1 ≤ n + x.constants) :
    Fills k (k + 1) (CompileError.Beyond d n o x) (· < maxOperand) (constantIndex v p) := by
  rintro t rfl
  by_cases hroom : t.constants.size < maxOperand
  · exact .inr ⟨_, _, constantIndex_room v p hroom, Array.size_push .., hroom⟩
  · have hfull := Nat.le_of_not_lt hroom
    exact .inl ⟨_, constantIndex_full v p hfull, Nat.lt_of_lt_of_le (Nat.lt_succ_of_le hfull) h⟩

theorem size_singleton (i : Instruction) : Assembly.size #[i] = i.length := Nat.zero_add _

theorem emit_fills {op : Opcode} {operands : List Nat} (h : Instruction.Fits ⟨op, operands⟩) :
    Fills k k (CompileError.Beyond d n o x) (Assembly.size · = op.encodedLength) (emit op operands) := by
  rw [emit_room h]
  exact .pure rfl (size_singleton _)

/-- A jump can be written unless its target is behind all that can be reached. -/
theorem emit_target_fills {op : Opcode} (hop : op.widths = [2]) {target : Nat} (h : target ≤ o + x.bytes) :
    Fills k k (CompileError.Beyond d n o x) (Assembly.size · = jumpSize) (emit op [target]) := by
  by_cases hle : target ≤ maxOperand
  · rw [emit_room (fits_of_le hop hle)]
    refine .pure rfl ((size_singleton _).trans ?_)
    simp only [Instruction.length, Opcode.encodedLength, hop]
    rfl
  · have hnot : ¬ Instruction.Fits ⟨op, [target]⟩ := by
      intro hfits
      have hbound := hfits.bound (target, 2) (by rw [hop]; exact List.mem_singleton_self _)
      exact hle (Nat.le_of_lt_succ hbound)
    obtain ⟨value, width, hfull⟩ := emit_full (by rw [hop]; rfl) hnot
    rw [hfull]
    exact .throw (Nat.lt_of_lt_of_le (Nat.lt_of_not_le hle) h)

theorem count_fills (m : Nat) :
    Fills k k (CompileError.Beyond d n o x) (fun m' => m' = m ∧ m ≤ maxOperand) (count m p) := by
  by_cases hle : m ≤ maxOperand
  · rw [count_room p hle]
    exact .pure rfl ⟨rfl, hle⟩
  · rw [count_full p (Nat.lt_of_not_le hle)]
    exact .throw trivial

theorem constant_fills (v : Value) (h : k + 1 ≤ n + x.constants) :
    Fills k (k + 1) (CompileError.Beyond d n o x) (Assembly.size · = 3) (constant v p) :=
  (constantIndex_fills p v h).bind fun _ hi => emit_fills (fits_of_le rfl (Nat.le_of_lt hi))

end Steps

/-! ## Expressions -/

/-- **An expression whose code takes its extent**, wherever it is written. -/
def Measured (e : Expr) : Prop := ∀ soft d n o, Fills n (n + (e.extent soft).constants)
  (CompileError.Beyond d n o (e.extent soft)) (Assembly.size · = (e.extent soft).bytes) (code e soft d o)

section Parts
variable {D N O : Nat} {X : Extent}

/-- A part of something that takes more. -/
theorem Measured.part {e : Expr} (he : Measured e) (soft : Bool) {d n o : Nat}
    (h : d + (e.extent soft).levels ≤ D + X.levels ∧ n + (e.extent soft).constants ≤ N + X.constants ∧
      o + (e.extent soft).bytes ≤ O + X.bytes) :
    Fills n (n + (e.extent soft).constants) (CompileError.Beyond D N O X)
      (Assembly.size · = (e.extent soft).bytes) (code e soft d o) :=
  (he soft d n o).mono fun _ herr => herr.mono h

/-- The code of expressions takes what they take together. -/
theorem itemsCode_fills {items : List Expr} (hitems : ∀ e ∈ items, Measured e) {d n o : Nat} {done : Assembly}
    (h : d + (Extent.row (Expr.extentItems items)).levels ≤ D + X.levels ∧
      n + (Extent.row (Expr.extentItems items)).constants ≤ N + X.constants ∧
      o + (Extent.row (Expr.extentItems items)).bytes ≤ O + X.bytes) :
    Fills n (n + (Extent.row (Expr.extentItems items)).constants) (CompileError.Beyond D N O X)
      (Assembly.size · = done.size + (Extent.row (Expr.extentItems items)).bytes) (itemsCode items d o done) := by
  induction items generalizing n o done with
  | nil => exact .pure rfl rfl
  | cons e rest ih =>
    obtain ⟨he, hrest⟩ := List.forall_mem_cons.mp hitems
    simp only [Expr.extentItems, Extent.row, Extent.beside] at h ⊢
    refine (he.part false (by omega)).bind fun a ha => ?_
    refine (ih hrest (by omega)).imp (Nat.add_assoc ..) fun b hb => ?_
    rw [hb, Assembly.size_append, ha, Nat.add_assoc]

/-- The code of entries has a name in front of each value. -/
theorem entriesCode_fills (p : Position) {entries : List (String × Expr)} (hentries : ∀ x ∈ entries, Measured x.2)
    {d n o : Nat} {done : Assembly}
    (h : d + (Extent.row (Expr.extentEntries entries)).levels ≤ D + X.levels ∧
      n + (Extent.row (Expr.extentEntries entries)).constants + entries.length ≤ N + X.constants ∧
      o + (Extent.row (Expr.extentEntries entries)).bytes + 3 * entries.length ≤ O + X.bytes) :
    Fills n (n + (Extent.row (Expr.extentEntries entries)).constants + entries.length)
      (CompileError.Beyond D N O X)
      (Assembly.size · = done.size + (Extent.row (Expr.extentEntries entries)).bytes + 3 * entries.length)
      (entriesCode p d o done (entries.map (Prod.map id (code · false)))) := by
  induction entries generalizing n o done with
  | nil => exact .pure rfl rfl
  | cons x rest ih =>
    obtain ⟨hx, hrest⟩ := List.forall_mem_cons.mp hentries
    simp only [Expr.extentEntries, Extent.row, Extent.beside, List.length_cons] at h ⊢
    refine (constant_fills p _ (by omega)).bind fun key hkey => ?_
    refine (hx.part false (by omega)).bind fun a ha => ?_
    refine (ih hrest (by omega)).imp (by omega) fun b hb => ?_
    rw [hb, Assembly.size_append, Assembly.size_append, hkey, ha]
    omega

theorem boundCode_fills (p : Position) {bound : Option Expr} (hbound : ∀ e ∈ bound, Measured e) {d n o : Nat}
    (h : d + (Expr.extentBound bound).levels ≤ D + X.levels ∧
      n + (Expr.extentBound bound).constants ≤ N + X.constants ∧
      o + (Expr.extentBound bound).bytes ≤ O + X.bytes) :
    Fills n (n + (Expr.extentBound bound).constants) (CompileError.Beyond D N O X)
      (Assembly.size · = (Expr.extentBound bound).bytes) (boundCode bound p d o) := by
  cases bound with
  | none => exact constant_fills p _ h.2.1
  | some e =>
    have he : Measured e := hbound e rfl
    exact he.part false h

end Parts

/-- A local takes a constant, a context variable takes none. -/
theorem reference_fills (name : String) (flags : AccessFlags) (p : Position) {optional soft : Bool} {n o D : Nat} :
    Fills n (n + ((Expr.reference p name optional).extent soft).constants)
      (CompileError.Beyond D n o ((Expr.reference p name optional).extent soft))
      (Assembly.size · = ((Expr.reference p name optional).extent soft).bytes) (reference name flags p) := by
  rw [Expr.extent_reference]
  cases hname : isLocalName name with
  | true =>
    rw [if_pos rfl, loadLocal_eq flags p hname]
    exact (constantIndex_fills p _ (Nat.le_refl _)).bind fun _ hi => emit_fills (fits_of_le rfl (Nat.le_of_lt hi))
  | false =>
    rintro t rfl
    rw [if_neg Bool.false_ne_true]
    by_cases hslot : (t.contextVars.slot name).1 < maxOperand
    · exact .inr ⟨_, _, loadVar_room flags p hname hslot, rfl, size_singleton _⟩
    · exact .inl ⟨_, loadVar_full flags p hname (Nat.le_of_not_lt hslot), trivial⟩

namespace Measured
variable {p : Position} {optional : Bool}

theorem literal {v : Value} {e : Expr} (hcode : ∀ soft d o, code e soft d o =
    (do let _ ← deeper false d p; constant v p : Compile Assembly))
    (hextent : ∀ soft, e.extent soft = ⟨1, 1, 3⟩) : Measured e := by
  intro soft d n o
  rw [hcode, hextent]
  exact (deeper_fills p (Nat.le_refl _)).bind fun _ _ => constant_fills p v (Nat.le_refl _)

theorem reference (name : String) : Measured (.reference p name optional) := by
  intro soft d n o
  have hlevels : d + (if (soft && !isLocalName name) = true then 0 else 1) ≤
      d + ((Expr.reference p name optional).extent soft).levels := by
    rw [Expr.extent_reference]
    cases isLocalName name <;> cases soft <;> exact Nat.le_refl _
  exact (softened_fills p _ hlevels).bind fun _ _ => reference_fills name _ p

theorem unary {op : UnaryOp} {operand : Expr} (h : Measured operand) : Measured (.unary p op operand) := by
  intro soft d n o
  generalize hX : (Expr.unary p op operand).extent soft = X
  replace hX : (operand.extent false).node 0 1 = X := hX
  obtain ⟨hlevels, hconstants, hbytes⟩ := Extent.ext_iff.mp hX
  simp only [Extent.node] at hlevels hconstants hbytes
  refine (deeper_fills p (by omega)).bind fun d' hd => (h.part false (by omega)).bind fun a ha => ?_
  refine (emit_fills (by cases op <;> exact fits_of_none rfl)).bind fun i hi => .pure (by omega) ?_
  rw [Assembly.size_append, ha, hi, ← hbytes]
  cases op <;> rfl

/-- The sides of an operator, and what stands between them and behind. -/
theorem binary {op : BinaryOp} {left right : Expr} (hl : Measured left) (hr : Measured right) :
    Measured (.binary p op left right) := by
  intro soft d n o
  generalize hX : (Expr.binary p op left right).extent soft = X
  have hjump : jumpSize = 3 := rfl
  cases hs : strategy op with
  | strict c =>
    rw [Expr.extent_strict hs] at hX
    obtain ⟨hlevels, hconstants, hbytes⟩ := Extent.ext_iff.mp hX
    simp only [Extent.node, Extent.beside] at hlevels hconstants hbytes
    refine (deeper_fills p (by omega)).bind fun d' hd => ?_
    simp only [hs]
    refine (hl.part false (by omega)).bind fun a ha => (hr.part false (by omega)).bind fun b hb => ?_
    refine (emit_fills (fits_of_none (widths_strict hs))).bind fun i hi => .pure (by omega) ?_
    rw [Opcode.encodedLength, widths_strict hs, List.foldr_nil] at hi
    rw [Assembly.size_append, Assembly.size_append]
    omega
  | shortCircuit short combine =>
    rw [Expr.extent_shortCircuit hs] at hX
    obtain ⟨hlevels, hconstants, hbytes⟩ := Extent.ext_iff.mp hX
    simp only [Extent.node, Extent.beside] at hlevels hconstants hbytes
    obtain ⟨decisive, rfl, rfl, _⟩ := Expr.plan_shortCircuit hs
    refine (deeper_fills p (by omega)).bind fun d' hd => ?_
    simp only [hs]
    refine (hl.part false (by omega)).bind fun a ha => (hr.part false (by omega)).bind fun b hb => ?_
    refine (emit_fills (by cases decisive <;> exact fits_of_none rfl)).bind fun i hi => ?_
    have hcombine : Assembly.size i = 1 := by rw [hi]; cases decisive <;> rfl
    have htail : Assembly.size (b ++ i) = b.size + 1 := by rw [Assembly.size_append, hcombine]
    refine (emit_target_fills (by cases decisive <;> rfl) (by omega)).bind fun j hj => .pure (by omega) ?_
    rw [Assembly.size_append, Assembly.size_append]
    omega
  | coalesce =>
    rw [Expr.extent_coalesce hs] at hX
    obtain ⟨hlevels, hconstants, hbytes⟩ := Extent.ext_iff.mp hX
    simp only [Extent.node, Extent.beside] at hlevels hconstants hbytes
    refine (deeper_fills p (by omega)).bind fun d' hd => ?_
    simp only [hs]
    refine (hl.part true (by omega)).bind fun a ha => (hr.part false (by omega)).bind fun b hb => ?_
    refine (emit_target_fills rfl (by omega)).bind fun j hj => .pure (by omega) ?_
    rw [Assembly.size_append, Assembly.size_append]
    omega

theorem conditional {condition consequent alternate : Expr} (hc : Measured condition) (hx : Measured consequent)
    (hy : Measured alternate) : Measured (.conditional p condition consequent alternate) := by
  intro soft d n o
  generalize hX : (Expr.conditional p condition consequent alternate).extent soft = X
  replace hX : ((condition.extent false).beside ((consequent.extent false).beside
    (alternate.extent false))).node 0 (2 * jumpSize) = X := hX
  have hjump : jumpSize = 3 := rfl
  obtain ⟨hlevels, hconstants, hbytes⟩ := Extent.ext_iff.mp hX
  simp only [Extent.node, Extent.beside] at hlevels hconstants hbytes
  refine (deeper_fills p (by omega)).bind fun d' hd => (hc.part false (by omega)).bind fun a ha => ?_
  refine (hx.part false (by omega)).bind fun b hb => (emit_target_fills rfl (by omega)).bind fun i hi => ?_
  refine (hy.part false (by omega)).bind fun c hc => (emit_target_fills rfl (by omega)).bind fun j hj => ?_
  refine .pure (by omega) ?_
  simp only [Assembly.size_append]
  omega

theorem array {items : List Expr} (h : ∀ e ∈ items, Measured e) : Measured (.array p items) := by
  intro soft d n o
  generalize hX : (Expr.array p items).extent soft = X
  replace hX : (Extent.row (Expr.extentItems items)).node 0 3 = X := hX
  obtain ⟨hlevels, hconstants, hbytes⟩ := Extent.ext_iff.mp hX
  simp only [Extent.node] at hlevels hconstants hbytes
  refine (deeper_fills p (by omega)).bind fun d' hd => (count_fills p _).bind fun m ⟨hm, hmax⟩ => ?_
  refine (itemsCode_fills h (by omega)).bind fun a ha => ?_
  refine (emit_fills (fits_of_le rfl (hm ▸ hmax))).bind fun i hi => .pure (by omega) ?_
  rw [Assembly.size_append, ha, hi, ← hbytes]
  exact congrArg (· + 3) (Nat.zero_add _)

/-- The order in which entries are written does not matter. -/
theorem object {entries : List (String × Expr)} (h : ∀ x ∈ entries, Measured x.2) :
    Measured (.object p entries) := by
  intro soft d n o
  generalize hX : (Expr.object p entries).extent soft = X
  have hrow : Extent.row (Expr.extentEntries entries) = Extent.row (Expr.extentEntries (byName entries)) := by
    rw [Expr.extentEntries_eq_map, Expr.extentEntries_eq_map]
    exact Extent.row_perm ((List.mergeSort_perm entries _).symm.map _)
  have hwriters : sortEntries (entryWriters entries) = (byName entries).map (Prod.map id (code · false)) := by
    rw [entryWriters_eq_map, ← byName_map]
    rfl
  replace hX : (Extent.row (Expr.extentEntries entries)).node entries.length (3 * entries.length + 3) = X := hX
  rw [hrow, ← length_byName entries] at hX
  show Fills _ _ _ _ (do
    let depth ← deeper false d p
    let n ← count entries.length p
    let entries ← entriesCode p depth o #[] (sortEntries (entryWriters entries))
    return entries ++ (← emit .object [n]))
  rw [hwriters, ← length_byName entries]
  have hsorted : ∀ x ∈ byName entries, Measured x.2 := fun x hx => h x (mem_byName.mp hx)
  generalize byName entries = sorted at hX hsorted
  obtain ⟨hlevels, hconstants, hbytes⟩ := Extent.ext_iff.mp hX
  simp only [Extent.node] at hlevels hconstants hbytes
  refine (deeper_fills p (by omega)).bind fun d' hd => (count_fills p _).bind fun m ⟨hm, hmax⟩ => ?_
  refine (entriesCode_fills p hsorted (by omega)).bind fun a ha => ?_
  refine (emit_fills (fits_of_le rfl (hm ▸ hmax))).bind fun i hi => .pure (by omega) ?_
  have hlast : Assembly.size i = 3 := hi
  have hempty : Assembly.size #[] = 0 := rfl
  rw [Assembly.size_append]
  omega

theorem call {callee : Expr} {arguments : List Expr} (h : ∀ e ∈ arguments, Measured e) :
    Measured (.call p callee arguments) := by
  intro soft d n o
  generalize hX : (Expr.call p callee arguments).extent soft = X
  replace hX : (Extent.row (Expr.extentItems arguments)).node 1 5 = X := hX
  obtain ⟨hlevels, hconstants, hbytes⟩ := Extent.ext_iff.mp hX
  simp only [Extent.node] at hlevels hconstants hbytes
  refine (deeper_fills p (by omega)).bind fun d' hd => ?_
  cases calleeName? callee with
  | none => exact .throw trivial
  | some name =>
    refine (count_fills p _).bind fun m ⟨hm, hmax⟩ => (itemsCode_fills h (by omega)).bind fun a ha => ?_
    refine (constantIndex_fills p _ (by omega)).bind fun k hk => ?_
    have hfits : Instruction.Fits ⟨.call, [k, m]⟩ := by
      refine ⟨rfl, List.forall_mem_cons.mpr ⟨Nat.lt_succ_of_lt hk, List.forall_mem_singleton.mpr ?_⟩⟩
      exact Nat.lt_succ_of_le (hm ▸ hmax)
    refine (emit_fills hfits).bind fun i hi => .pure (by omega) ?_
    have hlast : Assembly.size i = 5 := hi
    have hempty : Assembly.size #[] = 0 := rfl
    rw [Assembly.size_append]
    omega

theorem member {target : Expr} {property : Property} (h : Measured target) :
    Measured (.member p target property optional) := by
  intro soft d n o
  generalize hX : (Expr.member p target property optional).extent soft = X
  replace hX : (target.extent false).access soft 1 5 = X := hX
  obtain ⟨hlevels, hconstants, hbytes⟩ := Extent.ext_iff.mp hX
  simp only [Extent.access] at hlevels hconstants hbytes
  refine (softened_fills p soft (by omega)).bind fun d' hd => (h.part false (by omega)).bind fun a ha => ?_
  refine (constant_fills p _ (by omega)).bind fun k hk => ?_
  refine (emit_fills (fits_of_flags rfl _)).bind fun i hi => .pure (by omega) ?_
  have hlast : Assembly.size i = 2 := hi
  rw [Assembly.size_append, Assembly.size_append]
  omega

theorem index {target key : Expr} (h : Measured target) (hkey : Measured key) :
    Measured (.index p target key optional) := by
  intro soft d n o
  generalize hX : (Expr.index p target key optional).extent soft = X
  replace hX : ((target.extent false).beside (key.extent false)).access soft 0 2 = X := hX
  obtain ⟨hlevels, hconstants, hbytes⟩ := Extent.ext_iff.mp hX
  simp only [Extent.access, Extent.beside] at hlevels hconstants hbytes
  refine (softened_fills p soft (by omega)).bind fun d' hd => (h.part false (by omega)).bind fun a ha => ?_
  refine (hkey.part false (by omega)).bind fun k hk => ?_
  refine (emit_fills (fits_of_flags rfl _)).bind fun i hi => .pure (by omega) ?_
  have hlast : Assembly.size i = 2 := hi
  rw [Assembly.size_append, Assembly.size_append]
  omega

theorem slice {target : Expr} {start stop step : Option Expr} (h : Measured target)
    (hstart : ∀ e ∈ start, Measured e) (hstop : ∀ e ∈ stop, Measured e) (hstep : ∀ e ∈ step, Measured e) :
    Measured (.slice p target start stop step optional) := by
  intro soft d n o
  generalize hX : (Expr.slice p target start stop step optional).extent soft = X
  replace hX : ((target.extent false).beside ((Expr.extentBound start).beside
    ((Expr.extentBound stop).beside (Expr.extentBound step)))).node 0 2 = X := hX
  obtain ⟨hlevels, hconstants, hbytes⟩ := Extent.ext_iff.mp hX
  simp only [Extent.node, Extent.beside] at hlevels hconstants hbytes
  refine (deeper_fills p (by omega)).bind fun d' hd => (h.part false (by omega)).bind fun a ha => ?_
  refine (boundCode_fills p hstart (by omega)).bind fun b hb => ?_
  simp only [Assembly.size_append]
  refine (boundCode_fills p hstop (by omega)).bind fun c hc => ?_
  refine (boundCode_fills p hstep (by omega)).bind fun e he => ?_
  refine (emit_fills (fits_of_flags rfl _)).bind fun i hi => .pure (by omega) ?_
  have hlast : Assembly.size i = 2 := hi
  simp only [Assembly.size_append]
  omega

end Measured

/-- **The code of an expression takes its extent**: so many constants and so many bytes.  Where it fails with a
limit, what is there already and the extent exceed it together. -/
theorem code_extent (e : Expr) : Measured e := by
  induction e using Expr.induction with
  | number p x => exact .literal (fun _ _ _ => rfl) fun _ => rfl
  | string p s style => exact .literal (fun _ _ _ => rfl) fun _ => rfl
  | boolean p b => exact .literal (fun _ _ _ => rfl) fun _ => rfl
  | null p => exact .literal (fun _ _ _ => rfl) fun _ => rfl
  | reference p name optional => exact .reference name
  | unary p op operand ih => exact ih.unary
  | binary p op left right ihl ihr => exact ihl.binary ihr
  | conditional p condition consequent alternate ihc ihx ihy => exact ihc.conditional ihx ihy
  | array p items ih => exact .array ih
  | object p entries ih => exact .object ih
  | call p callee arguments _ ih => exact .call ih
  | member p target property optional ih => exact ih.member
  | index p target key optional iht ihk => exact iht.index ihk
  | slice p target start stop step optional iht ih₁ ih₂ ih₃ => exact iht.slice ih₁ ih₂ ih₃
  | pipe p stages _ =>
    intro soft d n o
    exact (deeper_fills p (Nat.le_refl _)).bind fun _ _ => .throw trivial

end Compile

end PipeExpr
