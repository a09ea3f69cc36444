import Mathlib.Data.List.Perm.Subperm
import PipeExpr.Proofs.CompileFailures
import PipeExpr.Proofs.WellFormed

/-!
# What compiles within an expression compiles on its own

A part of an expression is written behind other code, deeper in the tree and with tables that are in use
already.  Written on its own it has more of everything, so what could be written there can be written on
its own too, in as many bytes (`Expr.compile_of_code`).  What could not, fails on its own with the same error,
unless there was only too little room for it (`Compile.code_tracked`).

Steps of compilation are compared by `Compile.Tracks`: where the first one succeeds, the second one does, from
tables with at least as much room, and where it fails with an error that is no limit, so does the second one.
Indices of constants, offsets and depths only get smaller.  Slots of names need not: a name that has a slot
already may be new to smaller tables.  But then all names that are there stand in the larger tables too, which
had room for them (`Tables.Roomier.slot`).
-/

namespace PipeExpr

/-! ## Room in tables -/

/-- **Tables with at least as much room** as others: no more constants, and no other names.  Where nothing else
uses names, both have the same ones (`shared`). -/
structure Tables.Roomier (t' t : Tables) (shared : Bool) : Prop where
  valid : t'.contextVars.Valid
  full : t.contextVars.Valid
  constants : t'.constants.size ≤ t.constants.size
  names : t'.contextVars.names.toList ⊆ t.contextVars.names.toList
  room : t.contextVars.names.size ≤ maxOperand
  same : shared = true → t'.contextVars = t.contextVars

namespace Tables.Roomier
variable {t t' : Tables} {shared : Bool}

theorem push (h : t'.Roomier t shared) (v v' : Value) : (t'.push v').Roomier (t.push v) shared := by
  refine ⟨h.valid, h.full, ?_, h.names, h.room, h.same⟩
  simp only [Tables.push, Array.size_push]
  exact Nat.succ_le_succ h.constants

/-- Larger tables may grow. -/
theorem grown (h : t'.Roomier t shared) (v : Value) : t'.Roomier (t.push v) shared := by
  refine ⟨h.valid, h.full, Nat.le_trans h.constants ?_, h.names, h.room, h.same⟩
  simp only [Tables.push, Array.size_push]
  exact Nat.le_succ _

/-- Names that have a slot in larger tables have one in smaller ones. -/
theorem size_le (h : t'.Roomier t shared) : t'.contextVars.names.size ≤ t.contextVars.names.size := by
  have hsub := List.subperm_of_subset h.valid.nodup h.names
  simpa using hsub.length_le

theorem slot (h : t'.Roomier t shared) {name : String} (hslot : (t.contextVars.slot name).1 < maxOperand) :
    Roomier { t' with contextVars := (t'.contextVars.slot name).2 }
        { t with contextVars := (t.contextVars.slot name).2 } shared ∧
      (t'.contextVars.slot name).1 < maxOperand := by
  have hroom : (t.contextVars.slot name).2.names.size ≤ maxOperand := by
    unfold NameTable.slot at hslot ⊢
    split
    · exact h.room
    · rename_i hnew
      rw [hnew] at hslot
      rw [Array.size_push]
      exact hslot
  have hnames : (t'.contextVars.slot name).2.names.toList ⊆ (t.contextVars.slot name).2.names.toList := by
    intro x hx
    rw [Array.mem_toList_iff, NameTable.mem_slot h.valid] at hx
    rw [Array.mem_toList_iff, NameTable.mem_slot h.full]
    exact hx.imp_left fun hx => Array.mem_toList_iff.mp (h.names (Array.mem_toList_iff.mpr hx))
  have hroomier : Roomier { t' with contextVars := (t'.contextVars.slot name).2 }
      { t with contextVars := (t.contextVars.slot name).2 } shared :=
    ⟨NameTable.slot_valid h.valid name, NameTable.slot_valid h.full name, h.constants, hnames, hroom,
      fun hshared => by rw [h.same hshared]⟩
  have hat := (Array.getElem?_eq_some_iff.mp (NameTable.slot_get h.valid name)).1
  exact ⟨hroomier, Nat.lt_of_lt_of_le hat (Nat.le_trans hroomier.size_le hroom)⟩

end Tables.Roomier

/-- Errors that tell of too little room for what was written, and of too many names where these are not
shared.  How many elements a node lists is not a matter of room. -/
def CompileError.OfRoom (shared : Bool) : CompileError → Prop
  | .tooManyConstants _ | .nestingTooDeep _ | .encode (.operandOverflow ..) => True
  | .tooManyVariables _ => shared = false
  | _ => False

namespace Compile

/-! ## Steps that succeed where there is more room -/

/-- **A step that succeeds wherever another one does**, with more room and with a like result. -/
def Eases {α β : Type} (R : α → β → Prop) (m : Compile α) (m' : Compile β) : Prop :=
  ∀ t t', t'.Roomier t false → ∀ a u, m t = .ok (a, u) → ∃ a' u', m' t' = .ok (a', u') ∧ u'.Roomier u false ∧ R a a'

/-- **A step that does what another one does, where there is more room**: it succeeds with a like result, or it
fails with the same error, unless the other one fails for want of room. -/
def Tracks (shared : Bool) {α β : Type} (R : α → β → Prop) (m : Compile α) (m' : Compile β) : Prop :=
  ∀ t t', t'.Roomier t shared → (∃ err, m t = .error err ∧ (err.OfRoom shared ∨ m' t' = .error err)) ∨
    ∃ a u a' u', m t = .ok (a, u) ∧ m' t' = .ok (a', u') ∧ u'.Roomier u shared ∧ R a a'

namespace Tracks
variable {α β γ δ : Type} {R : α → β → Prop} {Q : γ → δ → Prop} {m : Compile α} {m' : Compile β} {shared : Bool}

theorem eases (h : Tracks false R m m') : Eases R m m' := by
  intro t t' hroom a u hrun
  rcases h t t' hroom with ⟨err, herr, -⟩ | ⟨_, _, a', u', hrun', hm', hroom', ha⟩
  · cases hrun.symm.trans herr
  · obtain ⟨rfl, rfl⟩ := Prod.mk.inj (Except.ok.inj (hrun.symm.trans hrun'))
    exact ⟨a', u', hm', hroom', ha⟩

theorem pure {a : α} {a' : β} (h : R a a') : Tracks shared R (Pure.pure a) (Pure.pure a') :=
  fun t t' hroom => .inr ⟨a, t, a', t', rfl, rfl, hroom, h⟩

theorem throw {err : CompileError} : Tracks shared R (MonadExcept.throw err) (MonadExcept.throw err) :=
  fun _ _ _ => .inl ⟨err, rfl, .inr rfl⟩

theorem limit {err : CompileError} (h : err.OfRoom shared) : Tracks shared R (MonadExcept.throw err) m' :=
  fun _ _ _ => .inl ⟨err, rfl, .inl h⟩

theorem bind {f : α → Compile γ} {f' : β → Compile δ} (h : Tracks shared R m m')
    (hf : ∀ a a', R a a' → Tracks shared Q (f a) (f' a')) : Tracks shared Q (m >>= f) (m' >>= f') := by
  intro t t' hroom
  show (∃ err, (m t >>= fun y => f y.1 y.2) = _ ∧ (_ ∨ (m' t' >>= fun y => f' y.1 y.2) = _)) ∨
    ∃ b u b' u', (m t >>= fun y => f y.1 y.2) = _ ∧ (m' t' >>= fun y => f' y.1 y.2) = _ ∧ _
  rcases h t t' hroom with ⟨err, herr, hsame⟩ | ⟨a, u, a', u', hm, hm', hroom', ha⟩
  · refine .inl ⟨err, by rw [herr]; rfl, hsame.imp_right fun herr' => ?_⟩
    rw [herr']
    rfl
  · rw [hm, hm']
    exact hf a a' ha u u' hroom'

end Tracks

/-! ## Single steps, with and without room -/

section Steps
variable {t : Tables} {n : Nat} {op : Opcode} {operands : List Nat} {name : String}

theorem deeper_room (p : Position) (h : n < maxNesting) : deeper false n p = (return n + 1 : Compile Nat) :=
  if_neg (Nat.not_le_of_lt h)

theorem deeper_full (p : Position) (h : maxNesting ≤ n) :
    deeper false n p = (throw (.nestingTooDeep p) : Compile Nat) :=
  if_pos h

theorem count_room (p : Position) (h : n ≤ maxOperand) : count n p = (return n : Compile Nat) :=
  if_neg (Nat.not_lt_of_le h)

theorem count_full (p : Position) (h : maxOperand < n) :
    count n p = (throw (.tooManyElements p n) : Compile Nat) :=
  if_pos h

theorem constantIndex_room (v : Value) (p : Position) (h : t.constants.size < maxOperand) :
    constantIndex v p t = .ok (t.constants.size, t.push v) := by
  show (if t.constants.size ≥ maxOperand then throw (.tooManyConstants p)
    else do set (t.push v); return t.constants.size : Compile Nat) t = _
  rw [if_neg (Nat.not_le_of_lt h)]
  rfl

theorem constantIndex_full (v : Value) (p : Position) (h : maxOperand ≤ t.constants.size) :
    constantIndex v p t = .error (.tooManyConstants p) := by
  show (if t.constants.size ≥ maxOperand then throw (.tooManyConstants p)
    else do set (t.push v); return t.constants.size : Compile Nat) t = _
  rw [if_pos h]
  rfl

theorem emit_room (h : Instruction.Fits ⟨op, operands⟩) :
    emit op operands = (return #[⟨op, operands⟩] : Compile Assembly) := by
  unfold emit
  rw [(Instruction.encode_eq_ok_iff _ _).mpr ⟨h, rfl⟩]

theorem emit_full (hcount : operands.length = op.widths.length) (h : ¬ Instruction.Fits ⟨op, operands⟩) :
    ∃ value width, emit op operands = (throw (.encode (.operandOverflow op value width)) : Compile Assembly) := by
  have hover : (Instruction.mk op operands).overflow? ≠ none := fun hnone =>
    h ⟨hcount, (Instruction.overflow?_eq_none_iff _).mp hnone⟩
  obtain ⟨⟨value, width⟩, hsome⟩ := Option.ne_none_iff_exists'.mp hover
  refine ⟨value, width, ?_⟩
  unfold emit Instruction.encode
  rw [if_neg (not_not_intro hcount), hsome]

/-- A context variable has a slot if there is one left. -/
theorem loadVar_room (flags : AccessFlags) (p : Position) (hname : isLocalName name = false)
    (h : (t.contextVars.slot name).1 < maxOperand) : reference name flags p t =
      .ok (#[⟨.loadVar, [(t.contextVars.slot name).1, flags.toNat]⟩],
        { t with contextVars := (t.contextVars.slot name).2 }) := by
  have hfits : Instruction.Fits ⟨.loadVar, [(t.contextVars.slot name).1, flags.toNat]⟩ :=
    ⟨rfl, List.forall_mem_cons.mpr ⟨Nat.lt_succ_of_lt h, List.forall_mem_singleton.mpr flags.toNat_lt⟩⟩
  unfold reference
  rw [if_neg (Bool.eq_false_iff.mp hname)]
  show (if (t.contextVars.slot name).1 ≥ maxOperand then throw (.tooManyVariables p)
    else emit .loadVar [(t.contextVars.slot name).1, flags.toNat] : Compile Assembly)
      { t with contextVars := (t.contextVars.slot name).2 } = _
  rw [if_neg (Nat.not_le_of_lt h), emit_room hfits]
  rfl

theorem loadVar_full (flags : AccessFlags) (p : Position) (hname : isLocalName name = false)
    (h : maxOperand ≤ (t.contextVars.slot name).1) :
    reference name flags p t = .error (.tooManyVariables p) := by
  unfold reference
  rw [if_neg (Bool.eq_false_iff.mp hname)]
  show (if (t.contextVars.slot name).1 ≥ maxOperand then throw (.tooManyVariables p)
    else emit .loadVar [(t.contextVars.slot name).1, flags.toNat] : Compile Assembly)
      { t with contextVars := (t.contextVars.slot name).2 } = _
  rw [if_pos h]
  rfl

/-- A local is a constant with its name. -/
theorem loadLocal_eq (flags : AccessFlags) (p : Position) (hname : isLocalName name = true) :
    reference name flags p = (do emit .loadLocal [← constantIndex (.string name) p] : Compile Assembly) :=
  if_pos hname

end Steps

/-- Rows of the same size. -/
def SameSize (a a' : Assembly) : Prop := a'.size = a.size

theorem SameSize.append {a a' b b' : Assembly} (ha : SameSize a a') (hb : SameSize b b') :
    SameSize (a ++ b) (a' ++ b') := by
  simp only [SameSize, Assembly.size_append] at ha hb ⊢
  omega

/-- Behind rows of the same size the offsets are in the same order. -/
theorem SameSize.behind {a a' : Assembly} {o o' : Nat} (ha : SameSize a a') (ho : o' ≤ o) :
    o' + a'.size ≤ o + a.size := by
  simp only [SameSize] at ha
  omega

/-- **A place for a node with more room**: one that is no deeper, or any higher place where the node is not
softened. -/
def Higher (soft : Bool) (depth : Nat) (soft' : Bool) (depth' : Nat) : Prop :=
  soft' = soft ∧ depth' ≤ depth ∨ soft' = false ∧ depth' < depth ∧ depth ≤ maxNesting

/-! ## Steps that are tracked -/

section Steps
variable (p : Position) {shared : Bool}

theorem deeper_tracks {soft soft' : Bool} {depth depth' : Nat} (h : Higher soft depth soft' depth') :
    Tracks shared (fun d d' => d' ≤ d) (deeper soft depth p) (deeper soft' depth' p) := by
  rcases h with ⟨rfl, hle⟩ | ⟨rfl, hlt, hmax⟩
  · cases soft' with
    | true => exact .pure hle
    | false =>
      by_cases hdepth : depth < maxNesting
      · rw [deeper_room p hdepth, deeper_room p (Nat.lt_of_le_of_lt hle hdepth)]
        exact .pure (Nat.succ_le_succ hle)
      · rw [deeper_full p (Nat.le_of_not_lt hdepth)]
        exact .limit trivial
  · rw [deeper_room p (Nat.lt_of_lt_of_le hlt hmax)]
    cases soft with
    | true => exact .pure hlt
    | false =>
      by_cases hdepth : depth < maxNesting
      · rw [deeper_room p hdepth]
        exact .pure (Nat.succ_le_succ (Nat.le_of_lt hlt))
      · rw [deeper_full p (Nat.le_of_not_lt hdepth)]
        exact .limit trivial

/-- Of nodes that are never softened, only the depth counts. -/
theorem deeper_strict {soft soft' : Bool} {depth depth' : Nat} (h : Higher soft depth soft' depth') :
    Tracks shared (fun d d' => d' ≤ d) (deeper false depth p) (deeper false depth' p) :=
  deeper_tracks p (.inl ⟨rfl, h.elim And.right fun h => Nat.le_of_lt h.2.1⟩)

theorem constantIndex_tracks (v : Value) :
    Tracks shared (fun n n' => n' ≤ n) (constantIndex v p) (constantIndex v p) := by
  intro t t' hroom
  by_cases hlt : t.constants.size < maxOperand
  · exact .inr ⟨_, _, _, _, constantIndex_room v p hlt,
      constantIndex_room v p (Nat.lt_of_le_of_lt hroom.constants hlt), hroom.push v v, hroom.constants⟩
  · exact .inl ⟨_, constantIndex_full v p (Nat.le_of_not_lt hlt), .inl trivial⟩

/-- Smaller operands fit where larger ones do. -/
theorem bound_of_le {ns ns' widths : List Nat} (hle : List.Forall₂ (fun n n' => n' ≤ n) ns ns')
    (h : ∀ x ∈ ns.zip widths, x.1 < 256 ^ x.2) : ∀ x ∈ ns'.zip widths, x.1 < 256 ^ x.2 := by
  induction hle generalizing widths with
  | nil => exact h
  | cons hn _ ih =>
    cases widths with
    | nil => exact h
    | cons w widths =>
      rw [List.zip_cons_cons, List.forall_mem_cons] at h ⊢
      exact ⟨Nat.lt_of_le_of_lt hn h.1, ih h.2⟩

theorem emit_tracks {op : Opcode} {operands operands' : List Nat} (hcount : operands.length = op.widths.length)
    (h : List.Forall₂ (fun n n' => n' ≤ n) operands operands') :
    Tracks shared SameSize (emit op operands) (emit op operands') := by
  by_cases hfits : Instruction.Fits ⟨op, operands⟩
  · have hfits' : Instruction.Fits ⟨op, operands'⟩ := ⟨h.length_eq.symm.trans hcount, bound_of_le h hfits.bound⟩
    rw [emit_room hfits, emit_room hfits']
    exact .pure rfl
  · obtain ⟨value, width, hfull⟩ := emit_full hcount hfits
    rw [hfull]
    exact .limit trivial

theorem emit_same {op : Opcode} {operands : List Nat} (hcount : operands.length = op.widths.length) :
    Tracks shared SameSize (emit op operands) (emit op operands) :=
  emit_tracks hcount (List.forall₂_refl operands)

/-- A jump to a place that is no further away. -/
theorem emit_target_tracks {op : Opcode} (hop : op.widths.length = 1) {target target' : Nat}
    (h : target' ≤ target) : Tracks shared SameSize (emit op [target]) (emit op [target']) :=
  emit_tracks hop.symm (.cons h .nil)

/-- Flags have one byte, whatever they are. -/
theorem emit_flags_tracks {op : Opcode} (hop : op.widths = [1]) (flags flags' : AccessFlags) :
    Tracks shared SameSize (emit op [flags.toNat]) (emit op [flags'.toNat]) := by
  rw [emit_room (fits_of_flags hop flags), emit_room (fits_of_flags hop flags')]
  exact .pure rfl

theorem constant_tracks (v : Value) : Tracks shared SameSize (constant v p) (constant v p) :=
  (constantIndex_tracks p v).bind fun _ _ h => emit_target_tracks rfl h

theorem reference_tracks (name : String) (flags flags' : AccessFlags) :
    Tracks shared SameSize (reference name flags p) (reference name flags' p) := by
  cases hname : isLocalName name with
  | true =>
    rw [loadLocal_eq flags p hname, loadLocal_eq flags' p hname]
    exact (constantIndex_tracks p _).bind fun _ _ h => emit_target_tracks rfl h
  | false =>
    intro t t' hroom
    by_cases hslot : (t.contextVars.slot name).1 < maxOperand
    · obtain ⟨hroom', hslot'⟩ := hroom.slot hslot
      exact .inr ⟨_, _, _, _, loadVar_room flags p hname hslot, loadVar_room flags' p hname hslot', hroom', rfl⟩
    · have hfull := Nat.le_of_not_lt hslot
      refine .inl ⟨_, loadVar_full flags p hname hfull, ?_⟩
      cases shared with
      | false => exact .inl rfl
      | true => exact .inr (loadVar_full flags' p hname (by rw [hroom.same rfl]; exact hfull))

theorem count_tracks (n : Nat) : Tracks shared (fun m m' => m' = m) (count n p) (count n p) := by
  by_cases hle : n ≤ maxOperand
  · rw [count_room p hle]
    exact .pure rfl
  · rw [count_full p (Nat.lt_of_not_le hle)]
    exact .throw

end Steps

/-! ## Steps that only take room -/

/-- **A step that only takes room**: where there is more of it, nothing has to be done instead. -/
def Takes (shared : Bool) {α : Type} (m : Compile α) : Prop :=
  ∀ (β : Type) (b : β), Tracks shared (fun _ _ => True) m (Pure.pure b)

namespace Takes
variable {α β γ : Type} {m : Compile α} {shared : Bool}

theorem pure (a : α) : Takes shared (Pure.pure a : Compile α) := fun _ _ => .pure trivial

theorem bind {f : α → Compile γ} (h : Takes shared m) (hf : ∀ a, Takes shared (f a)) :
    Takes shared (m >>= f) := by
  intro β b
  have hboth : Tracks shared (fun _ _ => True) (m >>= f) (Pure.pure b >>= fun b => Pure.pure b) :=
    (h β b).bind fun a b _ => hf a β b
  exact hboth

/-- In front of a step it changes nothing else. -/
theorem before {R : γ → β → Prop} {f : α → Compile γ} {m' : Compile β} (h : Takes shared m)
    (hf : ∀ a, Tracks shared R (f a) m') : Tracks shared R (m >>= f) m' := by
  have hboth : Tracks shared R (m >>= f) (Pure.pure () >>= fun _ => m') := (h Unit ()).bind fun a _ _ => hf a
  exact hboth

/-- Nor does it behind one. -/
theorem behind {R : α → β → Prop} {f : α → Compile γ} {m' : Compile β} (h : Tracks shared R m m')
    (hf : ∀ a, Takes shared (f a)) : Tracks shared (fun _ _ => True) (m >>= f) m' := by
  have hboth : Tracks shared (fun _ _ => True) (m >>= f) (m' >>= Pure.pure) := h.bind fun a b _ => hf a β b
  rwa [bind_pure] at hboth

end Takes

section Steps
variable (p : Position) {shared : Bool}

theorem emit_takes {op : Opcode} {operands : List Nat} (hcount : operands.length = op.widths.length) :
    Takes shared (emit op operands) := by
  by_cases hfits : Instruction.Fits ⟨op, operands⟩
  · rw [emit_room hfits]
    exact .pure _
  · obtain ⟨value, width, hfull⟩ := emit_full hcount hfits
    rw [hfull]
    exact fun _ _ => .limit trivial

theorem deeper_takes (depth : Nat) : Takes shared (deeper false depth p) := by
  by_cases hdepth : depth < maxNesting
  · rw [deeper_room p hdepth]
    exact .pure _
  · rw [deeper_full p (Nat.le_of_not_lt hdepth)]
    exact fun _ _ => .limit trivial

theorem constant_takes (v : Value) : Takes shared (constant v p) := by
  refine .bind (fun β b t t' hroom => ?_) fun n => emit_takes rfl
  by_cases hlt : t.constants.size < maxOperand
  · exact .inr ⟨_, _, b, t', constantIndex_room v p hlt, rfl, hroom.grown v, trivial⟩
  · exact .inl ⟨_, constantIndex_full v p (Nat.le_of_not_lt hlt), .inl trivial⟩

end Steps

/-! ## Expressions -/

/-- An expression whose code can be written wherever there is more room. -/
def Eased (e : Expr) : Prop := ∀ {soft depth soft' depth' o o'}, Higher soft depth soft' depth' → o' ≤ o →
  Eases SameSize (code e soft depth o) (code e soft' depth' o')

/-- An expression whose code is written, or fails, wherever there is more room as it does here. -/
def Tracked (shared : Bool) (e : Expr) : Prop :=
  ∀ {soft depth soft' depth' o o'}, Higher soft depth soft' depth' → o' ≤ o →
    Tracks shared SameSize (code e soft depth o) (code e soft' depth' o')

section Nodes
variable {p : Position} {depth depth' o o' : Nat} {shared : Bool} (hdepth : depth' ≤ depth) (ho : o' ≤ o)

theorem Tracked.part {e : Expr} (he : Tracked shared e) (soft : Bool) (hdepth : depth' ≤ depth) (ho : o' ≤ o) :
    Tracks shared SameSize (code e soft depth o) (code e soft depth' o') :=
  he (.inl ⟨rfl, hdepth⟩) ho

include hdepth ho

theorem itemsCode_tracks {items : List Expr} (h : ∀ e ∈ items, Tracked shared e) {done done' : Assembly}
    (hdone : SameSize done done') :
    Tracks shared SameSize (itemsCode items depth o done) (itemsCode items depth' o' done') := by
  induction items generalizing o o' done done' with
  | nil => exact .pure hdone
  | cons e rest ih =>
    obtain ⟨he, hrest⟩ := List.forall_mem_cons.mp h
    exact (he.part false hdepth ho).bind fun a a' ha => ih (ha.behind ho) hrest (hdone.append ha)

theorem entriesCode_tracks {entries : List (String × Expr)} (h : ∀ x ∈ entries, Tracked shared x.2)
    {done done' : Assembly} (hdone : SameSize done done') :
    Tracks shared SameSize (entriesCode p depth o done (entries.map (Prod.map id (code · false))))
      (entriesCode p depth' o' done' (entries.map (Prod.map id (code · false)))) := by
  induction entries generalizing o o' done done' with
  | nil => exact .pure hdone
  | cons x rest ih =>
    obtain ⟨hx, hrest⟩ := List.forall_mem_cons.mp h
    refine (constant_tracks p _).bind fun k k' hk => ?_
    refine (hx.part false hdepth (hk.behind ho)).bind fun a a' ha => ?_
    exact ih (ha.behind (hk.behind ho)) hrest ((hdone.append hk).append ha)

theorem boundCode_tracks {bound : Option Expr} (h : ∀ e ∈ bound, Tracked shared e) :
    Tracks shared SameSize (boundCode bound p depth o) (boundCode bound p depth' o') := by
  cases bound with
  | none => exact constant_tracks p _
  | some e =>
    have he : Tracked shared e := h e rfl
    exact he.part false hdepth ho

end Nodes

/-- **Code is written wherever there is more room** as it is here, in as many bytes, or fails with the same
error. -/
theorem code_tracked (shared : Bool) (e : Expr) : Tracked shared e := by
  induction e using Expr.induction with
  | number p x | string p s style | boolean p b | null p =>
    intro soft depth soft' depth' o o' hplace ho
    exact (deeper_strict p hplace).bind fun _ _ _ => constant_tracks p _
  | reference p name optional =>
    intro soft depth soft' depth' o o' hplace ho
    refine (deeper_tracks p ?_).bind fun _ _ _ => reference_tracks p name _ _
    exact hplace.imp (fun ⟨hsoft, hdepth⟩ => ⟨by rw [hsoft], hdepth⟩)
      fun ⟨hsoft, hdepth⟩ => ⟨by rw [hsoft]; rfl, hdepth⟩
  | unary p op operand ih =>
    intro soft depth soft' depth' o o' hplace ho
    exact (deeper_strict p hplace).bind fun d d' hd => (ih.part false hd ho).bind fun a a' ha =>
      (emit_same (by cases op <;> rfl)).bind fun i i' hi => .pure (ha.append hi)
  | binary p op left right ihl ihr =>
    intro soft depth soft' depth' o o' hplace ho
    refine (deeper_strict p hplace).bind fun d d' hd => ?_
    split
    · rename_i hs
      refine (ihl.part false hd ho).bind fun a a' ha => ?_
      exact (ihr.part false hd (ha.behind ho)).bind fun b b' hb =>
        (emit_same (by rw [widths_strict hs])).bind fun i i' hi => .pure ((ha.append hb).append hi)
    · rename_i hs
      obtain ⟨decisive, rfl, rfl, _⟩ := Expr.plan_shortCircuit hs
      refine (ihl.part false hd ho).bind fun a a' ha => ?_
      have hright := Nat.add_le_add_right (ha.behind ho) jumpSize
      refine (ihr.part false hd hright).bind fun b b' hb => ?_
      refine (emit_same (by cases decisive <;> rfl)).bind fun i i' hi => ?_
      exact (emit_target_tracks (by cases decisive <;> rfl) ((hb.append hi).behind hright)).bind fun j j' hj =>
        .pure ((ha.append hj).append (hb.append hi))
    · refine (ihl.part true hd ho).bind fun a a' ha => ?_
      have hright := Nat.add_le_add_right (ha.behind ho) jumpSize
      refine (ihr.part false hd hright).bind fun b b' hb => ?_
      exact (emit_target_tracks (by rfl) (hb.behind hright)).bind fun j j' hj =>
        .pure ((ha.append hj).append hb)
  | conditional p condition consequent alternate ihc ih₁ ih₂ =>
    intro soft depth soft' depth' o o' hplace ho
    refine (deeper_strict p hplace).bind fun d d' hd => (ihc.part false hd ho).bind fun c c' hc => ?_
    have hfirst := Nat.add_le_add_right (hc.behind ho) jumpSize
    refine (ih₁.part false hd hfirst).bind fun a a' ha => ?_
    have hsecond := Nat.add_le_add_right (ha.behind hfirst) jumpSize
    refine (emit_target_tracks (by rfl) hsecond).bind fun i i' hi => ?_
    refine (ih₂.part false hd hsecond).bind fun b b' hb => ?_
    exact (emit_target_tracks (by rfl) (hb.behind hsecond)).bind fun j j' hj =>
      .pure ((((hc.append hi).append ha).append hj).append hb)
  | array p items ih =>
    intro soft depth soft' depth' o o' hplace ho
    refine (deeper_strict p hplace).bind fun d d' hd => (count_tracks p _).bind fun n n' hn => ?_
    subst hn
    exact (itemsCode_tracks hd ho ih rfl).bind fun a a' ha =>
      (emit_same (by rfl)).bind fun i i' hi => .pure (ha.append hi)
  | object p entries ih =>
    intro soft depth soft' depth' o o' hplace ho
    have hsorted : sortEntries (entryWriters entries) =
        (byName entries).map (Prod.map id (code · false)) := by
      rw [entryWriters_eq_map, ← byName_map]
      rfl
    refine (deeper_strict p hplace).bind fun d d' hd => (count_tracks p _).bind fun n n' hn => ?_
    subst hn
    rw [hsorted]
    exact (entriesCode_tracks hd ho (fun x hx => ih x (mem_byName.mp hx)) rfl).bind fun a a' ha =>
      (emit_same (by rfl)).bind fun i i' hi => .pure (ha.append hi)
  | call p callee arguments _ ih =>
    intro soft depth soft' depth' o o' hplace ho
    refine (deeper_strict p hplace).bind fun d d' hd => ?_
    split
    · exact .throw
    · refine (count_tracks p _).bind fun n n' hn => ?_
      subst hn
      refine (itemsCode_tracks hd ho ih rfl).bind fun a a' ha => (constantIndex_tracks p _).bind fun k k' hk => ?_
      exact (emit_tracks (by rfl) (.cons hk (.cons (Nat.le_refl _) .nil))).bind fun i i' hi => .pure (ha.append hi)
  | member p target property optional ih =>
    intro soft depth soft' depth' o o' hplace ho
    refine (deeper_tracks p hplace).bind fun d d' hd => (ih.part false hd ho).bind fun a a' ha => ?_
    exact (constant_tracks p _).bind fun k k' hk => (emit_flags_tracks rfl _ _).bind fun i i' hi =>
      .pure ((ha.append hk).append hi)
  | index p target key optional iht ihk =>
    intro soft depth soft' depth' o o' hplace ho
    refine (deeper_tracks p hplace).bind fun d d' hd => (iht.part false hd ho).bind fun a a' ha => ?_
    exact (ihk.part false hd (ha.behind ho)).bind fun k k' hk =>
      (emit_flags_tracks rfl _ _).bind fun i i' hi => .pure ((ha.append hk).append hi)
  | slice p target start stop step optional iht ih₁ ih₂ ih₃ =>
    intro soft depth soft' depth' o o' hplace ho
    refine (deeper_strict p hplace).bind fun d d' hd => (iht.part false hd ho).bind fun a a' ha => ?_
    refine (boundCode_tracks hd (ha.behind ho) ih₁).bind fun b b' hb => ?_
    refine (boundCode_tracks hd ((ha.append hb).behind ho) ih₂).bind fun c c' hc => ?_
    refine (boundCode_tracks hd (((ha.append hb).append hc).behind ho) ih₃).bind fun e e' he => ?_
    exact (emit_flags_tracks rfl _ _).bind fun i i' hi =>
      .pure ((((ha.append hb).append hc).append he).append hi)
  | pipe p stages _ =>
    intro soft depth soft' depth' o o' hplace ho
    exact (deeper_strict p hplace).bind fun d d' hd => .throw

/-- **Code that can be written somewhere can be written wherever there is more room**, in as many bytes. -/
theorem code_eased (e : Expr) : Eased e := fun hplace ho => (code_tracked false e hplace ho).eases

end Compile

/-! ## Programs -/

theorem Tables.empty_roomier {t : Tables} (hv : t.contextVars.Valid) (ht : t.Fit) :
    Tables.empty.Roomier t false :=
  ⟨NameTable.empty_valid, hv, Nat.zero_le _, fun _ h => absurd h List.not_mem_nil, ht.2, nofun⟩

theorem Tables.roomier_self {t : Tables} (hv : t.contextVars.Valid) (ht : t.Fit) : t.Roomier t true :=
  ⟨hv, hv, Nat.le_refl _, List.Subset.refl _, ht.2, fun _ => rfl⟩

namespace Expr
variable {e : Expr} {p : Program}

theorem streams_eq (hroot : e.isPipe = false) :
    Compile.streams e = (do return (← Compile.code e false 0 0, #[])) := by
  cases e <;> first | rfl | cases hroot

/-- The program of an expression that is no chain is its code. -/
theorem code_of_compile (hroot : e.isPipe = false) (h : e.compile = .ok p) :
    ∃ a t, Compile.code e false 0 0 .empty = .ok (a, t) ∧ p = programOf a.toList [] t := by
  obtain ⟨main, blocks, t, hs, rfl, _⟩ := Expr.emits_of_compile h
  rw [streams_eq hroot] at hs
  obtain ⟨a, t₁, hcode, hret⟩ := Compile.bind_ok hs
  obtain ⟨heq, rfl⟩ := Compile.pure_ok hret
  obtain ⟨rfl, hblocks⟩ := Prod.mk.inj heq
  have hnil : blocks = [] := List.map_eq_nil_iff.mp (Array.toList_inj.mpr hblocks)
  subst hnil
  exact ⟨main, t, hcode, rfl⟩

theorem compile_of_code_root {a : Assembly} {t : Tables} (hroot : e.isPipe = false)
    (h : Compile.code e false 0 0 .empty = .ok (a, t)) : e.compile = .ok (programOf a.toList [] t) := by
  have hs : (Compile.streams e).run ⟨#[], .empty⟩ = .ok ((a, #[]), t) := by
    rw [streams_eq hroot]
    show (Compile.code e false 0 0 .empty >>= fun y => .ok ((y.1, #[]), y.2)) = _
    rw [h]
    rfl
  unfold Expr.compile
  rw [hs]
  show Except.ok _ = _
  rw [programOf, Assembly.stream_eq]
  rfl

theorem compile_of_code_error {err : CompileError} (hroot : e.isPipe = false)
    (h : Compile.code e false 0 0 .empty = .error err) : e.compile = .error err := by
  have hs : (Compile.streams e).run ⟨#[], .empty⟩ = .error err := by
    rw [streams_eq hroot]
    show (Compile.code e false 0 0 .empty >>= fun y => .ok ((y.1, #[]), y.2)) = _
    rw [h]
    rfl
  unfold Expr.compile
  rw [hs]

/-- An expression that has a program and is no chain. -/
structure Compiles (e : Expr) : Prop where
  root : e.isPipe = false
  program : ∃ p, e.compile = .ok p

/-- **What compiles in some place compiles on its own**, in as many bytes. -/
theorem compile_of_code {soft : Bool} {depth o : Nat} {t u : Tables} {a : Assembly}
    (hplace : Compile.Higher soft depth false 0) (hv : t.contextVars.Valid) (ht : t.Fit)
    (h : Compile.code e soft depth o t = .ok (a, u)) :
    e.Compiles ∧ ∃ q, e.compile = .ok q ∧ q.main.size = rowSize a.toList := by
  have hroot : e.isPipe = false := by
    cases e with
    | pipe p stages =>
      obtain ⟨d, t₁, _, hthrow⟩ := Compile.bind_ok h
      exact (Compile.throw_ok hthrow).elim
    | _ => rfl
  obtain ⟨a', u', hcode, _, hsize⟩ := Compile.code_eased e hplace (Nat.zero_le o) _ _
    (Tables.empty_roomier hv ht) _ _ h
  have hemits := Compile.emits_of_code e hcode
  have hfits : ∀ i ∈ a'.toList, i.Fits := fun i hi => (hemits.plain NameTable.empty_valid i hi).fits
  have hcompile := compile_of_code_root hroot hcode
  refine ⟨⟨hroot, _, hcompile⟩, _, hcompile, ?_⟩
  show (streamOf a'.toList).size = _
  rw [size_streamOf hfits, ← Assembly.size_eq, ← Assembly.size_eq]
  exact hsize

/-- A part one level below a root. -/
theorem compile_of_part {t u : Tables} {o : Nat} {a : Assembly} (hv : t.contextVars.Valid) (ht : t.Fit)
    {soft : Bool} (h : Compile.code e soft 1 o t = .ok (a, u)) :
    e.Compiles ∧ ∃ q, e.compile = .ok q ∧ q.main.size = rowSize a.toList :=
  compile_of_code (.inr ⟨rfl, Nat.one_pos, by decide⟩) hv ht h

section Nodes
variable {pos : Position}

/-- The target of an access compiles on its own. -/
theorem compile_member {target : Expr} {property : Property} {optional : Bool}
    (h : (member pos target property optional).compile = .ok p) : target.Compiles := by
  obtain ⟨a, t, hcode, -⟩ := code_of_compile rfl h
  obtain ⟨d, t₀, hd, h₁⟩ := Compile.bind_ok hcode
  obtain ⟨rfl, rfl⟩ := Compile.pure_ok hd
  obtain ⟨x, t₁, hx, -⟩ := Compile.bind_ok h₁
  exact (compile_of_part NameTable.empty_valid Tables.empty_fit hx).1

theorem compile_index {target key : Expr} {optional : Bool}
    (h : (index pos target key optional).compile = .ok p) : target.Compiles ∧ key.Compiles := by
  obtain ⟨a, t, hcode, -⟩ := code_of_compile rfl h
  obtain ⟨d, t₀, hd, h₁⟩ := Compile.bind_ok hcode
  obtain ⟨rfl, rfl⟩ := Compile.pure_ok hd
  obtain ⟨x, t₁, hx, h₂⟩ := Compile.bind_ok h₁
  obtain ⟨y, t₂, hy, -⟩ := Compile.bind_ok h₂
  have hemits := Compile.emits_of_code target hx
  exact ⟨(compile_of_part NameTable.empty_valid Tables.empty_fit hx).1,
    (compile_of_part (hemits.serves NameTable.empty_valid).2 (hemits.fit Tables.empty_fit) hy).1⟩

/-- The code of a bound: what stands there compiles on its own, and code of any other part may follow. -/
theorem compile_bound {bound : Option Expr} {o : Nat} {t u : Tables} {a : Assembly}
    (hv : t.contextVars.Valid) (ht : t.Fit) (h : Compile.boundCode bound pos 1 o t = .ok (a, u)) :
    (∀ e ∈ bound, e.Compiles) ∧ u.contextVars.Valid ∧ u.Fit := by
  have hemits := Compile.emits_of_boundCode (fun e _ => Compile.emits_of_code e) h
  refine ⟨fun e he => ?_, (hemits.serves hv).2, hemits.fit ht⟩
  obtain rfl := Option.mem_def.mp he
  exact (compile_of_part hv ht h).1

theorem compile_slice {target : Expr} {start stop step : Option Expr} {optional : Bool}
    (h : (slice pos target start stop step optional).compile = .ok p) : target.Compiles ∧
      (∀ e ∈ start, e.Compiles) ∧ (∀ e ∈ stop, e.Compiles) ∧ ∀ e ∈ step, e.Compiles := by
  obtain ⟨a, t, hcode, -⟩ := code_of_compile rfl h
  obtain ⟨d, t₀, hd, h₁⟩ := Compile.bind_ok hcode
  obtain ⟨rfl, rfl⟩ := Compile.pure_ok hd
  obtain ⟨x, t₁, hx, h₂⟩ := Compile.bind_ok h₁
  obtain ⟨a₁, t₂, ha₁, h₃⟩ := Compile.bind_ok h₂
  obtain ⟨a₂, t₃, ha₂, h₄⟩ := Compile.bind_ok h₃
  obtain ⟨a₃, t₄, ha₃, -⟩ := Compile.bind_ok h₄
  have hemits := Compile.emits_of_code target hx
  obtain ⟨hstart, hv₁, ht₁⟩ := compile_bound (hemits.serves NameTable.empty_valid).2
    (hemits.fit Tables.empty_fit) ha₁
  obtain ⟨hstop, hv₂, ht₂⟩ := compile_bound hv₁ ht₁ ha₂
  exact ⟨(compile_of_part NameTable.empty_valid Tables.empty_fit hx).1, hstart, hstop,
    (compile_bound hv₂ ht₂ ha₃).1⟩

/-- **The program of `left ?? right`**: the code of the softened left side, a jump to the end, and the code of
the right side.  Both sides compile on their own, the right one in as many bytes. -/
structure Coalesced (left right : Expr) (p : Program) : Prop where
  left_compiles : left.Compiles
  right_compiles : right.Compiles
  code : ∃ q a b t₁ t₂ target, right.compile = .ok q ∧ q.main.size = rowSize b ∧
    p = programOf (a ++ ⟨.jumpIfNotNull, [target]⟩ :: b) [] t₂ ∧
    Emits .empty 0 [left.plan true] a t₁ ∧ Emits t₁ (rowSize a + Compile.jumpSize) [right.plan false] b t₂ ∧
    target = rowSize a + Compile.jumpSize + rowSize b ∧ target ≤ maxOperand

theorem compile_coalesce {left right : Expr} (h : (binary pos .nullCoalesce left right).compile = .ok p) :
    Coalesced left right p := by
  obtain ⟨main, t, hcode, rfl⟩ := code_of_compile rfl h
  obtain ⟨d, t₀, hd, h₁⟩ := Compile.bind_ok hcode
  obtain ⟨rfl, rfl⟩ := Compile.pure_ok hd
  obtain ⟨x, t₁, hx, h₂⟩ := Compile.bind_ok h₁
  obtain ⟨y, t₂, hy, h₃⟩ := Compile.bind_ok h₂
  obtain ⟨j, t₃, hj, h₄⟩ := Compile.bind_ok h₃
  obtain ⟨hmax, rfl, rfl⟩ := Compile.emit_target rfl hj
  obtain ⟨rfl, rfl⟩ := Compile.pure_ok h₄
  have hleft := Compile.emits_of_code left hx
  have hright := Compile.emits_of_code right hy
  obtain ⟨hcompiles, -⟩ := compile_of_part NameTable.empty_valid Tables.empty_fit hx
  obtain ⟨hcompiles', q, hq, hsize⟩ := compile_of_part (hleft.serves NameTable.empty_valid).2
    (hleft.fit Tables.empty_fit) hy
  rw [Assembly.size_eq, Nat.zero_add] at hright
  refine ⟨hcompiles, hcompiles', q, x.toList, y.toList, t₁, t, 0 + x.size + Compile.jumpSize + y.size, hq,
    hsize, ?_, hleft, hright, ?_, hmax⟩
  · simp only [Array.toList_append, List.append_assoc, List.singleton_append]
  · rw [Assembly.size_eq, Assembly.size_eq, Nat.zero_add]

end Nodes

end Expr

end PipeExpr
