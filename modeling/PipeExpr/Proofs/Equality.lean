import Mathlib
import PipeExpr.Proofs.Fields
import PipeExpr.Proofs.SortOrder

/-!
# Equality of values

Equality looks at numbers as doubles, so NaN equals nothing, and at objects as sets of entries.  It is
transitive whatever the values are (`equal_trans`).  It is symmetric as long as no object has a name
twice (`equal_symm`): the entries of one object are looked up in the other, and only if the names are
distinct does the same number of entries mean that none of the other is left over.
-/

namespace PipeExpr

namespace Fields

variable {α : Type}

theorem get?_of_mem {fields : Fields α} {name : String} {v : α} (hnodup : (fields.map Prod.fst).Nodup)
    (h : (name, v) ∈ fields) : fields.get? name = some v := by
  induction fields with
  | nil => cases h
  | cons x rest ih =>
    obtain ⟨hx, hrest⟩ := List.nodup_cons.mp hnodup
    rw [get?_cons]
    rcases List.mem_cons.mp h with rfl | hmem
    · exact if_pos rfl
    · have hne : x.1 ≠ name := fun hname => hx (hname ▸ List.mem_map_of_mem hmem)
      rw [if_neg hne, ih hrest hmem]

/-- The order of entries with distinct names does not matter for what is looked up. -/
theorem get?_perm {fields fields' : Fields α} (hnodup : (fields.map Prod.fst).Nodup) (h : fields.Perm fields')
    (name : String) : fields.get? name = fields'.get? name := by
  have hnodup' : (fields'.map Prod.fst).Nodup := (h.map Prod.fst).nodup_iff.mp hnodup
  cases hget : fields'.get? name with
  | some v => exact get?_of_mem hnodup (h.mem_iff.mpr (mem_of_get? hget))
  | none =>
    cases hget' : fields.get? name with
    | none => rfl
    | some v =>
      rw [get?_of_mem hnodup' (h.mem_iff.mp (mem_of_get? hget'))] at hget
      cases hget

end Fields

namespace Value

/-- Induction over values, with the hypothesis for every item and every entry. -/
theorem induction {P : Value → Prop} (null : P .null) (boolean : ∀ b, P (.boolean b))
    (number : ∀ x, P (.number x)) (string : ∀ s, P (.string s))
    (array : ∀ items, (∀ v ∈ items, P v) → P (.array items))
    (object : ∀ fields, (∀ x ∈ fields, P x.2) → P (.object fields)) : ∀ v, P v := by
  intro v
  refine @Value.rec P (fun items => ∀ v ∈ items, P v) (fun fields => ∀ x ∈ fields, P x.2) (fun x => P x.2)
    null boolean number string array object ?_ ?_ ?_ ?_ ?_ v
  · exact fun _ h => nomatch h
  · exact fun _ _ hd ht => List.forall_mem_cons.mpr ⟨hd, ht⟩
  · exact fun _ h => nomatch h
  · exact fun _ _ hd ht => List.forall_mem_cons.mpr ⟨hd, ht⟩
  · exact fun _ _ h => h

/-- Whether every object in a value has each name once, as all that are built of entries do.  Evaluation gives no
other values (`evaluate_wellFormed`). -/
inductive WellFormed : Value → Prop where
  | null : WellFormed .null
  | boolean (b : Bool) : WellFormed (.boolean b)
  | number (x : Float) : WellFormed (.number x)
  | string (s : String) : WellFormed (.string s)
  | array {items : List Value} (h : ∀ v ∈ items, WellFormed v) : WellFormed (.array items)
  | object {fields : List (String × Value)} (hnames : (fields.map Prod.fst).Nodup)
    (h : ∀ x ∈ fields, WellFormed x.2) : WellFormed (.object fields)

/-- **Objects that are built of entries are well-formed**, also if a name comes up twice among them. -/
theorem WellFormed.ofList {entries : List (String × Value)} (h : ∀ e ∈ entries, e.2.WellFormed) :
    (Value.object (Fields.ofList entries)).WellFormed := by
  obtain ⟨hnames, hentries⟩ := Fields.ofList_spec entries
  exact .object hnames fun e he => h e (hentries e he)

/-! ## Rows of items and of entries -/

theorem equalItems_iff {xs ys : List Value} :
    equalItems xs ys = true ↔ List.Forall₂ (fun x y => equal x y = true) xs ys := by
  induction xs generalizing ys with
  | nil =>
    cases ys with
    | nil => exact iff_of_true (by rw [equalItems]) .nil
    | cons y ys => exact iff_of_false (by simp [equalItems]) (fun h => nomatch h)
  | cons x xs ih =>
    cases ys with
    | nil => exact iff_of_false (by simp [equalItems]) (fun h => nomatch h)
    | cons y ys => rw [equalItems, Bool.and_eq_true, List.forall₂_cons, ih]

theorem equalFields_iff {fs gs : Fields Value} : equalFields fs gs = true ↔
    ∀ x ∈ fs, ∃ w, gs.get? x.1 = some w ∧ equal x.2 w = true := by
  induction fs with
  | nil => simp [equalFields]
  | cons x fs ih =>
    obtain ⟨name, v⟩ := x
    rw [equalFields, Bool.and_eq_true, ih, List.forall_mem_cons]
    refine and_congr_left fun _ => ?_
    cases gs.get? name with
    | none => simp
    | some w => simp

theorem equal_object_iff {fs gs : Fields Value} : equal (.object fs) (.object gs) = true ↔
    fs.length = gs.length ∧ ∀ x ∈ fs, ∃ w, gs.get? x.1 = some w ∧ equal x.2 w = true := by
  rw [equal, Bool.and_eq_true, beq_iff_eq, equalFields_iff]

theorem equal_array_iff {xs ys : List Value} : equal (.array xs) (.array ys) = true ↔
    List.Forall₂ (fun x y => equal x y = true) xs ys := by
  rw [equal, equalItems_iff]

/-! ## Laws -/

/-- **Equality is transitive.** -/
theorem equal_trans {u v w : Value} (huv : equal u v = true) (hvw : equal v w = true) : equal u w = true := by
  induction u using Value.induction generalizing v w with
  | null =>
    cases v with
    | null => exact hvw
    | _ => simp [equal] at huv
  | boolean b =>
    cases v with
    | boolean c =>
      rw [equal, beq_iff_eq] at huv
      exact huv ▸ hvw
    | _ => simp [equal] at huv
  | number x =>
    cases v with
    | number y =>
      cases w with
      | number z =>
        rw [equal, Double.beq_iff] at huv hvw ⊢
        exact ⟨huv.1, hvw.2.1, huv.2.2.trans hvw.2.2⟩
      | _ => simp [equal] at hvw
    | _ => simp [equal] at huv
  | string s =>
    cases v with
    | string t =>
      rw [equal, beq_iff_eq] at huv
      exact huv ▸ hvw
    | _ => simp [equal] at huv
  | array xs ih =>
    cases v with
    | array ys =>
      cases w with
      | array zs =>
        rw [equal_array_iff] at huv hvw ⊢
        induction huv generalizing zs with
        | nil => exact hvw
        | cons hxy _ ihrest =>
          obtain ⟨z, zs, hyz, hrest, rfl⟩ := List.forall₂_cons_left_iff.mp hvw
          obtain ⟨ihx, ihxs⟩ := List.forall_mem_cons.mp ih
          exact .cons (ihx hxy hyz) (ihrest ihxs zs hrest)
      | _ => simp [equal] at hvw
    | _ => simp [equal] at huv
  | object fs ih =>
    cases v with
    | object gs =>
      cases w with
      | object hs =>
        rw [equal_object_iff] at huv hvw ⊢
        refine ⟨huv.1.trans hvw.1, fun x hx => ?_⟩
        obtain ⟨y, hy, hxy⟩ := huv.2 x hx
        obtain ⟨z, hz, hyz⟩ := hvw.2 _ (Fields.mem_of_get? hy)
        exact ⟨z, hz, ih x hx hxy hyz⟩
      | _ => simp [equal] at hvw
    | _ => simp [equal] at huv

/-- The names of equal objects are the same, in whatever order. -/
theorem names_perm {fs gs : Fields Value} (hnames : (fs.map Prod.fst).Nodup)
    (h : equal (.object fs) (.object gs) = true) : (fs.map Prod.fst).Perm (gs.map Prod.fst) := by
  obtain ⟨hlength, hentries⟩ := equal_object_iff.1 h
  refine (List.subperm_of_subset hnames ?_).perm_of_length_le ?_
  · intro name hname
    obtain ⟨x, hx, rfl⟩ := List.mem_map.mp hname
    obtain ⟨w, hw, _⟩ := hentries x hx
    exact List.mem_map.mpr ⟨_, Fields.mem_of_get? hw, rfl⟩
  · rw [List.length_map, List.length_map, hlength]

/-- **Equality is symmetric**, as long as no object has a name twice. -/
theorem equal_symm {u v : Value} (hu : u.WellFormed) (h : equal u v = true) : equal v u = true := by
  induction u using Value.induction generalizing v with
  | null =>
    cases v with
    | null => exact h
    | _ => simp [equal] at h
  | boolean b =>
    cases v with
    | boolean c =>
      rw [equal, beq_iff_eq] at h ⊢
      exact h.symm
    | _ => simp [equal] at h
  | number x =>
    cases v with
    | number y =>
      rw [equal, Double.beq_iff] at h ⊢
      exact ⟨h.2.1, h.1, h.2.2.symm⟩
    | _ => simp [equal] at h
  | string s =>
    cases v with
    | string t =>
      rw [equal, beq_iff_eq] at h ⊢
      exact h.symm
    | _ => simp [equal] at h
  | array xs ih =>
    cases v with
    | array ys =>
      cases hu with
      | array hitems =>
        rw [equal_array_iff] at h ⊢
        refine (List.Forall₂.flip ?_)
        exact List.forall₂_iff_zip.mpr ⟨h.length_eq, fun {x y} hxy =>
          ih x (List.of_mem_zip hxy).1 (hitems x (List.of_mem_zip hxy).1) ((List.forall₂_iff_zip.mp h).2 hxy)⟩
    | _ => simp [equal] at h
  | object fs ih =>
    cases v with
    | object gs =>
      cases hu with
      | object hnames hvalues =>
        have hperm := names_perm hnames h
        obtain ⟨hlength, hentries⟩ := equal_object_iff.1 h
        refine equal_object_iff.2 ⟨hlength.symm, fun y hy => ?_⟩
        obtain ⟨x, hx, hname⟩ := List.mem_map.mp (hperm.mem_iff.mpr (List.mem_map_of_mem hy))
        obtain ⟨w, hw, hxw⟩ := hentries x hx
        -- the names of the other object are distinct too, so what is found there is the entry at hand
        have hget : Fields.get? gs y.1 = some y.2 := Fields.get?_of_mem (hperm.nodup_iff.mp hnames) hy
        rw [hname, hget] at hw
        obtain rfl := Option.some.inj hw
        exact ⟨x.2, Fields.get?_of_mem hnames (hname ▸ hx), ih x hx (hvalues x hx) hxw⟩
    | _ => simp [equal] at h

/-- NaN equals nothing. -/
theorem equal_of_isNaN {x : Float} (h : x.isNaN = true) (v : Value) :
    equal (.number x) v = false ∧ equal v (.number x) = false := by
  cases v with
  | number y =>
    have hne : ∀ {a b : Float}, a.isNaN = true ∨ b.isNaN = true → (a == b) = false := by
      intro a b hnan
      refine Bool.eq_false_of_not_eq_true fun hab => ?_
      obtain ⟨ha, hb, _⟩ := Double.beq_iff.1 hab
      rw [ha, hb] at hnan
      rcases hnan with hnan | hnan <;> cases hnan
    rw [equal, equal]
    exact ⟨hne (.inl h), hne (.inr h)⟩
  | _ => exact ⟨by simp [equal], by simp [equal]⟩

/-- The order of entries makes no difference to equality. -/
theorem equal_perm {fs gs : Fields Value} (hnames : (fs.map Prod.fst).Nodup) (h : fs.Perm gs) (v : Value) :
    equal (.object fs) v = equal (.object gs) v ∧ equal v (.object fs) = equal v (.object gs) := by
  cases v with
  | object hs =>
    constructor
    · rw [Bool.eq_iff_iff, equal_object_iff, equal_object_iff, h.length_eq]
      exact and_congr_right fun _ => forall_congr' fun x => imp_congr_left h.mem_iff
    · rw [Bool.eq_iff_iff, equal_object_iff, equal_object_iff, h.length_eq]
      refine and_congr_right fun _ => forall₂_congr fun x _ => ?_
      rw [Fields.get?_perm hnames h]
  | _ => exact ⟨by simp [equal], by simp [equal]⟩

end Value

end PipeExpr
