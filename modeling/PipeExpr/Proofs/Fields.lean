import PipeExpr.Fields
import Mathlib.Data.List.Basic

/-!
# Laws of ordered maps

What the operations on entries do to the values of names.  Entries are looked up from the front, and
`ofList` lets the last value of a name count, so `(ofList entries).get?` looks entries up from the back
(`get?_ofList`).
-/

namespace PipeExpr

namespace Fields

variable {α β : Type}

/-! ## Values of names -/

theorem get?_cons (x : String × α) (rest : Fields α) (name : String) :
    get? (x :: rest) name = if x.1 = name then some x.2 else get? rest name := rfl

theorem get?_map (f : α → β) (fields : Fields α) (name : String) :
    get? (fields.map (Prod.map id f)) name = (fields.get? name).map f := by
  induction fields with
  | nil => rfl
  | cons x rest ih =>
    rw [List.map_cons, get?_cons, get?_cons, ih]
    by_cases h : x.1 = name
    · simp [h]
    · simp [h]

theorem get?_append (fields fields' : Fields α) (name : String) :
    get? (fields ++ fields') name = (fields.get? name).or (get? fields' name) := by
  induction fields with
  | nil => rfl
  | cons x rest ih =>
    rw [List.cons_append, get?_cons, get?_cons, ih]
    split <;> rfl

theorem get?_insert (fields : Fields α) (name x : String) (v : α) :
    (fields.insert name v).get? x = if name = x then some v else fields.get? x := by
  induction fields with
  | nil => rfl
  | cons y rest ih =>
    obtain ⟨key, old⟩ := y
    rw [Fields.insert]
    by_cases hkey : key = name
    · subst hkey
      rw [if_pos rfl, get?_cons, get?_cons]
      split <;> rfl
    · rw [if_neg hkey, get?_cons, get?_cons, ih]
      by_cases hx : key = x
      · have hne : ¬ name = x := fun h => hkey (hx.trans h.symm)
        rw [if_pos hx, if_pos hx, if_neg hne]
      · rw [if_neg hx, if_neg hx]

theorem get?_eq_none {fields : Fields α} {name : String} (h : name ∉ fields.map Prod.fst) :
    fields.get? name = none := by
  induction fields with
  | nil => rfl
  | cons x rest ih =>
    obtain ⟨hx, hrest⟩ := not_or.mp (mt List.mem_cons.mpr h)
    rw [get?_cons, if_neg (Ne.symm hx), ih hrest]

/-- Of distinct names it does not matter which end they are looked up from. -/
theorem get?_reverse {fields : Fields α} (h : (fields.map Prod.fst).Nodup) (name : String) :
    get? fields.reverse name = fields.get? name := by
  induction fields with
  | nil => rfl
  | cons x rest ih =>
    obtain ⟨hx, hrest⟩ := List.nodup_cons.mp h
    rw [List.reverse_cons, get?_append, ih hrest, get?_cons, get?_cons]
    by_cases hname : x.1 = name
    · rw [if_pos hname, get?_eq_none (hname ▸ hx), Option.none_or, if_pos hname]
    · rw [if_neg hname, if_neg hname]
      exact Option.or_none

theorem get?_foldl_insert (entries fields : Fields α) (name : String) :
    get? (entries.foldl (fun fields (key, v) => fields.insert key v) fields) name =
      (get? entries.reverse name).or (fields.get? name) := by
  induction entries generalizing fields with
  | nil => rfl
  | cons x rest ih =>
    rw [List.foldl_cons, ih, List.reverse_cons, get?_append, Option.or_assoc]
    congr 1
    show (fields.insert x.1 x.2).get? name = _
    rw [get?_insert, get?_cons]
    split <;> rfl

theorem mem_of_get? {fields : Fields α} {name : String} {v : α}
    (h : fields.get? name = some v) : (name, v) ∈ fields := by
  induction fields with
  | nil => cases h
  | cons x rest ih =>
    obtain ⟨key, w⟩ := x
    rw [get?] at h
    by_cases hkey : key = name
    · rw [if_pos hkey] at h
      obtain rfl := Option.some.inj h
      exact hkey ▸ List.mem_cons_self ..
    · rw [if_neg hkey] at h
      exact List.mem_cons_of_mem _ (ih h)

theorem insert_append_of_notMem {fields : Fields α} {name : String} (h : name ∉ fields.map Prod.fst)
    (rest : Fields α) (v : α) :
    insert (fields ++ rest) name v = fields ++ insert rest name v := by
  induction fields with
  | nil => rfl
  | cons x fields ih =>
    obtain ⟨hx, hfields⟩ := not_or.mp (mt List.mem_cons.mpr h)
    rw [List.cons_append, insert, if_neg (Ne.symm hx), ih hfields]
    rfl

/-! ## Distinct names -/

theorem ascending_pairwise : ∀ {names : List String}, ascending names = true →
    names.Pairwise (· < ·)
  | [], _ => .nil
  | [_], _ => List.pairwise_singleton ..
  | a :: b :: rest, h => by
    rw [ascending, Bool.and_eq_true, decide_eq_true_iff] at h
    obtain ⟨hab, hrest⟩ := h
    have ih := ascending_pairwise hrest
    refine List.pairwise_cons.mpr ⟨List.forall_mem_cons.mpr ⟨hab, fun x hx => ?_⟩, ih⟩
    exact String.lt_trans hab (List.rel_of_pairwise_cons ih hx)

/-- Names that are distinct do not come up twice. -/
theorem nodup_of_distinct {names : List String} (h : distinct names = true) :
    names.Nodup := by
  have hsorted := ascending_pairwise h
  refine (List.mergeSort_perm names _).nodup_iff.mp (hsorted.imp fun hlt heq => ?_)
  exact String.lt_irrefl _ (heq ▸ hlt)

theorem names_insert (fields : Fields α) (name : String) (v : α) : (fields.insert name v).map Prod.fst =
    if name ∈ fields.map Prod.fst then fields.map Prod.fst else fields.map Prod.fst ++ [name] := by
  induction fields with
  | nil => rfl
  | cons x rest ih =>
    obtain ⟨key, old⟩ := x
    rw [insert]
    by_cases hkey : key = name
    · subst hkey
      rw [if_pos rfl, List.map_cons, List.map_cons, if_pos List.mem_cons_self]
    · rw [if_neg hkey, List.map_cons, ih, List.map_cons]
      by_cases hname : name ∈ rest.map Prod.fst
      · rw [if_pos hname, if_pos (List.mem_cons_of_mem _ hname)]
      · rw [if_neg hname, if_neg (List.not_mem_cons_of_ne_of_not_mem (Ne.symm hkey) hname)]
        rfl

theorem nodup_insert {fields : Fields α} (h : (fields.map Prod.fst).Nodup) (name : String) (v : α) :
    ((fields.insert name v).map Prod.fst).Nodup := by
  rw [names_insert]
  split
  · exact h
  · rename_i hname
    refine List.nodup_append.mpr ⟨h, List.nodup_cons.mpr ⟨List.not_mem_nil, List.nodup_nil⟩, ?_⟩
    rintro x hx y hy rfl
    exact hname (List.mem_singleton.mp hy ▸ hx)

theorem mem_insert {fields : Fields α} {name : String} {v : α} {x : String × α}
    (h : x ∈ fields.insert name v) : x = (name, v) ∨ x ∈ fields := by
  induction fields with
  | nil => exact .inl (List.mem_singleton.mp h)
  | cons y rest ih =>
    obtain ⟨key, old⟩ := y
    rw [insert] at h
    split at h
    · rename_i hkey
      exact (List.mem_cons.mp h).imp (fun hx => hkey ▸ hx) (List.mem_cons_of_mem _)
    · rcases List.mem_cons.mp h with rfl | hx
      · exact .inr List.mem_cons_self
      · exact (ih hx).imp_right (List.mem_cons_of_mem _)

/-- **The map of a list of entries has each name once**, and no entries but theirs. -/
theorem ofList_spec (entries : List (String × α)) :
    ((ofList entries).map Prod.fst).Nodup ∧ ∀ x ∈ ofList entries, x ∈ entries := by
  have hfold : ∀ (entries : List (String × α)) (fields : Fields α), (fields.map Prod.fst).Nodup →
      ((entries.foldl (fun fields (key, v) => fields.insert key v) fields).map Prod.fst).Nodup ∧
        ∀ x ∈ entries.foldl (fun fields (key, v) => fields.insert key v) fields, x ∈ entries ∨ x ∈ fields := by
    intro entries
    induction entries with
    | nil => exact fun fields h => ⟨h, fun x hx => .inr hx⟩
    | cons e rest ih =>
      intro fields h
      obtain ⟨hnodup, hmem⟩ := ih _ (nodup_insert h e.1 e.2)
      refine ⟨hnodup, fun x hx => ?_⟩
      rcases hmem x hx with hrest | hinsert
      · exact .inl (List.mem_cons_of_mem _ hrest)
      · rcases mem_insert hinsert with rfl | hx
        · exact .inl List.mem_cons_self
        · exact .inr hx
  unfold ofList
  split
  · exact ⟨nodup_of_distinct ‹_›, fun _ hx => hx⟩
  · obtain ⟨hnodup, hmem⟩ := hfold entries [] List.nodup_nil
    exact ⟨hnodup, fun x hx => (hmem x hx).resolve_right List.not_mem_nil⟩

/-- The map of a list of entries gives each name its last value. -/
theorem get?_ofList (entries : List (String × α)) (name : String) :
    (ofList entries).get? name = get? entries.reverse name := by
  unfold ofList
  split
  · exact (get?_reverse (nodup_of_distinct ‹_›) name).symm
  · rw [get?_foldl_insert]
    exact Option.or_none

end Fields

end PipeExpr
