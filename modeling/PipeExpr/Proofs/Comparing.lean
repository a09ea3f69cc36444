import Mathlib
import PipeExpr.Machine.Operator
import PipeExpr.Proofs.Documents

/-!
# Comparing values for equality

What values are equal to is told from what is in them.  A value is equal to itself just if no number in it
is NaN (`equal_self_iff`), and objects are equal just if they have the same names and equal values under
each (`equal_object_iff_get?`).  The machine adds one condition: it compares two values only if one of them
is null or both are of one family, and then says what equality says (`Operator.equality_outcome`).  Together
with transitivity and symmetry this makes **equality a partial equivalence that the operators `==` and `!=`
agree with** (`Operator.equality_laws`).
-/

namespace PipeExpr

namespace Fields

variable {α : Type}

theorem has_iff_mem {fields : Fields α} {name : String} :
    fields.has name = true ↔ name ∈ fields.map Prod.fst := by
  induction fields with
  | nil => exact iff_of_false Bool.false_ne_true List.not_mem_nil
  | cons x rest ih =>
    rw [List.map_cons, List.mem_cons, ← ih, has, has, get?_cons]
    by_cases hname : x.1 = name
    · rw [if_pos hname]
      exact iff_of_true rfl (.inl hname.symm)
    · rw [if_neg hname]
      exact (or_iff_right fun h => hname h.symm).symm

end Fields

namespace Value

/-- Equality is a symmetric function of values whose objects have each name once. -/
theorem equal_comm {u v : Value} (hu : u.WellFormed) (hv : v.WellFormed) : equal u v = equal v u :=
  Bool.eq_iff_iff.mpr ⟨equal_symm hu, equal_symm hv⟩

/-- **A value is equal to itself just if there is no NaN in it**, at whatever depth. -/
theorem equal_self_iff {v : Value} (hv : v.WellFormed) :
    equal v v = true ↔ ∀ x, v.HasNumber x → x.isNaN = false := by
  induction v using Value.induction with
  | null => exact iff_of_true (by rw [equal]) (by rintro _ ⟨⟩)
  | boolean b => exact iff_of_true (by rw [equal, beq_self_eq_true]) (by rintro _ ⟨⟩)
  | string s => exact iff_of_true (by rw [equal, beq_self_eq_true]) (by rintro _ ⟨⟩)
  | number x =>
    rw [equal, Double.beq_iff]
    refine ⟨fun h y hy => ?_, fun h => ⟨h x .number, h x .number, rfl⟩⟩
    cases hy
    exact h.1
  | array items ih =>
    cases hv with
    | array hitems =>
      have hself := equal_array_map_iff id items
      rw [List.map_id] at hself
      rw [hself, forall_hasNumber_array]
      exact forall₂_congr fun v hmem => ih v hmem (hitems v hmem)
  | object fields ih =>
    cases hv with
    | object hnames hvalues =>
      have hself := equal_object_map_iff id hnames
      rw [Prod.map_id, List.map_id] at hself
      rw [hself, forall_hasNumber_object]
      exact forall₂_congr fun e hmem => ih e hmem (hvalues e hmem)

/-- **Objects are equal just if they have the same names and equal values under each.** -/
theorem equal_object_iff_get? {fs gs : Fields Value} (hfs : (fs.map Prod.fst).Nodup)
    (hgs : (gs.map Prod.fst).Nodup) :
    equal (.object fs) (.object gs) = true ↔
      (∀ name, fs.has name = gs.has name) ∧
        ∀ name v w, fs.get? name = some v → gs.get? name = some w → equal v w = true := by
  have hsame : (∀ name, fs.has name = gs.has name) ↔ (fs.map Prod.fst).Perm (gs.map Prod.fst) := by
    rw [List.perm_ext_iff_of_nodup hfs hgs]
    exact forall_congr' fun name => by rw [Bool.eq_iff_iff, Fields.has_iff_mem, Fields.has_iff_mem]
  rw [hsame]
  constructor
  · intro h
    refine ⟨names_perm hfs h, fun name v w hv hw => ?_⟩
    obtain ⟨w', hw', hequal⟩ := (equal_object_iff.1 h).2 _ (Fields.mem_of_get? hv)
    exact Option.some.inj (hw.symm.trans hw') ▸ hequal
  · rintro ⟨hperm, hvalues⟩
    refine equal_object_iff.2 ⟨?_, fun e hmem => ?_⟩
    · rw [← List.length_map, hperm.length_eq, List.length_map]
    · obtain ⟨w, hw⟩ := Option.isSome_iff_exists.mp
        (Fields.has_iff_mem.mpr (hperm.mem_iff.mp (List.mem_map_of_mem hmem)))
      exact ⟨w, hw, hvalues e.1 e.2 w (Fields.get?_of_mem hfs hmem) hw⟩

/-- The order of the entries makes no difference, on either side. -/
theorem equal_object_perm {fs fs' gs gs' : Fields Value} (hfs : (fs.map Prod.fst).Nodup)
    (hgs : (gs.map Prod.fst).Nodup) (hf : fs.Perm fs') (hg : gs.Perm gs') :
    equal (.object fs) (.object gs) = equal (.object fs') (.object gs') :=
  (equal_perm hfs hf _).1.trans (equal_perm hgs hg _).2

theorem isNull_iff {v : Value} : v.isNull = true ↔ v.kind = .null := by
  cases v <;> simp [isNull, kind]

/-- Null is equal to null only. -/
theorem equal_of_isNull {u v : Value} (h : u.isNull || v.isNull) : equal u v = (u.isNull && v.isNull) := by
  cases u <;> cases v <;> simp_all [isNull, equal]

end Value

namespace Operator

open Value

/-- Values that are compared for equality: one of them is null, or they are of one family. -/
def Comparable (u v : Value) : Prop := u.kind = .null ∨ v.kind = .null ∨ u.kind = v.kind

theorem Comparable.symm {u v : Value} : Comparable u v → Comparable v u
  | .inl h => .inr (.inl h)
  | .inr (.inl h) => .inl h
  | .inr (.inr h) => .inr (.inr h.symm)

theorem equals_of_comparable (op : Opcode) {u v : Value} (h : Comparable u v) :
    equals op u v = .ok (u.equal v) := by
  unfold equals
  by_cases hnull : (u.isNull || v.isNull) = true
  · rw [if_pos hnull, equal_of_isNull hnull]
  · have hkind : u.kind = v.kind := by
      rw [Bool.or_eq_true, isNull_iff, isNull_iff, not_or] at hnull
      exact (h.resolve_left hnull.1).resolve_left hnull.2
    rw [if_neg hnull, if_pos hkind]

theorem equals_of_not_comparable (op : Opcode) {u v : Value} (h : ¬ Comparable u v) :
    equals op u v = .error (.typeMismatch op u.kind v.kind) := by
  obtain ⟨hu, hv, hkind⟩ : u.kind ≠ .null ∧ v.kind ≠ .null ∧ u.kind ≠ v.kind :=
    ⟨fun hu => h (.inl hu), fun hv => h (.inr (.inl hv)), fun hkind => h (.inr (.inr hkind))⟩
  have hnull : ¬ (u.isNull || v.isNull) = true := by
    rw [Bool.or_eq_true, isNull_iff, isNull_iff, not_or]
    exact ⟨hu, hv⟩
  rw [equals, if_neg hnull, if_neg hkind, mismatch]

/-- **What `==` and `!=` give**: equality and its opposite on values that are compared, else the same
error, each with its own operator. -/
theorem equality_outcome (u v : Value) :
    Comparable u v ∧ compare .equal u v = .ok (u.equal v) ∧ compare .notEqual u v = .ok (!u.equal v) ∨
      ¬ Comparable u v ∧ compare .equal u v = .error (.typeMismatch .equal u.kind v.kind) ∧
        compare .notEqual u v = .error (.typeMismatch .notEqual u.kind v.kind) := by
  by_cases h : Comparable u v
  · refine .inl ⟨h, equals_of_comparable _ h, ?_⟩
    rw [compare, equals_of_comparable _ h]
    rfl
  · refine .inr ⟨h, equals_of_not_comparable _ h, ?_⟩
    rw [compare, equals_of_not_comparable _ h]
    rfl

/-- **Equality is a partial equivalence, and the operators agree with it.**  It is symmetric and transitive,
a value is equal to itself just if there is no NaN in it, and objects are equal just if they have the same
names and equal values under each, in whatever order.  `==` and `!=` give opposite answers or fail alike;
`==` answers what equality does, gives the same with its operands swapped, but for the order of the families
in its error; and both fail just on values of two families of which neither is null. -/
theorem equality_laws :
    (∀ u v : Value, u.WellFormed → v.WellFormed → equal u v = equal v u) ∧
    (∀ u v w : Value, equal u v = true → equal v w = true → equal u w = true) ∧
    (∀ v : Value, v.WellFormed → (equal v v = true ↔ ∀ x, v.HasNumber x → x.isNaN = false)) ∧
    (∀ fs gs : Fields Value, (object fs).WellFormed → (object gs).WellFormed →
      (equal (.object fs) (.object gs) = true ↔
        (∀ name, fs.has name = gs.has name) ∧
          ∀ name v w, fs.get? name = some v → gs.get? name = some w → equal v w = true) ∧
      ∀ fs' gs' : Fields Value, fs.Perm fs' → gs.Perm gs' →
        equal (.object fs) (.object gs) = equal (.object fs') (.object gs')) ∧
    (∀ u v : Value,
      (∃ b, compare .equal u v = .ok b ∧ compare .notEqual u v = .ok (!b) ∧ b = equal u v) ∨
        compare .equal u v = .error (.typeMismatch .equal u.kind v.kind) ∧
          compare .notEqual u v = .error (.typeMismatch .notEqual u.kind v.kind)) ∧
    (∀ u v : Value, u.WellFormed → v.WellFormed →
      (∃ b, compare .equal u v = .ok b ∧ compare .equal v u = .ok b) ∨
        compare .equal u v = .error (.typeMismatch .equal u.kind v.kind) ∧
          compare .equal v u = .error (.typeMismatch .equal v.kind u.kind)) ∧
    ∀ u v : Value, ∀ op ∈ [Opcode.equal, Opcode.notEqual],
      (∃ e, compare op u v = .error e) ↔ u.kind ≠ v.kind ∧ u.kind ≠ .null ∧ v.kind ≠ .null := by
  refine ⟨fun u v => equal_comm, fun u v w => equal_trans, fun v => equal_self_iff, ?_, ?_, ?_, ?_⟩
  · intro fs gs hfs hgs
    cases hfs with
    | object hfs =>
      cases hgs with
      | object hgs => exact ⟨equal_object_iff_get? hfs hgs, fun fs' gs' => equal_object_perm hfs hgs⟩
  · intro u v
    obtain ⟨-, heq, hne⟩ | ⟨-, heq, hne⟩ := equality_outcome u v
    · exact .inl ⟨_, heq, hne, rfl⟩
    · exact .inr ⟨heq, hne⟩
  · intro u v hu hv
    obtain ⟨h, heq, -⟩ | ⟨h, heq, -⟩ := equality_outcome u v
    · obtain ⟨-, heq', -⟩ | ⟨h', -⟩ := equality_outcome v u
      · exact .inl ⟨_, heq, equal_comm hu hv ▸ heq'⟩
      · exact absurd h.symm h'
    · obtain ⟨h', -⟩ | ⟨-, heq', -⟩ := equality_outcome v u
      · exact absurd h'.symm h
      · exact .inr ⟨heq, heq'⟩
  · intro u v op hop
    have hcomparable : ¬ Comparable u v ↔ u.kind ≠ v.kind ∧ u.kind ≠ .null ∧ v.kind ≠ .null := by
      rw [Comparable, not_or, not_or]
      tauto
    rw [← hcomparable]
    obtain ⟨h, heq, hne⟩ | ⟨h, heq, hne⟩ := equality_outcome u v <;>
      obtain rfl | rfl := List.mem_pair.mp hop
    · exact iff_of_false (by rw [heq]; rintro ⟨e, ⟨⟩⟩) (not_not.mpr h)
    · exact iff_of_false (by rw [hne]; rintro ⟨e, ⟨⟩⟩) (not_not.mpr h)
    · exact iff_of_true ⟨_, heq⟩ h
    · exact iff_of_true ⟨_, hne⟩ h

/-- An object beside the one with its entries swapped, a NaN in an array, and a text beside a number. -/
theorem equality_laws_entries :
    equal (.object [("a", .number 1), ("b", .null)]) (.object [("b", .null), ("a", .number 1)]) = true ∧
      equal (.array [.null, .number (0 / 0)]) (.array [.null, .number (0 / 0)]) = false ∧
      (∃ e, compare .notEqual (.string "1") (.number 1) = .error e) ∧
      ∃ b, compare .equal (.array []) .null = .ok b ∧ compare .equal .null (.array []) = .ok b := by
  obtain ⟨-, -, hself, hobjects, -, hswapped, hfails⟩ := equality_laws
  have hentries : WellFormed (.object [("a", .number 1), ("b", .null)]) := by
    refine .object (by decide) fun e he => ?_
    obtain rfl | rfl := List.mem_pair.mp he
    · exact .number 1
    · exact .null
  have hitems : WellFormed (.array [.null, .number (0 / 0)]) := by
    refine .array fun v hv => ?_
    obtain rfl | rfl := List.mem_pair.mp hv
    · exact .null
    · exact .number _
  have hempty : WellFormed (.array []) := .array fun _ h => nomatch h
  refine ⟨?_, ?_, (hfails _ _ _ (.tail _ (.head _))).mpr (by decide), ?_⟩
  · rw [← (hobjects _ _ hentries hentries).2 _ _ (.refl _) (.swap _ _ _), hself _ hentries]
    rintro x (_ | _ | ⟨he, hx⟩)
    obtain rfl | rfl := List.mem_pair.mp he <;> cases hx
    decide +kernel
  · refine Bool.eq_false_of_not_eq_true fun h => ?_
    exact absurd ((hself _ hitems).mp h _ (.item (.tail _ (.head _)) .number)) (by decide +kernel)
  · exact (hswapped _ _ hempty .null).resolve_right fun h => by simp [compare, equals, isNull] at h

end Operator

end PipeExpr
