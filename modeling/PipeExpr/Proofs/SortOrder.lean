import Mathlib
import PipeExpr.Library.Pipes

/-!
# The order of sort keys

The order of sort keys goes by cases: over the families of values, and within the numbers over NaN and
the others.  That it is an order, and transitive above all, is not seen by going through the cases of
three keys.  **Comparing two keys is comparing their places in one linear order** (`SortKey.compare_eq`):
the family first, then the place of a number, then the text.  All laws of the order are those of the
places.

The place of a number is read off its sign, exponent and mantissa, in this order
(`Double.compare_unpacked`); the two zeros have the same place, the infinities stand at the ends, and
NaN behind them.  So it is no assumption that comparing doubles is an order on those that are not NaN.
-/

namespace PipeExpr

open Float.Model (UnpackedFloat)

section Linear
variable {α β : Type} [LinearOrder α] [LinearOrder β]

theorem ite_lt_eq_compare (a b : α) :
    (if a < b then Ordering.lt else if b < a then .gt else .eq) = compare a b := by
  rcases lt_trichotomy a b with h | rfl | h
  · rw [if_pos h, compare_lt_iff_lt.mpr h]
  · rw [if_neg (lt_irrefl a), if_neg (lt_irrefl a), compare_eq_iff_eq.mpr rfl]
  · rw [if_neg (lt_asymm h), if_pos h, compare_gt_iff_gt.mpr h]

theorem compare_toLex (a a' : α) (b b' : β) :
    compare (toLex (a, b)) (toLex (a', b')) = (compare a a').then (compare b b') := by
  rw [Prod.Lex.compare_def]
  rfl

theorem compare_natCast (m n : Nat) : compare (m : ℤ) n = compare m n := by
  rw [← cmp_eq_compare, ← cmp_eq_compare]
  exact Nat.strictMono_cast.cmp_map_eq m n

theorem compare_neg (x y : ℤ) : compare (-x) (-y) = (compare x y).swap := by
  rw [← cmp_eq_compare, ← cmp_eq_compare, cmp_swap]
  exact StrictAnti.cmp_map_eq (fun _ _ h => neg_lt_neg h) x y

end Linear

/-! ## Places of doubles -/

namespace Double

/-- Where a number stands among the others: by its sign, then its exponent, then its mantissa. -/
def unpackedPlace : UnpackedFloat → ℤ ×ₗ ℤ ×ₗ ℤ
  | .infinity .negative => toLex (-2, toLex (0, 0))
  | .finite .negative m e _ => toLex (-1, toLex (-e, -m))
  | .zero _ => toLex (0, toLex (0, 0))
  | .finite .positive m e _ => toLex (1, toLex (e, m))
  | .infinity .positive => toLex (2, toLex (0, 0))
  | .notANumber => toLex (3, toLex (0, 0))

@[inherit_doc unpackedPlace]
def place (x : Float) : ℤ ×ₗ ℤ ×ₗ ℤ := unpackedPlace x.toModel.unpack

/-- **Comparing numbers that are not NaN is comparing their places.** -/
theorem compare_unpacked {a b : UnpackedFloat} (ha : a.isNaN = false) (hb : b.isNaN = false) :
    a.compare b = some (compare (unpackedPlace a) (unpackedPlace b)) := by
  cases a with
  | notANumber => cases ha
  | infinity s =>
    cases b with
    | notANumber => cases hb
    | infinity s' => cases s <;> cases s' <;> rfl
    | zero s' => cases s <;> rfl
    | finite s' m' e' h' => cases s <;> cases s' <;> rfl
  | zero s =>
    cases b with
    | notANumber => cases hb
    | infinity s' => cases s' <;> rfl
    | zero s' => rfl
    | finite s' m' e' h' => cases s' <;> rfl
  | finite s m e h =>
    cases b with
    | notANumber => cases hb
    | infinity s' => cases s <;> cases s' <;> rfl
    | zero s' => cases s <;> rfl
    | finite s' m' e' h' =>
      cases s <;> cases s'
      case positive.positive =>
        rw [unpackedPlace, unpackedPlace, compare_toLex, compare_toLex, compare_natCast]
        rfl
      case negative.negative =>
        rw [unpackedPlace, unpackedPlace, compare_toLex, compare_toLex, compare_neg e, compare_neg (m : ℤ),
          compare_natCast, ← Ordering.swap_then]
        rfl
      case positive.negative => rfl
      case negative.positive => rfl

section Places
variable {x y : Float}

theorem place_of_isNaN (h : x.isNaN = true) : place x = toLex (3, toLex (0, 0)) := by
  have hunpack : x.toModel.unpack.isNaN = true := h
  unfold place
  cases hx : x.toModel.unpack with
  | notANumber => rfl
  | infinity | zero | finite =>
    rw [hx] at hunpack
    cases hunpack

theorem place_lt_of_isNaN (hx : x.isNaN = false) (hy : y.isNaN = true) : place x < place y := by
  have hunpack : x.toModel.unpack.isNaN = false := hx
  rw [place_of_isNaN hy, place]
  cases h : x.toModel.unpack with
  | notANumber =>
    rw [h] at hunpack
    cases hunpack
  | infinity s => cases s <;> exact Prod.Lex.toLex_lt_toLex.mpr (.inl (by decide))
  | zero s => exact Prod.Lex.toLex_lt_toLex.mpr (.inl (by decide))
  | finite s m e hm =>
    cases s
    case positive => exact Prod.Lex.toLex_lt_toLex.mpr (.inl (show (1 : ℤ) < 3 by decide))
    case negative => exact Prod.Lex.toLex_lt_toLex.mpr (.inl (show (-1 : ℤ) < 3 by decide))

theorem compare_of_isNaN {a b : UnpackedFloat} (h : a.isNaN = true ∨ b.isNaN = true) : a.compare b = none := by
  cases a with
  | notANumber => rfl
  | infinity s | zero s | finite s m e hm =>
    cases b with
    | notANumber => rfl
    | infinity | zero | finite => rcases h with h | h <;> cases h

/-- Doubles are compared by their places, unless one of them is NaN. -/
theorem compare_eq_some {o : Ordering} : x.toModel.unpack.compare y.toModel.unpack = some o ↔
    x.isNaN = false ∧ y.isNaN = false ∧ Ord.compare (place x) (place y) = o := by
  constructor
  · intro h
    have hnan : ¬ (x.isNaN = true ∨ y.isNaN = true) := by
      intro hnan
      have hnone : x.toModel.unpack.compare y.toModel.unpack = none := compare_of_isNaN hnan
      rw [hnone] at h
      cases h
    rw [not_or, Bool.not_eq_true, Bool.not_eq_true] at hnan
    obtain ⟨hx, hy⟩ := hnan
    rw [compare_unpacked hx hy] at h
    exact ⟨hx, hy, Option.some.inj h⟩
  · rintro ⟨hx, hy, rfl⟩
    exact compare_unpacked hx hy

theorem lt_iff : x < y ↔ x.isNaN = false ∧ y.isNaN = false ∧ place x < place y := by
  have hlt : x < y ↔ (x.toModel.unpack.compare y.toModel.unpack == some .lt) = true := decide_eq_true_iff
  rw [hlt, beq_iff_eq, compare_eq_some, compare_lt_iff_lt]

theorem beq_iff : (x == y) = true ↔ x.isNaN = false ∧ y.isNaN = false ∧ place x = place y := by
  have hbeq : (x == y) = (x.toModel.unpack.compare y.toModel.unpack == some .eq) := rfl
  rw [hbeq, beq_iff_eq, compare_eq_some, compare_eq_iff_eq]

end Places

end Double

/-! ## Places of keys -/

namespace SortKey

/-- Where a number or a boolean stands within its family. -/
def amount : Value → ℤ ×ₗ ℤ ×ₗ ℤ
  | .boolean b => toLex (b.toNat, toLex (0, 0))
  | .number x => Double.place x
  | _ => toLex (0, toLex (0, 0))

/-- Where a value stands: by its family first, then its amount and its text, where the family has these. -/
def place (v : Value) : ℕ ×ₗ (ℤ ×ₗ ℤ ×ₗ ℤ) ×ₗ String :=
  toLex (rank v, toLex (amount v, v.string?.getD ""))

theorem compareNumbers_eq (x y : Float) :
    compareNumbers x y = Ord.compare (Double.place x) (Double.place y) := by
  unfold compareNumbers
  cases hx : x.isNaN <;> cases hy : y.isNaN
  case true.true =>
    rw [Double.place_of_isNaN hx, Double.place_of_isNaN hy]
    rfl
  case true.false => exact (compare_gt_iff_gt.mpr (Double.place_lt_of_isNaN hy hx)).symm
  case false.true => exact (compare_lt_iff_lt.mpr (Double.place_lt_of_isNaN hx hy)).symm
  case false.false =>
    have hlt : x < y ↔ Double.place x < Double.place y := by
      rw [Double.lt_iff]
      exact ⟨fun h => h.2.2, fun h => ⟨hx, hy, h⟩⟩
    have hgt : y < x ↔ Double.place y < Double.place x := by
      rw [Double.lt_iff]
      exact ⟨fun h => h.2.2, fun h => ⟨hy, hx, h⟩⟩
    rw [← ite_lt_eq_compare]
    simp only [hlt, hgt]

/-- **Comparing keys is comparing their places.** -/
theorem compare_eq (v w : Value) : compare v w = Ord.compare (place v) (place w) := by
  rw [place, place, compare_toLex, compare_toLex]
  cases v with
  | null | array | object => cases w <;> rfl
  | boolean a =>
    cases w with
    | boolean b => cases a <;> cases b <;> rfl
    | _ => rfl
  | number x =>
    cases w with
    | number y =>
      have hsame : (Ord.compare (Double.place x) (Double.place y)).then .eq =
          Ord.compare (Double.place x) (Double.place y) := Ordering.then_eq
      exact (compareNumbers_eq x y).trans hsame.symm
    | _ => rfl
  | string s =>
    cases w with
    | string t => exact ite_lt_eq_compare s t
    | _ => rfl

/-- **The order of sort keys is a total preorder.** -/
instance : Std.TransCmp compare :=
  have h : compare = compareOn place := funext fun v => funext fun w => compare_eq v w
  h ▸ inferInstance

/-! ## What stands in front of what -/

/-- The families of values, each in front of those that come behind it. -/
def families : List Kind := [.null, .boolean, .number, .string, .array, .object]

/-- A value stands in front of another one: by the family; `false` in front of `true`; a number in front of a
greater one and of NaN; a text in front of one with greater code points.  Arrays are not told apart, nor are
objects. -/
inductive Before : Value → Value → Prop where
  | family {v w : Value} (h : [v.kind, w.kind].Sublist families) : Before v w
  | booleans : Before (.boolean false) (.boolean true)
  | numbers {x y : Float} (h : x < y) : Before (.number x) (.number y)
  | notANumber {x y : Float} (hx : x.isNaN = false) (hy : y.isNaN = true) : Before (.number x) (.number y)
  | strings {s t : String} (h : s.toList.map Char.toNat < t.toList.map Char.toNat) :
    Before (.string s) (.string t)

theorem map_toNat_lt_iff (cs ds : List Char) : cs.map Char.toNat < ds.map Char.toNat ↔ cs < ds := by
  induction cs generalizing ds with
  | nil =>
    cases ds with
    | nil => exact iff_of_false (lt_irrefl _) (lt_irrefl _)
    | cons d ds => exact iff_of_true .nil .nil
  | cons c cs ih =>
    cases ds with
    | nil => exact iff_of_false (List.not_lt_nil _) (List.not_lt_nil _)
    | cons d ds =>
      have hinj : c.toNat = d.toNat ↔ c = d := Char.toNat_inj
      rw [List.map_cons, List.map_cons, List.cons_lt_cons_iff, List.cons_lt_cons_iff, ih, hinj]
      exact Iff.rfl

/-- Ranks are places in the row of families. -/
theorem rank_lt_iff (v w : Value) : rank v < rank w ↔ [v.kind, w.kind].Sublist families := by
  cases v <;> cases w <;> simp only [rank, Value.kind] <;> decide

theorem compare_of_rank_lt {v w : Value} (h : rank v < rank w) : compare v w = .lt := by
  rw [compare_eq, compare_lt_iff_lt]
  exact Prod.Lex.toLex_lt_toLex.mpr (.inl h)

theorem compareNumbers_eq_lt_iff (x y : Float) :
    compareNumbers x y = .lt ↔ x < y ∨ x.isNaN = false ∧ y.isNaN = true := by
  rw [compareNumbers_eq, compare_lt_iff_lt, Double.lt_iff]
  cases hx : x.isNaN <;> cases hy : y.isNaN
  case true.true =>
    rw [Double.place_of_isNaN hx, Double.place_of_isNaN hy]
    simp
  case true.false => simpa using (Double.place_lt_of_isNaN hy hx).le
  case false.true => simpa using Double.place_lt_of_isNaN hx hy
  case false.false => simp

/-- **Comparing keys decides what stands in front of what.** -/
theorem compare_eq_lt_iff (v w : Value) : compare v w = .lt ↔ Before v w := by
  constructor
  · intro h
    rcases lt_trichotomy (rank v) (rank w) with hlt | heq | hgt
    · exact .family ((rank_lt_iff v w).mp hlt)
    · cases v with
      | null => cases w with
        | null => cases h
        | _ => cases heq
      | boolean a => cases w with
        | boolean b =>
          cases a <;> cases b
          case false.true => exact .booleans
          all_goals cases h
        | _ => cases heq
      | number x => cases w with
        | number y =>
          rcases (compareNumbers_eq_lt_iff x y).mp h with hlt | ⟨hx, hy⟩
          · exact .numbers hlt
          · exact .notANumber hx hy
        | _ => cases heq
      | string s => cases w with
        | string t =>
          have hst : s < t := compare_lt_iff_lt.mp ((ite_lt_eq_compare s t).symm.trans h)
          exact .strings ((map_toNat_lt_iff _ _).mpr hst)
        | _ => cases heq
      | array items => cases w with
        | array items' => cases h
        | _ => cases heq
      | object fields => cases w with
        | object fields' => cases h
        | _ => cases heq
    · have hswap : compare v w = (compare w v).swap := Std.OrientedCmp.eq_swap
      rw [compare_of_rank_lt hgt, h] at hswap
      cases hswap
  · intro h
    cases h with
    | @family v w hfamilies => exact compare_of_rank_lt ((rank_lt_iff v w).mpr hfamilies)
    | booleans => rfl
    | numbers hlt => exact (compareNumbers_eq_lt_iff _ _).mpr (.inl hlt)
    | notANumber hx hy => exact (compareNumbers_eq_lt_iff _ _).mpr (.inr ⟨hx, hy⟩)
    | @strings s t hlt =>
      have hst : s < t := (map_toNat_lt_iff _ _).mp hlt
      exact (ite_lt_eq_compare s t).trans (compare_lt_iff_lt.mpr hst)

end SortKey

end PipeExpr
