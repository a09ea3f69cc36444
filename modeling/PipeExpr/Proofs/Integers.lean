import Mathlib
import PipeExpr.Proofs.SortOrder
import PipeExpr.Proofs.WholeNumbers

/-!
# Doubles that are integers

A double without a fraction is an integer (`denotes_of_toInt?`), and up to `2 ^ 53` every integer is a double
(`denotes_ofInt`).  Two doubles that are the same integer are equal (`beq_of_denotes`).

The sum of two integers need not be a double, but it is rounded in one way: **a sum of doubles is the
rounded sum of the integers that they are** (`add_rounds`), whatever mantissas and exponents the two
have.  What carries this is that rounding sees a value and not how it is written (`round_congr`).  So
sums are equal if the integers have the same sum (`add_beq_add`).
-/

namespace PipeExpr

open Float.Model (Format totalExponent UnpackedFloat)
open Float.Model.UnpackedFloat (Sign ExtendedMantissa decreaseExponent packComponents roundWithAccuracy
  shiftToExponent shiftToTargetExponent)

namespace Double

/-! ## Rounding values -/

section Rounding
variable {M M' : Nat} {e e' : Int} {s : Sign}

theorem repeat_add {α : Type} (f : α → α) (a b : Nat) (x : α) :
    (a + b).repeat f x = a.repeat f (b.repeat f x) := by
  induction a with
  | zero => rw [Nat.zero_add]; rfl
  | succ a ih => rw [Nat.succ_add, Nat.repeat, ih, Nat.repeat]

theorem totalExponent_zeros (hM : 0 < M) (k : Nat) :
    totalExponent (M * 2 ^ k) e = totalExponent M (e + k) := by
  unfold totalExponent
  rw [log2_mul_two_pow hM.ne']
  omega

/-- Zeros at the end of a mantissa are shifted out without a trace. -/
theorem roundWithAccuracy_zeros (hM : 0 < M) {k : Nat}
    (h : e + k ≤ Format.binary64.targetExponent (totalExponent M (e + k))) :
    roundWithAccuracy Format.binary64 s (M * 2 ^ k) e .exact =
      roundWithAccuracy Format.binary64 s M (e + k) .exact := by
  have hshift : shiftToTargetExponent Format.binary64 (M * 2 ^ k) e .exact =
      shiftToTargetExponent Format.binary64 M (e + k) .exact := by
    unfold shiftToTargetExponent shiftToExponent
    rw [totalExponent_zeros hM]
    generalize Format.binary64.targetExponent (totalExponent M (e + k)) = target at h ⊢
    dsimp only
    refine Prod.ext ?_
      (show e + ((target - e).toNat : Int) = e + k + ((target - (e + k)).toNat : Int) by omega)
    show (target - e).toNat.repeat ExtendedMantissa.shiftRightOne ⟨M * 2 ^ k, false, false⟩ =
      (target - (e + k)).toNat.repeat ExtendedMantissa.shiftRightOne ⟨M, false, false⟩
    rw [show (target - e).toNat = (target - (e + k)).toNat + k by omega, repeat_add, repeat_shiftRightOne]
  unfold roundWithAccuracy
  rw [hshift]

/-- **Rounding sees a value and not how it is written.** -/
theorem round_congr (hM' : 0 < M') (hle : e ≤ e') (h : (M : ℚ) * 2 ^ e = M' * 2 ^ e') :
    UnpackedFloat.round Format.binary64 s M e = UnpackedFloat.round Format.binary64 s M' e' := by
  obtain rfl := eq_mul_two_pow hle h
  obtain ⟨k, rfl⟩ : ∃ k : Nat, e' = e + k := ⟨(e' - e).toNat, by omega⟩
  rw [show (e + (k : Int) - e).toNat = k by omega]
  unfold UnpackedFloat.round decreaseExponent
  rw [totalExponent_zeros hM']
  dsimp only
  obtain ⟨target, htarget⟩ : ∃ t, Format.binary64.targetExponent (totalExponent M' (e + k)) = t := ⟨_, rfl⟩
  rw [htarget, Nat.shiftLeft_eq, Nat.shiftLeft_eq, Nat.mul_assoc, ← Nat.pow_add]
  -- the zeros that are left of the one mantissa once both exponents are decreased
  obtain ⟨l, hl, hexponent⟩ : ∃ l : Nat, k + (e - target).toNat = (e + (k : Int) - target).toNat + l ∧
      e - ((e - target).toNat : Int) + l = e + k - ((e + (k : Int) - target).toNat : Int) :=
    ⟨k + (e - target).toNat - (e + (k : Int) - target).toNat, by omega, by omega⟩
  rw [hl, Nat.pow_add, ← Nat.mul_assoc, ← hexponent]
  refine roundWithAccuracy_zeros (by positivity) ?_
  rw [totalExponent_zeros hM', show e - ((e - target).toNat : Int) + l + ((e + (k : Int) - target).toNat : Int) =
    e + k by omega, htarget]
  omega

theorem normalize_eq_round {z : Int} (hz : z ≠ 0) (zeroSign : Sign) :
    UnpackedFloat.normalize Format.binary64 z e zeroSign =
      UnpackedFloat.round Format.binary64 (signOf (z < 0)) z.natAbs e := by
  unfold UnpackedFloat.normalize
  rcases lt_trichotomy z 0 with hlt | rfl | hgt
  · rw [Int.compare_eq_lt.mpr hlt, decide_eq_true hlt]
    dsimp only
    rw [show (-z).toNat = z.natAbs by omega]
    rfl
  · exact absurd rfl hz
  · rw [Int.compare_eq_gt.mpr hgt, decide_eq_false (not_lt_of_gt hgt)]
    dsimp only
    rw [show z.toNat = z.natAbs by omega]
    rfl

/-- As `round_congr`, for values with a sign. -/
theorem normalize_congr {z z' : Int} (hle : e ≤ e') (h : (z : ℚ) * 2 ^ e = z' * 2 ^ e') (zeroSign : Sign) :
    UnpackedFloat.normalize Format.binary64 z e zeroSign = UnpackedFloat.normalize Format.binary64 z' e' zeroSign := by
  have hpow : ∀ e : Int, (0 : ℚ) < 2 ^ e := fun e => by positivity
  rcases eq_or_ne z' 0 with rfl | hz'
  · rw [Int.cast_zero, zero_mul, mul_eq_zero, or_iff_left (hpow e).ne', Int.cast_eq_zero] at h
    subst h
    rfl
  have hz : z ≠ 0 := by
    rintro rfl
    rw [Int.cast_zero, zero_mul, eq_comm, mul_eq_zero, or_iff_left (hpow e').ne', Int.cast_eq_zero] at h
    exact hz' h
  have hsign : z < 0 ↔ z' < 0 := by
    have hneg : ∀ {z e : Int}, z < 0 ↔ (z : ℚ) * 2 ^ e < 0 := by
      intro z e
      have hscale : (z : ℚ) * 2 ^ e < 0 * 2 ^ e ↔ (z : ℚ) < 0 := mul_lt_mul_iff_left₀ (hpow e)
      rw [zero_mul, Int.cast_lt_zero] at hscale
      exact hscale.symm
    rw [hneg (e := e), h, ← hneg]
  have hmagnitude : (z.natAbs : ℚ) * 2 ^ e = z'.natAbs * 2 ^ e' := by
    have habs := congrArg abs h
    rwa [abs_mul, abs_mul, abs_of_pos (hpow e), abs_of_pos (hpow e'), ← Int.cast_abs, ← Int.cast_abs,
      Int.abs_eq_natAbs, Int.abs_eq_natAbs, Int.cast_natCast, Int.cast_natCast] at habs
  rw [normalize_eq_round hz, normalize_eq_round hz', decide_eq_decide.mpr hsign]
  exact round_congr (Int.natAbs_pos.mpr hz') hle hmagnitude

end Rounding

/-! ## Numbers that denote integers -/

/-- **A number denotes an integer**: it is a zero, or it has the magnitude and the sign of the integer. -/
inductive Denotes : UnpackedFloat → Int → Prop
  | zero (s : Sign) : Denotes (.zero s) 0
  | finite (s : Sign) {m : Nat} {q : Int} (hc : Canonical m q) {n : Nat} (h : (n : ℚ) = m * 2 ^ q) :
    Denotes (.finite s m q hc.pos) (s.apply n)

theorem unpack_of_bits_zero {x : Float} {s : Sign} (h : x.toBits.toNat = signField s) :
    x.toModel.unpack = .zero s := by
  cases s with
  | negative =>
    obtain rfl : x = -0.0 := eq_of_toBits (h.trans (by decide))
    rfl
  | positive =>
    obtain rfl : x = 0 := eq_of_toBits (h.trans (by decide))
    rfl

theorem apply_signOf (negative : Bool) (n : Nat) :
    (signOf negative).apply n = if negative then -(n : Int) else n := by
  cases negative <;> rfl

section Denotes
variable {x y : Float} {u v : UnpackedFloat} {a b n : Int}

/-- A double without a fraction denotes the integer that it is. -/
theorem denotes_of_toInt? (h : toInt? x = some n) : Denotes x.toModel.unpack n := by
  obtain ⟨b, hclass, hwhole, rfl⟩ := toInt?_eq_some_iff.mp h
  have htruncate : b.truncate = (signOf b.negative).apply b.wholePart := (apply_signOf _ _).symm
  have hvalue := value_of_isWhole hwhole
  rcases eq_signed_of_classify hclass with ⟨hzero, hbits⟩ | ⟨hc, rfl⟩
  · have hpart : b.wholePart = 0 := by
      rw [hzero, Nat.cast_zero, zero_mul] at hvalue
      exact_mod_cast hvalue
    rw [unpack_of_bits_zero hbits, htruncate, hpart, apply_signOf]
    cases b.negative <;> exact .zero _
  · rw [hc.unpack_signed, htruncate]
    exact .finite _ hc hvalue

theorem Denotes.pack (h : Denotes u n) : Denotes (Float.ofModel (.pack u)).toModel.unpack n := by
  cases h with
  | zero s => cases s <;> exact .zero _
  | finite s hc h =>
    have hsigned := hc.unpack_signed s
    unfold Canonical.signed at hsigned
    rw [hsigned]
    exact .finite s hc h

theorem denotes_ofInt (h : n.natAbs ≤ 2 ^ 53) : Denotes (ofInt n).toModel.unpack n :=
  denotes_of_toInt? (toInt?_ofInt_of_natAbs_le h)

/-- Mantissa and exponent are known from the value. -/
theorem Canonical.unique {m m' : Nat} {q q' : Int} (hc : Canonical m q) (hc' : Canonical m' q')
    (h : (m : ℚ) * 2 ^ q = m' * 2 ^ q') : m = m' ∧ q = q' := by
  obtain rfl : q = q' := hc.target.symm.trans (hc'.target_of_eq h)
  have hpow : (2 : ℚ) ^ q ≠ 0 := by positivity
  exact ⟨by exact_mod_cast mul_right_cancel₀ hpow h, rfl⟩

/-- **Two numbers that denote the same integer compare equal.** -/
theorem Denotes.compare (hu : Denotes u n) (hv : Denotes v n) : u.compare v = some .eq := by
  generalize ha : n = a at hu
  generalize hb : n = b at hv
  have hab : a = b := ha.symm.trans hb
  cases hu with
  | zero s =>
    cases hv with
    | zero s' => rfl
    | @finite s' m' q' hc' n' h' =>
      have hpos := hc'.pos_of_eq (e := 0) (by simpa using h')
      cases s' <;> simp only [Sign.apply] at hab <;> omega
  | @finite s m q hc n h =>
    have hpos := hc.pos_of_eq (e := 0) (by simpa using h)
    cases hv with
    | zero s' => cases s <;> simp only [Sign.apply] at hab <;> omega
    | @finite s' m' q' hc' n' h' =>
      have hpos' := hc'.pos_of_eq (e := 0) (by simpa using h')
      obtain ⟨rfl, rfl⟩ : s = s' ∧ n = n' := by
        cases s <;> cases s' <;> simp only [Sign.apply] at hab <;>
          first | exact ⟨rfl, by omega⟩ | omega
      obtain ⟨rfl, rfl⟩ := hc.unique hc' (h.symm.trans h')
      have hsame : (Ord.compare q q).then (Ord.compare m m) = .eq := by simp
      cases s
      case positive => exact congrArg some hsame
      case negative => exact congrArg (fun o : Ordering => some o.swap) hsame

theorem beq_of_denotes (hx : Denotes x.toModel.unpack n) (hy : Denotes y.toModel.unpack n) :
    (x == y) = true := by
  have hbeq : (x == y) = (x.toModel.unpack.compare y.toModel.unpack == some .eq) := rfl
  rw [hbeq, hx.compare hy]
  rfl

/-! ## Sums -/

/-- **A number is an integer rounded**, as it comes out of the arithmetic of doubles; for zero with any sign. -/
def Rounds (u : UnpackedFloat) (n : Int) : Prop :=
  u = UnpackedFloat.ofInt Format.binary64 n ∨ n = 0 ∧ ∃ s, u = .zero s

theorem Rounds.zero (s : Sign) : Rounds (.zero s) 0 := .inr ⟨rfl, s, rfl⟩

theorem Denotes.rounds (h : Denotes u n) : Rounds u n := by
  cases h with
  | zero s => exact .zero s
  | @finite s m q hc n h =>
    have hpos := hc.pos_of_eq (e := 0) (by simpa using h)
    have hne : s.apply n ≠ 0 := by cases s <;> simp only [Sign.apply] <;> omega
    have hsign : signOf (s.apply n < 0) = s := by
      cases s
      case positive => exact congrArg signOf (decide_eq_false (show ¬ (n : Int) < 0 by omega))
      case negative => exact congrArg signOf (decide_eq_true (show -(n : Int) < 0 by omega))
    have habs : (s.apply n).natAbs = n := by cases s <;> simp only [Sign.apply] <;> omega
    refine .inl ?_
    unfold UnpackedFloat.ofInt
    rw [normalize_eq_round hne, hsign, habs]
    exact (round_exact hc (by rw [zpow_zero, mul_one, h])).symm

/-- **A sum of integers is rounded as the integer that it is.** -/
theorem add_rounds (hu : Denotes u a) (hv : Denotes v b) :
    Rounds (UnpackedFloat.add Format.binary64 u v) (a + b) := by
  cases hu with
  | zero s =>
    rw [zero_add]
    cases hv with
    | zero s' => cases s <;> cases s' <;> exact .zero _
    | finite s' hc' h' => exact (Denotes.finite s' hc' h').rounds
  | @finite s m q hc k h =>
    cases hv with
    | zero s' =>
      rw [add_zero]
      exact (Denotes.finite s hc h).rounds
    | @finite s' m' q' hc' k' h' =>
      have hshift : ∀ {s : Sign} {m k : Nat} {e : Int}, min q q' ≤ e → (k : ℚ) = m * 2 ^ e →
          ((s.apply (m <<< (e - min q q').toNat : Nat) : Int) : ℚ) * 2 ^ min q q' = (s.apply k : Int) := by
        intro s m k e hle hk
        have hnat : ((m <<< (e - min q q').toNat : Nat) : ℚ) * 2 ^ min q q' = k := by
          rw [hk, Nat.shiftLeft_eq]
          push_cast
          rw [← zpow_natCast, mul_assoc, ← zpow_add₀ two_ne_zero]
          congr 2
          omega
        cases s
        case positive => exact hnat
        case negative =>
          simp only [Sign.apply]
          rw [Int.cast_neg, Int.cast_neg, neg_mul, Int.cast_natCast, Int.cast_natCast, hnat]
      refine .inl ?_
      show UnpackedFloat.normalize Format.binary64 (s.apply (m <<< (q - min q q').toNat : Nat) +
        s'.apply (m' <<< (q' - min q q').toNat : Nat)) (min q q') .positive =
          UnpackedFloat.normalize Format.binary64 (s.apply k + s'.apply k') 0 .positive
      have hvalue : ((s.apply (m <<< (q - min q q').toNat : Nat) +
          s'.apply (m' <<< (q' - min q q').toNat : Nat) : Int) : ℚ) * 2 ^ min q q' =
            ((s.apply k + s'.apply k' : Int) : ℚ) * 2 ^ (0 : Int) := by
        rw [Int.cast_add, add_mul, hshift (min_le_left q q') h, hshift (min_le_right q q') h', zpow_zero,
          mul_one, Int.cast_add]
      rcases le_total (min q q') 0 with hle | hle
      · exact normalize_congr hle hvalue _
      · exact (normalize_congr hle hvalue.symm _).symm

theorem Rounds.exists_zero (h : Rounds u 0) : ∃ s, u = .zero s := by
  rcases h with rfl | ⟨-, hzero⟩
  · exact ⟨.positive, rfl⟩
  · exact hzero

/-- Integers that are not too large are what they round to. -/
theorem Rounds.denotes (h : Rounds u n) (hn : n.natAbs ≤ 2 ^ 53) : Denotes u n := by
  rcases eq_or_ne n 0 with rfl | hne
  · obtain ⟨s, rfl⟩ := h.exists_zero
    exact .zero s
  obtain rfl := h.resolve_right fun hzero => hne hzero.1
  obtain ⟨m, q, hc, hvalue⟩ := canonical_of_count (Int.natAbs_pos.mpr hne) hn
  have happly : (signOf (n < 0)).apply n.natAbs = n := by
    rw [apply_signOf]
    split <;> simp only [decide_eq_true_eq] at * <;> omega
  unfold UnpackedFloat.ofInt
  rw [normalize_eq_round hne, round_exact hc (by rw [zpow_zero, mul_one, hvalue])]
  have hfinite := Denotes.finite (signOf (n < 0)) hc hvalue
  rwa [happly] at hfinite

theorem Rounds.ne_notANumber (h : Rounds u n) : u ≠ .notANumber := by
  have hround : ∀ (s : Sign) (m : Nat) (e : Int), UnpackedFloat.round Format.binary64 s m e ≠ .notANumber := by
    intro s m e
    unfold UnpackedFloat.round roundWithAccuracy
    dsimp only
    split <;> exact nofun
  rcases h with rfl | ⟨-, s, rfl⟩
  · rcases eq_or_ne n 0 with rfl | hn
    · exact nofun
    · unfold UnpackedFloat.ofInt
      rw [normalize_eq_round hn]
      exact hround _ _ _
  · exact nofun

/-- Only NaN has the bits of NaN. -/
theorem isNaN_pack (h : u ≠ .notANumber) : (Float.ofModel (.pack u)).isNaN = false := by
  obtain ⟨s, e, f, hpack, hinfinite⟩ : ∃ s e f, UnpackedFloat.pack Format.binary64 u =
      packComponents Format.binary64 s e f ∧ (e = -1#11 → f = 0#52) := by
    cases u with
    | notANumber => exact absurd rfl h
    | infinity s => exact ⟨s, -1#11, 0#52, rfl, fun _ => rfl⟩
    | zero s => exact ⟨s, 0#11, 0#52, rfl, fun _ => rfl⟩
    | finite s m e hm =>
      unfold UnpackedFloat.pack
      dsimp only
      split
      · exact ⟨s, -1#11, 0#52, rfl, fun _ => rfl⟩
      rename_i hfits
      split
      · refine ⟨s, _, _, rfl, fun hones => ?_⟩
        have hnat := congrArg BitVec.toNat hones
        rw [BitVec.toNat_ofNat] at hnat
        have hones' : (-1#11 : BitVec 11).toNat = 2047 := rfl
        change _ % 2 ^ 11 = (-1#11 : BitVec 11).toNat at hnat
        change ¬ 2 ^ 11 ≤ _ at hfits
        omega
      · exact ⟨s, 0#11, _, rfl, fun hones => absurd hones (by decide)⟩
  show (UnpackedFloat.unpack Format.binary64 (UnpackedFloat.pack Format.binary64 u)).isNaN = false
  rw [hpack]
  unfold UnpackedFloat.unpack
  simp only [UnpackedFloat.unpackMantissa_packComponents, UnpackedFloat.unpackExponent_packComponents]
  split
  · rename_i hones
    rw [if_pos (hinfinite hones)]
    rfl
  · split
    · split <;> rfl
    · rfl

/-- **Doubles that are the same integer rounded are equal.** -/
theorem Rounds.beq (hu : Rounds u n) (hv : Rounds v n) :
    (Float.ofModel (.pack u) == Float.ofModel (.pack v)) = true := by
  rcases eq_or_ne n 0 with rfl | hn
  · obtain ⟨s, rfl⟩ := hu.exists_zero
    obtain ⟨s', rfl⟩ := hv.exists_zero
    cases s <;> cases s' <;> rfl
  · obtain rfl := hu.resolve_right fun h => hn h.1
    obtain rfl := hv.resolve_right fun h => hn h.1
    have hnan := isNaN_pack hu.ne_notANumber
    exact beq_iff.mpr ⟨hnan, hnan, rfl⟩

/-- **Sums of doubles are equal if they are sums of the same amount.** -/
theorem add_beq_add {x' y' : Float} {a' b' : Int} (hx : Denotes x.toModel.unpack a)
    (hy : Denotes y.toModel.unpack b) (hx' : Denotes x'.toModel.unpack a') (hy' : Denotes y'.toModel.unpack b')
    (h : a + b = a' + b') : (x + y == x' + y') = true :=
  (add_rounds hx hy).beq (h ▸ add_rounds hx' hy')

/-! ## Differences -/

theorem Denotes.neg (h : Denotes u n) : Denotes u.neg (-n) := by
  cases h with
  | zero s => exact .zero _
  | finite s hc h =>
    cases s
    case positive => exact .finite .negative hc h
    case negative => exact (Int.neg_neg _).symm ▸ .finite .positive hc h

theorem denotes_neg (h : Denotes x.toModel.unpack n) : Denotes (-x).toModel.unpack (-n) := h.neg.pack

theorem sub_eq_add (u v : UnpackedFloat) :
    UnpackedFloat.sub Format.binary64 u v = UnpackedFloat.add Format.binary64 u v.neg := by
  cases u <;> cases v <;> try rfl
  rename_i s m e _ s' m' e' _
  have hmantissa : ∀ k k' : Int, s.apply k - s'.apply k' = s.apply k + (-s').apply k' := by
    intro k k'
    cases s' <;> simp only [Sign.apply]
    · exact sub_neg_eq_add _ _
    · exact sub_eq_add_neg _ _
  simp only [UnpackedFloat.sub, UnpackedFloat.add, UnpackedFloat.neg, hmantissa]

/-- A difference of integers is rounded as the integer that it is. -/
theorem sub_rounds (hu : Denotes u a) (hv : Denotes v b) :
    Rounds (UnpackedFloat.sub Format.binary64 u v) (a - b) := by
  rw [sub_eq_add, sub_eq_add_neg]
  exact add_rounds hu hv.neg

end Denotes

end Double

end PipeExpr
