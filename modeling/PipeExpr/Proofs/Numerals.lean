import Mathlib
import PipeExpr.Number.Read

/-!
# Exact numerals

Every finite double that is not negative has a decimal numeral that denotes it exactly, with no more
places than it takes (`Numeral.exact`), and reading this numeral gives the double back
(`Numeral.toDouble_exact`).

Numerals are read by a product or a quotient of doubles, or of numbers with as many bits as it takes.
All of these are rounded by one function, and it is enough to see that it changes nothing about a value
that a double has (`roundWithAccuracy_exact`): a mantissa that was shifted to the left is shifted back,
and no bit is lost.
-/

namespace PipeExpr

open Float.Model (Format totalExponent UnpackedFloat)
open Float.Model.UnpackedFloat (Sign Accuracy ExtendedMantissa shiftToTargetExponent shiftToExponent
  roundWithAccuracy divCore packComponents)

namespace Double

/-! ## Values of doubles -/

/-- The positive values `m * 2 ^ q` of doubles, with the mantissa and the exponent that a double has. -/
structure Canonical (m : Nat) (q : Int) : Prop where
  pos : 0 < m
  bound : m < 2 ^ 53
  least : -1074 ≤ q
  greatest : q ≤ 971
  /-- The leading bit of the mantissa is there unless the exponent is the least one. -/
  form : 2 ^ 52 ≤ m ∨ q = -1074

theorem log2_mul_two_pow {m : Nat} (hm : m ≠ 0) (k : Nat) : (m * 2 ^ k).log2 = m.log2 + k := by
  induction k with
  | zero => simp
  | succ k ih =>
    have hne : m * 2 ^ k ≠ 0 := by positivity
    rw [pow_succ', Nat.mul_left_comm, Nat.log2_two_mul hne, ih]
    omega

/-- A number of at most 53 bits is a mantissa once it is shifted to the left. -/
theorem canonical_of_lt {n j : Nat} (hn : 0 < n) (hbound : n < 2 ^ 53) (hj : j ≤ 22) :
    Canonical (n * 2 ^ (52 - n.log2)) ((n.log2 : Int) - 52 + j) := by
  have hlog := (Nat.log2_lt hn.ne').mpr hbound
  have hlow : 2 ^ n.log2 * 2 ^ (52 - n.log2) ≤ n * 2 ^ (52 - n.log2) :=
    Nat.mul_le_mul_right _ (Nat.log2_self_le hn.ne')
  have hhigh : n * 2 ^ (52 - n.log2) < 2 ^ (n.log2 + 1) * 2 ^ (52 - n.log2) :=
    Nat.mul_lt_mul_of_pos_right Nat.lt_log2_self (by positivity)
  rw [← pow_add] at hlow hhigh
  rw [show n.log2 + (52 - n.log2) = 52 by omega] at hlow
  rw [show n.log2 + 1 + (52 - n.log2) = 53 by omega] at hhigh
  exact ⟨by positivity, hhigh, by omega, by omega, .inl hlow⟩

section Rounding
variable {m M : Nat} {q e : Int}

theorem eq_mul_two_pow (hle : e ≤ q) (h : (M : ℚ) * 2 ^ e = m * 2 ^ q) :
    M = m * 2 ^ (q - e).toNat := by
  have hqe : ((q - e).toNat : ℤ) = q - e := by omega
  have hcast : (M : ℚ) = ((m * 2 ^ (q - e).toNat : ℕ) : ℚ) := by
    push_cast
    rw [← zpow_natCast, hqe, zpow_sub₀ two_ne_zero]
    field_simp
    exact h
  exact_mod_cast hcast

/-- The place of the leading bit is a matter of the value alone. -/
theorem totalExponent_congr (hm : 0 < m) (hM : 0 < M) (h : (M : ℚ) * 2 ^ e = m * 2 ^ q) :
    totalExponent M e = totalExponent m q := by
  unfold totalExponent
  rcases Int.le_total e q with hle | hle
  · rw [eq_mul_two_pow hle h, log2_mul_two_pow hm.ne']
    omega
  · rw [eq_mul_two_pow hle h.symm, log2_mul_two_pow hM.ne']
    omega

namespace Canonical

theorem value_lt (hc : Canonical m q) : (m : ℚ) * 2 ^ q < 2 ^ ((1024 : ℕ) : ℤ) := by
  have hm : (m : ℚ) < 2 ^ ((53 : ℕ) : ℤ) := by
    rw [zpow_natCast]
    exact_mod_cast hc.bound
  have hexp : ((53 : ℕ) : ℤ) + q ≤ ((1024 : ℕ) : ℤ) := by
    have hgreatest := hc.greatest
    omega
  calc (m : ℚ) * 2 ^ q < 2 ^ ((53 : ℕ) : ℤ) * 2 ^ q := by gcongr
    _ = 2 ^ (((53 : ℕ) : ℤ) + q) := (zpow_add₀ two_ne_zero _ _).symm
    _ ≤ 2 ^ ((1024 : ℕ) : ℤ) := zpow_le_zpow_right₀ one_le_two hexp

theorem le_value (hc : Canonical m q) : (2 : ℚ) ^ (-((1074 : ℕ) : ℤ)) ≤ m * 2 ^ q := by
  have hm : (1 : ℚ) ≤ m := by exact_mod_cast hc.pos
  have hleast : -((1074 : ℕ) : ℤ) ≤ q := hc.least
  calc (2 : ℚ) ^ (-((1074 : ℕ) : ℤ)) ≤ 2 ^ q := zpow_le_zpow_right₀ one_le_two hleast
    _ = 1 * 2 ^ q := (one_mul _).symm
    _ ≤ m * 2 ^ q := by gcongr

theorem target (hc : Canonical m q) :
    Format.binary64.targetExponent (totalExponent m q) = q := by
  have hbound := (Nat.log2_lt hc.pos.ne').mpr hc.bound
  have hleast := hc.least
  have hform : 52 ≤ m.log2 ∨ q = -1074 := hc.form.imp_left (Nat.le_log2 hc.pos.ne').mpr
  show max (((m.log2 : ℤ) + 1 + q) - 53) (-1074) = q
  omega

theorem pos_of_eq (hc : Canonical m q) (h : (M : ℚ) * 2 ^ e = m * 2 ^ q) : 0 < M := by
  have hm := hc.pos
  have hpos : (0 : ℚ) < M * 2 ^ e := by rw [h]; positivity
  exact_mod_cast pos_of_mul_pos_left hpos (by positivity)

theorem target_of_eq (hc : Canonical m q) (h : (M : ℚ) * 2 ^ e = m * 2 ^ q) :
    Format.binary64.targetExponent (totalExponent M e) = q := by
  rw [totalExponent_congr hc.pos (hc.pos_of_eq h) h, hc.target]

end Canonical

theorem repeat_shiftRightOne (m k : Nat) :
    k.repeat ExtendedMantissa.shiftRightOne ⟨m * 2 ^ k, false, false⟩ = ⟨m, false, false⟩ := by
  induction k generalizing m with
  | zero => simp [Nat.repeat]
  | succ k ih =>
    have hshift := ih (m * 2)
    rw [Nat.repeat, pow_succ', ← Nat.mul_assoc, hshift]
    simp [ExtendedMantissa.shiftRightOne]

theorem shiftToTargetExponent_exact (hc : Canonical m q) (hle : e ≤ q)
    (h : (M : ℚ) * 2 ^ e = m * 2 ^ q) :
    shiftToTargetExponent Format.binary64 M e .exact = (⟨m, false, false⟩, q) := by
  unfold shiftToTargetExponent shiftToExponent
  rw [hc.target_of_eq h, eq_mul_two_pow hle h]
  refine Prod.ext (repeat_shiftRightOne m _) ?_
  show e + ((q - e).toNat : Int) = q
  omega

/-- **Rounding changes nothing about a value that a double has.** -/
theorem roundWithAccuracy_exact {s : Sign} (hc : Canonical m q) (hle : e ≤ q)
    (h : (M : ℚ) * 2 ^ e = m * 2 ^ q) :
    roundWithAccuracy Format.binary64 s M e .exact = .finite s m q hc.pos := by
  have hfirst := shiftToTargetExponent_exact hc hle h
  have hsecond := shiftToTargetExponent_exact hc (Int.le_refl q) rfl
  have hrounded : ExtendedMantissa.roundedMantissa ⟨m, false, false⟩ = m := rfl
  unfold roundWithAccuracy
  rw [hfirst]
  dsimp only
  rw [hrounded, hsecond]
  exact dif_neg hc.pos.ne'

theorem round_exact {s : Sign} (hc : Canonical m q) (h : (M : ℚ) * 2 ^ e = m * 2 ^ q) :
    UnpackedFloat.round Format.binary64 s M e = .finite s m q hc.pos := by
  unfold UnpackedFloat.round UnpackedFloat.decreaseExponent
  rw [hc.target_of_eq h]
  refine roundWithAccuracy_exact hc (by omega) ?_
  rw [Nat.shiftLeft_eq, ← h]
  push_cast
  rw [← zpow_natCast, mul_assoc, ← zpow_add₀ two_ne_zero]
  congr 2
  omega

/-- A value that a double has is found from any integer and exponent. -/
theorem normalize_exact {z : Int} (hc : Canonical m q) (h : (z : ℚ) * 2 ^ e = m * 2 ^ q) (zeroSign : Sign) :
    UnpackedFloat.normalize Format.binary64 z e zeroSign = .finite .positive m q hc.pos := by
  have hz : 0 < z := by
    have hm := hc.pos
    have hpos : (0 : ℚ) < z * 2 ^ e := by rw [h]; positivity
    exact_mod_cast pos_of_mul_pos_left hpos (by positivity)
  obtain ⟨M, rfl⟩ := Int.eq_ofNat_of_zero_le hz.le
  have hround : UnpackedFloat.normalize Format.binary64 M e zeroSign =
      UnpackedFloat.round Format.binary64 .positive M e := by
    unfold UnpackedFloat.normalize
    rw [Int.compare_eq_gt.mpr hz]
    rfl
  rw [hround]
  exact round_exact hc (by exact_mod_cast h)

theorem ofNat_exact {n : Nat} (hc : Canonical m q) (h : (n : ℚ) = m * 2 ^ q) :
    UnpackedFloat.ofNat Format.binary64 n = .finite .positive m q hc.pos := by
  refine normalize_exact (z := n) (e := 0) hc ?_ .positive
  rw [zpow_zero, mul_one, ← h, Int.cast_natCast]

variable {m₁ m₂ : Nat} {e₁ e₂ : Int}

theorem mul_exact (hc : Canonical m q) (h₁ : 0 < m₁) (h₂ : 0 < m₂) (hle : e₁ + e₂ ≤ q)
    (h : (m₁ : ℚ) * 2 ^ e₁ * (m₂ * 2 ^ e₂) = m * 2 ^ q) :
    UnpackedFloat.mul Format.binary64 (.finite .positive m₁ e₁ h₁) (.finite .positive m₂ e₂ h₂) =
      .finite .positive m q hc.pos := by
  refine roundWithAccuracy_exact hc hle ?_
  rw [← h, zpow_add₀ two_ne_zero]
  push_cast
  ring

theorem sub_exact (hc : Canonical m q) (h₁ : 0 < m₁) (h₂ : 0 < m₂)
    (h : (m₁ : ℚ) * 2 ^ e₁ - m₂ * 2 ^ e₂ = m * 2 ^ q) :
    UnpackedFloat.sub Format.binary64 (.finite .positive m₁ e₁ h₁) (.finite .positive m₂ e₂ h₂) =
      .finite .positive m q hc.pos := by
  refine normalize_exact hc ?_ .positive
  have hshift : ∀ {m : Nat} {e : Int}, min e₁ e₂ ≤ e →
      ((m <<< (e - min e₁ e₂).toNat : ℕ) : ℚ) * 2 ^ min e₁ e₂ = m * 2 ^ e := by
    intro m e hle
    rw [Nat.shiftLeft_eq]
    push_cast
    rw [← zpow_natCast, mul_assoc, ← zpow_add₀ two_ne_zero]
    congr 2
    omega
  show (((((m₁ <<< (e₁ - min e₁ e₂).toNat : ℕ) : ℤ) - (m₂ <<< (e₂ - min e₁ e₂).toNat : ℕ) : ℤ)) : ℚ) *
    2 ^ min e₁ e₂ = _
  rw [Int.cast_sub, Int.cast_natCast, Int.cast_natCast, sub_mul, hshift (min_le_left e₁ e₂),
    hshift (min_le_right e₁ e₂), h]

/-- The leading bit of a quotient is in the place that the leading bits of the operands tell, or in the
next one. -/
theorem totalExponent_div_le (h₁ : 0 < m₁)
    (h : (m₁ : ℚ) * 2 ^ e₁ = m * 2 ^ q * (m₂ * 2 ^ e₂)) :
    totalExponent m₁ e₁ - totalExponent m₂ e₂ ≤ totalExponent m q := by
  have hlow : (2 : ℚ) ^ ((m₁.log2 : ℤ) + e₁) ≤ m₁ * 2 ^ e₁ := by
    rw [zpow_add₀ two_ne_zero, zpow_natCast]
    exact mul_le_mul_of_nonneg_right (by exact_mod_cast Nat.log2_self_le h₁.ne') (by positivity)
  have hm : (m : ℚ) < 2 ^ (m.log2 + 1) := by exact_mod_cast Nat.lt_log2_self
  have hm₂ : (m₂ : ℚ) < 2 ^ (m₂.log2 + 1) := by exact_mod_cast Nat.lt_log2_self
  have hhigh : (m : ℚ) * 2 ^ q * (m₂ * 2 ^ e₂) <
      2 ^ (((m.log2 + 1 : ℕ) : ℤ) + q + (((m₂.log2 + 1 : ℕ) : ℤ) + e₂)) := by
    rw [zpow_add₀ two_ne_zero, zpow_add₀ two_ne_zero, zpow_add₀ two_ne_zero _ e₂, zpow_natCast,
      zpow_natCast]
    gcongr
  have hlt := (zpow_lt_zpow_iff_right₀ (by norm_num : (1 : ℚ) < 2)).mp (hlow.trans_lt (h ▸ hhigh))
  unfold totalExponent
  push_cast at hlt
  omega

theorem div_exact (hc : Canonical m q) (h₁ : 0 < m₁) (h₂ : 0 < m₂)
    (h : (m₁ : ℚ) * 2 ^ e₁ = m * 2 ^ q * (m₂ * 2 ^ e₂)) :
    UnpackedFloat.div Format.binary64 (.finite .positive m₁ e₁ h₁) (.finite .positive m₂ e₂ h₂) =
      .finite .positive m q hc.pos := by
  obtain ⟨t, ht⟩ : ∃ t, t = min (e₁ - e₂)
      (Format.binary64.targetExponent (totalExponent m₁ e₁ - totalExponent m₂ e₂)) := ⟨_, rfl⟩
  have htq : t ≤ q := by
    have hq := hc.target
    have htotal := totalExponent_div_le h₁ h
    unfold Format.targetExponent at ht hq
    omega
  have hqt : ((q - t).toNat : ℤ) = q - t := by omega
  -- the dividend is shifted so far that the division leaves no remainder
  have hdividend : m₁ <<< (e₁ - e₂ - t).toNat = m * 2 ^ (q - t).toNat * m₂ := by
    have hshift : ((e₁ - e₂ - t).toNat : ℤ) = e₁ - e₂ - t := by omega
    have hcast : ((m₁ * 2 ^ (e₁ - e₂ - t).toNat : ℕ) : ℚ) = (m * 2 ^ (q - t).toNat * m₂ : ℕ) := by
      push_cast
      rw [← zpow_natCast, ← zpow_natCast, hshift, hqt, zpow_sub₀ two_ne_zero, zpow_sub₀ two_ne_zero,
        zpow_sub₀ two_ne_zero]
      field_simp
      linarith
    rw [Nat.shiftLeft_eq]
    exact_mod_cast hcast
  have hcore : divCore Format.binary64 m₁ e₁ m₂ e₂ = (m * 2 ^ (q - t).toNat, t, .exact) := by
    unfold divCore
    simp only [← ht, hdividend, Nat.mul_div_cancel _ h₂, Nat.mul_mod_left]
    rfl
  unfold UnpackedFloat.div
  simp only [hcore]
  refine roundWithAccuracy_exact hc htq ?_
  push_cast
  rw [← zpow_natCast, hqt, zpow_sub₀ two_ne_zero]
  field_simp

end Rounding

/-! ## Bits of doubles -/

section Bits
variable {m : Nat} {q : Int}

/-- The exponent as the bits of a double spell it. -/
def exponentField (m : Nat) (q : Int) : Nat := if m < 2 ^ 52 then 0 else (q + 1075).toNat

theorem Canonical.exponentField_lt (hc : Canonical m q) : exponentField m q < 2047 := by
  have hgreatest := hc.greatest
  unfold exponentField
  split <;> omega

/-- The sign as the bits of a double spell it. -/
def signField : Sign → Nat
  | .negative => 2 ^ 63
  | .positive => 0

theorem toNat_packComponents (s : Sign) (e : BitVec 11) (f : BitVec 52) :
    (packComponents Format.binary64 s e f).toNat = signField s + e.toNat * 2 ^ 52 + f.toNat := by
  unfold packComponents
  rw [BitVec.toNat_append, BitVec.toNat_append, ← Nat.shiftLeft_add_eq_or_of_lt f.isLt,
    ← Nat.shiftLeft_add_eq_or_of_lt e.isLt, Nat.shiftLeft_eq, Nat.shiftLeft_eq, Nat.add_mul]
  cases s <;> rfl

theorem pack_finite (s : Sign) (hc : Canonical m q) :
    UnpackedFloat.pack Format.binary64 (.finite s m q hc.pos) =
      packComponents Format.binary64 s (BitVec.ofNat 11 (exponentField m q)) (BitVec.ofNat 52 m) := by
  have hbias : (q + (Format.binary64.exponentBias : Int) +
      (Format.binary64.mantissaBitsWithoutImplicit : Int)).toNat = (q + 1075).toNat := by
    show (q + 1023 + 52).toNat = _
    rw [Int.add_assoc]
    rfl
  have hbits : Format.binary64.mantissaBits = 53 := rfl
  have hlog := (Nat.log2_lt hc.pos.ne').mpr hc.bound
  have hleast := hc.least
  have hgreatest := hc.greatest
  have hfits : ¬ 2 ^ 11 ≤ (q + 1075).toNat + 1 := by omega
  unfold UnpackedFloat.pack exponentField
  simp only [hbias, hbits]
  rw [if_neg hfits]
  by_cases hm : m < 2 ^ 52
  · have hlow := (Nat.log2_lt hc.pos.ne').mpr hm
    rw [if_pos hm, if_neg (by omega)]
  · have hhigh := (Nat.le_log2 hc.pos.ne').mpr (Nat.le_of_not_lt hm)
    rw [if_neg hm, if_pos (by omega)]

/-- The double with a given value. -/
def Canonical.toDouble (hc : Canonical m q) : Float :=
  .ofModel (.pack (.finite .positive m q hc.pos))

/-- The double with a given magnitude and sign. -/
def Canonical.signed (hc : Canonical m q) (s : Sign) : Float :=
  .ofModel (.pack (.finite s m q hc.pos))

theorem Canonical.toBits_signed (hc : Canonical m q) (s : Sign) :
    (hc.signed s).toBits.toNat = signField s + exponentField m q * 2 ^ 52 + m % 2 ^ 52 := by
  have hfield := hc.exponentField_lt
  show (UnpackedFloat.pack Format.binary64 (.finite s m q hc.pos)).toNat = _
  rw [pack_finite s hc, toNat_packComponents, BitVec.toNat_ofNat, BitVec.toNat_ofNat,
    Nat.mod_eq_of_lt (show exponentField m q < 2 ^ 11 by omega)]

theorem Canonical.unpack_signed (hc : Canonical m q) (s : Sign) :
    (hc.signed s).toModel.unpack = .finite s m q hc.pos := by
  have hlt := hc.exponentField_lt
  have hfield : (BitVec.ofNat 11 (exponentField m q)).toNat = exponentField m q := by
    rw [BitVec.toNat_ofNat, Nat.mod_eq_of_lt (by omega)]
  have hfinite : BitVec.ofNat 11 (exponentField m q) ≠ -1#11 := by
    intro h
    have hones : (-1#11 : BitVec 11).toNat = 2047 := rfl
    rw [← h, hfield] at hones
    omega
  have hsign : Sign.ofBitVec (Sign.toBitVec s) = s := by cases s <;> rfl
  have hbias : Format.binary64.exponentBias = 1023 := rfl
  show UnpackedFloat.unpack Format.binary64
    (UnpackedFloat.pack Format.binary64 (.finite s m q hc.pos)) = _
  rw [pack_finite s hc]
  unfold UnpackedFloat.unpack
  simp only [UnpackedFloat.unpackMantissa_packComponents, UnpackedFloat.unpackExponent_packComponents,
    UnpackedFloat.unpackSign_packComponents, hfinite, if_false, hfield, hsign, hbias]
  have hleast := hc.least
  by_cases hm : m < 2 ^ 52
  · have hzero : exponentField m q = 0 := if_pos hm
    have hmantissa : (BitVec.ofNat 52 m).toNat = m := by rw [BitVec.toNat_ofNat, Nat.mod_eq_of_lt hm]
    have hne : BitVec.ofNat 52 m ≠ 0#52 := by
      intro h
      have hnat := congrArg BitVec.toNat h
      rw [hmantissa] at hnat
      exact hc.pos.ne' hnat
    have hform := hc.form
    simp only [hzero, if_true, hne, dite_false]
    congr 1
    omega
  · have hvalue : exponentField m q = (q + 1075).toNat := if_neg hm
    have hne : BitVec.ofNat 11 (exponentField m q) ≠ 0#11 := by
      intro h
      have hnat := congrArg BitVec.toNat h
      rw [hfield, hvalue] at hnat
      change (q + 1075).toNat = 0 at hnat
      omega
    have hmantissa : (1#1 ++ BitVec.ofNat 52 m).toNat = m := by
      have hbound := hc.bound
      rw [BitVec.toNat_append, ← Nat.shiftLeft_add_eq_or_of_lt (BitVec.isLt _), BitVec.toNat_ofNat]
      show 2 ^ 52 + m % 2 ^ 52 = m
      omega
    simp only [hne, if_false]
    congr 1
    omega

theorem Canonical.unpack_toDouble (hc : Canonical m q) :
    hc.toDouble.toModel.unpack = .finite .positive m q hc.pos := hc.unpack_signed .positive

theorem eq_of_toBits {x y : Float} (h : x.toBits.toNat = y.toBits.toNat) : x = y :=
  Float.toBits_inj.mp (UInt64.toNat_inj.mp h)

/-- The sign of a double, from what is read off its bits. -/
def signOf (negative : Bool) : Sign := if negative then .negative else .positive

theorem signField_signBit (x : Float) : signField (signOf (signBit x)) = x.toBits.toNat / 2 ^ 63 * 2 ^ 63 := by
  have hlt : x.toBits.toNat < 2 ^ 64 := UInt64.toNat_lt _
  unfold signBit
  by_cases h : x.toBits ≥ 0x8000000000000000
  · have hle : 2 ^ 63 ≤ x.toBits.toNat := UInt64.le_iff_toNat_le.mp h
    rw [decide_eq_true h, signOf, if_pos rfl, signField]
    omega
  · have hlt' : x.toBits.toNat < 2 ^ 63 := Nat.lt_of_not_le fun hle => h (UInt64.le_iff_toNat_le.mpr hle)
    rw [decide_eq_false h, signOf, if_neg Bool.false_ne_true, signField]
    omega

/-- **A finite double is a zero, or is known by its sign, its mantissa and its exponent.** -/
theorem eq_signed_of_classify {x : Float} {b : Binary} (h : classify x = .finite b) :
    (b.mantissa = 0 ∧ x.toBits.toNat = signField (signOf b.negative)) ∨
      ∃ hc : Canonical b.mantissa b.exponent, x = hc.signed (signOf b.negative) := by
  have hlt : x.toBits.toNat < 2 ^ 64 := UInt64.toNat_lt _
  have hfields := signField_signBit x
  have hhidden : Binary.hiddenBit = 2 ^ 52 := rfl
  unfold classify at h
  simp only [hhidden] at h
  split at h
  · split at h <;> cases h
  · rename_i hfinite
    split at h
    · rename_i hzero
      obtain rfl := DoubleClass.finite.inj h
      by_cases hm : x.toBits.toNat % 2 ^ 52 = 0
      · refine .inl ⟨hm, ?_⟩
        rw [hfields]
        omega
      · have hc : Canonical (x.toBits.toNat % 2 ^ 52) (-1074) :=
          ⟨Nat.pos_of_ne_zero hm, by omega, by omega, by omega, .inr rfl⟩
        refine .inr ⟨hc, eq_of_toBits ?_⟩
        have hfield : exponentField (x.toBits.toNat % 2 ^ 52) (-1074) = 0 := if_pos (by omega)
        refine Eq.trans ?_ (hc.toBits_signed _).symm
        rw [hfield, hfields]
        omega
    · rename_i hnormal
      obtain rfl := DoubleClass.finite.inj h
      have hc : Canonical (x.toBits.toNat % 2 ^ 52 + 2 ^ 52)
          ((x.toBits.toNat / 2 ^ 52 % 2048 : Nat) - 1075 : Int) :=
        ⟨by omega, by omega, by omega, by omega, .inl (by omega)⟩
      refine .inr ⟨hc, eq_of_toBits ?_⟩
      have hfield : exponentField (x.toBits.toNat % 2 ^ 52 + 2 ^ 52)
          ((x.toBits.toNat / 2 ^ 52 % 2048 : Nat) - 1075 : Int) = x.toBits.toNat / 2 ^ 52 % 2048 := by
        unfold exponentField
        rw [if_neg (by omega)]
        omega
      refine Eq.trans ?_ (hc.toBits_signed _).symm
      rw [hfield, hfields]
      omega

/-- A finite double that is not negative is zero, or is known by its mantissa and its exponent. -/
theorem eq_of_classify {x : Float} {b : Binary} (h : classify x = .finite b)
    (hsign : b.negative = false) :
    (b.mantissa = 0 ∧ x = 0) ∨ ∃ hc : Canonical b.mantissa b.exponent,
      x = hc.toDouble := by
  have hsigned := eq_signed_of_classify h
  rw [hsign] at hsigned
  exact hsigned.imp_left fun hzero => ⟨hzero.1, eq_of_toBits hzero.2⟩

end Bits

/-! ## Arithmetic without rounding -/

section Arithmetic
variable {m m₁ m₂ n : Nat} {q e₁ e₂ : Int}

theorem Canonical.mul (hc : Canonical m q) (h₁ : Canonical m₁ e₁) (h₂ : Canonical m₂ e₂)
    (hle : e₁ + e₂ ≤ q) (h : (m₁ : ℚ) * 2 ^ e₁ * (m₂ * 2 ^ e₂) = m * 2 ^ q) :
    h₁.toDouble * h₂.toDouble = hc.toDouble := by
  show Float.ofModel (.pack (UnpackedFloat.mul Format.binary64 h₁.toDouble.toModel.unpack
    h₂.toDouble.toModel.unpack)) = _
  rw [h₁.unpack_toDouble, h₂.unpack_toDouble, mul_exact hc h₁.pos h₂.pos hle h]
  rfl

theorem Canonical.div (hc : Canonical m q) (h₁ : Canonical m₁ e₁) (h₂ : Canonical m₂ e₂)
    (h : (m₁ : ℚ) * 2 ^ e₁ = m * 2 ^ q * (m₂ * 2 ^ e₂)) :
    h₁.toDouble / h₂.toDouble = hc.toDouble := by
  show Float.ofModel (.pack (UnpackedFloat.div Format.binary64 h₁.toDouble.toModel.unpack
    h₂.toDouble.toModel.unpack)) = _
  rw [h₁.unpack_toDouble, h₂.unpack_toDouble, div_exact hc h₁.pos h₂.pos h]
  rfl

theorem Canonical.ofNat (hc : Canonical m q) (hn : n < 2 ^ 64) (h : (n : ℚ) = m * 2 ^ q) :
    n.toUInt64.toFloat = hc.toDouble := by
  have hnat : n.toUInt64.toNat = n := Nat.mod_eq_of_lt hn
  show Float.ofModel (.pack (UnpackedFloat.ofNat Format.binary64 n.toUInt64.toNat)) = _
  rw [hnat, ofNat_exact hc h]
  rfl

end Arithmetic

/-! ## Reading a decimal number -/

/-- The value of a mantissa that was shifted to the left. -/
theorem shifted_value {n : Nat} (hlog : n.log2 ≤ 52) (j : Nat) :
    ((n * 2 ^ (52 - n.log2) : Nat) : ℚ) * 2 ^ ((n.log2 : Int) - 52 + j) = n * 2 ^ j := by
  have hexp : ((52 - n.log2 : ℕ) : ℤ) = 52 - (n.log2 : ℤ) := by omega
  push_cast
  rw [← zpow_natCast 2 (52 - n.log2), mul_assoc, ← zpow_add₀ two_ne_zero, hexp, ← zpow_natCast 2 j]
  congr 2
  omega

/-- The powers of ten that doubles hold. -/
theorem powers_of_ten : ∀ p : Fin 23, Float.exactlyRepresentablePowersOfTen[p.val]? =
    some (Float.ofModel (.pack (.finite .positive (5 ^ p.val * 2 ^ (52 - (5 ^ p.val).log2))
      (((5 ^ p.val).log2 : Int) - 52 + p.val)
      (Nat.mul_pos (Nat.pow_pos (Nat.succ_pos 4)) (Nat.two_pow_pos _))))) := by
  decide

section Scientific
variable {m n p : Nat} {q : Int}

theorem Canonical.le_of_eq (hc : Canonical m q) (h : (n : ℚ) = m * 2 ^ q) : (n.log2 : Int) - 52 ≤ q := by
  have htarget := hc.target_of_eq (show (n : ℚ) * 2 ^ (0 : ℤ) = m * 2 ^ q by rw [zpow_zero, mul_one, h])
  change max (((n.log2 : ℤ) + 1 + 0) - 53) (-1074) = q at htarget
  omega

/-- The number of places is bounded, since the value is not too small. -/
theorem Canonical.places_le (hc : Canonical m q) (h : (n : ℚ) = m * 2 ^ q * 10 ^ p) :
    p ≤ 2 ^ 11 + n.log2 := by
  have hlow : (2 : ℚ) ^ (-((1074 : ℕ) : ℤ) + (3 * p : ℤ)) ≤ n := by
    have hten : (2 : ℚ) ^ (3 * p : ℤ) ≤ 10 ^ p := by
      rw [zpow_mul, zpow_natCast]
      exact pow_le_pow_left₀ (by norm_num) (by norm_num) p
    have hvalue := hc.le_value
    rw [h, zpow_add₀ two_ne_zero]
    gcongr
  have hhigh : (n : ℚ) < 2 ^ ((n.log2 + 1 : ℕ) : ℤ) := by
    rw [zpow_natCast]
    exact_mod_cast Nat.lt_log2_self
  have hlt := (zpow_lt_zpow_iff_right₀ (by norm_num : (1 : ℚ) < 2)).mp (hlow.trans_lt hhigh)
  omega

theorem five_pow_pos (p : Nat) : 0 < 5 ^ p := Nat.pow_pos (Nat.succ_pos 4)

theorem five_pow_lt (hp : p ≤ 22) : 5 ^ p < 2 ^ 53 := by
  calc 5 ^ p ≤ 5 ^ 22 := Nat.pow_le_pow_right (by norm_num) hp
    _ < 2 ^ 53 := by norm_num

theorem log2_le_of_lt (hn : 0 < n) (hlt : n < 2 ^ 53) : n.log2 ≤ 52 :=
  Nat.le_of_lt_succ ((Nat.log2_lt hn.ne').mpr hlt)

theorem number_value (hn : 0 < n) (hlt : n < 2 ^ 53) :
    ((n * 2 ^ (52 - n.log2) : Nat) : ℚ) * 2 ^ ((n.log2 : Int) - 52 + (0 : Nat)) = n := by
  rw [shifted_value (log2_le_of_lt hn hlt), pow_zero, mul_one]

theorem power_value (hp : p ≤ 22) :
    ((5 ^ p * 2 ^ (52 - (5 ^ p).log2) : Nat) : ℚ) * 2 ^ (((5 ^ p).log2 : Int) - 52 + p) = 10 ^ p := by
  rw [shifted_value (log2_le_of_lt (five_pow_pos p) (five_pow_lt hp))]
  push_cast
  rw [← mul_pow]
  norm_num

/-- Small numbers are read by arithmetic on doubles. -/
theorem ofScientific_operands (hn : 0 < n) (hlt : n < 2 ^ 53) (hp : p ≤ 22) (divides : Bool) :
    Float.ofScientific n divides p =
      let number := (canonical_of_lt hn hlt (Nat.zero_le 22)).toDouble
      let power := (canonical_of_lt (five_pow_pos p) (five_pow_lt hp) hp).toDouble
      if divides then number / power else number * power := by
  have hfloat := (canonical_of_lt hn hlt (Nat.zero_le 22)).ofNat (by omega) (number_value hn hlt).symm
  obtain ⟨_, hpower⟩ := Array.getElem?_eq_some_iff.mp (powers_of_ten ⟨p, by omega⟩)
  unfold Float.ofScientific
  rw [dif_pos ⟨hlt, hp⟩]
  simp only [hfloat, hpower]
  rfl

theorem ofScientific_fast (hc : Canonical m q) (hn : 0 < n) (hlt : n < 2 ^ 53) (hp : p ≤ 22)
    (h : (n : ℚ) = m * 2 ^ q * 10 ^ p) : Float.ofScientific n (decide (0 < p)) p = hc.toDouble := by
  rw [ofScientific_operands hn hlt hp]
  by_cases hzero : 0 < p
  · rw [decide_eq_true hzero]
    refine hc.div _ _ ?_
    rw [number_value hn hlt, power_value hp, h]
  · rw [decide_eq_false hzero]
    obtain rfl : p = 0 := by omega
    refine hc.mul _ _ ?_ ?_
    · rw [pow_zero, mul_one] at h
      have hle := hc.le_of_eq h
      have hone : (5 ^ 0).log2 = 0 := rfl
      omega
    · rw [number_value hn hlt, power_value hp, h, pow_zero, mul_one, mul_one]

/-- **A decimal number that is the value of a double is read as this double.** -/
theorem ofScientific_exact (hc : Canonical m q) (h : (n : ℚ) = m * 2 ^ q * 10 ^ p) :
    Float.ofScientific n (decide (0 < p)) p = hc.toDouble := by
  have hn : 0 < n := by
    have hm := hc.pos
    have hpos : (0 : ℚ) < n := by rw [h]; positivity
    exact_mod_cast hpos
  by_cases hfast : n < 2 ^ 53 ∧ p ≤ 22
  · exact ofScientific_fast hc hn hfast.1 hfast.2 h
  have hbits : (2 : Int) ^ Format.binary64.exponentBits = 2048 := rfl
  unfold Float.ofScientific
  rw [dif_neg hfast]
  by_cases hzero : 0 < p
  · have hplaces := hc.places_le h
    have hscale : (-(-(p : Int))).toNat = p := by omega
    rw [decide_eq_true hzero, if_pos rfl, Int.negOfNat_eq]
    refine congrArg (fun u => Float.ofModel (.pack u)) ?_
    unfold UnpackedFloat.ofScientific
    simp only [Int.ofNat_eq_natCast, hbits]
    rw [dif_neg hn.ne', if_neg (by omega), if_neg (by omega), if_neg (by omega)]
    refine div_exact hc _ _ ?_
    rw [hscale, zpow_zero, mul_one, mul_one, h]
    push_cast
    rfl
  · obtain rfl : p = 0 := by omega
    rw [pow_zero, mul_one] at h
    have hle := hc.le_of_eq h
    have hmantissa : Format.binary64.mantissaBits = 53 := rfl
    rw [decide_eq_false hzero, if_neg Bool.false_ne_true]
    refine congrArg (fun u => Float.ofModel (.pack u)) ?_
    unfold UnpackedFloat.ofScientific
    simp only [Int.ofNat_eq_natCast, Int.natCast_zero, hbits]
    rw [dif_neg hn.ne', if_neg (by omega), if_neg (by omega), if_pos (by omega)]
    refine mul_exact hc _ _ ?_ ?_
    · rw [hmantissa]
      omega
    · rw [Nat.shiftLeft_eq, hmantissa, ← h]
      push_cast
      norm_num
      ring

end Scientific

end Double

/-! ## Exact numerals -/

namespace Binary

/-- The number of decimal places of a binary fraction. -/
def places (b : Binary) : Nat :=
  match b.exponent with
  | .ofNat _ => 0
  | .negSucc e => ((List.range (e + 1)).find? fun p => b.mantissa * 10 ^ p % 2 ^ (e + 1) = 0).getD (e + 1)

/-- The decimal digits of a binary fraction, those behind the point included, as a number. -/
def digits (b : Binary) : Nat :=
  match b.exponent with
  | .ofNat e => b.mantissa * 2 ^ e
  | .negSucc e => b.mantissa * 10 ^ b.places / 2 ^ (e + 1)

theorem digits_eq (b : Binary) : (b.digits : ℚ) = b.mantissa * 2 ^ b.exponent * 10 ^ b.places := by
  obtain ⟨negative, m, exponent⟩ := b
  cases exponent with
  | ofNat e => simp [digits, places]
  | negSucc e =>
    have hdvd : 2 ^ (e + 1) ∣ m * 10 ^ places ⟨negative, m, .negSucc e⟩ := by
      unfold places
      simp only
      cases hfind : (List.range (e + 1)).find? fun p => m * 10 ^ p % 2 ^ (e + 1) = 0 with
      | some p =>
        have hzero := List.find?_some hfind
        exact Nat.dvd_of_mod_eq_zero (of_decide_eq_true hzero)
      | none => exact Dvd.dvd.mul_left (pow_dvd_pow_of_dvd ⟨5, rfl⟩ (e + 1)) m
    have hdigits : digits ⟨negative, m, .negSucc e⟩ * 2 ^ (e + 1) =
        m * 10 ^ places ⟨negative, m, .negSucc e⟩ := Nat.div_mul_cancel hdvd
    have hcast : (digits ⟨negative, m, .negSucc e⟩ : ℚ) * 2 ^ (e + 1) =
        m * 10 ^ places ⟨negative, m, .negSucc e⟩ := by exact_mod_cast hdigits
    rw [zpow_negSucc]
    field_simp
    exact hcast

end Binary

section Digits

theorem digitsValue_toDigits (n : Nat) : digitsValue (Nat.toDigits 10 n) = n := by
  have hfold : (fun (n : Nat) (c : Char) => n * 10 + (c.toNat - '0'.toNat)) =
      fun n c => 10 * n + (c.toNat - '0'.toNat) := by
    funext n c
    rw [Nat.mul_comm]
  unfold digitsValue
  rw [hfold]
  exact Nat.ofDigitChars_ten_toDigits

theorem digitsValue_replicate (k : Nat) (digits : List Char) :
    digitsValue (List.replicate k '0' ++ digits) = digitsValue digits := by
  induction k with
  | zero => rfl
  | succ k ih => exact ih

theorem isDigit_of_mem_toDigits {n : Nat} {c : Char} (h : c ∈ Nat.toDigits 10 n) :
    Text.isDigit c = true := by
  have hdigit := Nat.isDigit_of_mem_toDigits (by omega) (by omega) h
  simpa [Text.isDigit, Char.isDigit, Char.le_def] using hdigit

end Digits

namespace Numeral

/-- The shortest numeral with exactly the value of a binary fraction, its sign apart. -/
def exact (b : Binary) : Numeral :=
  let digits := Nat.toDigits 10 b.digits
  let padded := List.replicate (b.places + 1 - digits.length) '0' ++ digits
  let whole := padded.length - b.places
  ⟨padded.take whole, padded.drop whole, 0⟩

/-- A numeral as it can be written: digits in front of the point, and only digits behind it. -/
structure Written (n : Numeral) : Prop where
  ne_nil : n.whole ≠ []
  whole : ∀ c ∈ n.whole, Text.isDigit c = true
  fraction : ∀ c ∈ n.fraction, Text.isDigit c = true

theorem length_fraction_exact (b : Binary) : (exact b).fraction.length = b.places := by
  simp only [exact, List.length_drop, List.length_append, List.length_replicate]
  omega

theorem digits_exact (b : Binary) : (exact b).whole ++ (exact b).fraction =
    List.replicate (b.places + 1 - (Nat.toDigits 10 b.digits).length) '0' ++ Nat.toDigits 10 b.digits :=
  List.take_append_drop _ _

theorem exact_written (b : Binary) : (exact b).Written := by
  have hdigits : ∀ c ∈ (exact b).whole ++ (exact b).fraction, Text.isDigit c = true := by
    intro c hc
    rw [digits_exact] at hc
    rcases List.mem_append.mp hc with hc | hc
    · rw [(List.mem_replicate.mp hc).2]
      rfl
    · exact isDigit_of_mem_toDigits hc
  refine ⟨?_, fun c hc => hdigits c (List.mem_append_left _ hc),
    fun c hc => hdigits c (List.mem_append_right _ hc)⟩
  have hlength := congrArg List.length (digits_exact b)
  rw [List.length_append, List.length_append, List.length_replicate, length_fraction_exact] at hlength
  refine List.ne_nil_of_length_pos ?_
  omega

theorem pow_two_le_pow_ten {a b : Nat} (h : 2 ^ a ≤ 10 ^ b) : (2 : ℚ) ^ (a : ℤ) ≤ 10 ^ b := by
  rw [zpow_natCast]
  exact_mod_cast h

/-- There is room for the numerals of all values of doubles. -/
theorem nearest_exact {m n p : Nat} {q : Int} (hc : Double.Canonical m q)
    (h : (n : ℚ) = m * 2 ^ q * 10 ^ p) : nearest n (-p) = hc.toDouble := by
  have hm : (0 : ℚ) < m := by exact_mod_cast hc.pos
  have hscale : (0 : ℚ) < 10 ^ p := by positivity
  have hn : n ≠ 0 := by
    have hpos : (0 : ℚ) < n := by rw [h]; positivity
    exact (by exact_mod_cast hpos : 0 < n).ne'
  have hhigh : (Nat.toDigits 10 n).length ≤ p + 310 := by
    have hrange := pow_two_le_pow_ten (show 2 ^ 1024 ≤ 10 ^ 310 by decide +kernel)
    have hlt : (n : ℚ) < 10 ^ (p + 310) := by
      calc (n : ℚ) = m * 2 ^ q * 10 ^ p := h
        _ < 10 ^ 310 * 10 ^ p := mul_lt_mul_of_pos_right (hc.value_lt.trans_le hrange) hscale
        _ = 10 ^ (p + 310) := by rw [Nat.add_comm, pow_add]
    rw [Nat.length_toDigits_le_iff (by norm_num) (by omega)]
    exact_mod_cast hlt
  have hlow : p ≤ (Nat.toDigits 10 n).length + 330 := by
    have hrange := pow_two_le_pow_ten (show 2 ^ 1074 ≤ 10 ^ 331 by decide +kernel)
    by_contra hshort
    have hlt : (n : ℚ) < 10 ^ (p - 331) := by
      have hpos := @Nat.length_toDigits_pos 10 n
      exact_mod_cast (Nat.length_toDigits_le_iff (by norm_num) (by omega)).mp
        (show (Nat.toDigits 10 n).length ≤ p - 331 by omega)
    have hle : (10 : ℚ) ^ p ≤ n * 2 ^ ((1074 : ℕ) : ℤ) := by
      have hvalue := mul_le_mul_of_nonneg_right hc.le_value hscale.le
      rwa [← h, zpow_neg, inv_mul_le_iff₀ (by positivity), mul_comm] at hvalue
    refine absurd hle (not_le_of_gt ?_)
    calc (n : ℚ) * 2 ^ ((1074 : ℕ) : ℤ) < 10 ^ (p - 331) * 2 ^ ((1074 : ℕ) : ℤ) :=
          mul_lt_mul_of_pos_right hlt (by positivity)
      _ ≤ 10 ^ (p - 331) * 10 ^ 331 := mul_le_mul_of_nonneg_left hrange (by positivity)
      _ = 10 ^ p := by rw [← pow_add, Nat.sub_add_cancel (by omega)]
  unfold nearest
  have hneg : decide (-(p : Int) < 0) = decide (0 < p) := by
    rw [decide_eq_decide]
    omega
  rw [if_neg hn]
  simp only [Int.natAbs_neg, Int.natAbs_natCast, hneg]
  rw [if_neg (by omega), if_neg (by omega)]
  exact Double.ofScientific_exact hc h

/-- **A double is read back from its exact numeral.** -/
theorem toDouble_exact {x : Float} {b : Binary} (h : Double.classify x = .finite b)
    (hsign : b.negative = false) : (exact b).toDouble = x := by
  have hvalue : (exact b).toDouble = nearest b.digits (-b.places) := by
    unfold toDouble
    rw [digits_exact, digitsValue_replicate, digitsValue_toDigits, length_fraction_exact]
    exact congrArg (nearest b.digits) (Int.zero_sub _)
  rw [hvalue]
  rcases Double.eq_of_classify h hsign with ⟨hm, rfl⟩ | ⟨hc, rfl⟩
  · have hdigits : b.digits = 0 := by
      have hzero := b.digits_eq
      rw [hm] at hzero
      simpa using hzero
    rw [hdigits]
    rfl
  · exact nearest_exact hc b.digits_eq

/-- The exact numeral of a whole number is a row of digits. -/
theorem exact_of_isWhole {b : Binary} (h : b.isWhole = true) :
    exact b = ⟨Nat.toDigits 10 b.wholePart, [], 0⟩ := by
  obtain ⟨negative, m, exponent⟩ := b
  have hparts : Binary.places ⟨negative, m, exponent⟩ = 0 ∧
      Binary.digits ⟨negative, m, exponent⟩ = Binary.wholePart ⟨negative, m, exponent⟩ := by
    cases exponent with
    | ofNat e => exact ⟨rfl, (Nat.shiftLeft_eq m e).symm⟩
    | negSucc e =>
      have hzero : m % 2 ^ (e + 1) = 0 := of_decide_eq_true h
      have hplaces : Binary.places ⟨negative, m, .negSucc e⟩ = 0 := by
        simp [Binary.places, List.range_succ_eq_map, hzero]
      refine ⟨hplaces, ?_⟩
      simp only [Binary.digits, hplaces, pow_zero, Nat.mul_one, Binary.wholePart, Nat.shiftRight_eq_div_pow]
  obtain ⟨hplaces, hdigits⟩ := hparts
  have hlength := @Nat.length_toDigits_pos 10 (Binary.wholePart ⟨negative, m, exponent⟩)
  have hpad : 0 + 1 - (Nat.toDigits 10 (Binary.wholePart ⟨negative, m, exponent⟩)).length = 0 := by omega
  simp only [exact, hplaces, hdigits, hpad, List.replicate_zero, List.nil_append, Nat.sub_zero,
    List.take_length, List.drop_length]

end Numeral

end PipeExpr
