import PipeExpr.Proofs.Indices

/-!
# Overflow of decimal numbers

A decimal number is read as infinity just if it is at least half a unit above the greatest double
(`Numeral.nearest_saturates`), whatever its digits and its exponent are: there is no numeral that is read as
NaN, and none is lost on the way to its value.

Rounding shifts bits out of a mantissa and keeps two things about them, of which the round bit alone decides
about overflow: the greatest mantissa is odd, so with its round bit set it is rounded up, and a tie no less.
What is carried through the shifts is therefore a bracket of half a unit around the number
(`Brackets.shift`), and a quotient comes with such a bracket whatever its remainder is
(`Brackets.of_fraction`).
-/

namespace PipeExpr

open Float.Model (Format totalExponent UnpackedFloat)
open Float.Model.UnpackedFloat (ExtendedMantissa Accuracy shiftToTargetExponent roundWithAccuracy
  accuracyOfFraction divCore)

namespace Double

/-- The least number that is rounded to infinity, half a unit above the greatest double. -/
def overflow : ℚ := 2 ^ 1024 - 2 ^ 970

/-- What a number is rounded to, as far as overflow goes: a finite double below it, and infinity from it on. -/
def Saturates (x : ℚ) (y : Float) : Prop :=
  x < overflow ∧ isFinite y = true ∨ overflow ≤ x ∧ classify y = .infinite false

theorem Saturates.infinite {x : ℚ} {y : Float} (h : Saturates x y) (hx : overflow ≤ x) :
    classify y = .infinite false :=
  (h.resolve_left fun hfinite => hx.not_gt hfinite.1).2

theorem Saturates.isFinite_iff {x : ℚ} {y : Float} (h : Saturates x y) : isFinite y = true ↔ x < overflow := by
  rcases h with ⟨hx, hfinite⟩ | ⟨hx, hinfinite⟩
  · exact iff_of_true hfinite hx
  · refine iff_of_false ?_ hx.not_gt
    rw [isFinite, hinfinite]
    exact Bool.false_ne_true

theorem overflow_eq : 2 * overflow = ((2 ^ 54 - 1 : ℕ) : ℚ) * 2 ^ ((971 : ℕ) : ℤ) := by
  have htop : (2 : ℚ) ^ 1024 = 2 ^ 54 * 2 ^ 970 := by rw [← pow_add]
  have hunit : (2 : ℚ) ^ ((971 : ℕ) : ℤ) = 2 * 2 ^ 970 := by rw [zpow_natCast, ← pow_succ']
  rw [overflow, htop, hunit]
  generalize (2 : ℚ) ^ 970 = unit
  push_cast
  ring

theorem one_le_overflow : 1 ≤ overflow := by
  have hunit : (1 : ℚ) ≤ 2 ^ 970 := one_le_pow₀ one_le_two
  have hdouble : (2 : ℚ) * 2 ^ 970 ≤ 2 ^ 1024 := by
    rw [← pow_succ']
    exact pow_le_pow_right₀ one_le_two (by norm_num)
  unfold overflow
  generalize (2 : ℚ) ^ 970 = unit at *
  generalize (2 : ℚ) ^ 1024 = top at *
  linarith

theorem overflow_le : overflow ≤ 10 ^ ((310 : ℕ) : ℤ) := by
  have hrange := Numeral.pow_two_le_pow_ten (show 2 ^ 1024 ≤ 10 ^ 310 by decide +kernel)
  rw [zpow_natCast] at hrange ⊢
  exact (sub_le_self _ (by positivity)).trans hrange

/-! ## Bits behind the mantissa -/

/-- A number that lies in the half unit that a mantissa and its round bit stand for. -/
structure Brackets (em : ExtendedMantissa) (e : Int) (x : ℚ) : Prop where
  low : ((2 * em.mantissa + em.roundBit.toNat : ℕ) : ℚ) * 2 ^ e ≤ 2 * x
  high : 2 * x < ((2 * em.mantissa + em.roundBit.toNat + 1 : ℕ) : ℚ) * 2 ^ e

namespace Brackets
variable {em : ExtendedMantissa} {e : Int} {x : ℚ}

theorem shiftRightOne (h : Brackets em e x) : Brackets em.shiftRightOne (e + 1) x := by
  obtain ⟨m, roundBit, stickyBit⟩ := em
  obtain ⟨low, high⟩ := h
  have hbit : (m % 2 != 0).toNat = m % 2 := by
    rcases Nat.mod_two_eq_zero_or_one m with h | h <;> rw [h] <;> rfl
  have hround : roundBit.toNat ≤ 1 := Bool.toNat_le roundBit
  have hdouble : ∀ n : ℕ, (n : ℚ) * 2 ^ (e + 1) = ((2 * n : ℕ) : ℚ) * 2 ^ e := by
    intro n
    rw [zpow_add_one₀ two_ne_zero]
    push_cast
    ring
  constructor
  · refine le_trans ?_ low
    rw [hdouble]
    gcongr
    simp only [ExtendedMantissa.shiftRightOne, hbit]
    omega
  · refine high.trans_le ?_
    rw [hdouble]
    gcongr
    simp only [ExtendedMantissa.shiftRightOne, hbit]
    omega

/-- **The bracket is kept** as bits are shifted out of the mantissa. -/
theorem shift (h : Brackets em e x) (k : Nat) :
    Brackets (k.repeat ExtendedMantissa.shiftRightOne em) (e + k) x := by
  induction k with
  | zero => simpa [Nat.repeat] using h
  | succ k ih =>
    rw [Nat.repeat, Nat.cast_succ, ← add_assoc]
    exact ih.shiftRightOne

/-- The bracket of a quotient and its remainder. -/
theorem of_fraction {M r d : Nat} (hlt : r < d) (h : x * d = (M * d + r : ℕ) * 2 ^ e) :
    Brackets (.ofMantissaAndAccuracy M (accuracyOfFraction r d)) e x := by
  have hd : (0 : ℚ) < d := by exact_mod_cast (Nat.zero_le r).trans_lt hlt
  have htwice : 2 * x * d = (2 * (M * d + r) : ℕ) * 2 ^ e := by
    rw [mul_assoc, h]
    push_cast
    ring
  have hbracket : ∀ roundBit stickyBit : Bool, roundBit.toNat * d ≤ 2 * r →
      2 * r < (roundBit.toNat + 1) * d → Brackets ⟨M, roundBit, stickyBit⟩ e x := by
    intro roundBit stickyBit hlow hhigh
    constructor
    · refine le_of_mul_le_mul_right ?_ hd
      rw [htwice, mul_right_comm, ← Nat.cast_mul]
      refine mul_le_mul_of_nonneg_right (Nat.cast_le.mpr ?_) (by positivity)
      linarith
    · refine lt_of_mul_lt_mul_right ?_ hd.le
      rw [htwice, mul_right_comm, ← Nat.cast_mul]
      refine mul_lt_mul_of_pos_right (Nat.cast_lt.mpr ?_) (by positivity)
      linarith
  unfold accuracyOfFraction
  split
  · exact hbracket false false (by simp) (by simp; omega)
  rcases Nat.lt_trichotomy (2 * r) d with hcmp | hcmp | hcmp
  · rw [Nat.compare_eq_lt.mpr hcmp]
    exact hbracket false true (by simp) (by simpa using hcmp)
  · rw [Nat.compare_eq_eq.mpr hcmp]
    exact hbracket true false (by simp [hcmp]) (by simp; omega)
  · rw [Nat.compare_eq_gt.mpr hcmp]
    exact hbracket true true (by simp; omega) (by simp; omega)

end Brackets

/-! ## Rounding -/

section Rounding
variable {m M : Nat} {e t : Int} {x : ℚ} {acc : Accuracy} {em : ExtendedMantissa}

/-- No double has an exponent as large. -/
theorem pack_infinite (hpos : 0 < m) (h : 972 ≤ t) :
    Float.ofModel (.pack (.finite .positive m t hpos)) = Float.ofModel (.pack (.infinity .positive)) := by
  have hbiased : (t + (Format.binary64.exponentBias : Int) +
      (Format.binary64.mantissaBitsWithoutImplicit : Int)).toNat = (t + 1075).toNat := by
    show (t + 1023 + 52).toNat = _
    rw [Int.add_assoc]
    rfl
  have hover : 2 ^ 11 ≤ (t + 1075).toNat + 1 := by omega
  have hpack : UnpackedFloat.pack Format.binary64 (.finite .positive m t hpos) =
      UnpackedFloat.packedInfinity Format.binary64 .positive := by
    unfold UnpackedFloat.pack
    simp only [hbiased]
    rw [if_pos hover]
  unfold Float.Model.pack
  simp only [hpack]
  rfl

theorem classify_infinity : classify (Float.ofModel (.pack (.infinity .positive))) = .infinite false := by
  decide +kernel

/-- What is left of rounding once the bits behind the mantissa are gone. -/
theorem roundWithAccuracy_shifted {em' : ExtendedMantissa} {t' : Int}
    (h : shiftToTargetExponent Format.binary64 M e acc = (em, t))
    (h' : shiftToTargetExponent Format.binary64 em.roundedMantissa t .exact = (em', t')) :
    roundWithAccuracy Format.binary64 .positive M e acc =
      if hm : em'.mantissa = 0 then .zero .positive
      else .finite .positive em'.mantissa t' (Nat.pos_of_ne_zero hm) := by
  unfold roundWithAccuracy
  rw [h]
  dsimp only
  rw [h']

/-- A rounded mantissa that a double has room for makes a finite one. -/
theorem isFinite_of_room (h : shiftToTargetExponent Format.binary64 M e acc = (em, t))
    (hhigh : em.roundedMantissa ≤ 2 ^ 53) (hform : 2 ^ 52 ≤ em.roundedMantissa ∨ t = -1074)
    (hleast : -1074 ≤ t) (hgreatest : t ≤ 971) (hroom : em.roundedMantissa = 2 ^ 53 → t ≠ 971) :
    isFinite (Float.ofModel (.pack (roundWithAccuracy Format.binary64 .positive M e acc))) = true := by
  rcases Nat.eq_zero_or_pos em.roundedMantissa with hzero | hpos
  · have hbottom : t = -1074 := by omega
    have h' : shiftToTargetExponent Format.binary64 em.roundedMantissa t .exact =
        (⟨0, false, false⟩, -1074) := by
      rw [hzero, hbottom]
      rfl
    rw [roundWithAccuracy_shifted h h', dif_pos rfl]
    decide +kernel
  · obtain ⟨m, q, hc, hle, hvalue⟩ := exists_canonical hpos hhigh hform hleast hgreatest hroom
    rw [roundWithAccuracy_shifted h (shiftToTargetExponent_exact hc hle hvalue), dif_neg hc.pos.ne']
    exact isFinite_of_classify hc.classify_toDouble

/-- A rounded mantissa that no double has room for makes infinity. -/
theorem infinite_of_no_room (h : shiftToTargetExponent Format.binary64 M e acc = (em, t))
    (hlow : 2 ^ 52 ≤ em.roundedMantissa) (hhigh : em.roundedMantissa ≤ 2 ^ 53) (hover : 971 ≤ t)
    (hroom : t = 971 → em.roundedMantissa = 2 ^ 53) :
    classify (Float.ofModel (.pack (roundWithAccuracy Format.binary64 .positive M e acc))) =
      .infinite false := by
  obtain ⟨k, hk, hlog⟩ : ∃ k : Nat, k ≤ 1 ∧ em.roundedMantissa.log2 = 52 + k := by
    have hge := (Nat.le_log2 (show em.roundedMantissa ≠ 0 by omega)).mpr hlow
    have hlt := (Nat.log2_lt (show em.roundedMantissa ≠ 0 by omega)).mpr
      (show em.roundedMantissa < 2 ^ 54 by omega)
    exact ⟨em.roundedMantissa.log2 - 52, by omega, by omega⟩
  have htarget : Format.binary64.targetExponent (totalExponent em.roundedMantissa t) = t + k := by
    show max (((em.roundedMantissa.log2 : ℤ) + 1 + t) - 53) (-1074) = t + k
    omega
  have hpos : 0 < em.roundedMantissa / 2 ^ k :=
    Nat.div_pos ((Nat.pow_le_pow_right (by decide) (by omega)).trans hlow) (by positivity)
  have hexponent : 972 ≤ t + k := by
    by_cases ht : t = 971
    · rw [hroom ht, Nat.log2_two_pow] at hlog
      omega
    · omega
  rw [roundWithAccuracy_shifted h (shiftToTargetExponent_of_target .exact htarget)]
  simp only [mantissa_repeat_shiftRightOne, mantissa_ofMantissaAndAccuracy]
  rw [dif_neg hpos.ne', pack_infinite hpos hexponent, classify_infinity]

theorem roundedMantissa_of_odd (h : em.mantissa % 2 = 1) :
    em.roundedMantissa = em.mantissa + em.roundBit.toNat := by
  obtain ⟨m, roundBit, stickyBit⟩ := em
  cases roundBit <;> cases stickyBit <;>
    simp only [ExtendedMantissa.roundedMantissa, ExtendedMantissa.accuracy, Accuracy.roundToNearestEven,
      Bool.toNat_true, Bool.toNat_false, Nat.add_zero] at h ⊢
  rw [h]

theorem scaled_le {a b k : Nat} {p q : Int} (hexp : p + k ≤ q) (h : a ≤ b * 2 ^ k) :
    (a : ℚ) * 2 ^ p ≤ b * 2 ^ q := by
  calc (a : ℚ) * 2 ^ p ≤ ((b * 2 ^ k : ℕ) : ℚ) * 2 ^ p := by gcongr
    _ = b * 2 ^ (p + k) := by
      rw [zpow_add₀ two_ne_zero, zpow_natCast]
      push_cast
      ring
    _ ≤ b * 2 ^ q := by
      gcongr
      norm_num

/-- **Numbers from the overflow on are rounded to infinity, and no others are.** -/
theorem roundWithAccuracy_saturates (hle : e ≤ Format.binary64.targetExponent (totalExponent M e))
    (h : Brackets (.ofMantissaAndAccuracy M acc) e x) :
    Saturates x (Float.ofModel (.pack (roundWithAccuracy Format.binary64 .positive M e acc))) := by
  obtain ⟨k, hk⟩ : ∃ k : Nat, Format.binary64.targetExponent (totalExponent M e) = e + k :=
    ⟨(Format.binary64.targetExponent (totalExponent M e) - e).toNat, by omega⟩
  have hsize : max (((M.log2 : ℤ) + 1 + e) - 53) (-1074) = e + k := hk
  have hshift := shiftToTargetExponent_of_target acc hk
  have hshifted := h.shift k
  have hquotient := mantissa_repeat_shiftRightOne (.ofMantissaAndAccuracy M acc) k
  rw [mantissa_ofMantissaAndAccuracy] at hquotient
  generalize k.repeat ExtendedMantissa.shiftRightOne (.ofMantissaAndAccuracy M acc) = em
    at hshift hshifted hquotient
  generalize ht : e + (k : ℤ) = t at hshift hshifted hsize
  have hbound : em.mantissa < 2 ^ 53 := by
    rw [hquotient, Nat.div_lt_iff_lt_mul (by positivity), ← pow_add]
    exact Nat.lt_log2_self.trans_le (Nat.pow_le_pow_right (by decide) (by omega))
  have hleast : -1074 ≤ t := by omega
  have hform : 2 ^ 52 ≤ em.mantissa ∨ t = -1074 := by
    by_cases hbottom : t = -1074
    · exact .inr hbottom
    · have hlog : M.log2 = 52 + k := by omega
      have hM : M ≠ 0 := by
        rintro rfl
        rw [Nat.log2_zero] at hlog
        omega
      left
      rw [hquotient, Nat.le_div_iff_mul_le (by positivity), ← pow_add, ← hlog]
      exact Nat.log2_self_le hM
  have hrounded := roundedMantissa_bounds em
  have hround : em.roundBit.toNat ≤ 1 := Bool.toNat_le _
  have hodd : em.mantissa = 2 ^ 53 - 1 → em.roundedMantissa = em.mantissa + em.roundBit.toNat :=
    fun hgreatest => roundedMantissa_of_odd (by omega)
  by_cases hfull : 972 ≤ t ∨ (t = 971 ∧ em.roundedMantissa = 2 ^ 53)
  · refine .inr ⟨?_, infinite_of_no_room hshift (by omega) (by omega) (by omega) (by omega)⟩
    refine le_of_mul_le_mul_left (le_trans ?_ hshifted.low) two_pos
    rw [overflow_eq]
    rcases hfull with hlarge | ⟨rfl, hcarry⟩
    · exact @scaled_le _ _ 1 _ _ (by omega) (by omega)
    · exact @scaled_le _ _ 0 _ _ (by omega) (by omega)
  · refine .inl ⟨?_, isFinite_of_room hshift (by omega) (by omega) hleast (by omega) (by omega)⟩
    refine lt_of_mul_lt_mul_left (hshifted.high.trans_le ?_) zero_le_two
    rw [overflow_eq]
    rcases le_or_gt t 970 with hsmall | hlast
    · exact @scaled_le _ _ 1 _ _ (by omega) (by omega)
    · exact @scaled_le _ _ 0 _ _ (by omega) (by omega)

end Rounding

/-! ## Products and quotients -/

section Operations
variable {m₁ m₂ : Nat} {e₁ e₂ : Int} {x : ℚ}

theorem mul_saturates (h₁ : 0 < m₁) (h₂ : 0 < m₂) (hbits : 52 ≤ m₁.log2) :
    Saturates (m₁ * 2 ^ e₁ * (m₂ * 2 ^ e₂)) (Float.ofModel (.pack (UnpackedFloat.mul Format.binary64
      (.finite .positive m₁ e₁ h₁) (.finite .positive m₂ e₂ h₂)))) := by
  have hlog : m₁.log2 ≤ (m₁ * m₂).log2 := by
    rw [Nat.le_log2 (by positivity)]
    exact (Nat.log2_self_le h₁.ne').trans (Nat.le_mul_of_pos_right _ h₂)
  refine @roundWithAccuracy_saturates (m₁ * m₂) (e₁ + e₂) _ .exact ?_ ?_
  · show e₁ + e₂ ≤ max ((((m₁ * m₂).log2 : ℤ) + 1 + (e₁ + e₂)) - 53) (-1074)
    omega
  · refine @Brackets.of_fraction _ _ (m₁ * m₂) 0 1 Nat.one_pos ?_
    rw [zpow_add₀ two_ne_zero]
    push_cast
    ring

theorem div_saturates (h₁ : 0 < m₁) (h₂ : 0 < m₂) (hx : x * (m₂ * 2 ^ e₂) = m₁ * 2 ^ e₁) :
    Saturates x (Float.ofModel (.pack (UnpackedFloat.div Format.binary64
      (.finite .positive m₁ e₁ h₁) (.finite .positive m₂ e₂ h₂)))) := by
  obtain ⟨t, ht⟩ : ∃ t, t = min (e₁ - e₂)
      (Format.binary64.targetExponent (totalExponent m₁ e₁ - totalExponent m₂ e₂)) := ⟨_, rfl⟩
  obtain ⟨k, hk⟩ : ∃ k : Nat, e₁ - e₂ = t + k := ⟨(e₁ - e₂ - t).toNat, by omega⟩
  have hcore : divCore Format.binary64 m₁ e₁ m₂ e₂ =
      (m₁ * 2 ^ k / m₂, t, accuracyOfFraction (m₁ * 2 ^ k % m₂) m₂) := by
    unfold divCore
    simp only [← ht, Nat.shiftLeft_eq, show (e₁ - e₂ - t).toNat = k by omega]
  unfold UnpackedFloat.div
  simp only [hcore]
  refine roundWithAccuracy_saturates ?_ (Brackets.of_fraction (Nat.mod_lt _ h₂) ?_)
  · by_cases hbottom : t ≤ -1074
    · exact hbottom.trans (le_max_right _ _)
    -- the dividend is shifted so far that the quotient has all the bits of a mantissa
    · have hsize : m₂.log2 + 1 + 52 ≤ m₁.log2 + k := by
        change t = min (e₁ - e₂) (max (((m₁.log2 : ℤ) + 1 + e₁ - (m₂.log2 + 1 + e₂)) - 53) (-1074)) at ht
        omega
      have hquotient : 2 ^ 52 ≤ m₁ * 2 ^ k / m₂ := by
        rw [Nat.le_div_iff_mul_le h₂]
        calc 2 ^ 52 * m₂ ≤ 2 ^ 52 * 2 ^ (m₂.log2 + 1) := Nat.mul_le_mul_left _ Nat.lt_log2_self.le
          _ = 2 ^ (m₂.log2 + 1 + 52) := by rw [← pow_add, Nat.add_comm]
          _ ≤ 2 ^ (m₁.log2 + k) := Nat.pow_le_pow_right (by decide) hsize
          _ ≤ m₁ * 2 ^ k := by
            rw [pow_add]
            exact Nat.mul_le_mul_right _ (Nat.log2_self_le h₁.ne')
      have hlog := (Nat.le_log2 (by omega)).mpr hquotient
      show t ≤ max ((((m₁ * 2 ^ k / m₂).log2 : ℤ) + 1 + t) - 53) (-1074)
      omega
  · have hscale : (2 : ℚ) ^ e₂ ≠ 0 := by positivity
    rw [Nat.div_add_mod']
    refine mul_right_cancel₀ hscale ?_
    rw [mul_assoc, hx, mul_assoc, ← zpow_add₀ two_ne_zero, show e₁ = (k : ℤ) + (t + e₂) by omega,
      zpow_add₀ two_ne_zero, zpow_natCast]
    push_cast
    ring

theorem Canonical.mul_saturates (hc₁ : Canonical m₁ e₁) (hc₂ : Canonical m₂ e₂) (hbits : 52 ≤ m₁.log2) :
    Saturates (m₁ * 2 ^ e₁ * (m₂ * 2 ^ e₂)) (hc₁.toDouble * hc₂.toDouble) := by
  show Saturates _ (Float.ofModel (.pack (UnpackedFloat.mul Format.binary64 hc₁.toDouble.toModel.unpack
    hc₂.toDouble.toModel.unpack)))
  rw [hc₁.unpack_toDouble, hc₂.unpack_toDouble]
  exact Double.mul_saturates hc₁.pos hc₂.pos hbits

theorem Canonical.div_saturates (hc₁ : Canonical m₁ e₁) (hc₂ : Canonical m₂ e₂)
    (hx : x * (m₂ * 2 ^ e₂) = m₁ * 2 ^ e₁) : Saturates x (hc₁.toDouble / hc₂.toDouble) := by
  show Saturates _ (Float.ofModel (.pack (UnpackedFloat.div Format.binary64 hc₁.toDouble.toModel.unpack
    hc₂.toDouble.toModel.unpack)))
  rw [hc₁.unpack_toDouble, hc₂.unpack_toDouble]
  exact Double.div_saturates hc₁.pos hc₂.pos hx

end Operations

/-! ## Reading decimal numbers -/

section Scientific
variable {n p : Nat}

/-- The number that digits stand for once they are multiplied or divided by a power of ten. -/
def scientific (n : Nat) (divides : Bool) (p : Nat) : ℚ := if divides then n / 10 ^ p else n * 10 ^ p

/-- Powers of ten that are worth computing. -/
def Moderate (n : Nat) (divides : Bool) (p : Nat) : Prop :=
  if divides then 0 < p ∧ p ≤ 2 ^ 11 + n.log2 else p ≤ 2 ^ 11

theorem ofScientific_fast_saturates (hn : 0 < n) (hlt : n < 2 ^ 53) (hp : p ≤ 22) (divides : Bool) :
    Saturates (scientific n divides p) (Float.ofScientific n divides p) := by
  have hlog := log2_le_of_lt hn hlt
  have hbits : 52 ≤ (n * 2 ^ (52 - n.log2)).log2 := by
    rw [log2_mul_two_pow hn.ne']
    omega
  rw [ofScientific_operands hn hlt hp, scientific]
  dsimp only
  cases divides with
  | true =>
    refine Canonical.div_saturates _ _ ?_
    rw [number_value hn hlt, power_value hp]
    exact div_mul_cancel₀ _ (by positivity)
  | false =>
    have hproduct := Canonical.mul_saturates (canonical_of_lt hn hlt (Nat.zero_le 22))
      (canonical_of_lt (five_pow_pos p) (five_pow_lt hp) hp) hbits
    rwa [number_value hn hlt, power_value hp] at hproduct

theorem ofScientific_saturates (hn : 0 < n) {divides : Bool} (hp : Moderate n divides p) :
    Saturates (scientific n divides p) (Float.ofScientific n divides p) := by
  by_cases hfast : n < 2 ^ 53 ∧ p ≤ 22
  · exact ofScientific_fast_saturates hn hfast.1 hfast.2 divides
  have hbits : (2 : Int) ^ Format.binary64.exponentBits = 2048 := rfl
  have hmantissa : Format.binary64.mantissaBits = 53 := rfl
  unfold Float.ofScientific scientific
  rw [dif_neg hfast]
  cases divides with
  | true =>
    obtain ⟨hpos, hle⟩ : 0 < p ∧ p ≤ 2 ^ 11 + n.log2 := hp
    rw [if_pos rfl, if_pos rfl, Int.negOfNat_eq]
    show Saturates _ (Float.ofModel (.pack (UnpackedFloat.ofScientific Format.binary64 n (-(p : Int)))))
    unfold UnpackedFloat.ofScientific
    simp only [hbits]
    rw [dif_neg hn.ne', if_neg (by omega), if_neg (by omega), if_neg (by omega)]
    refine div_saturates _ _ ?_
    rw [neg_neg, Int.toNat_natCast, zpow_zero, mul_one, mul_one]
    push_cast
    exact div_mul_cancel₀ _ (by positivity)
  | false =>
    have hle : p ≤ 2 ^ 11 := hp
    rw [if_neg Bool.false_ne_true, if_neg Bool.false_ne_true]
    show Saturates _ (Float.ofModel (.pack (UnpackedFloat.ofScientific Format.binary64 n (p : Int))))
    unfold UnpackedFloat.ofScientific
    simp only [hbits]
    rw [dif_neg hn.ne', if_neg (by omega), if_neg (by omega), if_pos (by omega)]
    have hlog : 52 ≤ (n <<< Format.binary64.mantissaBits).log2 := by
      rw [hmantissa, Nat.shiftLeft_eq, log2_mul_two_pow hn.ne']
      omega
    have hvalue : (n : ℚ) * 10 ^ p = ((n <<< Format.binary64.mantissaBits : ℕ) : ℚ) *
        2 ^ (-(Format.binary64.mantissaBits : ℤ)) * ((10 ^ (p : ℤ).toNat : ℕ) * 2 ^ (0 : ℤ)) := by
      rw [hmantissa, Nat.shiftLeft_eq, Int.toNat_natCast]
      push_cast
      norm_num
      ring
    rw [hvalue]
    exact mul_saturates _ _ hlog

theorem scientific_eq (n : Nat) (e : Int) : scientific n (e < 0) e.natAbs = n * 10 ^ e := by
  rcases lt_or_ge e 0 with he | he
  · obtain ⟨p, rfl⟩ : ∃ p : Nat, e = -p := ⟨e.natAbs, by omega⟩
    rw [decide_eq_true he, scientific, if_pos rfl, Int.natAbs_neg, Int.natAbs_natCast, zpow_neg, zpow_natCast,
      div_eq_mul_inv]
  · obtain ⟨p, rfl⟩ := Int.eq_ofNat_of_zero_le he
    rw [decide_eq_false he.not_gt, scientific, if_neg Bool.false_ne_true, Int.natAbs_natCast, zpow_natCast]

end Scientific

end Double

open Double

namespace Numeral

/-- The number that a numeral denotes. -/
def value (n : Numeral) : ℚ := digitsValue (n.whole ++ n.fraction) * 10 ^ (n.exponent - n.fraction.length)

/-- **Decimal numbers from the overflow on are read as infinity, and all others as finite doubles.** -/
theorem nearest_saturates (n : Nat) (e : Int) : Saturates (n * 10 ^ e) (nearest n e) := by
  unfold nearest
  rcases Nat.eq_zero_or_pos n with rfl | hn
  · rw [if_pos rfl, Nat.cast_zero, zero_mul]
    exact .inl ⟨one_pos.trans_le one_le_overflow, by decide +kernel⟩
  rw [if_neg hn.ne']
  dsimp only
  have hplaces := @Nat.length_toDigits_pos 10 n
  have hlow : 10 ^ ((Nat.toDigits 10 n).length - 1) ≤ n := by
    by_contra hlt
    rcases Nat.eq_zero_or_pos ((Nat.toDigits 10 n).length - 1) with hzero | hpos
    · rw [hzero] at hlt
      omega
    · have hle := (Nat.length_toDigits_le_iff (by norm_num) hpos).mpr (not_le.mp hlt)
      omega
  have hhigh : n < 10 ^ (Nat.toDigits 10 n).length :=
    (Nat.length_toDigits_le_iff (by norm_num) hplaces).mp le_rfl
  have hlog : (Nat.toDigits 10 n).length ≤ n.log2 + 1 :=
    (Nat.length_toDigits_le_iff (by norm_num) (by omega)).mpr
      (Nat.lt_log2_self.trans_le (Nat.pow_le_pow_left (by norm_num) _))
  generalize (Nat.toDigits 10 n).length = places at *
  split
  · refine .inr ⟨?_, by decide +kernel⟩
    calc overflow ≤ 10 ^ ((310 : ℕ) : ℤ) := overflow_le
      _ ≤ 10 ^ (((places - 1 : ℕ) : ℤ) + e) := zpow_le_zpow_right₀ (by norm_num) (by omega)
      _ = ((10 ^ (places - 1) : ℕ) : ℚ) * 10 ^ e := by
        rw [zpow_add₀ (by norm_num), zpow_natCast]
        push_cast
        rfl
      _ ≤ n * 10 ^ e := by gcongr
  split
  · refine .inl ⟨lt_of_lt_of_le ?_ one_le_overflow, by decide +kernel⟩
    calc (n : ℚ) * 10 ^ e < ((10 ^ places : ℕ) : ℚ) * 10 ^ e := by gcongr
      _ = 10 ^ ((places : ℤ) + e) := by
        rw [zpow_add₀ (by norm_num), zpow_natCast]
        push_cast
        rfl
      _ ≤ 1 := zpow_le_one_of_nonpos₀ (by norm_num) (by omega)
  · rw [← scientific_eq]
    refine ofScientific_saturates hn ?_
    unfold Moderate
    by_cases he : e < 0
    · rw [if_pos (decide_eq_true he)]
      omega
    · rw [if_neg (by simpa using he)]
      omega

theorem toDouble_saturates (n : Numeral) : Saturates n.value n.toDouble := nearest_saturates _ _

end Numeral

end PipeExpr
