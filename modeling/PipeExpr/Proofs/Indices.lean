import PipeExpr.Proofs.Printing
import PipeExpr.Proofs.WholeNumbers

/-!
# Positions written in digits

Digits behind a dot are read as a double and cast to an integer of 64 bits, and the same digits between
brackets stay a double.  Up to `2 ^ 63` both are the same key (`Numeral.position_of_digits`), although digits
that are too many for a double are rounded.

Rounding a whole number drops bits behind the 53rd one, so it gives a whole number again
(`roundWithAccuracy_whole`), and it does not go over a power of two.  That is all that the cast needs: it gives
back every double whose value is a whole number of at most `2 ^ 63`.
-/

namespace PipeExpr

open Float.Model (Format totalExponent UnpackedFloat)
open Float.Model.UnpackedFloat (Sign ExtendedMantissa Accuracy shiftToTargetExponent shiftToExponent
  roundWithAccuracy)

namespace Double

/-! ## Rounding whole numbers -/

theorem mantissa_repeat_shiftRightOne (em : ExtendedMantissa) (k : Nat) :
    (k.repeat ExtendedMantissa.shiftRightOne em).mantissa = em.mantissa / 2 ^ k := by
  induction k with
  | zero => rw [pow_zero, Nat.div_one, Nat.repeat]
  | succ k ih =>
    rw [Nat.repeat, pow_succ, ← Nat.div_div_eq_div_mul, ← ih]
    rfl

/-- A mantissa is rounded to itself or to the next one. -/
theorem roundedMantissa_bounds (em : ExtendedMantissa) :
    em.mantissa ≤ em.roundedMantissa ∧ em.roundedMantissa ≤ em.mantissa + 1 := by
  obtain ⟨m, roundBit, stickyBit⟩ := em
  cases roundBit <;> cases stickyBit <;>
    simp only [ExtendedMantissa.roundedMantissa, ExtendedMantissa.accuracy,
      Accuracy.roundToNearestEven] <;> omega

/-- The value of a mantissa that a double has room for, or of the next one, which may have one bit more. -/
theorem exists_canonical {r : Nat} {q : Int} (hpos : 0 < r) (hhigh : r ≤ 2 ^ 53)
    (hform : 2 ^ 52 ≤ r ∨ q = -1074) (hleast : -1074 ≤ q) (hgreatest : q ≤ 971)
    (hroom : r = 2 ^ 53 → q ≠ 971) :
    ∃ m q', ∃ _ : Canonical m q', q ≤ q' ∧ (r : ℚ) * 2 ^ q = m * 2 ^ q' := by
  rcases hhigh.lt_or_eq with hlt | rfl
  · exact ⟨r, q, ⟨hpos, hlt, hleast, hgreatest, hform⟩, le_rfl, rfl⟩
  · have hne := hroom rfl
    refine ⟨2 ^ 52, q + 1, ⟨by decide, by decide, by omega, by omega, .inl le_rfl⟩, by omega, ?_⟩
    rw [zpow_add_one₀ two_ne_zero]
    norm_num
    ring

theorem mantissa_ofMantissaAndAccuracy (m : Nat) (acc : Accuracy) :
    (ExtendedMantissa.ofMantissaAndAccuracy m acc).mantissa = m := by
  rcases acc with _ | (_ | _ | _) <;> rfl

/-- The shift to the exponent that a double has. -/
theorem shiftToTargetExponent_of_target {M k : Nat} {e : Int} (acc : Accuracy)
    (h : Format.binary64.targetExponent (totalExponent M e) = e + k) :
    shiftToTargetExponent Format.binary64 M e acc =
      (k.repeat ExtendedMantissa.shiftRightOne (.ofMantissaAndAccuracy M acc), e + k) := by
  unfold shiftToTargetExponent shiftToExponent
  dsimp only
  rw [h, show (e + k - e).toNat = k by omega]
  rfl

/-- **Rounding drops bits behind the 53rd one**, and adds one to those that are left, or not. -/
theorem roundWithAccuracy_whole {M k : Nat} {e : Int} (hlog : M.log2 = 52 + k) (hleast : -1074 ≤ e + k)
    (hgreatest : e + k < 971) : ∃ r m : Nat, ∃ q, ∃ hc : Canonical m q, 2 ^ 52 ≤ r ∧ r ≤ 2 ^ 53 ∧
      (r : ℚ) * 2 ^ (e + k) = m * 2 ^ q ∧
      roundWithAccuracy Format.binary64 .positive M e .exact = .finite .positive m q hc.pos := by
  have hM : M ≠ 0 := by
    rintro rfl
    rw [Nat.log2_zero] at hlog
    omega
  have hlow : 2 ^ 52 ≤ M / 2 ^ k := by
    rw [Nat.le_div_iff_mul_le (by positivity), ← pow_add, ← hlog]
    exact Nat.log2_self_le hM
  have hhigh : M / 2 ^ k < 2 ^ 53 := by
    rw [Nat.div_lt_iff_lt_mul (by positivity), ← pow_add, show 53 + k = M.log2 + 1 by omega]
    exact Nat.lt_log2_self
  have htarget : Format.binary64.targetExponent (totalExponent M e) = e + k := by
    show max (((M.log2 : ℤ) + 1 + e) - 53) (-1074) = e + k
    omega
  have hshift := shiftToTargetExponent_of_target .exact htarget
  have hem := mantissa_repeat_shiftRightOne (.ofMantissaAndAccuracy M .exact) k
  rw [mantissa_ofMantissaAndAccuracy] at hem
  generalize k.repeat ExtendedMantissa.shiftRightOne (.ofMantissaAndAccuracy M .exact) = em at hshift hem
  have hrounded := roundedMantissa_bounds em
  rw [hem] at hrounded
  obtain ⟨m, q, hc, hle, hvalue⟩ := exists_canonical (r := em.roundedMantissa) (q := e + k) (by omega)
    (by omega) (.inl (by omega)) hleast hgreatest.le fun _ => hgreatest.ne
  refine ⟨em.roundedMantissa, m, q, hc, by omega, by omega, hvalue, ?_⟩
  unfold roundWithAccuracy
  rw [hshift]
  dsimp only
  rw [shiftToTargetExponent_exact hc hle hvalue]
  exact dif_neg hc.pos.ne'

/-! ## Reading whole numbers -/

/-- Numbers with more than 53 bits are read with rounding. -/
theorem ofScientific_whole {n : Nat} (hn : 2 ^ 53 ≤ n) :
    Float.ofScientific n false 0 = Float.ofModel (.pack
      (roundWithAccuracy Format.binary64 .positive (n <<< 53 * 1) (-53 + 0) .exact)) := by
  have hpos : n ≠ 0 := by omega
  have hbits : (2 : Int) ^ Format.binary64.exponentBits = 2048 := rfl
  unfold Float.ofScientific
  rw [dif_neg (by omega), if_neg Bool.false_ne_true]
  refine congrArg (fun u => Float.ofModel (.pack u)) ?_
  unfold UnpackedFloat.ofScientific
  simp only [Int.ofNat_eq_natCast, Int.natCast_zero, hbits]
  rw [dif_neg hpos, if_neg (by omega), if_neg (by omega), if_pos (by omega)]
  rfl

end Double

open Double

namespace Numeral

/-- **A whole number of at most `2 ^ 63` is read as a whole number of at most `2 ^ 63`.** -/
theorem nearest_whole {n : Nat} (hpos : 0 < n) (hn : n ≤ 2 ^ 63) : ∃ N m : Nat, ∃ q,
    ∃ hc : Canonical m q, N ≤ 2 ^ 63 ∧ (N : ℚ) = m * 2 ^ q ∧ nearest n 0 = hc.toDouble := by
  have hexact : ∀ {m : Nat} {q : Int} (hc : Canonical m q), (n : ℚ) = m * 2 ^ q →
      nearest n 0 = hc.toDouble := fun hc h => @nearest_exact _ _ 0 _ hc (by rw [h, pow_zero, mul_one])
  rcases Nat.lt_or_ge n (2 ^ 53) with hlt | hge
  · have hlog := (Nat.log2_lt hpos.ne').mpr hlt
    have hvalue := shifted_value (show n.log2 ≤ 52 by omega) 0
    rw [pow_zero, mul_one] at hvalue
    exact ⟨n, _, _, canonical_of_lt hpos hlt (Nat.zero_le 22), hn, hvalue.symm, hexact _ hvalue.symm⟩
  rcases hn.lt_or_eq with hlt | rfl
  swap
  · exact ⟨2 ^ 63, 2 ^ 52, 11, ⟨by decide, by decide, by decide, by decide, .inl le_rfl⟩, le_rfl,
      by norm_num, hexact _ (by norm_num)⟩
  have hlog := (Nat.log2_lt hpos.ne').mpr hlt
  have hlog' := (Nat.le_log2 hpos.ne').mpr hge
  obtain ⟨k, hk⟩ : ∃ k, n.log2 = 52 + k := ⟨n.log2 - 52, by omega⟩
  obtain ⟨r, m, q, hc, hlow, hhigh, hvalue, hround⟩ :=
    roundWithAccuracy_whole (M := n <<< 53 * 1) (k := k + 53) (e := -53 + 0)
      (by rw [Nat.shiftLeft_eq, Nat.mul_one, log2_mul_two_pow hpos.ne', hk, Nat.add_assoc])
      (by omega) (by omega)
  refine ⟨r * 2 ^ k, m, q, hc, ?_, ?_, ?_⟩
  · calc r * 2 ^ k ≤ 2 ^ 53 * 2 ^ 10 := Nat.mul_le_mul hhigh (Nat.pow_le_pow_right (by decide) (by omega))
      _ = 2 ^ 63 := by norm_num
  · rw [← hvalue, show (-53 + 0 + ((k + 53 : Nat) : Int)) = (k : Int) by omega, zpow_natCast]
    push_cast
    rfl
  · have hplaces : (Nat.toDigits 10 n).length ≤ 310 := by
      rw [Nat.length_toDigits_le_iff (by norm_num) (by norm_num)]
      exact hlt.trans (by decide +kernel)
    have hread := ofScientific_whole hge
    rw [hround] at hread
    unfold nearest
    rw [if_neg hpos.ne', Int.natAbs_zero, decide_eq_false (lt_irrefl 0), hread]
    dsimp only
    rw [if_neg (by omega), if_neg (by omega)]
    rfl

/-- **Digits up to `2 ^ 63` name the position that they spell**: what they are read as is a position, and it is
the number that this position stands for. -/
theorem position_of_digits {d : List Char} (hd : digitsValue d ≤ 2 ^ 63) :
    isFinite (toDouble ⟨d, [], 0⟩) = true ∧ toDouble ⟨d, [], 0⟩ ≤ Parse.greatestPosition ∧
      ofInt (clampInt64 (toDouble ⟨d, [], 0⟩)) = toDouble ⟨d, [], 0⟩ := by
  have hread : toDouble ⟨d, [], 0⟩ = nearest (digitsValue d) 0 := by
    unfold toDouble
    rw [List.append_nil]
    rfl
  rw [hread]
  rcases Nat.eq_zero_or_pos (digitsValue d) with hzero | hpos
  · rw [hzero]
    refine ⟨by decide +kernel, by decide +kernel, by decide +kernel⟩
  obtain ⟨N, m, q, hc, hN, hvalue, hnearest⟩ := nearest_whole hpos hd
  obtain ⟨hwhole, hpart⟩ := wholePart_of_value (b := ⟨false, m, q⟩) hvalue
  have hclass := hc.classify_toDouble
  have hint : toInt? hc.toDouble = some (N : Int) := hc.toInt?_signed hvalue false
  rw [hnearest]
  refine ⟨isFinite_of_classify hclass, ?_, ofInt_clampInt64 hint hc.signBit_toDouble hN⟩
  rcases hN.lt_or_eq with hlt | rfl
  · exact hc.le_greatestPosition (Canonical.lt_of_wholePart (b := ⟨false, m, q⟩) hc (hpart ▸ hlt))
  · rw [← ofInt_of_value hc hvalue]
    decide +kernel

end Numeral

end PipeExpr
