import Mathlib
import PipeExpr.Proofs.Numerals

/-!
# Whole numbers as doubles

`Double.ofInt` puts the bits of a double together by itself, and reading a number goes through the
arithmetic of doubles.  Both come to the same: a natural number that is the value of a double is
converted to this double (`ofInt_of_value`).  So a count of at most `2 ^ 53` is not rounded, and a
whole number that is cast to 64 bits comes back as it was (`ofInt_clampInt64`).
-/

namespace PipeExpr

open Float.Model (Format UnpackedFloat)

section Values
variable {m M : Nat} {q e : Int}

theorem Double.Canonical.ofBits_toBits (hc : Double.Canonical m q) (s : UnpackedFloat.Sign) :
    Float.ofBits (hc.signed s).toBits = hc.signed s := by
  show Float.ofModel (.pack (hc.signed s).toModel.unpack) = hc.signed s
  rw [hc.unpack_signed s]
  rfl

/-- The bits of a double are put together from any mantissa of at most 53 bits. -/
theorem Binary.toDouble_of_value {negative : Bool} (hc : Double.Canonical m q)
    (h : (M : ℚ) * 2 ^ e = m * 2 ^ q) :
    Binary.toDouble ⟨negative, M, e⟩ = hc.signed (Double.signOf negative) := by
  have hM := hc.pos_of_eq h
  have hexponent : max (-1074) (e + ((M.log2 : Int) + 1) - 53) = q := by
    have htarget : max (((M.log2 : ℤ) + 1 + e) - 53) (-1074) = q := hc.target_of_eq h
    omega
  have hmantissa : (if e - q ≥ 0 then M <<< (e - q).toNat else M >>> (-(e - q)).toNat) = m := by
    split
    · rw [Nat.shiftLeft_eq]
      exact (Double.eq_mul_two_pow (by omega) h.symm).symm
    · rw [Nat.shiftRight_eq_div_pow, Double.eq_mul_two_pow (by omega) h,
        show -(e - q) = q - e by omega]
      exact Nat.mul_div_cancel _ (by positivity)
  have hhidden : Binary.hiddenBit = 2 ^ 52 := rfl
  have hfield := hc.exponentField_lt
  have hsign : (if negative = true then 0x8000000000000000 else 0) =
      Double.signField (Double.signOf negative) := by cases negative <;> rfl
  have hlt : Double.signField (Double.signOf negative) ≤ 2 ^ 63 := by cases negative <;> decide
  have hbits : UInt64.ofNat (Double.signField (Double.signOf negative) +
      (if m < 2 ^ 52 then 0 else (q + 1075).toNat) * 2 ^ 52 + m % 2 ^ 52) =
      (hc.signed (Double.signOf negative)).toBits := by
    refine UInt64.toNat_inj.mp ?_
    rw [hc.toBits_signed, UInt64.toNat_ofNat']
    unfold Double.exponentField at hfield ⊢
    omega
  unfold Binary.toDouble
  dsimp only
  rw [if_neg hM.ne', hexponent, hmantissa, hhidden, hsign, hbits]
  exact hc.ofBits_toBits _

/-- **An integer that is the value of a double is converted to it.** -/
theorem Double.ofInt_of_magnitude {n : Int} (hc : Double.Canonical m q)
    (h : (n.natAbs : ℚ) = m * 2 ^ q) : Double.ofInt n = hc.signed (Double.signOf (n < 0)) := by
  generalize hN : n.natAbs = N at h
  have hpos : 0 < N := hc.pos_of_eq (e := 0) (by simpa using h)
  have hle := hc.le_of_eq h
  obtain ⟨r, hr⟩ : ∃ r, N = r * 2 ^ (N.log2 + 1 - 53) := by
    have hvalue : (N : ℚ) * 2 ^ (0 : Int) = m * 2 ^ q := by simpa using h
    rcases Nat.lt_or_ge N.log2 53 with hlt | hge
    · exact ⟨N, by rw [Nat.sub_eq_zero_of_le (by omega)]; simp⟩
    · have hn := Double.eq_mul_two_pow (e := 0) (by omega) hvalue
      refine ⟨m * 2 ^ (q.toNat - (N.log2 + 1 - 53)), ?_⟩
      rw [mul_assoc, ← pow_add, Nat.sub_add_cancel (by omega)]
      simpa using hn
  have hround : Double.roundHalfEven N (Nat.pow 2 (N.log2 + 1 - 53)) = r := by
    have hscale : 0 < 2 ^ (N.log2 + 1 - 53) := by positivity
    unfold Double.roundHalfEven
    rw [Nat.pow_eq]
    dsimp only
    generalize 2 ^ (N.log2 + 1 - 53) = d at hr hscale ⊢
    subst hr
    simp [Nat.mul_div_cancel _ hscale, Nat.mul_mod_left, hscale.ne]
  unfold Double.ofInt
  dsimp only
  rw [hN, hround]
  refine Binary.toDouble_of_value hc ?_
  rw [← h]
  conv_rhs => rw [hr]
  push_cast
  rw [zpow_natCast]

/-- **A natural number that is the value of a double is converted to it.** -/
theorem Double.ofInt_of_value {n : Nat} (hc : Double.Canonical m q) (h : (n : ℚ) = m * 2 ^ q) :
    Double.ofInt n = hc.toDouble := by
  have hsigned := Double.ofInt_of_magnitude (n := n) hc h
  rwa [show decide ((n : Int) < 0) = false by simp] at hsigned

theorem Double.Canonical.signBit_signed (hc : Double.Canonical m q) (negative : Bool) :
    Double.signBit (hc.signed (Double.signOf negative)) = negative := by
  have hfield := hc.exponentField_lt
  have hbits := hc.toBits_signed (Double.signOf negative)
  have hle : Double.signBit (hc.signed (Double.signOf negative)) = true ↔
      2 ^ 63 ≤ (hc.signed (Double.signOf negative)).toBits.toNat := by
    rw [Double.signBit, decide_eq_true_iff]
    exact UInt64.le_iff_toNat_le
  rw [Bool.eq_iff_iff, hle, hbits]
  cases negative
  case true => exact iff_of_true (show 2 ^ 63 ≤ 2 ^ 63 + _ + _ by omega) rfl
  case false => exact iff_of_false (show ¬ 2 ^ 63 ≤ 0 + _ + _ by omega) Bool.false_ne_true

theorem Double.Canonical.signBit_toDouble (hc : Double.Canonical m q) :
    Double.signBit hc.toDouble = false := hc.signBit_signed false

/-- What is read off the bits of a double. -/
theorem Double.Canonical.classify_signed (hc : Double.Canonical m q) (negative : Bool) :
    Double.classify (hc.signed (Double.signOf negative)) = .finite ⟨negative, m, q⟩ := by
  have hhidden : Binary.hiddenBit = 2 ^ 52 := rfl
  have hfield := hc.exponentField_lt
  have hbits := hc.toBits_signed (Double.signOf negative)
  have hbound := hc.bound
  have hleast := hc.least
  have hsign := hc.signBit_signed negative
  -- the sign stands above the field of the exponent
  have htop : Double.signField (Double.signOf negative) = 2 ^ 52 * (2048 * negative.toNat) := by
    cases negative <;> rfl
  have hexponent : (hc.signed (Double.signOf negative)).toBits.toNat / 2 ^ 52 % 2048 =
      Double.exponentField m q := by omega
  have hfraction : (hc.signed (Double.signOf negative)).toBits.toNat % 2 ^ 52 = m % 2 ^ 52 := by omega
  unfold Double.classify
  simp only [hhidden, hsign, hexponent, hfraction]
  unfold Double.exponentField at hfield ⊢
  by_cases hm : m < 2 ^ 52
  · have hform := hc.form
    rw [if_pos hm, if_neg (by decide), if_pos rfl, Nat.mod_eq_of_lt hm, show q = -1074 by omega]
  · rw [if_neg hm] at hfield ⊢
    rw [if_neg (by omega), if_neg (by omega)]
    congr 2 <;> omega

theorem Double.Canonical.classify_toDouble (hc : Double.Canonical m q) :
    Double.classify hc.toDouble = .finite ⟨false, m, q⟩ := hc.classify_signed false

end Values

/-! ## Counts and positions -/

namespace Double

/-- A binary fraction whose value is a natural number has no fraction. -/
theorem wholePart_of_value {b : Binary} {n : Nat} (h : (n : ℚ) = b.mantissa * 2 ^ b.exponent) :
    b.isWhole = true ∧ b.wholePart = n := by
  have hvalue : (n : ℚ) * 2 ^ (0 : Int) = b.mantissa * 2 ^ b.exponent := by simpa using h
  unfold Binary.isWhole Binary.wholePart
  cases hexponent : b.exponent with
  | ofNat e =>
    have hn := eq_mul_two_pow (by rw [hexponent]; exact Int.natCast_nonneg e) hvalue
    rw [hexponent] at hn
    exact ⟨rfl, (Nat.shiftLeft_eq ..).trans hn.symm⟩
  | negSucc e =>
    have hm := eq_mul_two_pow (by rw [hexponent]; exact (Int.negSucc_lt_zero e).le) hvalue.symm
    have he : (0 - b.exponent).toNat = e + 1 := by rw [hexponent]; omega
    rw [he] at hm
    constructor
    · simp [hm]
    · dsimp only
      rw [Nat.shiftRight_eq_div_pow, hm, Nat.mul_div_cancel _ (by positivity)]

/-- A whole binary fraction has its whole part as its value. -/
theorem value_of_isWhole {b : Binary} (h : b.isWhole = true) :
    (b.wholePart : ℚ) = b.mantissa * 2 ^ b.exponent := by
  unfold Binary.isWhole at h
  unfold Binary.wholePart
  cases hexponent : b.exponent with
  | ofNat e => simp [Nat.shiftLeft_eq]
  | negSucc e =>
    rw [hexponent] at h
    obtain ⟨k, hk⟩ := Nat.dvd_of_mod_eq_zero (of_decide_eq_true h)
    rw [Nat.pow_eq] at hk
    simp only [Nat.shiftRight_eq_div_pow, hk, zpow_negSucc]
    rw [Nat.mul_div_cancel_left _ (by positivity)]
    push_cast
    field_simp

/-- A count is zero or has a mantissa. -/
theorem canonical_of_count {n : Nat} (hpos : 0 < n) (hn : n ≤ 2 ^ 53) :
    ∃ m q, Canonical m q ∧ (n : ℚ) = m * 2 ^ q := by
  rcases hn.lt_or_eq with hlt | rfl
  · have hlog := (Nat.log2_lt hpos.ne').mpr hlt
    refine ⟨_, _, canonical_of_lt hpos hlt (j := 0) (by decide), ?_⟩
    rw [shifted_value (by omega)]
    simp
  · exact ⟨2 ^ 52, 1, ⟨by decide, by decide, by decide, by decide, .inl (by decide)⟩, by norm_num⟩

/-- **A double is an integer** just if it is finite and has no fraction. -/
theorem toInt?_eq_some_iff {x : Float} {n : Int} :
    toInt? x = some n ↔ ∃ b, classify x = .finite b ∧ b.isWhole = true ∧ b.truncate = n := by
  constructor
  · intro h
    unfold toInt? at h
    split at h
    · rename_i b hclass
      split at h
      · exact ⟨b, hclass, ‹_›, Option.some.inj h⟩
      · cases h
    · cases h
  · rintro ⟨b, hclass, hwhole, rfl⟩
    simp only [toInt?, hclass, hwhole, if_true]

/-- The integer that a double is, from its value. -/
theorem Canonical.toInt?_signed {m n : Nat} {q : Int} (hc : Canonical m q) (h : (n : ℚ) = m * 2 ^ q)
    (negative : Bool) : toInt? (hc.signed (signOf negative)) = some (if negative then -(n : Int) else n) := by
  obtain ⟨hwhole, hpart⟩ := wholePart_of_value (b := ⟨negative, m, q⟩) h
  exact toInt?_eq_some_iff.mpr ⟨_, hc.classify_signed negative, hwhole, by rw [Binary.truncate, hpart]⟩

/-- Integers that are not too large are not rounded. -/
theorem toInt?_ofInt_of_natAbs_le {n : Int} (h : n.natAbs ≤ 2 ^ 53) : toInt? (ofInt n) = some n := by
  rcases Nat.eq_zero_or_pos n.natAbs with hzero | hpos
  · obtain rfl := Int.natAbs_eq_zero.mp hzero
    decide +kernel
  obtain ⟨m, q, hc, hvalue⟩ := canonical_of_count hpos h
  rw [ofInt_of_magnitude hc hvalue, hc.toInt?_signed hvalue]
  simp only [decide_eq_true_eq, Option.some.injEq]
  split <;> omega

/-- A count that is not too large is not rounded. -/
theorem toInt?_ofInt {n : Nat} (hn : n ≤ 2 ^ 53) : toInt? (ofInt n) = some (n : Int) :=
  toInt?_ofInt_of_natAbs_le hn

/-- **A position comes back as the number that it was cast from.** -/
theorem ofInt_clampInt64 {x : Float} {n : Nat} (h : toInt? x = some (n : Int)) (hsign : signBit x = false)
    (hn : n ≤ 2 ^ 63) : ofInt (clampInt64 x) = x := by
  obtain ⟨b, hclass, hwhole, hinteger⟩ := toInt?_eq_some_iff.mp h
  have hpositive : b.negative = false := by
    rw [← hsign]
    unfold classify at hclass
    dsimp only at hclass
    split at hclass
    · split at hclass <;> cases hclass
    · split at hclass <;> cases hclass <;> rfl
  have htruncate : b.truncate = b.wholePart := if_neg (by rw [hpositive]; decide)
  have hpart : b.wholePart = n := by omega
  have hvalue := value_of_isWhole hwhole
  have hclamp : clampInt64 x = max leastInt64 (min greatestInt64 n) := by
    unfold clampInt64
    rw [hclass]
    dsimp only
    rw [htruncate, hpart]
  rw [hpart] at hvalue
  rw [hclamp]
  rcases eq_of_classify hclass hpositive with ⟨hzero, rfl⟩ | ⟨hc, rfl⟩
  · obtain rfl : n = 0 := by
      rw [hzero, Nat.cast_zero, zero_mul] at hvalue
      exact_mod_cast hvalue
    decide +kernel
  · rcases hn.lt_or_eq with hlt | rfl
    · have hmin : max leastInt64 (min greatestInt64 (n : Int)) = n := by
        unfold leastInt64 greatestInt64
        omega
      rw [hmin]
      exact ofInt_of_value hc hvalue
    · rw [← ofInt_of_value hc hvalue]
      decide +kernel

/-! ## Differences and comparisons -/

section Canonical
variable {m m₁ m₂ : Nat} {q q₁ q₂ : Int}

theorem Canonical.sub_toDouble (hc : Canonical m q) (h₁ : Canonical m₁ q₁)
    (h₂ : Canonical m₂ q₂) (h : (m₁ : ℚ) * 2 ^ q₁ - m₂ * 2 ^ q₂ = m * 2 ^ q) :
    h₁.toDouble - h₂.toDouble = hc.toDouble := by
  show Float.ofModel (.pack (UnpackedFloat.sub Format.binary64 h₁.toDouble.toModel.unpack
    h₂.toDouble.toModel.unpack)) = _
  rw [h₁.unpack_toDouble, h₂.unpack_toDouble, sub_exact hc h₁.pos h₂.pos h]
  rfl

theorem Canonical.sub_self_toDouble (hc : Canonical m q) : hc.toDouble - hc.toDouble = ofInt 0 := by
  have hdifference : UnpackedFloat.sub Format.binary64 (.finite .positive m q hc.pos)
      (.finite .positive m q hc.pos) = .zero .positive := by
    unfold UnpackedFloat.sub UnpackedFloat.normalize
    dsimp only
    rw [Int.sub_self]
    rfl
  have hzero : Float.ofModel (.pack (.zero .positive)) = ofInt 0 := by decide +kernel
  show Float.ofModel (.pack (UnpackedFloat.sub Format.binary64 hc.toDouble.toModel.unpack
    hc.toDouble.toModel.unpack)) = _
  rw [hc.unpack_toDouble, hdifference, ← hzero]

theorem Canonical.sub_zero_toDouble (hc : Canonical m q) : hc.toDouble - ofInt 0 = hc.toDouble := by
  have hzero : (ofInt 0).toModel.unpack = .zero .positive := by rfl
  show Float.ofModel (.pack (UnpackedFloat.sub Format.binary64 hc.toDouble.toModel.unpack
    (ofInt 0).toModel.unpack)) = _
  rw [hc.unpack_toDouble, hzero]
  rfl

theorem Canonical.exponent_lt (h₁ : Canonical m₁ q₁) (h₂ : Canonical m₂ q₂)
    (hlt : q₁ < q₂) : (m₁ : ℚ) * 2 ^ q₁ < m₂ * 2 ^ q₂ := by
  have hlead : 2 ^ 52 ≤ m₂ := h₂.form.resolve_right (h₁.least.trans_lt hlt).ne'
  have hbound : (m₁ : ℚ) < 2 ^ ((53 : ℕ) : ℤ) := by
    rw [zpow_natCast]
    exact_mod_cast h₁.bound
  have hlead' : (2 : ℚ) ^ ((52 : ℕ) : ℤ) ≤ m₂ := by
    rw [zpow_natCast]
    exact_mod_cast hlead
  calc (m₁ : ℚ) * 2 ^ q₁ < 2 ^ ((53 : ℕ) : ℤ) * 2 ^ q₁ := by gcongr
    _ = 2 ^ (((53 : ℕ) : ℤ) + q₁) := (zpow_add₀ two_ne_zero _ _).symm
    _ ≤ 2 ^ (((52 : ℕ) : ℤ) + q₂) := zpow_le_zpow_right₀ one_le_two (by omega)
    _ = 2 ^ ((52 : ℕ) : ℤ) * 2 ^ q₂ := zpow_add₀ two_ne_zero _ _
    _ ≤ m₂ * 2 ^ q₂ := by gcongr

/-- Exponents first, then mantissas: so are positive doubles compared. -/
theorem Canonical.isLE_compare_iff (h₁ : Canonical m₁ q₁) (h₂ : Canonical m₂ q₂) :
    ((compare q₁ q₂).then (compare m₁ m₂)).isLE = true ↔ (m₁ : ℚ) * 2 ^ q₁ ≤ m₂ * 2 ^ q₂ := by
  rcases lt_trichotomy q₁ q₂ with hlt | rfl | hgt
  · rw [Int.compare_eq_lt.mpr hlt]
    exact iff_of_true rfl (h₁.exponent_lt h₂ hlt).le
  · rw [Int.compare_eq_eq.mpr rfl, Ordering.eq_then, Nat.isLE_compare]
    rw [mul_le_mul_iff_left₀ (by positivity), Nat.cast_le]
  · rw [Int.compare_eq_gt.mpr hgt]
    exact iff_of_false Bool.false_ne_true (h₂.exponent_lt h₁ hgt).not_ge

theorem Canonical.toDouble_le_iff (h₁ : Canonical m₁ q₁) (h₂ : Canonical m₂ q₂) :
    h₁.toDouble ≤ h₂.toDouble ↔ (m₁ : ℚ) * 2 ^ q₁ ≤ m₂ * 2 ^ q₂ := by
  have hle : h₁.toDouble ≤ h₂.toDouble ↔
      UnpackedFloat.le h₁.toDouble.toModel.unpack h₂.toDouble.toModel.unpack = true := decide_eq_true_iff
  rw [hle, h₁.unpack_toDouble, h₂.unpack_toDouble, ← h₁.isLE_compare_iff h₂]
  rfl

end Canonical

/-- The difference of two counts is not rounded. -/
theorem ofInt_sub_ofInt {m n : Nat} (hle : m ≤ n) (hn : n ≤ 2 ^ 53) :
    ofInt n - ofInt m = ofInt ((n - m : Nat) : Int) := by
  rcases Nat.eq_zero_or_pos n with rfl | hnpos
  · obtain rfl := Nat.le_zero.mp hle
    decide +kernel
  obtain ⟨a, p, ha, hna⟩ := canonical_of_count hnpos hn
  rw [ofInt_of_value ha hna]
  rcases Nat.eq_zero_or_pos m with rfl | hmpos
  · rw [Nat.sub_zero, ofInt_of_value ha hna]
    exact ha.sub_zero_toDouble
  obtain ⟨b, r, hb, hmb⟩ := canonical_of_count hmpos (hle.trans hn)
  rcases hle.eq_or_lt with rfl | hlt
  · rw [ofInt_of_value ha hna, Nat.sub_self]
    exact ha.sub_self_toDouble
  · obtain ⟨c, t, hc, hcv⟩ := canonical_of_count (Nat.sub_pos_of_lt hlt) ((Nat.sub_le n m).trans hn)
    rw [ofInt_of_value hb hmb, ofInt_of_value hc hcv]
    refine hc.sub_toDouble ha hb ?_
    rw [← hna, ← hmb, ← hcv, Nat.cast_sub hle]

/-- Counts are compared as what they count. -/
theorem ofInt_le_ofInt_iff {m n : Nat} (hm : m ≤ 2 ^ 53) (hn : n ≤ 2 ^ 53) : ofInt m ≤ ofInt n ↔ m ≤ n := by
  have hzero : (ofInt 0).toModel.unpack = .zero .positive := by rfl
  have hle : ∀ {x y : Float}, x ≤ y ↔ UnpackedFloat.le x.toModel.unpack y.toModel.unpack = true :=
    decide_eq_true_iff
  rcases Nat.eq_zero_or_pos m with rfl | hmpos
  · rcases Nat.eq_zero_or_pos n with rfl | hnpos
    · exact iff_of_true (by decide +kernel) le_rfl
    · obtain ⟨a, p, ha, hna⟩ := canonical_of_count hnpos hn
      rw [ofInt_of_value ha hna, hle, ha.unpack_toDouble, Nat.cast_zero, hzero]
      exact iff_of_true rfl (Nat.zero_le n)
  · obtain ⟨b, r, hb, hmb⟩ := canonical_of_count hmpos hm
    rw [ofInt_of_value hb hmb]
    rcases Nat.eq_zero_or_pos n with rfl | hnpos
    · rw [hle, hb.unpack_toDouble, Nat.cast_zero, hzero]
      exact iff_of_false Bool.false_ne_true hmpos.not_ge
    · obtain ⟨a, p, ha, hna⟩ := canonical_of_count hnpos hn
      rw [ofInt_of_value ha hna, hb.toDouble_le_iff ha, ← hmb, ← hna, Nat.cast_le]

end Double

end PipeExpr
