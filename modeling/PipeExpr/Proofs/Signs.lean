import PipeExpr.Proofs.Numerals
import PipeExpr.Proofs.Tiling

/-!
# Numerals have no sign

A numeral is written without a sign, and the double that it is read as has none (`Numeral.signBit_toDouble`).
So a position that is cut off from it is not negative (`Double.clampInt64_nonneg`).

No arithmetic is needed for this.  Where products, quotients and roundings do not have to be known, it is
enough that they keep the sign of what they are made from (`Double.NotNegative`).
-/

namespace PipeExpr

open Float.Model (Format UnpackedFloat)
open Float.Model.UnpackedFloat (Sign Accuracy roundWithAccuracy packComponents)

namespace Double

/-- A number without a negative sign. -/
def NotNegative : UnpackedFloat → Prop
  | .infinity s | .zero s | .finite s _ _ _ => s = .positive
  | .notANumber => True

section Signs
variable {u v : UnpackedFloat} {x y : Float}

theorem signBit_eq_false : signBit x = false ↔ x.toBits.toNat < 2 ^ 63 := by
  unfold signBit
  rw [decide_eq_false_iff_not, ge_iff_le, UInt64.le_iff_toNat_le, Nat.not_le]
  rfl

theorem roundWithAccuracy_unsigned (m : Nat) (e : Int) (accuracy : Accuracy) :
    NotNegative (roundWithAccuracy Format.binary64 .positive m e accuracy) := by
  unfold roundWithAccuracy
  dsimp only
  split <;> exact rfl

/-- A double made from a number without a negative sign has none. -/
theorem signBit_pack (h : NotNegative u) : signBit (.ofModel (.pack u)) = false := by
  obtain ⟨e, f, hpack⟩ : ∃ e f, UnpackedFloat.pack Format.binary64 u =
      packComponents Format.binary64 .positive e f := by
    cases u with
    | notANumber => exact ⟨_, _, rfl⟩
    | infinity s | zero s =>
      obtain rfl : s = .positive := h
      exact ⟨_, _, rfl⟩
    | finite s m e hm =>
      obtain rfl : s = .positive := h
      unfold UnpackedFloat.pack
      dsimp only
      split
      · exact ⟨_, _, rfl⟩
      · split <;> exact ⟨_, _, rfl⟩
  rw [signBit_eq_false]
  show (UnpackedFloat.pack Format.binary64 u).toNat < 2 ^ 63
  have he : e.toNat < 2 ^ 11 := e.isLt
  have hf : f.toNat < 2 ^ 52 := f.isLt
  rw [hpack, toNat_packComponents, signField]
  omega

theorem unsigned_unpack (h : signBit x = false) : NotNegative x.toModel.unpack := by
  have hsign : @UnpackedFloat.unpackSign Format.binary64 x.toModel.toBits.toBitVec = 0#1 := by
    have hlt : x.toModel.toBits.toBitVec.toNat < 2 ^ 63 := signBit_eq_false.mp h
    refine BitVec.eq_of_toNat_eq ?_
    show x.toModel.toBits.toBitVec.toNat >>> 63 % 2 ^ 1 = 0
    rw [Nat.shiftRight_eq_div_pow, Nat.div_eq_of_lt hlt]
  have hpositive : Sign.ofBitVec 0#1 = .positive := rfl
  unfold Float.Model.unpack UnpackedFloat.unpack
  simp only [hsign, hpositive]
  split
  · split <;> trivial
  · split
    · split <;> trivial
    · trivial

theorem mul_unsigned (hu : NotNegative u) (hv : NotNegative v) :
    NotNegative (UnpackedFloat.mul Format.binary64 u v) := by
  cases u <;> cases v <;> simp only [NotNegative] at hu hv <;> subst_vars <;>
    first | trivial | exact roundWithAccuracy_unsigned _ _ _

theorem div_unsigned (hu : NotNegative u) (hv : NotNegative v) :
    NotNegative (UnpackedFloat.div Format.binary64 u v) := by
  cases u <;> cases v <;> simp only [NotNegative] at hu hv <;> subst_vars <;>
    first | trivial | exact roundWithAccuracy_unsigned _ _ _

end Signs

/-! ## Reading -/

theorem unsigned_ofNat (n : Nat) : NotNegative (UnpackedFloat.ofNat Format.binary64 n) := by
  unfold UnpackedFloat.ofNat UnpackedFloat.ofInt UnpackedFloat.normalize
  rcases Nat.eq_zero_or_pos n with rfl | hn
  · rfl
  · rw [Int.compare_eq_gt.mpr (Int.natCast_pos.mpr hn)]
    exact roundWithAccuracy_unsigned _ _ _

theorem unsigned_ofScientific (n : Nat) (p : Int) :
    NotNegative (UnpackedFloat.ofScientific Format.binary64 n p) := by
  unfold UnpackedFloat.ofScientific
  split
  · rfl
  split
  · rfl
  split
  · rfl
  split
  · exact mul_unsigned rfl rfl
  · exact div_unsigned rfl rfl

theorem signBit_powers_of_ten : ∀ p : Fin 23,
    (Float.exactlyRepresentablePowersOfTen[p.val]?.map signBit) = some false := by
  decide

theorem signBit_ofScientific (n : Nat) (s : Bool) (p : Nat) : signBit (Float.ofScientific n s p) = false := by
  unfold Float.ofScientific
  split
  · rename_i h
    have hnat : NotNegative n.toUInt64.toFloat.toModel.unpack :=
      unsigned_unpack (signBit_pack (unsigned_ofNat _))
    obtain ⟨power, hpower, hsign⟩ := Option.map_eq_some_iff.mp (signBit_powers_of_ten ⟨p, by omega⟩)
    obtain ⟨_, rfl⟩ := Array.getElem?_eq_some_iff.mp hpower
    dsimp only
    split
    · exact signBit_pack (div_unsigned hnat (unsigned_unpack hsign))
    · exact signBit_pack (mul_unsigned hnat (unsigned_unpack hsign))
  · exact signBit_pack (unsigned_ofScientific _ _)

/-- A double that is a number has the sign that its bits say. -/
theorem classify_sign (x : Float) : (∀ negative, classify x = .infinite negative → negative = signBit x) ∧
    ∀ b, classify x = .finite b → b.negative = signBit x := by
  unfold classify
  dsimp only
  refine ⟨fun negative h => ?_, fun b h => ?_⟩
  · split at h
    · split at h <;> cases h
      rfl
    · split at h <;> cases h
  · split at h
    · split at h <;> cases h
    · split at h <;> cases h <;> rfl

/-- A double without a sign is not cut off to a negative integer. -/
theorem clampInt64_nonneg {x : Float} (h : signBit x = false) : 0 ≤ clampInt64 x := by
  obtain ⟨hinfinite, hfinite⟩ := classify_sign x
  unfold clampInt64
  cases hclass : classify x with
  | notANumber => decide
  | infinite negative =>
    rw [hinfinite negative hclass, h]
    decide
  | finite b =>
    have htruncate : b.truncate = b.wholePart := by
      unfold Binary.truncate
      rw [hfinite b hclass, h, if_neg Bool.false_ne_true]
    dsimp only
    rw [htruncate]
    unfold leastInt64 greatestInt64
    omega

end Double

/-- **The double that a numeral is read as has no sign.** -/
theorem Numeral.signBit_toDouble (n : Numeral) : Double.signBit n.toDouble = false := by
  unfold toDouble nearest
  split
  · decide
  dsimp only
  split
  · decide
  split
  · decide
  · exact Double.signBit_ofScientific _ _ _

/-! ## Tokens -/

/-- A kind of token that is no number with a negative sign. -/
def TokenKind.Unsigned (k : TokenKind) : Prop := ∀ x, k = .number x → Double.signBit x = false

namespace Scan

theorem wordKind_unsigned (ieee : Bool) (word : String) : (wordKind ieee word).Unsigned := by
  intro x hx
  unfold wordKind at hx
  repeat' split at hx
  all_goals cases hx
  · decide
  · decide

/-- A number at the front of a text has no sign. -/
theorem token_unsigned {ieee afterDot : Bool} {cs : List Char} {found : Found}
    (h : token ieee afterDot cs = .ok found) : found.kind.Unsigned := by
  cases token_reading h with
  | symbol s _ hr =>
    obtain rfl := Except.ok.inj hr
    rintro x hx
    rcases symbolKind_kind s cs with ⟨_, hkind⟩ | ⟨_, hkind⟩ <;> cases hkind.symm.trans hx
  | eof _ hr =>
    obtain rfl := Except.ok.inj hr
    exact nofun
  | text raw quote rest _ _ hr =>
    obtain ⟨_, _, -, rfl⟩ := of_literal hr
    exact nofun
  | number c rest _ _ hr =>
    obtain ⟨n, -, rfl⟩ := of_numberOf hr
    rintro _ ⟨⟩
    exact Numeral.signBit_toDouble n
  | name _ _ _ _ _ hr =>
    obtain rfl := Except.ok.inj hr
    exact wordKind_unsigned ieee _
  | stray _ _ _ hr => cases hr
  | invalid _ _ _ _ _ _ _ hr => cases hr

end Scan

namespace Scanner

theorem collect_unsigned (fuel : Nat) (s : Scanner) (tokens : List Token)
    (h : ∀ t ∈ tokens, t.kind.Unsigned) : ∀ t ∈ (collect fuel s tokens).1, t.kind.Unsigned := by
  induction fuel generalizing s tokens with
  | zero => exact fun t ht => h t (List.mem_reverse.mp ht)
  | succ fuel ih =>
    rw [collect]
    split
    · rename_i t s' hnext
      split
      · exact fun t ht => h t (List.mem_reverse.mp ht)
      · rename_i heof
        obtain ⟨found, hfound, hkind, _⟩ := next_token hnext (Bool.eq_false_iff.mpr heof)
        refine ih s' (t :: tokens) (List.forall_mem_cons.mpr ⟨?_, h⟩)
        rw [hkind]
        exact Scan.token_unsigned hfound
    · exact fun t ht => h t (List.mem_reverse.mp ht)

/-- **No number of a source has a sign.** -/
theorem tokens_unsigned (s : Scanner) : ∀ t ∈ s.tokens.1, t.kind.Unsigned :=
  collect_unsigned _ s [] fun _ ht => absurd ht List.not_mem_nil

end Scanner

end PipeExpr
