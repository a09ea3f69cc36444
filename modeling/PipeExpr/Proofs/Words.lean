import Mathlib
import PipeExpr.Machine.Operator
import PipeExpr.Proofs.Equality
import PipeExpr.Proofs.Integers

/-!
# Bitwise operators

The bitwise operators take the doubles that are integers of 64 bits and no others.  What they do is said on
unbounded integers in two's complement, an infinite row of bits that from some place on are all the sign
(`Int.testBit`): **and, or, xor and not work place by place, a right shift is a floor division, and a left
shift keeps the places of the word** (`wordOf`).  The words follow because a word has the bits of its integer
and from its top place on the sign (`testBit_toInt`).

Which integers are safe is also told by bits: an integer lies within `2 ^ k` just if from place `k` on it is all
sign (`sign_iff`).  No operator that works place by place leaves such a range, so between safe integers nothing
is rounded and the laws of integers hold for numbers.
-/

namespace PipeExpr

namespace Operator

/-! ## Rows of bits -/

section Bits
variable {m n : Int} {k : Nat}

theorem eq_of_testBit (h : ∀ i, m.testBit i = n.testBit i) : m = n := by
  -- far to the left only the sign is seen
  have hfar : ∀ a b : Nat, ¬ ∀ i, a.testBit i = !b.testBit i := by
    intro a b hbits
    have ha : a.testBit (a + b) = false := Nat.testBit_lt_two_pow (Nat.lt_two_pow_self.trans_le
      (Nat.pow_le_pow_right two_pos (Nat.le_add_right a b)))
    have hb : b.testBit (a + b) = false := Nat.testBit_lt_two_pow (Nat.lt_two_pow_self.trans_le
      (Nat.pow_le_pow_right two_pos (Nat.le_add_left b a)))
    have := hbits (a + b)
    rw [ha, hb] at this
    cases this
  cases m with
  | ofNat a =>
    cases n with
    | ofNat b => exact congrArg Int.ofNat (Nat.eq_of_testBit_eq h)
    | negSucc b => exact absurd h (hfar a b)
  | negSucc a =>
    cases n with
    | ofNat b => exact absurd (fun i => (h i).symm) (hfar b a)
    | negSucc b => exact congrArg Int.negSucc (Nat.eq_of_testBit_eq fun i => Bool.not_inj (h i))

/-- **The integers within a power of two** are those that are all sign from its place on. -/
theorem sign_iff : -2 ^ k ≤ n ∧ n < 2 ^ k ↔ ∃ sign, ∀ i, k ≤ i → n.testBit i = sign := by
  have hnat : ∀ a : Nat, a < 2 ^ k ↔ ∀ i, k ≤ i → a.testBit i = false := fun a =>
    ⟨fun h i hi => Nat.testBit_lt_two_pow (h.trans_le (Nat.pow_le_pow_right two_pos hi)),
      fun h => Nat.lt_pow_two_of_testBit a h⟩
  have hsign : ∀ (a : Nat) (sign : Bool), (∀ i, k ≤ i → a.testBit i = sign) → sign = false := by
    intro a sign h
    rw [← h (k + a) (Nat.le_add_right k a)]
    exact Nat.testBit_lt_two_pow (Nat.lt_two_pow_self.trans_le
      (Nat.pow_le_pow_right two_pos (Nat.le_add_left a k)))
  have hpow : ((2 ^ k : Nat) : Int) = 2 ^ k := Nat.cast_pow 2 k
  cases n with
  | ofNat a =>
    have hrange : -2 ^ k ≤ Int.ofNat a ∧ Int.ofNat a < 2 ^ k ↔ a < 2 ^ k := by
      rw [← hpow, Int.ofNat_eq_natCast]
      omega
    rw [hrange, hnat]
    refine ⟨fun h => ⟨false, h⟩, ?_⟩
    rintro ⟨sign, h⟩
    exact hsign a sign h ▸ h
  | negSucc a =>
    have hrange : -2 ^ k ≤ Int.negSucc a ∧ Int.negSucc a < 2 ^ k ↔ a < 2 ^ k := by
      rw [← hpow]
      omega
    rw [hrange, hnat]
    refine ⟨fun h => ⟨true, fun i hi => congrArg not (h i hi)⟩, ?_⟩
    rintro ⟨sign, h⟩
    have hflipped : ∀ i, k ≤ i → a.testBit i = !sign := fun i hi => Bool.not_eq_eq_eq_not.mp (h i hi)
    exact hsign a (!sign) hflipped ▸ hflipped

/-- **A word has the bits of its integer**, and from its top place on the sign. -/
theorem testBit_toInt {w : Nat} (x : BitVec w) (i : Nat) :
    x.toInt.testBit i = if i < w then x.getLsbD i else x.msb := by
  have hbits : (x.toNat : Int).testBit i = x.getLsbD i := rfl
  rw [BitVec.toInt_eq_msb_cond]
  cases hsign : x.msb with
  | false =>
    rw [if_neg Bool.false_ne_true, hbits]
    split
    · rfl
    · exact x.getLsbD_of_ge i (by omega)
  | true =>
    have hlt := x.isLt
    have hneg : (x.toNat : Int) - (2 ^ w : Nat) = Int.negSucc (2 ^ w - (x.toNat + 1)) := by omega
    rw [if_pos rfl, hneg]
    show (!(2 ^ w - (x.toNat + 1)).testBit i) = _
    rw [Nat.testBit_two_pow_sub_succ hlt]
    split
    · rename_i hi
      rw [decide_eq_true hi, Bool.true_and, Bool.not_not, BitVec.testBit_toNat]
    · rename_i hi
      rw [decide_eq_false hi, Bool.false_and, Bool.not_false]

theorem land_add_lor (hm : -2 ^ k ≤ m ∧ m < 2 ^ k) (hn : -2 ^ k ≤ n ∧ n < 2 ^ k) :
    m.land n + m.lor n = m + n := by
  induction k generalizing m n with
  | zero =>
    obtain rfl | rfl : m = 0 ∨ m = -1 := by omega
    all_goals obtain rfl | rfl : n = 0 ∨ n = -1 := by omega
    all_goals decide +kernel
  | succ k ih =>
    cases m using Int.bitCasesOn with | _ b m => ?_
    cases n using Int.bitCasesOn with | _ c n => ?_
    rw [Int.land_bit, Int.lor_bit]
    have hbit : ∀ {b : Bool} {n : Int}, -2 ^ (k + 1) ≤ Int.bit b n ∧ Int.bit b n < 2 ^ (k + 1) →
        -2 ^ k ≤ n ∧ n < 2 ^ k := by
      intro b n h
      cases b <;> simp only [Int.bit, cond_false, cond_true] at h <;> omega
    have hhalf := ih (hbit hm) (hbit hn)
    cases b <;> cases c <;> simp only [Int.bit, Bool.and_self, Bool.or_self, Bool.and_true, Bool.and_false,
      Bool.or_true, Bool.or_false, cond_false, cond_true] <;> omega

end Bits

/-! ## Words -/

/-- The integers of 64 bits. -/
def Word (n : Int) : Prop := -2 ^ 63 ≤ n ∧ n < 2 ^ 63

/-- **A number is an integer of 64 bits**: it is finite, and its value is the integer. -/
structure IsWord (x : Float) (n : Int) : Prop where
  value : ∃ b, Double.classify x = .finite b ∧
    (if b.negative then -1 else 1) * ((b.mantissa : ℚ) * 2 ^ b.exponent) = n
  word : Word n

/-- The shifts, which take an amount. -/
def IsShift (op : Opcode) : Prop := op = .shiftLeft ∨ op = .shiftRight

/-- The amount of a shift is below the width of a word. -/
def Fits (op : Opcode) (n : Int) : Prop := IsShift op → 0 ≤ n ∧ n < 64

instance (op : Opcode) : Decidable (IsShift op) := inferInstanceAs (Decidable (_ ∨ _))

instance (op : Opcode) (n : Int) : Decidable (Fits op n) := inferInstanceAs (Decidable (_ → _))

/-- The bitwise operators between two values. -/
def IsBitwise (op : Opcode) : Prop := op = .bitAnd ∨ op = .bitOr ∨ op = .bitXor ∨ IsShift op

/-- **What a bitwise operator makes of two words**, in two's complement.  A left shift keeps the places of the
word; the others never leave it. -/
def wordOf (op : Opcode) (m n : Int) : Int :=
  match op with
  | .bitAnd => m.land n
  | .bitOr => m.lor n
  | .bitXor => m.xor n
  | .shiftLeft => (m * 2 ^ n.toNat).bmod (2 ^ 64)
  | _ => m / 2 ^ n.toNat

section Words
variable {x : Float} {m n : Int}

theorem toInt?_iff_value : Double.toInt? x = some n ↔ ∃ b, Double.classify x = .finite b ∧
    (if b.negative then -1 else 1) * ((b.mantissa : ℚ) * 2 ^ b.exponent) = n := by
  rw [Double.toInt?_eq_some_iff]
  constructor
  · rintro ⟨b, hclass, hwhole, rfl⟩
    refine ⟨b, hclass, ?_⟩
    rw [← Double.value_of_isWhole hwhole]
    unfold Binary.truncate
    split <;> simp
  · rintro ⟨b, hclass, hvalue⟩
    have hpos : (0 : ℚ) ≤ b.mantissa * 2 ^ b.exponent := by positivity
    obtain ⟨hmagnitude, hn⟩ : (n.natAbs : ℚ) = b.mantissa * 2 ^ b.exponent ∧
        (if b.negative then -(n.natAbs : Int) else n.natAbs) = n := by
      cases hsign : b.negative with
      | false =>
        rw [hsign, if_neg Bool.false_ne_true, one_mul] at hvalue
        have hle : 0 ≤ n := by exact_mod_cast hvalue ▸ hpos
        have habs : (n.natAbs : Int) = n := Int.natAbs_of_nonneg hle
        exact ⟨by rw [hvalue, ← Int.cast_natCast, habs], habs⟩
      | true =>
        rw [hsign, if_pos rfl, neg_one_mul, neg_eq_iff_eq_neg] at hvalue
        rw [hvalue, Left.nonneg_neg_iff] at hpos
        have hle : n ≤ 0 := by exact_mod_cast hpos
        have habs : (n.natAbs : Int) = -n := Int.ofNat_natAbs_of_nonpos hle
        refine ⟨by rw [hvalue, ← Int.cast_natCast, habs, Int.cast_neg], ?_⟩
        rw [if_pos rfl, habs, neg_neg]
    obtain ⟨hwhole, hpart⟩ := Double.wholePart_of_value hmagnitude
    exact ⟨b, hclass, hwhole, by rw [Binary.truncate, hpart, hn]⟩

/-- **A number is taken just if it is a word**, and as the integer that it is. -/
theorem exactInt64?_eq_some_iff : exactInt64? x = some n ↔ IsWord x n := by
  unfold exactInt64?
  rw [Option.filter_eq_some_iff, toInt?_iff_value, Bool.and_eq_true, decide_eq_true_iff, decide_eq_true_iff]
  have hrange : Double.leastInt64 ≤ n ∧ n ≤ Double.greatestInt64 ↔ Word n := by
    unfold Double.leastInt64 Double.greatestInt64 Word
    omega
  rw [hrange]
  exact ⟨fun h => ⟨h.1, h.2⟩, fun h => ⟨h.value, h.word⟩⟩

theorem IsWord.denotes (h : IsWord x n) : Double.Denotes x.toModel.unpack n :=
  Double.denotes_of_toInt? (toInt?_iff_value.mpr h.value)

/-- An integer that is not too large is the word that it was made from. -/
theorem isWord_ofInt (h : n.natAbs ≤ 2 ^ 53) : IsWord (Double.ofInt n) n where
  value := toInt?_iff_value.mp (Double.toInt?_ofInt_of_natAbs_le h)
  word := by unfold Word; omega

theorem toInt_ofInt (h : Word n) : (Int64.ofInt n).toInt = n := Int64.toInt_ofInt_of_le h.1 h.2

/-- Words that agree place by place agree on all places of their integers. -/
theorem testBit_toInt_of_places {f : Bool → Bool → Bool} {a b c : Int64}
    (hplaces : ∀ i, i < 64 → c.toBitVec.getLsbD i = f (a.toBitVec.getLsbD i) (b.toBitVec.getLsbD i)) (i : Nat) :
    c.toInt.testBit i = f (a.toInt.testBit i) (b.toInt.testBit i) := by
  rw [← Int64.toInt_toBitVec, ← Int64.toInt_toBitVec, ← Int64.toInt_toBitVec, testBit_toInt, testBit_toInt,
    testBit_toInt]
  split
  · exact hplaces i ‹_›
  · rw [BitVec.msb_eq_getLsbD_last, BitVec.msb_eq_getLsbD_last, BitVec.msb_eq_getLsbD_last]
    exact hplaces 63 (by decide)

theorem toInt_and (hm : Word m) (hn : Word n) : (Int64.ofInt m &&& Int64.ofInt n).toInt = m.land n :=
  eq_of_testBit fun i => by
    rw [testBit_toInt_of_places (f := and) (a := Int64.ofInt m) (b := Int64.ofInt n) fun i _ => by
      rw [Int64.toBitVec_and, BitVec.getLsbD_and], toInt_ofInt hm, toInt_ofInt hn, Int.testBit_land]

theorem toInt_or (hm : Word m) (hn : Word n) : (Int64.ofInt m ||| Int64.ofInt n).toInt = m.lor n :=
  eq_of_testBit fun i => by
    rw [testBit_toInt_of_places (f := or) (a := Int64.ofInt m) (b := Int64.ofInt n) fun i _ => by
      rw [Int64.toBitVec_or, BitVec.getLsbD_or], toInt_ofInt hm, toInt_ofInt hn, Int.testBit_lor]

theorem toInt_xor (hm : Word m) (hn : Word n) : (Int64.ofInt m ^^^ Int64.ofInt n).toInt = m.xor n :=
  eq_of_testBit fun i => by
    rw [testBit_toInt_of_places (f := xor) (a := Int64.ofInt m) (b := Int64.ofInt n) fun i _ => by
      rw [Int64.toBitVec_xor, BitVec.getLsbD_xor], toInt_ofInt hm, toInt_ofInt hn, Int.testBit_lxor]

theorem lnot_eq (n : Int) : n.lnot = -n - 1 := by
  cases n with
  | ofNat a => exact (Int.negSucc_eq a).trans (neg_add' _ _)
  | negSucc a => show (a : Int) = -Int.negSucc a - 1; omega

theorem toInt_not (hn : Word n) : (~~~ Int64.ofInt n).toInt = n.lnot := by
  rw [Int64.toInt_not, toInt_ofInt hn, lnot_eq]
  exact Int.bmod_eq_of_le (by have := hn.2; omega) (by have := hn.1; omega)

/-- The places of a shift, read from the word that is the amount. -/
theorem toNat_amount (hn : 0 ≤ n ∧ n < 64) : ((Int64.ofInt n).toBitVec.smod 64).toNat = n.toNat := by
  have hsmod : ((Int64.ofInt n).toBitVec.smod 64).toInt = n := by
    rw [BitVec.toInt_smod, Int64.toInt_toBitVec, Int64.toInt_ofInt_of_le (by omega) (by omega)]
    exact Int.fmod_eq_of_lt hn.1 hn.2
  have hsign : ((Int64.ofInt n).toBitVec.smod 64).msb = false := by
    rw [BitVec.msb_eq_toInt, hsmod]
    exact decide_eq_false (not_lt_of_ge hn.1)
  rw [BitVec.toInt_eq_toNat_of_msb hsign] at hsmod
  omega

theorem toInt_shiftRight (hm : Word m) (hn : 0 ≤ n ∧ n < 64) :
    (Int64.ofInt m >>> Int64.ofInt n).toInt = m / 2 ^ n.toNat := by
  rw [← Int64.toInt_toBitVec, Int64.toBitVec_shiftRight, BitVec.sshiftRight', BitVec.toInt_sshiftRight,
    toNat_amount hn, Int64.toInt_toBitVec, toInt_ofInt hm, Int.shiftRight_eq_div_pow, Nat.cast_pow]
  rfl

theorem toInt_shiftLeft (hm : Word m) (hn : 0 ≤ n ∧ n < 64) :
    (Int64.ofInt m <<< Int64.ofInt n).toInt = (m * 2 ^ n.toNat).bmod (2 ^ 64) := by
  have hword : ((Int64.ofInt m).toBitVec.toNat : Int).bmod (2 ^ 64) = m := by
    rw [← BitVec.toInt_eq_toNat_bmod, Int64.toInt_toBitVec, toInt_ofInt hm]
  rw [← Int64.toInt_toBitVec, Int64.toBitVec_shiftLeft, BitVec.shiftLeft_eq', BitVec.toInt_shiftLeft,
    toNat_amount hn, Nat.shiftLeft_eq, Nat.cast_mul, Nat.cast_pow, ← Int.bmod_mul_bmod, hword]
  rfl

/-- A shift by more places than a word has is refused. -/
theorem shift_eq {op : Opcode} (hop : IsShift op) (hm : Word m) : (Int64.toInt <$> shift op m n) =
    if 0 ≤ n ∧ n < 64 then .ok (wordOf op m n) else .error (.shiftOutOfRange n) := by
  unfold shift
  by_cases hn : 0 ≤ n ∧ n < 64
  · rw [if_neg (by omega), if_pos hn]
    obtain rfl | rfl := hop
    · exact congrArg Except.ok (toInt_shiftLeft hm hn)
    · exact congrArg Except.ok (toInt_shiftRight hm hn)
  · rw [if_pos (by omega), if_neg hn]
    rfl

/-- **What a bitwise operator makes of two words**, and when it makes nothing of them. -/
theorem bitwise_eq {op : Opcode} (hop : IsBitwise op) (hm : Word m) (hn : Word n) :
    (Int64.toInt <$> bitwise op m n) =
      if Fits op n then .ok (wordOf op m n) else .error (.shiftOutOfRange n) := by
  obtain rfl | rfl | rfl | hshift := hop
  · rw [if_pos (by rintro (h | h) <;> cases h)]
    exact congrArg Except.ok (toInt_and hm hn)
  · rw [if_pos (by rintro (h | h) <;> cases h)]
    exact congrArg Except.ok (toInt_or hm hn)
  · rw [if_pos (by rintro (h | h) <;> cases h)]
    exact congrArg Except.ok (toInt_xor hm hn)
  · have hbitwise : bitwise op m n = shift op m n := by obtain rfl | rfl := hshift <;> rfl
    have hfits : Fits op n ↔ 0 ≤ n ∧ n < 64 := forall_prop_of_true hshift
    simp only [hbitwise, shift_eq hshift hm, hfits]

end Words

/-! ## The operators -/

section Operators
variable {x y : Float} {m n : Int} {op : Opcode} {v : Value}

/-- An operand is taken just if it is a word. -/
theorem integerOperand_eq_ok_iff {left right : Value} :
    integerOperand op left right (.number x) = .ok m ↔ IsWord x m := by
  rw [← exactInt64?_eq_some_iff]
  unfold integerOperand
  dsimp only
  cases exactInt64? x <;> simp

theorem binary_eq_bitwise (hop : IsBitwise op) (left right : Value) : binary op left right = (do
    let m ← integerOperand op left right left
    let n ← integerOperand op left right right
    ofInt64 <$> bitwise op m n) := by
  obtain rfl | rfl | rfl | rfl | rfl := hop <;> rfl

theorem binary_words (hop : IsBitwise op) (hx : IsWord x m) (hy : IsWord y n) :
    binary op (.number x) (.number y) =
      if Fits op n then .ok (.number (Double.ofInt (wordOf op m n)))
      else .error (.shiftOutOfRange n) := by
  have hbinary : binary op (.number x) (.number y) =
      (fun r => .number (Double.ofInt r)) <$> Int64.toInt <$> bitwise op m n := by
    rw [binary_eq_bitwise hop, integerOperand_eq_ok_iff.mpr hx, integerOperand_eq_ok_iff.mpr hy]
    show ofInt64 <$> bitwise op m n = _
    cases bitwise op m n <;> rfl
  rw [hbinary, bitwise_eq hop hx.word hy.word]
  split <;> rfl

/-- **Two numbers are taken just if both are words**, and the amount of a shift is below the width of one. -/
theorem binary_eq_ok_iff (hop : IsBitwise op) : binary op (.number x) (.number y) = .ok v ↔
    ∃ m n, IsWord x m ∧ IsWord y n ∧ Fits op n ∧
      v = .number (Double.ofInt (wordOf op m n)) := by
  constructor
  · intro h
    obtain ⟨m, n, hm, hn⟩ : ∃ m n, IsWord x m ∧ IsWord y n := by
      rw [binary_eq_bitwise hop] at h
      cases hx : integerOperand op (.number x) (.number y) (.number x) with
      | error e => rw [hx] at h; cases h
      | ok m =>
        cases hy : integerOperand op (.number x) (.number y) (.number y) with
        | error e => rw [hx, hy] at h; cases h
        | ok n => exact ⟨m, n, integerOperand_eq_ok_iff.mp hx, integerOperand_eq_ok_iff.mp hy⟩
    rw [binary_words hop hm hn] at h
    split at h
    · exact ⟨m, n, hm, hn, ‹_›, (Except.ok.inj h).symm⟩
    · cases h
  · rintro ⟨m, n, hm, hn, hamount, rfl⟩
    rw [binary_words hop hm hn, if_pos hamount]

theorem unary_eq_ok_iff : unary .bitNot (.number x) = .ok v ↔
    ∃ n, IsWord x n ∧ v = .number (Double.ofInt n.lnot) := by
  constructor
  · intro h
    cases hx : exactInt64? x with
    | none =>
      simp only [unary, hx] at h
      cases h
    | some n =>
      have hn := exactInt64?_eq_some_iff.mp hx
      simp only [unary, hx, ofInt64, toInt_not hn.word] at h
      exact ⟨n, hn, (Except.ok.inj h).symm⟩
  · rintro ⟨n, hn, rfl⟩
    simp only [unary, exactInt64?_eq_some_iff.mpr hn, ofInt64, toInt_not hn.word]

end Operators

/-! ## Safe integers -/

section Safe
variable {x y : Float} {m n : Int} {op : Opcode} {k : Nat}

/-- **Only a left shift leaves a range between powers of two.** -/
theorem wordOf_within (hop : op ≠ .shiftLeft) (hm : -2 ^ k ≤ m ∧ m < 2 ^ k) (hn : -2 ^ k ≤ n ∧ n < 2 ^ k) :
    -2 ^ k ≤ wordOf op m n ∧ wordOf op m n < 2 ^ k := by
  obtain ⟨a, ha⟩ := sign_iff.mp hm
  obtain ⟨b, hb⟩ := sign_iff.mp hn
  unfold wordOf
  split
  · exact sign_iff.mpr ⟨a && b, fun i hi => by rw [Int.testBit_land, ha i hi, hb i hi]⟩
  · exact sign_iff.mpr ⟨a || b, fun i hi => by rw [Int.testBit_lor, ha i hi, hb i hi]⟩
  · exact sign_iff.mpr ⟨a ^^ b, fun i hi => by rw [Int.testBit_lxor, ha i hi, hb i hi]⟩
  · exact absurd rfl hop
  · have hscale : (1 : Int) ≤ 2 ^ n.toNat := one_le_pow₀ one_le_two
    have hpow : (0 : Int) < 2 ^ k := by positivity
    constructor
    · exact Int.le_ediv_of_mul_le (by omega) ((mul_le_of_one_le_right (by omega) hscale).trans hm.1)
    · exact Int.ediv_lt_of_lt_mul (by omega) (hm.2.trans_le (le_mul_of_one_le_right hpow.le hscale))

/-- What the operators make of words are words. -/
theorem word_wordOf (hm : Word m) (hn : Word n) : Word (wordOf op m n) := by
  by_cases hop : op = .shiftLeft
  · subst hop
    have hleast := @Int.le_bmod (m * 2 ^ n.toNat) (2 ^ 64) (by decide)
    have hgreatest := @Int.bmod_lt (m * 2 ^ n.toNat) (2 ^ 64) (by decide)
    show Word ((m * 2 ^ n.toNat).bmod (2 ^ 64))
    unfold Word
    omega
  · exact wordOf_within hop hm hn

/-- **Between safe integers nothing is rounded.** -/
theorem binary_exact (hop : IsBitwise op) (hleft : op ≠ .shiftLeft) (hfits : Fits op n) (hx : IsWord x m)
    (hy : IsWord y n) (hm : m.natAbs ≤ 2 ^ 53 - 1) (hn : n.natAbs ≤ 2 ^ 53 - 1) :
    binary op (.number x) (.number y) = .ok (.number (Double.ofInt (wordOf op m n))) ∧
      (wordOf op m n).natAbs ≤ 2 ^ 53 := by
  have hwithin := @wordOf_within m n op 53 hleft (by omega) (by omega)
  exact ⟨by rw [binary_words hop hx hy, if_pos hfits], by omega⟩

theorem xor_xor (m n : Int) : (m.xor n).xor n = m :=
  eq_of_testBit fun i => by rw [Int.testBit_lxor, Int.testBit_lxor, Bool.xor_assoc, Bool.xor_self, Bool.xor_false]

theorem lnot_lnot (n : Int) : n.lnot.lnot = n := by
  rw [lnot_eq, lnot_eq]
  omega

theorem compare_equal (x y : Float) : compare .equal (.number x) (.number y) = .ok (x == y) := by
  simp [compare, equals, Value.isNull, Value.kind, Value.equal]

theorem unary_exact (hx : IsWord x n) (hn : n.natAbs ≤ 2 ^ 53 - 1) :
    unary .bitNot (.number x) = .ok (.number (Double.ofInt n.lnot)) ∧ n.lnot.natAbs ≤ 2 ^ 53 :=
  ⟨unary_eq_ok_iff.mpr ⟨n, hx, rfl⟩, by rw [lnot_eq]; omega⟩

theorem xor_twice (hx : IsWord x m) (hy : IsWord y n) (hm : m.natAbs ≤ 2 ^ 53 - 1) (hn : n.natAbs ≤ 2 ^ 53 - 1) :
    (do
      let z ← binary .bitXor (.number x) (.number y)
      let w ← binary .bitXor z (.number y)
      compare .equal w (.number x)) = .ok true := by
  have hxor : IsBitwise .bitXor := .inr (.inr (.inl rfl))
  have hfits : ∀ n, Fits .bitXor n := fun _ h => by obtain h | h := h <;> cases h
  obtain ⟨hfirst, hsize⟩ := binary_exact hxor (by decide) (hfits n) hx hy hm hn
  have hback : wordOf .bitXor (wordOf .bitXor m n) n = m := xor_xor m n
  have hsecond := binary_words hxor (isWord_ofInt hsize) hy
  rw [if_pos (hfits n), hback] at hsecond
  have hequal : (Double.ofInt m == x) = true :=
    Double.beq_of_denotes (Double.denotes_ofInt (by omega)) hx.denotes
  rw [hfirst]
  show (do
    let w ← binary .bitXor (.number (Double.ofInt (wordOf .bitXor m n))) (.number y)
    compare .equal w (.number x)) = .ok true
  rw [hsecond]
  exact (compare_equal _ _).trans (congrArg _ hequal)

theorem not_twice (hx : IsWord x n) (hn : n.natAbs ≤ 2 ^ 53 - 1) :
    (do
      let z ← unary .bitNot (.number x)
      let w ← unary .bitNot z
      compare .equal w (.number x)) = .ok true := by
  obtain ⟨hfirst, hsize⟩ := unary_exact hx hn
  have hsecond := unary_eq_ok_iff.mpr ⟨n.lnot, isWord_ofInt hsize, rfl⟩
  rw [lnot_lnot] at hsecond
  have hequal : (Double.ofInt n == x) = true :=
    Double.beq_of_denotes (Double.denotes_ofInt (by omega)) hx.denotes
  rw [hfirst]
  show (do
    let w ← unary .bitNot (.number (Double.ofInt n.lnot))
    compare .equal w (.number x)) = .ok true
  rw [hsecond]
  exact (compare_equal _ _).trans (congrArg _ hequal)

/-- The integer one. -/
theorem denotes_one : Double.Denotes (1 : Float).toModel.unpack 1 :=
  Double.denotes_of_toInt? (by decide +kernel)

theorem not_eq_neg_sub_one (hx : IsWord x n) (hn : n.natAbs ≤ 2 ^ 53 - 1) :
    (do
      let z ← unary .bitNot (.number x)
      let u ← unary .negate (.number x)
      let w ← binary .sub u (.number 1)
      compare .equal z w) = .ok true := by
  obtain ⟨hnot, hsize⟩ := unary_exact hx hn
  have hdifference : Double.Denotes (-x - 1).toModel.unpack n.lnot := by
    have hrounds := Double.sub_rounds (Double.denotes_neg hx.denotes) denotes_one
    rw [← lnot_eq] at hrounds
    exact (hrounds.denotes hsize).pack
  have hequal : (Double.ofInt n.lnot == -x - 1) = true :=
    Double.beq_of_denotes (Double.denotes_ofInt hsize) hdifference
  rw [hnot]
  exact (compare_equal _ _).trans (congrArg _ hequal)

theorem and_add_or (hx : IsWord x m) (hy : IsWord y n) (hm : m.natAbs ≤ 2 ^ 53 - 1)
    (hn : n.natAbs ≤ 2 ^ 53 - 1) :
    (do
      let a ← binary .bitAnd (.number x) (.number y)
      let o ← binary .bitOr (.number x) (.number y)
      let s ← binary .add a o
      let t ← binary .add (.number x) (.number y)
      compare .equal s t) = .ok true := by
  obtain ⟨hand, hsize⟩ := binary_exact (.inl rfl : IsBitwise .bitAnd) (by decide)
    (fun h => by obtain h | h := h <;> cases h) hx hy hm hn
  obtain ⟨hor, hsize'⟩ := binary_exact (.inr (.inl rfl) : IsBitwise .bitOr) (by decide)
    (fun h => by obtain h | h := h <;> cases h) hx hy hm hn
  have hsum : wordOf .bitAnd m n + wordOf .bitOr m n = m + n :=
    @land_add_lor m n 53 (by omega) (by omega)
  have hequal := Double.add_beq_add (Double.denotes_ofInt hsize) (Double.denotes_ofInt hsize') hx.denotes
    hy.denotes hsum
  rw [hand, hor]
  exact (compare_equal _ _).trans (congrArg _ hequal)

theorem shiftRight_floor (hx : IsWord x m) (hy : IsWord y n) (hm : m.natAbs ≤ 2 ^ 53 - 1)
    (hn : 0 ≤ n ∧ n < 64) : ∃ z, binary .shiftRight (.number x) (.number y) = .ok (.number z) ∧
      IsWord z ⌊(m : ℚ) / 2 ^ n.toNat⌋ := by
  obtain ⟨hshift, hsize⟩ := binary_exact (.inr (.inr (.inr (.inr rfl))) : IsBitwise .shiftRight) (by decide)
    (fun _ => hn) hx hy hm (by omega)
  have hfloor : ⌊(m : ℚ) / 2 ^ n.toNat⌋ = wordOf .shiftRight m n := by
    have := Rat.floor_intCast_div_natCast m (2 ^ n.toNat)
    rw [Nat.cast_pow, Nat.cast_pow] at this
    exact this
  exact ⟨_, hshift, by rw [hfloor]; exact isWord_ofInt hsize⟩

end Safe

/-- **The bitwise operators are strict on all numbers and exact on safe integers**: they take words, make the
word of both in two's complement, and between integers below `2 ^ 53` keep the laws of integers. -/
theorem bitwise_exact :
    (∀ op, IsBitwise op → ∀ (x y : Float) (v : Value), binary op (.number x) (.number y) = .ok v ↔
      ∃ m n, IsWord x m ∧ IsWord y n ∧ Fits op n ∧ Word (wordOf op m n) ∧
        v = .number (Double.ofInt (wordOf op m n))) ∧
    (∀ (x : Float) (v : Value), unary .bitNot (.number x) = .ok v ↔
      ∃ n, IsWord x n ∧ v = .number (Double.ofInt n.lnot)) ∧
    ∀ (x y : Float) (m n : Int), IsWord x m → IsWord y n → m.natAbs < 2 ^ 53 → n.natAbs < 2 ^ 53 →
      (∀ op, IsBitwise op → op ≠ .shiftLeft → Fits op n →
        ∃ z, binary op (.number x) (.number y) = .ok (.number z) ∧ IsWord z (wordOf op m n)) ∧
      (do
        let z ← binary .bitXor (.number x) (.number y)
        let w ← binary .bitXor z (.number y)
        compare .equal w (.number x)) = .ok true ∧
      (do
        let z ← unary .bitNot (.number x)
        let w ← unary .bitNot z
        compare .equal w (.number x)) = .ok true ∧
      (do
        let z ← unary .bitNot (.number x)
        let u ← unary .negate (.number x)
        let w ← binary .sub u (.number 1)
        compare .equal z w) = .ok true ∧
      (do
        let a ← binary .bitAnd (.number x) (.number y)
        let o ← binary .bitOr (.number x) (.number y)
        let s ← binary .add a o
        let t ← binary .add (.number x) (.number y)
        compare .equal s t) = .ok true ∧
      (0 ≤ n ∧ n < 64 → ∃ z, binary .shiftRight (.number x) (.number y) = .ok (.number z) ∧
        IsWord z ⌊(m : ℚ) / 2 ^ n.toNat⌋) := by
  refine ⟨fun op hop x y v => ?_, fun x v => unary_eq_ok_iff, fun x y m n hx hy hm hn => ?_⟩
  · rw [binary_eq_ok_iff hop]
    refine exists_congr fun m => exists_congr fun n => and_congr_right fun hx => and_congr_right fun hy =>
      and_congr_right fun _ => (and_iff_right (word_wordOf hx.word hy.word)).symm
  · have hm : m.natAbs ≤ 2 ^ 53 - 1 := by omega
    have hn : n.natAbs ≤ 2 ^ 53 - 1 := by omega
    refine ⟨fun op hop hleft hfits => ?_, xor_twice hx hy hm hn, not_twice hx hm, not_eq_neg_sub_one hx hm,
      and_add_or hx hy hm hn, fun hamount => shiftRight_floor hx hy hm hamount⟩
    obtain ⟨hresult, hsize⟩ := binary_exact hop hleft hfits hx hy hm hn
    exact ⟨_, hresult, isWord_ofInt hsize⟩

/-- A negative operand, shifted to the right by two places: the floor of `-7 / 4`, and the end of the words. -/
theorem bitwise_exact_floor :
    (∃ z, binary .shiftRight (.number (Double.ofInt (-7))) (.number (Double.ofInt 2)) = .ok (.number z) ∧
      IsWord z ⌊((-7 : Int) : ℚ) / 2 ^ (2 : Int).toNat⌋) ∧
    ∀ v, binary .bitAnd (.number (Double.ofInt (2 ^ 63))) (.number (Double.ofInt 2)) ≠ .ok v := by
  obtain ⟨hbinary, -, hsafe⟩ := bitwise_exact
  refine ⟨?_, fun v hv => ?_⟩
  · obtain ⟨-, -, -, -, -, hshift⟩ := hsafe _ _ _ _ (isWord_ofInt (n := -7) (by decide))
      (isWord_ofInt (n := 2) (by decide)) (by decide) (by decide)
    exact hshift (by decide)
  · obtain ⟨m, n, hm, -⟩ := (hbinary .bitAnd (.inl rfl) _ _ v).mp hv
    have hnone : exactInt64? (Double.ofInt (2 ^ 63)) = none := by decide +kernel
    rw [exactInt64?_eq_some_iff.mpr hm] at hnone
    cases hnone

end Operator

end PipeExpr
