import Mathlib
import PipeExpr.Machine.Access

/-!
# Slices take the positions that whole numbers say

A slice is computed with 64-bit integers, and its parameters are cut off to 64 bits first.  Nothing of
this can be seen: the elements are those at `first`, `first + step`, `first + 2 * step`, … in front of
`last`, where all numbers are whole numbers of any size (`slice_exact`).

Two facts carry this.  The walk over positions takes exactly the terms of a progression that lie in
front of its end (`walk_terms`), since a sum that is no 64-bit integer lies behind every end.  And a
parameter that is cut off was out of reach anyway: it is clamped to the same limit, and a step as long
as this leaves the sequence at once (`position_cutOff`).
-/

namespace PipeExpr

namespace Access

/-! ## The definition over whole numbers -/

/-- Whether a position lies in front of `last` in the direction of `step`. -/
def InFront (step last i : Int) : Prop := if 0 < step then i < last else last < i

instance (step last i : Int) : Decidable (InFront step last i) :=
  inferInstanceAs (Decidable (if 0 < step then i < last else last < i))

/-- A bound in a sequence of `n` elements: counted from the end if it is negative, then clamped. -/
def boundIn (n step bound : Int) : Int :=
  let counted := if bound < 0 then bound + n else bound
  if 0 < step then max 0 (min n counted) else max (-1) (min (n - 1) counted)

/-- The position that a slice starts at. -/
def firstIn (n step : Int) : Option Int → Int
  | some bound => boundIn n step bound
  | none => if 0 < step then 0 else n - 1

/-- The position that a slice stops in front of. -/
def lastIn (n step : Int) : Option Int → Int
  | some bound => boundIn n step bound
  | none => if 0 < step then n else -1

/-- The `k`-th of the positions `first`, `first + step`, … if it lies in front of `last`. -/
def term (step first last : Int) (k : Nat) : Option Int :=
  let i := first + k * step
  if InFront step last i then some i else none

/-- The `k`-th position of a slice of `n` elements, if there is one. -/
def position (n : Int) (start stop : Option Int) (step : Int) (k : Nat) : Option Int :=
  term step (firstIn n step start) (lastIn n step stop) k

/-- The elements of a sequence that a slice takes. -/
def TakesOut {α : Type} (items : List α) (start stop : Option Int) (step : Int) (picked : List α) : Prop :=
  ∀ k, picked[k]? = ((position items.length start stop step k).bind Int.toNat?).bind (items[·]?)

/-- The number that a parameter of a slice gives, if it is null or a finite whole number. -/
def wholeNumber? : Value → Option (Option Int)
  | .null => some none
  | .number x => (Double.toInt? x).map some
  | _ => none

/-! ## Terms of a progression -/

section Terms
variable {step first last i n : Int} {k : Nat}

theorem term_zero (h : InFront step last first) : term step first last 0 = some first := by
  simp [term, h]

theorem term_succ : term step first last (k + 1) = term step (first + step) last k := by
  have hnext : first + ((k + 1 : Nat) : Int) * step = first + step + k * step := by
    push_cast
    ring
  simp only [term, hnext]

theorem term_eq_some (h : term step first last k = some i) :
    InFront step last i ∧ i = first + k * step := by
  simp only [term] at h
  split at h
  · rename_i hfront
    obtain rfl := Option.some.inj h
    exact ⟨hfront, rfl⟩
  · cases h

/-- Behind the end there is nothing in front of it. -/
theorem term_behind (h : ¬ InFront step last first) (k : Nat) :
    term step first last k = none := by
  refine if_neg fun hfront => h ?_
  unfold InFront at hfront ⊢
  by_cases hpos : 0 < step
  · rw [if_pos hpos] at hfront ⊢
    have := Int.mul_nonneg (Int.natCast_nonneg k) hpos.le
    omega
  · rw [if_neg hpos] at hfront ⊢
    have := Int.mul_nonneg (Int.natCast_nonneg k) (by omega : 0 ≤ -step)
    rw [Int.mul_neg] at this
    omega

/-- The terms lie between the first one and the end. -/
theorem term_between (hstep : step ≠ 0) (h : term step first last k = some i) :
    (0 < step ∧ first ≤ i ∧ i < last) ∨ (step < 0 ∧ last < i ∧ i ≤ first) := by
  obtain ⟨hfront, rfl⟩ := term_eq_some h
  unfold InFront at hfront
  by_cases hpos : 0 < step
  · rw [if_pos hpos] at hfront
    have := Int.mul_nonneg (Int.natCast_nonneg k) hpos.le
    exact .inl ⟨hpos, by omega, hfront⟩
  · rw [if_neg hpos] at hfront
    have := Int.mul_nonneg (Int.natCast_nonneg k) (by omega : 0 ≤ -step)
    rw [Int.mul_neg] at this
    exact .inr ⟨by omega, hfront, by omega⟩

/-- No term comes twice. -/
theorem term_inj {j : Nat} (hstep : step ≠ 0) (hk : term step first last k = some i)
    (hj : term step first last j = some i) : k = j := by
  obtain ⟨-, hik⟩ := term_eq_some hk
  obtain ⟨-, hij⟩ := term_eq_some hj
  have hmul : (k : Int) * step = j * step := by omega
  exact_mod_cast mul_right_cancel₀ hstep hmul

/-- Whether a position is one that a bound may stand for. -/
def InLimits (n step i : Int) : Prop := if 0 < step then 0 ≤ i ∧ i ≤ n else -1 ≤ i ∧ i ≤ n - 1

theorem boundIn_inLimits (hn : 0 ≤ n) (step bound : Int) : InLimits n step (boundIn n step bound) := by
  unfold InLimits boundIn
  by_cases hpos : 0 < step
  · simp only [if_pos hpos]
    omega
  · simp only [if_neg hpos]
    omega

theorem firstIn_inLimits (hn : 0 ≤ n) (step : Int) (start : Option Int) :
    InLimits n step (firstIn n step start) := by
  cases start with
  | some bound => exact boundIn_inLimits hn step bound
  | none =>
    unfold InLimits firstIn
    by_cases hpos : 0 < step
    · simp only [if_pos hpos]
      omega
    · simp only [if_neg hpos]
      omega

theorem lastIn_inLimits (hn : 0 ≤ n) (step : Int) (stop : Option Int) :
    InLimits n step (lastIn n step stop) := by
  cases stop with
  | some bound => exact boundIn_inLimits hn step bound
  | none =>
    unfold InLimits lastIn
    by_cases hpos : 0 < step
    · simp only [if_pos hpos]
      omega
    · simp only [if_neg hpos]
      omega

/-- **The positions of a slice are positions of elements.** -/
theorem position_lt {start stop : Option Int} (hn : 0 ≤ n) (hstep : step ≠ 0)
    (h : position n start stop step k = some i) : 0 ≤ i ∧ i < n := by
  have hfirst := firstIn_inLimits hn step start
  have hlast := lastIn_inLimits hn step stop
  unfold InLimits at hfirst hlast
  rcases term_between hstep h with ⟨hpos, hle, hlt⟩ | ⟨hneg, hlt, hle⟩
  · rw [if_pos hpos] at hfirst hlast
    exact ⟨by omega, by omega⟩
  · rw [if_neg (by omega)] at hfirst hlast
    exact ⟨by omega, by omega⟩

end Terms

/-! ## The walk over positions -/

section Walk
variable {stop step i : Int64}

theorem toInt_max (a b : Int64) : (max a b).toInt = max a.toInt b.toInt := by
  have hmax : max a b = if a ≤ b then b else a := rfl
  rw [hmax]
  by_cases h : a ≤ b
  · rw [if_pos h, max_eq_right (Int64.le_iff_toInt_le.mp h)]
  · have hle : ¬ a.toInt ≤ b.toInt := fun hle => h (Int64.le_iff_toInt_le.mpr hle)
    rw [if_neg h, max_eq_left (by omega)]

theorem toInt_min (a b : Int64) : (min a b).toInt = min a.toInt b.toInt := by
  have hmin : min a b = if a ≤ b then a else b := rfl
  rw [hmin]
  by_cases h : a ≤ b
  · rw [if_pos h, min_eq_left (Int64.le_iff_toInt_le.mp h)]
  · have hle : ¬ a.toInt ≤ b.toInt := fun hle => h (Int64.le_iff_toInt_le.mpr hle)
    rw [if_neg h, min_eq_right (by omega)]

theorem pos_iff_toInt : 0 < step ↔ 0 < step.toInt := Int64.lt_iff_toInt_lt

theorem isBefore_iff (hstep : step ≠ 0) :
    isBefore stop step i = true ↔ InFront step.toInt stop.toInt i.toInt := by
  have hne : step.toInt ≠ 0 := fun h => hstep (Int64.toInt_inj.mp h)
  simp only [isBefore, InFront, Bool.or_eq_true, Bool.and_eq_true, decide_eq_true_eq,
    Int64.lt_iff_toInt_lt, Int64.toInt_zero]
  split <;> omega

/-- Where the next position is no 64-bit integer, it lies behind every end. -/
theorem not_inFront_of_checkedAdd (h : checkedAdd i step = none) (hstep : step ≠ 0) :
    ¬ InFront step.toInt stop.toInt (i.toInt + step.toInt) := by
  have hne : step.toInt ≠ 0 := fun h => hstep (Int64.toInt_inj.mp h)
  have hi := And.intro i.le_toInt i.toInt_lt
  have hstop := And.intro stop.le_toInt stop.toInt_lt
  unfold checkedAdd Double.leastInt64 Double.greatestInt64 at h
  dsimp only at h
  split at h
  · cases h
  · rename_i hrange
    unfold InFront
    split <;> omega

theorem walk_next {next : Int64} (h : isBefore stop step i = true) (hnext : checkedAdd i step = some next)
    (found : Array Int64) : walk stop step i found = walk stop step next (found.push i) := by
  rw [walk]
  simp only [h, dite_true]
  split
  · rename_i next' hnext'
    obtain rfl := Option.some.inj (hnext.symm.trans hnext')
    rfl
  · rename_i hnone
    cases hnext.symm.trans hnone

theorem walk_last (h : isBefore stop step i = true) (hnone : checkedAdd i step = none)
    (found : Array Int64) : walk stop step i found = found.push i := by
  rw [walk]
  simp only [h, dite_true]
  split
  · rename_i next hnext
    cases hnone.symm.trans hnext
  · rfl

theorem walk_behind (h : ¬ isBefore stop step i = true) (found : Array Int64) :
    walk stop step i found = found := by
  rw [walk, dif_neg h]

/-- **The walk finds the terms of a progression**, one after the other. -/
theorem walk_terms (hstep : step ≠ 0) (stop i : Int64) (found : Array Int64) :
    ∃ row, (walk stop step i found).toList = found.toList ++ row ∧
      ∀ k : Nat, row[k]?.map Int64.toInt = term step.toInt i.toInt stop.toInt k := by
  have hne : step.toInt ≠ 0 := fun h => hstep (Int64.toInt_inj.mp h)
  have last : ∀ {i' : Int}, ¬ InFront step.toInt stop.toInt i' → ∀ k : Nat,
      ([] : List Int64)[k]?.map Int64.toInt = term step.toInt i' stop.toInt k :=
    fun h k => (term_behind h k).symm
  have further : ∀ {i : Int64} {row : List Int64}, InFront step.toInt stop.toInt i.toInt →
      (∀ k : Nat, row[k]?.map Int64.toInt = term step.toInt (i.toInt + step.toInt) stop.toInt k) →
      ∀ k : Nat, (i :: row)[k]?.map Int64.toInt = term step.toInt i.toInt stop.toInt k := by
    intro i row hfront hrow k
    cases k with
    | zero => exact (term_zero hfront).symm
    | succ k => rw [term_succ, ← hrow k, List.getElem?_cons_succ]
  induction i, found using walk.induct stop step with
  | case1 i found hbefore next hnext ih =>
    obtain ⟨row, hwalk, hrow⟩ := ih
    rw [toInt_of_checkedAdd hnext] at hrow
    refine ⟨i :: row, ?_, further ((isBefore_iff hstep).mp hbefore) hrow⟩
    rw [walk_next hbefore hnext, hwalk]
    simp
  | case2 i found hbefore hnone =>
    refine ⟨[i], ?_, further ((isBefore_iff hstep).mp hbefore)
      (last (not_inFront_of_checkedAdd hnone hstep))⟩
    rw [walk_last hbefore hnone]
    simp
  | case3 i found hbehind =>
    refine ⟨[], ?_, last fun hfront => hbehind ((isBefore_iff hstep).mpr hfront)⟩
    rw [walk_behind hbehind]
    simp

theorem walk_zero (found : Array Int64) : walk stop 0 i found = found := by
  refine walk_behind ?_ found
  simp [isBefore]

end Walk

/-! ## No operation goes out of range -/

section Range
variable {n : Nat} {step : Int64}

/-- The bound of a slice that is counted from the end of a sequence is a 64-bit integer. -/
theorem toInt_saturatingAdd (hn : n < 2 ^ 63) {bound : Int64} (h : bound < 0) :
    (saturatingAdd bound (Int64.ofNat n)).toInt = bound.toInt + n := by
  have hlength : (Int64.ofNat n).toInt = n := Int64.toInt_ofNat_of_lt hn
  have hneg : bound.toInt < 0 := Int64.lt_iff_toInt_lt.mp h
  have hleast := bound.le_toInt
  unfold saturatingAdd
  rw [hlength]
  refine Int64.toInt_ofIntClamp ?_ ?_
  · show (-2 ^ 63 : Int) ≤ _
    omega
  · show _ ≤ (2 ^ 63 - 1 : Int)
    omega

theorem toInt_length_sub_one (hn : n < 2 ^ 63) : (Int64.ofNat n - 1).toInt = n - 1 := by
  have hlength : (Int64.ofNat n).toInt = n := Int64.toInt_ofNat_of_lt hn
  rw [Int64.toInt_sub, hlength, Int64.toInt_one]
  exact Int.bmod_eq_of_le (by omega) (by omega)

theorem toInt_limits (hn : n < 2 ^ 63) (step : Int64) :
    (sliceLimits (Int64.ofNat n) step).1.toInt = (if 0 < step.toInt then 0 else -1) ∧
      (sliceLimits (Int64.ofNat n) step).2.toInt = (if 0 < step.toInt then (n : Int) else n - 1) := by
  unfold sliceLimits
  by_cases hpos : 0 < step
  · rw [if_pos hpos, if_pos (pos_iff_toInt.mp hpos), if_pos (pos_iff_toInt.mp hpos)]
    exact ⟨rfl, Int64.toInt_ofNat_of_lt hn⟩
  · have hneg : ¬ 0 < step.toInt := fun h => hpos (pos_iff_toInt.mpr h)
    rw [if_neg hpos, if_neg hneg, if_neg hneg]
    exact ⟨rfl, toInt_length_sub_one hn⟩

theorem toInt_clampBound (hn : n < 2 ^ 63) (step bound : Int64) :
    (clampBound (Int64.ofNat n) (sliceLimits (Int64.ofNat n) step) bound).toInt =
      boundIn n step.toInt bound.toInt := by
  obtain ⟨hlower, hupper⟩ := toInt_limits hn step
  have hcounted : (if bound < 0 then saturatingAdd bound (Int64.ofNat n) else bound).toInt =
      if bound.toInt < 0 then bound.toInt + n else bound.toInt := by
    by_cases hneg : bound < 0
    · have hneg' : bound.toInt < 0 := Int64.lt_iff_toInt_lt.mp hneg
      rw [if_pos hneg, if_pos hneg', toInt_saturatingAdd hn hneg]
    · have hneg' : ¬ bound.toInt < 0 := fun h => hneg (Int64.lt_iff_toInt_lt.mpr h)
      rw [if_neg hneg, if_neg hneg']
  unfold clampBound boundIn
  rw [toInt_max, toInt_min, hlower, hupper, hcounted]
  by_cases hpos : 0 < step.toInt
  · simp only [if_pos hpos]
  · simp only [if_neg hpos]

theorem toInt_sliceEnds (hn : n < 2 ^ 63) (start stop : Option Int64) (step : Int64) :
    (sliceEnds (Int64.ofNat n) start stop step).1.toInt =
        firstIn n step.toInt (start.map Int64.toInt) ∧
      (sliceEnds (Int64.ofNat n) start stop step).2.toInt =
        lastIn n step.toInt (stop.map Int64.toInt) := by
  obtain ⟨hlower, hupper⟩ := toInt_limits hn step
  have hclamp := toInt_clampBound hn step
  unfold sliceEnds
  by_cases hpos : 0 < step
  · have hpos' := pos_iff_toInt.mp hpos
    simp only [if_pos hpos, if_pos hpos'] at hlower hupper ⊢
    constructor
    · cases start with
      | some bound => exact hclamp bound
      | none => simpa [firstIn, hpos'] using hlower
    · cases stop with
      | some bound => exact hclamp bound
      | none => simpa [lastIn, hpos'] using hupper
  · have hneg : ¬ 0 < step.toInt := fun h => hpos (pos_iff_toInt.mpr h)
    simp only [if_neg hpos, if_neg hneg] at hlower hupper ⊢
    constructor
    · cases start with
      | some bound => exact hclamp bound
      | none => simpa [firstIn, hneg] using hupper
    · cases stop with
      | some bound => exact hclamp bound
      | none => simpa [lastIn, hneg] using hlower

/-- The positions that a slice takes, before they are cast. -/
def visited (n : Nat) (start stop : Option Int64) (step : Int64) : Array Int64 :=
  walk (sliceEnds (Int64.ofNat n) start stop step).2 step (sliceEnds (Int64.ofNat n) start stop step).1 #[]

theorem slicePositions_eq (start stop : Option Int64) : slicePositions n start stop step =
    (visited n start stop step).toList.map fun i => i.toUInt64.toNat := rfl

theorem visited_get (hn : n < 2 ^ 63) (hstep : step ≠ 0) (start stop : Option Int64) (k : Nat) :
    (visited n start stop step).toList[k]?.map Int64.toInt =
      position n (start.map Int64.toInt) (stop.map Int64.toInt) step.toInt k := by
  obtain ⟨hfirst, hlast⟩ := toInt_sliceEnds hn start stop step
  obtain ⟨row, hwalk, hrow⟩ := walk_terms hstep (sliceEnds (Int64.ofNat n) start stop step).2
    (sliceEnds (Int64.ofNat n) start stop step).1 #[]
  rw [visited, hwalk, List.nil_append, hrow, hfirst, hlast]
  rfl

/-- Every position that is found stands for an element. -/
theorem visited_lt (hn : n < 2 ^ 63) (start stop : Option Int64) {i : Int64}
    (h : i ∈ visited n start stop step) : 0 ≤ i.toInt ∧ i.toInt < n := by
  by_cases hstep : step = 0
  · subst hstep
    rw [visited, walk_zero] at h
    simp at h
  · obtain ⟨k, hk⟩ := List.mem_iff_getElem?.mp (Array.mem_toList_iff.mpr h)
    have hposition := visited_get hn hstep start stop k
    have hne : step.toInt ≠ 0 := fun h => hstep (Int64.toInt_inj.mp h)
    rw [hk] at hposition
    exact position_lt (Int.natCast_nonneg n) hne hposition.symm

/-- What goes on in 64 bits when positions are computed is exact. -/
structure Exact (n : Nat) (start stop : Option Int64) (step : Int64) : Prop where
  /-- The number of elements is a 64-bit integer. -/
  length : (Int64.ofNat n).toInt = n
  /-- So is the position of the last element. -/
  last : (Int64.ofNat n - 1).toInt = n - 1
  /-- A bound that is counted from the end is not cut off. -/
  counted : ∀ bound : Int64, bound < 0 → (saturatingAdd bound (Int64.ofNat n)).toInt = bound.toInt + n
  /-- Clamping has a range to clamp to. -/
  ordered : (sliceLimits (Int64.ofNat n) step).1 ≤ (sliceLimits (Int64.ofNat n) step).2
  /-- Casting changes no position that is found. -/
  cast : ∀ i ∈ visited n start stop step, (i.toUInt64.toNat : Int) = i.toInt

theorem cast_of_nonneg {i : Int64} (h : 0 ≤ i.toInt) : (i.toUInt64.toNat : Int) = i.toInt := by
  rw [Int64.toNat_toUInt64_of_le (Int64.le_iff_toInt_le.mpr h)]
  exact Int.toNat_of_nonneg h

theorem exact_operations (hn : n < 2 ^ 63) (start stop : Option Int64) : Exact n start stop step := by
  refine ⟨Int64.toInt_ofNat_of_lt hn, toInt_length_sub_one hn,
    fun bound h => toInt_saturatingAdd hn h, ?_, fun i hi => ?_⟩
  · obtain ⟨hlower, hupper⟩ := toInt_limits hn step
    rw [Int64.le_iff_toInt_le, hlower, hupper]
    split <;> omega
  · exact cast_of_nonneg (visited_lt hn start stop hi).1

/-- **The positions of a slice are the terms of the progression.** -/
theorem slicePositions_get (hn : n < 2 ^ 63) (hstep : step ≠ 0) (start stop : Option Int64) (k : Nat) :
    (slicePositions n start stop step)[k]? =
      (position n (start.map Int64.toInt) (stop.map Int64.toInt) step.toInt k).bind Int.toNat? := by
  rw [slicePositions_eq, ← visited_get hn hstep start stop k, List.getElem?_map]
  cases hi : (visited n start stop step).toList[k]? with
  | none => rfl
  | some i =>
    have hmem := Array.mem_toList_iff.mp (List.mem_of_getElem? hi)
    have hcast := cast_of_nonneg (visited_lt hn start stop hmem).1
    exact (Int.mem_toNat?.mpr hcast.symm).symm

theorem slicePositions_lt (hn : n < 2 ^ 63) (start stop : Option Int64) :
    ∀ j ∈ slicePositions n start stop step, j < n := by
  intro j hj
  rw [slicePositions_eq] at hj
  obtain ⟨i, hi, rfl⟩ := List.mem_map.mp hj
  have hlt := visited_lt hn start stop (Array.mem_toList_iff.mp hi)
  have hcast := cast_of_nonneg hlt.1
  omega

theorem slicePositions_nodup (hn : n < 2 ^ 63) (start stop : Option Int64) :
    (slicePositions n start stop step).Nodup := by
  by_cases hstep : step = 0
  · rw [slicePositions_eq, visited, hstep, walk_zero]
    exact List.nodup_nil
  · have hne : step.toInt ≠ 0 := fun h => hstep (Int64.toInt_inj.mp h)
    rw [List.nodup_iff_getElem?_ne_getElem?]
    intro j k hjk hk heq
    obtain ⟨i, hi⟩ : ∃ i, (slicePositions n start stop step)[k]? = some i := ⟨_, List.getElem?_eq_getElem hk⟩
    rw [hi] at heq
    rw [slicePositions_get hn hstep, Option.bind_eq_some_iff] at hi heq
    obtain ⟨zk, hzk, hik⟩ := hi
    obtain ⟨zj, hzj, hij⟩ := heq
    obtain rfl := Int.mem_toNat?.mp hik
    obtain rfl := Int.mem_toNat?.mp hij
    exact hjk.ne (term_inj hne hzj hzk)

end Range

/-! ## Parameters of any magnitude -/

/-- The nearest 64-bit integer. -/
def cutOff (z : Int) : Int := max Double.leastInt64 (min Double.greatestInt64 z)

section CutOff
variable {n step bound z : Int}

theorem cutOff_range (z : Int) : -2 ^ 63 ≤ cutOff z ∧ cutOff z < 2 ^ 63 := by
  unfold cutOff Double.leastInt64 Double.greatestInt64
  omega

theorem toInt_cutOff (z : Int) : (Int64.ofInt (cutOff z)).toInt = cutOff z :=
  Int64.toInt_ofInt_of_le (cutOff_range z).1 (cutOff_range z).2

/-- A number is cut off only beyond the range, and there to the end of it. -/
theorem cutOff_cases (z : Int) : cutOff z = z ∨ (z < -2 ^ 63 ∧ cutOff z = -2 ^ 63) ∨
    (2 ^ 63 ≤ z ∧ cutOff z = 2 ^ 63 - 1) := by
  unfold cutOff Double.leastInt64 Double.greatestInt64
  omega

theorem cutOff_pos : 0 < cutOff z ↔ 0 < z := by
  rcases cutOff_cases z with h | ⟨h, h'⟩ | ⟨h, h'⟩ <;> omega

theorem boundIn_cutOff (hn : 0 ≤ n) (hlt : n < 2 ^ 63) (bound : Int) :
    boundIn n (cutOff step) (cutOff bound) = boundIn n step bound := by
  unfold boundIn
  rcases cutOff_cases bound with h | ⟨h, h'⟩ | ⟨h, h'⟩
  · simp only [cutOff_pos, h]
  · simp only [cutOff_pos, h']
    split <;> omega
  · simp only [cutOff_pos, h']
    split <;> omega

theorem firstIn_cutOff (hn : 0 ≤ n) (hlt : n < 2 ^ 63) (start : Option Int) :
    firstIn n (cutOff step) (start.map cutOff) = firstIn n step start := by
  cases start with
  | some bound => exact boundIn_cutOff hn hlt bound
  | none => simp only [firstIn, Option.map_none, cutOff_pos]

theorem lastIn_cutOff (hn : 0 ≤ n) (hlt : n < 2 ^ 63) (stop : Option Int) :
    lastIn n (cutOff step) (stop.map cutOff) = lastIn n step stop := by
  cases stop with
  | some bound => exact boundIn_cutOff hn hlt bound
  | none => simp only [lastIn, Option.map_none, cutOff_pos]

/-- A step that is as long as the sequence leaves it at once. -/
theorem term_of_long {first last : Int} (hfirst : InLimits n step first) (hlast : InLimits n step last)
    (hlong : n ≤ step ∨ step ≤ -n) (k : Nat) : term step first last (k + 1) = none := by
  rw [term_succ]
  refine term_behind ?_ k
  unfold InFront
  unfold InLimits at hfirst hlast
  by_cases hpos : 0 < step
  · rw [if_pos hpos] at hfirst hlast ⊢
    omega
  · rw [if_neg hpos] at hfirst hlast ⊢
    omega

theorem term_cutOff {first last : Int} (hn : 0 ≤ n) (hlt : n < 2 ^ 63) (hfirst : InLimits n step first)
    (hlast : InLimits n step last) (k : Nat) : term (cutOff step) first last k = term step first last k := by
  have hfirst' : InLimits n (cutOff step) first := by simpa only [InLimits, cutOff_pos] using hfirst
  have hlast' : InLimits n (cutOff step) last := by simpa only [InLimits, cutOff_pos] using hlast
  have beyond : n ≤ step ∨ step ≤ -n → n ≤ cutOff step ∨ cutOff step ≤ -n →
      term (cutOff step) first last k = term step first last k := by
    intro hlong hlong'
    cases k with
    | zero => simp [term, InFront, cutOff_pos]
    | succ k => rw [term_of_long hfirst' hlast' hlong', term_of_long hfirst hlast hlong]
  rcases cutOff_cases step with h | ⟨h, h'⟩ | ⟨h, h'⟩
  · rw [h]
  · exact beyond (.inr (by omega)) (.inr (by omega))
  · exact beyond (.inl (by omega)) (.inl (by omega))

/-- **Nothing of a slice depends on what is cut off from its parameters.** -/
theorem position_cutOff (hn : 0 ≤ n) (hlt : n < 2 ^ 63) (start stop : Option Int) (k : Nat) :
    position n (start.map cutOff) (stop.map cutOff) (cutOff step) k = position n start stop step k := by
  unfold position
  rw [firstIn_cutOff hn hlt, lastIn_cutOff hn hlt]
  exact term_cutOff hn hlt (firstIn_inLimits hn step start) (lastIn_inLimits hn step stop) k

end CutOff

end Access

/-! ## Doubles that are whole numbers -/

namespace Double
open Float.Model (Format UnpackedFloat)

theorem unpack_zero : (0.0 : Float).toModel.unpack = .zero .positive := by rfl

/-- Only zeros are equal to zero. -/
theorem unpack_of_beq_zero {x : Float} (h : (x == 0.0) = true) : ∃ s, x.toModel.unpack = .zero s := by
  have hcompare : x.toModel.unpack.compare (.zero .positive) = some .eq := by
    have hbeq : (x.toModel.unpack.compare (0.0 : Float).toModel.unpack == some .eq) = true := h
    rw [unpack_zero] at hbeq
    exact eq_of_beq hbeq
  cases hunpack : x.toModel.unpack with
  | zero s => exact ⟨s, rfl⟩
  | notANumber => rw [hunpack] at hcompare; cases hcompare
  | infinity s => rw [hunpack] at hcompare; cases s <;> cases hcompare
  | finite s m e hm => rw [hunpack] at hcompare; cases s <;> cases hcompare

theorem classify_of_unpack_zero {x : Float} {s : UnpackedFloat.Sign} (h : x.toModel.unpack = .zero s) :
    classify x = .finite ⟨signBit x, 0, -1074⟩ := by
  unfold Float.Model.unpack UnpackedFloat.unpack at h
  dsimp only at h
  split at h
  · split at h <;> cases h
  split at h
  · rename_i hexponent
    split at h
    · rename_i hmantissa
      have hexp : x.toBits.toNat >>> 52 % 2 ^ 11 = 0 := congrArg BitVec.toNat hexponent
      rw [Nat.shiftRight_eq_div_pow] at hexp
      have hfield : x.toBits.toNat / Binary.hiddenBit % 2048 = 0 := hexp
      have hfraction : x.toBits.toNat % Binary.hiddenBit = 0 := congrArg BitVec.toNat hmantissa
      unfold classify
      dsimp only
      rw [hfield, hfraction]
      rfl
    · cases h
  · cases h

theorem isWhole_zero (negative : Bool) (e : Int) : (Binary.mk negative 0 e).isWhole = true := by
  cases e <;> simp [Binary.isWhole]

theorem truncate_zero (negative : Bool) (e : Int) : (Binary.mk negative 0 e).truncate = 0 := by
  cases e <;> simp [Binary.truncate, Binary.wholePart]

theorem toInt?_of_beq_zero {x : Float} (h : (x == 0.0) = true) : toInt? x = some 0 := by
  obtain ⟨s, hs⟩ := unpack_of_beq_zero h
  unfold toInt?
  rw [classify_of_unpack_zero hs]
  dsimp only
  rw [isWhole_zero, truncate_zero, if_pos rfl]

/-- The 64-bit integer that a whole number is cast to. -/
theorem clampInt64_of_toInt? {x : Float} {z : Int} (h : toInt? x = some z) :
    clampInt64 x = Access.cutOff z := by
  unfold toInt? at h
  unfold clampInt64 Access.cutOff
  cases hclass : classify x with
  | notANumber => rw [hclass] at h; cases h
  | infinite negative => rw [hclass] at h; cases h
  | finite b =>
    rw [hclass] at h
    dsimp only at h ⊢
    split at h
    · rw [Option.some.inj h]
    · cases h

end Double

/-! ## Slices of arrays and texts -/

namespace Access

section Parameters
variable {v : Value} {b : Option Int}

theorem sliceBound_whole (part : SlicePart) (h : wholeNumber? v = some b) :
    sliceBound part v = .ok (b.map fun z => Int64.ofInt (cutOff z)) := by
  cases v with
  | null => obtain rfl := Option.some.inj h; rfl
  | number x =>
    obtain ⟨z, hz, rfl⟩ := Option.map_eq_some_iff.mp h
    have hposition : position? (.number x) = some (cutOff z) := by
      simp only [position?, hz, Option.isSome_some, if_true, Double.clampInt64_of_toInt? hz]
    simp only [sliceBound, hposition, Option.map_some]
  | _ => cases h

theorem sliceStep_whole (h : wholeNumber? v = some b) (hzero : b ≠ some 0) :
    sliceStep v = .ok (Int64.ofInt (cutOff (b.getD 1))) := by
  have hbound := sliceBound_whole .step h
  cases v with
  | null => obtain rfl := Option.some.inj h; rfl
  | number x =>
    obtain ⟨z, hz, rfl⟩ := Option.map_eq_some_iff.mp h
    have hnonzero : ¬ (x == 0.0) = true := fun hx =>
      hzero (congrArg some (Option.some.inj (hz.symm.trans (Double.toInt?_of_beq_zero hx))))
    simp only [sliceStep, if_neg hnonzero, hbound]
    rfl
  | _ => cases h

end Parameters

section Read
variable {start stop step : Value} {a b : Option Int64} {c : Int64} (hstep : sliceStep step = .ok c)
  (hstart : sliceBound .start start = .ok a) (hstop : sliceBound .stop stop = .ok b)
include hstep hstart hstop

theorem slice_array (items : List Value) (flags : AccessFlags) : slice (.array items) start stop step flags =
    .ok (.array (pick items.toArray (slicePositions items.length a b c))) := by
  unfold slice
  rw [hstep, hstart, hstop]
  rfl

theorem slice_string (s : String) (flags : AccessFlags) : slice (.string s) start stop step flags =
    .ok (.string (String.ofList (pick s.toList.toArray (slicePositions s.toList.length a b c)))) := by
  unfold slice
  rw [hstep, hstart, hstop]
  rfl

theorem slice_of_null {flags : AccessFlags} (h : flags.optional = true) :
    slice .null start stop step flags = .ok .null := by
  unfold slice
  rw [hstep, hstart, hstop]
  exact if_pos h

end Read

theorem pick_get {α : Type} {items : Array α} {positions : List Nat} (h : ∀ j ∈ positions, j < items.size)
    (k : Nat) : (pick items positions)[k]? = positions[k]?.bind (items[·]?) := by
  induction positions generalizing k with
  | nil => rfl
  | cons j rest ih =>
    have hlt : j < items.size := h j (List.mem_cons_self ..)
    have hj : items[j]? = some items[j] := Array.getElem?_eq_getElem hlt
    have hrest := ih fun i hi => h i (List.mem_cons_of_mem j hi)
    unfold pick at hrest ⊢
    rw [List.filterMap_cons_some hj]
    cases k with
    | zero => exact hj.symm
    | succ k => exact hrest k

theorem takesOut_pick {α : Type} (items : List α) (hn : items.length < 2 ^ 63) (a b : Option Int) {c : Int}
    (hc : c ≠ 0) : TakesOut items a b c (pick items.toArray (slicePositions items.length
      (a.map fun z => Int64.ofInt (cutOff z)) (b.map fun z => Int64.ofInt (cutOff z))
      (Int64.ofInt (cutOff c)))) := by
  intro k
  have exactly : ∀ p : Option Int, (p.map fun z => Int64.ofInt (cutOff z)).map Int64.toInt = p.map cutOff := by
    intro p
    cases p with
    | none => rfl
    | some z => exact congrArg some (toInt_cutOff z)
  have hstep : Int64.ofInt (cutOff c) ≠ 0 := by
    intro h
    have hzero : cutOff c = 0 := by rw [← toInt_cutOff c, h]; rfl
    rcases cutOff_cases c with h | ⟨h, h'⟩ | ⟨h, h'⟩ <;> omega
  have hlt : (items.length : Int) < 2 ^ 63 := by omega
  rw [pick_get (slicePositions_lt hn _ _), slicePositions_get hn hstep, exactly, exactly, toInt_cutOff,
    position_cutOff (Int.natCast_nonneg _) hlt]
  simp

section Whole
variable {start stop step : Value} {a b c : Option Int} (ha : wholeNumber? start = some a)
  (hb : wholeNumber? stop = some b) (hc : wholeNumber? step = some c) (hzero : c ≠ some 0) (flags : AccessFlags)
include ha hb hc hzero

omit ha hb hc in
theorem getD_ne_zero : c.getD 1 ≠ 0 := by
  cases c with
  | none => exact one_ne_zero
  | some z => exact fun hz => hzero (congrArg some hz)

theorem slice_items (items : List Value) (hn : items.length < 2 ^ 63) : ∃ picked,
    slice (.array items) start stop step flags = .ok (.array picked) ∧
      TakesOut items a b (c.getD 1) picked :=
  ⟨_, slice_array (sliceStep_whole hc hzero) (sliceBound_whole .start ha) (sliceBound_whole .stop hb) items flags,
    takesOut_pick items hn a b (getD_ne_zero hzero)⟩

theorem slice_text (s : String) (hn : s.toList.length < 2 ^ 63) : ∃ cs,
    slice (.string s) start stop step flags = .ok (.string (String.ofList cs)) ∧
      TakesOut s.toList a b (c.getD 1) cs :=
  ⟨_, slice_string (sliceStep_whole hc hzero) (sliceBound_whole .start ha) (sliceBound_whole .stop hb) s flags,
    takesOut_pick s.toList hn a b (getD_ne_zero hzero)⟩

end Whole

/-- **A slice is what whole numbers say, and no position goes wrong.**  Its parameters are null or finite
whole numbers of any size, and the step is not zero: then the elements are those at `first`,
`first + step`, … in front of `last`.  Whatever 64-bit integers the positions are computed from, every
operation is exact, every position is one of an element, and none comes twice. -/
theorem slice_exact :
    (∀ (start stop step : Value) (a b c : Option Int) (flags : AccessFlags), wholeNumber? start = some a →
      wholeNumber? stop = some b → wholeNumber? step = some c → c ≠ some 0 →
      (∀ items : List Value, items.length < 2 ^ 63 → ∃ picked,
        slice (.array items) start stop step flags = .ok (.array picked) ∧
          TakesOut items a b (c.getD 1) picked) ∧
      ∀ s : String, s.length < 2 ^ 63 → ∃ picked,
        slice (.string s) start stop step flags = .ok (.string (String.ofList picked)) ∧
          TakesOut s.toList a b (c.getD 1) picked) ∧
    ∀ n : Nat, n < 2 ^ 63 → ∀ (start stop : Option Int64) (step : Int64), Exact n start stop step ∧
      (∀ i ∈ slicePositions n start stop step, i < n) ∧ (slicePositions n start stop step).Nodup := by
  refine ⟨fun start stop step a b c flags ha hb hc hzero => ?_, fun n hn start stop step =>
    ⟨exact_operations hn start stop, slicePositions_lt hn start stop, slicePositions_nodup hn start stop⟩⟩
  exact ⟨fun items hn => slice_items ha hb hc hzero flags items hn,
    fun s hn => slice_text ha hb hc hzero flags s hn⟩

/-- From the last but one back to `-2 ^ 70`, in steps of two. -/
theorem slice_backwards : ∃ picked, slice (.array [.boolean false, .boolean true, .null, .boolean true])
      (.number (Float.ofBits 0xC000000000000000)) (.number (Float.ofBits 0xC450000000000000))
      (.number (Float.ofBits 0xC000000000000000)) ⟨false, false⟩ = .ok (.array picked) ∧
    picked[0]? = some .null ∧ picked[1]? = some (.boolean false) ∧ picked[2]? = none := by
  have hnear : wholeNumber? (.number (Float.ofBits 0xC000000000000000)) = some (some (-2)) := rfl
  have hfar : wholeNumber? (.number (Float.ofBits 0xC450000000000000)) =
      some (some (-1180591620717411303424)) := rfl
  obtain ⟨picked, hslice, htakes⟩ := (slice_exact.1 _ _ _ _ _ _ ⟨false, false⟩ hnear hfar hnear (by decide)).1
    [.boolean false, .boolean true, .null, .boolean true] (by decide)
  exact ⟨picked, hslice, htakes 0, htakes 1, htakes 2⟩

end Access

end PipeExpr
