import PipeExpr.Proofs.Emission
import PipeExpr.Proofs.Verification

/-!
# Heights of emitted code

Emitted code has consistent heights.  An assignment gives heights to the boundaries of a placed row
and to nothing else (`Leveled`), so a jump to an offset that has a height leads to a boundary.
Assignments of adjacent rows are glued at the boundary that they share (`Leveled.append`), and an
instruction is put in front of a row whose assignment knows all its ways out (`Leveled.cons`).  These
two steps, used along the derivation of the code, give every row an assignment that starts at any
height wanted and ends as many values higher as there are plans (`Emits.leveled`).
-/

namespace PipeExpr

open Compile (jumpSize)

/-- Heights of some offsets. -/
abbrev Levels := Nat → Option Nat

/-- Levels that fit an instruction which starts at height `h`. -/
structure Fitting (H : Levels) (offset : Nat) (i : Instruction) (h : Nat) : Prop where
  takes : i.flow.takes ≤ h
  falls : ∀ n ∈ i.flow.falls, H (offset + i.length) = some (h - i.flow.takes + n)
  jumps : ∀ n ∈ i.flow.jumps, offset < i.target ∧ H i.target = some (h - i.flow.takes + n)

/-- Levels of a row that is placed at an offset: only its boundaries have them, and they fit. -/
structure Leveled (H : Levels) (offset : Nat) (row : List Instruction) : Prop where
  domain : ∀ n, (H n).isSome → n = offset + rowSize row ∨ n ∈ (located offset row).map Prod.fst
  fitting : ∀ x ∈ located offset row, ∃ h, H x.1 = some h ∧ Fitting H x.1 x.2 h

section Rules
variable {H K : Levels} {offset : Nat}

theorem Leveled.bounds {row : List Instruction} (hl : Leveled H offset row) {n : Nat}
    (hn : (H n).isSome) : offset ≤ n ∧ n ≤ offset + rowSize row := by
  rcases hl.domain n hn with rfl | hmem
  · omega
  · obtain ⟨x, hx, rfl⟩ := List.mem_map.mp hmem
    have := located_bounds hx
    omega

/-- Levels that agree at both ways out fit as well. -/
theorem Fitting.congr {i : Instruction} {h : Nat} (hf : Fitting H offset i h)
    (hag : ∀ n, (H n).isSome → K n = H n) : Fitting K offset i h where
  takes := hf.takes
  falls n hn := by rw [hag _ (by rw [hf.falls n hn]; rfl), hf.falls n hn]
  jumps n hn := by
    obtain ⟨hlt, hH⟩ := hf.jumps n hn
    exact ⟨hlt, by rw [hag _ (by rw [hH]; rfl), hH]⟩

/-- Levels with one more, at an offset that had none. -/
def Levels.set (H : Levels) (offset h : Nat) : Levels := fun n =>
  if n = offset then some h else H n

@[simp] theorem Levels.set_same (h : Nat) : H.set offset h offset = some h := if_pos rfl

theorem Levels.set_of_isSome {n h : Nat} (hnone : H offset = none) (hn : (H n).isSome) :
    H.set offset h n = H n := by
  refine if_neg fun heq => ?_
  rw [heq, hnone] at hn
  cases hn

theorem Leveled.nil (offset h : Nat) : Leveled (Levels.set (fun _ => none) offset h) offset [] where
  domain n hn := by
    by_cases heq : n = offset
    · exact .inl heq
    · rw [Levels.set, if_neg heq] at hn
      cases hn
  fitting x hx := nomatch hx

/-- **An instruction in front of a row.** -/
theorem Leveled.cons {i : Instruction} {row : List Instruction} {h : Nat}
    (hl : Leveled H (offset + i.length) row) (hf : Fitting H offset i h) :
    Leveled (H.set offset h) offset (i :: row) := by
  have hnone : H offset = none := by
    by_contra hne
    have := (hl.bounds (Option.isSome_iff_ne_none.mpr hne)).1
    have := i.length_pos
    omega
  have hag : ∀ n, (H n).isSome → H.set offset h n = H n := fun n hn =>
    Levels.set_of_isSome hnone hn
  refine ⟨fun n hn => ?_, fun x hx => ?_⟩
  · by_cases heq : n = offset
    · exact .inr (heq ▸ List.mem_cons_self ..)
    · rw [Levels.set, if_neg heq] at hn
      rcases hl.domain n hn with hend | hmem
      · exact .inl (by rw [hend, rowSize_cons, Nat.add_assoc])
      · exact .inr (List.mem_cons_of_mem _ hmem)
  · rcases List.mem_cons.mp hx with rfl | hx
    · exact ⟨h, Levels.set_same h, hf.congr hag⟩
    · obtain ⟨k, hk, hfit⟩ := hl.fitting x hx
      exact ⟨k, by rw [hag _ (by rw [hk]; rfl), hk], hfit.congr hag⟩

/-- Levels of two adjacent rows. -/
def Levels.glue (H K : Levels) (mid : Nat) : Levels := fun n => if n < mid then H n else K n

theorem Levels.glue_right {mid n : Nat} (hn : mid ≤ n) : H.glue K mid n = K n :=
  if_neg (Nat.not_lt_of_le hn)

theorem Levels.glue_left {mid n : Nat} (hmid : H mid = K mid) (hn : n ≤ mid) :
    H.glue K mid n = H n := by
  rcases Nat.lt_or_eq_of_le hn with hlt | rfl
  · exact if_pos hlt
  · rw [Levels.glue_right (Nat.le_refl _), hmid]

/-- **Adjacent rows** that agree on the height at the boundary between them. -/
theorem Leveled.append {a b : List Instruction} (ha : Leveled H offset a)
    (hb : Leveled K (offset + rowSize a) b)
    (hmid : H (offset + rowSize a) = K (offset + rowSize a)) :
    Leveled (H.glue K (offset + rowSize a)) offset (a ++ b) := by
  have hleft : ∀ n, (H n).isSome → H.glue K (offset + rowSize a) n = H n := fun n hn =>
    Levels.glue_left hmid (ha.bounds hn).2
  have hright : ∀ n, (K n).isSome → H.glue K (offset + rowSize a) n = K n := fun n hn =>
    Levels.glue_right (hb.bounds hn).1
  refine ⟨fun n hn => ?_, fun x hx => ?_⟩
  · simp only [located_append, List.map_append, List.mem_append, rowSize_append]
    by_cases hlt : n < offset + rowSize a
    · rw [Levels.glue, if_pos hlt] at hn
      exact .inr (.inl ((ha.domain n hn).resolve_left (by omega)))
    · rw [Levels.glue_right (Nat.le_of_not_lt hlt)] at hn
      exact (hb.domain n hn).imp (fun h => by rw [h, Nat.add_assoc]) .inr
  · rw [located_append, List.mem_append] at hx
    rcases hx with hx | hx
    · obtain ⟨k, hk, hfit⟩ := ha.fitting x hx
      exact ⟨k, by rw [hleft _ (by rw [hk]; rfl), hk], hfit.congr hleft⟩
    · obtain ⟨k, hk, hfit⟩ := hb.fitting x hx
      exact ⟨k, by rw [hright _ (by rw [hk]; rfl), hk], hfit.congr hright⟩

end Rules

/-! ## From one height to another -/

/-- A row with levels that lead from one height to another. -/
def Climbs (offset h : Nat) (row : List Instruction) (h' : Nat) : Prop :=
  ∃ H : Levels, Leveled H offset row ∧ H offset = some h ∧ H (offset + rowSize row) = some h'

namespace Climbs
variable {offset h h₁ h₂ : Nat}

theorem nil (offset h : Nat) : Climbs offset h [] h :=
  ⟨_, .nil offset h, Levels.set_same h, Levels.set_same h⟩

theorem append {a b : List Instruction} (ha : Climbs offset h a h₁)
    (hb : Climbs (offset + rowSize a) h₁ b h₂) : Climbs offset h (a ++ b) h₂ := by
  obtain ⟨H, hH, hstart, hmid⟩ := ha
  obtain ⟨K, hK, hmid', hend⟩ := hb
  have heq : H (offset + rowSize a) = K (offset + rowSize a) := by rw [hmid, hmid']
  refine ⟨_, hH.append hK heq, ?_, ?_⟩
  · rw [Levels.glue_left heq (Nat.le_add_right _ _), hstart]
  · rw [Levels.glue_right (by rw [rowSize_append]; omega), rowSize_append, ← Nat.add_assoc, hend]

/-- An instruction without a jump. -/
theorem single {i : Instruction} {n k h' : Nat} (hflow : i.flow = ⟨n, some k, none⟩) (hn : n ≤ h)
    (hh : h' = h - n + k) : Climbs offset h [i] h' := by
  subst hh
  have hfit : Fitting (Levels.set (fun _ => none) (offset + i.length) (h - n + k)) offset i h := by
    refine ⟨by rw [hflow]; exact hn, fun m hm => ?_, fun m hm => ?_⟩
    · rw [hflow] at hm ⊢
      obtain rfl : k = m := Option.some.inj hm
      exact Levels.set_same _
    · rw [hflow] at hm
      cases hm
  have hpos := i.length_pos
  refine ⟨_, (Leveled.nil (offset + i.length) (h - n + k)).cons hfit, Levels.set_same h, ?_⟩
  have hne : ¬ offset + rowSize [i] = offset := by simp; omega
  rw [Levels.set, if_neg hne]
  exact Levels.set_same _

/-- An instruction that jumps over the row behind it. -/
theorem skip {i : Instruction} {row : List Instruction} {n k m h' : Nat}
    (hflow : i.flow = ⟨n, some k, some m⟩) (hn : n ≤ h)
    (htarget : i.target = offset + i.length + rowSize row)
    (hrow : Climbs (offset + i.length) (h - n + k) row h') (hh : h' = h - n + m) :
    Climbs offset h (i :: row) h' := by
  subst hh
  obtain ⟨H, hH, hstart, hend⟩ := hrow
  have hpos := i.length_pos
  have hfit : Fitting H offset i h := by
    refine ⟨by rw [hflow]; exact hn, fun l hl => ?_, fun l hl => ?_⟩
    · rw [hflow] at hl ⊢
      obtain rfl : k = l := Option.some.inj hl
      exact hstart
    · rw [hflow] at hl ⊢
      obtain rfl : m = l := Option.some.inj hl
      exact ⟨by omega, by rw [htarget, hend]⟩
  refine ⟨_, hH.cons hfit, Levels.set_same h, ?_⟩
  have hne : ¬ offset + rowSize (i :: row) = offset := by rw [rowSize_cons]; omega
  rw [Levels.set, if_neg hne, rowSize_cons, ← Nat.add_assoc, hend]

/-- Two rows one of which is run: a conditional jump to the second one in front of the first one,
and a jump to the end between them. -/
theorem branch {i j : Instruction} {a b : List Instruction} {k : Nat}
    (hi : i.flow = ⟨1, some 0, some 0⟩) (hj : j.flow = ⟨0, none, some 0⟩)
    (hsecond : i.target = offset + i.length + rowSize a + j.length)
    (hend : j.target = i.target + rowSize b) (ha : Climbs (offset + i.length) h a k)
    (hb : Climbs (offset + i.length + rowSize a + j.length) h b k) :
    Climbs offset (h + 1) (i :: (a ++ j :: b)) k := by
  obtain ⟨H, hH, hH₀, hH₁⟩ := ha
  obtain ⟨K, hK, hK₀, hK₁⟩ := hb
  have hipos := i.length_pos
  have hjpos := j.length_pos
  -- from the jump in the middle on
  have hfitj : Fitting K (offset + i.length + rowSize a) j k := by
    refine ⟨by rw [hj]; exact Nat.zero_le _, fun l hl => ?_, fun l hl => ?_⟩
    · rw [hj] at hl; cases hl
    · rw [hj] at hl ⊢
      obtain rfl : 0 = l := Option.some.inj hl
      exact ⟨by omega, by rw [hend, hsecond, hK₁]; simp⟩
  have htail := hK.cons hfitj
  have hK₂ : ∀ n, offset + i.length + rowSize a < n →
      (K.set (offset + i.length + rowSize a) k) n = K n := fun n hn => if_neg (by omega)
  -- with the first row
  have hmid : H (offset + i.length + rowSize a) =
      K.set (offset + i.length + rowSize a) k (offset + i.length + rowSize a) := by
    rw [hH₁, Levels.set_same]
  have hrest := hH.append htail hmid
  -- with the jump in front
  have hfiti : Fitting (H.glue (K.set (offset + i.length + rowSize a) k)
      (offset + i.length + rowSize a)) offset i (h + 1) := by
    refine ⟨by rw [hi]; exact Nat.succ_le_succ (Nat.zero_le h), fun l hl => ?_, fun l hl => ?_⟩
    · rw [hi] at hl ⊢
      obtain rfl : 0 = l := Option.some.inj hl
      rw [Levels.glue_left hmid (Nat.le_add_right _ _), hH₀]
      rfl
    · rw [hi] at hl ⊢
      obtain rfl : 0 = l := Option.some.inj hl
      refine ⟨by omega, ?_⟩
      rw [Levels.glue_right (by omega), hK₂ _ (by omega), hsecond, hK₀]
      rfl
  refine ⟨_, hrest.cons hfiti, Levels.set_same _, ?_⟩
  have hsize : offset + rowSize (i :: (a ++ j :: b)) =
      offset + i.length + rowSize a + j.length + rowSize b := by
    simp only [rowSize_cons, rowSize_append]; omega
  rw [hsize, Levels.set, if_neg (by omega), Levels.glue_right (by omega), hK₂ _ (by omega), hK₁]

end Climbs

/-! ## Emitted code -/

/-- The instruction that finishes a node takes the values of all parts and leaves one. -/
theorem Finish.Emits.flow {finish : Finish} {n : Nat} {t t' : Tables} {i : Instruction}
    (h : finish.Emits n t i t') : i.flow = ⟨n, some 1, none⟩ := by
  cases h with
  | unary _ op => cases op <;> rfl
  | @strict _ op c hs => cases op <;> cases hs <;> rfl
  | object _ hn => exact congrArg (Flow.mk · (some 1) none) (Nat.mul_comm _ 2)
  | array | index | slice | call => rfl

/-- **Emitted code climbs** from any height by as many values as there are plans. -/
theorem Emits.climbs {t t' : Tables} {offset : Nat} {ps : List Plan} {row : List Instruction}
    (he : Emits t offset ps row t') : ∀ h, Climbs offset h row (h + ps.length) := by
  induction he with
  | nil t o => exact fun h => .nil o h
  | @cons _ _ _ o p ps a b _ _ iha ihb =>
    intro h
    have hb := ihb (h + 1)
    rw [Nat.add_right_comm, Nat.add_assoc] at hb
    exact (iha h).append hb
  | constant t o v hroom => exact fun h => .single rfl (Nat.zero_le h) rfl
  | pipeLocal t o flags hname hroom => exact fun h => .single rfl (Nat.zero_le h) rfl
  | contextVar t o flags hname hroom => exact fun h => .single rfl (Nat.zero_le h) rfl
  | @gather _ _ _ _ parts finish row i _ hfinish ih =>
    intro h
    refine (ih h).append (.single hfinish.flow (Nat.le_add_left _ _) ?_)
    rw [Nat.add_sub_cancel]
    rfl
  | @junction _ _ _ _ decisive left right a b target _ _ htarget _ iha ihb =>
    intro h
    have hflow : (Instruction.mk (shortCircuitOpcode decisive) [target]).flow =
        ⟨1, some 1, some 1⟩ := by cases decisive <;> rfl
    have hcombine : (Instruction.mk (combineOpcode decisive) []).flow = ⟨2, some 1, none⟩ := by
      cases decisive <;> rfl
    refine (iha h).append (.skip hflow (by simp) ?_ ?_ rfl)
    · rw [length_shortCircuit, rowSize_append, rowSize_cons, length_combine]
      exact htarget
    · rw [length_shortCircuit]
      exact (ihb (h + 1)).append (.single hcombine (Nat.le_add_left _ _) rfl)
  | @coalesce _ _ _ _ left right a b target _ _ htarget _ iha ihb =>
    intro h
    exact (iha h).append (.skip rfl (by simp) htarget (ihb h) rfl)
  | @choose _ _ _ _ o _ _ _ a b c second final _ _ _ hsecond hfinal _ _ iha ihb ihc =>
    intro h
    subst hsecond
    exact (iha h).append (.branch rfl rfl rfl hfinal (ihb h) (ihc h))

end PipeExpr
