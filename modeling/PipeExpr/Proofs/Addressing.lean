import Mathlib
import PipeExpr.Library.Strings
import PipeExpr.Proofs.Slices
import PipeExpr.Proofs.WholeNumbers

/-!
# Ways of addressing a sequence

An index, a slice, the characters that a text is split into and the library's `substr` compute their
positions each for itself, with 64-bit integers and casts.  They agree because each of them can be
said in whole numbers: an index is an element or none (`resolve_cutOff`), a slice is what `TakesOut`
says, and `substr` takes what stands between two positions (`substrEnds_ordered`), as a slice in
steps of one does (`takesOut_extract`).  What a slice takes out is determined (`TakesOut.unique`), so
two ways agree as soon as both take out the same.
-/

namespace PipeExpr

namespace Access

/-- The items of an array, or the characters of a text. -/
def elements? : Value → Option (List Value)
  | .array items => some items
  | .string s => some (characters s)
  | _ => none

theorem length_characters (s : String) : (characters s).length = s.toList.length := by
  simp [characters]

/-! ## What is taken out -/

section TakesOut
variable {α β : Type} {items : List α} {start stop : Option Int} {step : Int} {picked picked' : List α}

theorem TakesOut.unique (h : TakesOut items start stop step picked)
    (h' : TakesOut items start stop step picked') : picked = picked' :=
  List.ext_getElem? fun k => (h k).trans (h' k).symm

theorem TakesOut.map (h : TakesOut items start stop step picked) (f : α → β) :
    TakesOut (items.map f) start stop step (picked.map f) := by
  intro k
  rw [List.getElem?_map, h k, List.length_map]
  cases (position items.length start stop step k).bind Int.toNat? with
  | none => rfl
  | some j => simp

/-- In steps of one, a slice takes out what stands between its ends. -/
theorem takesOut_extract (items : List α) (start stop : Option Int) :
    TakesOut items start stop 1
      (items.extract (firstIn items.length 1 start).toNat (lastIn items.length 1 stop).toNat) := by
  intro k
  have hfirst := firstIn_inLimits (Int.natCast_nonneg items.length) 1 start
  have hlast := lastIn_inLimits (Int.natCast_nonneg items.length) 1 stop
  unfold position term
  generalize firstIn items.length 1 start = first at hfirst ⊢
  generalize lastIn items.length 1 stop = last at hlast ⊢
  simp only [InLimits, InFront, Int.one_pos, if_true, mul_one] at hfirst hlast ⊢
  rw [List.extract_eq_take_drop, List.getElem?_take, List.getElem?_drop]
  by_cases h : first + k < last
  · have hposition : (first + k).toNat? = some (first.toNat + k) := Int.mem_toNat?.mpr (by omega)
    rw [if_pos h, if_pos (by omega), Option.bind_some, hposition, Option.bind_some]
  · rw [if_neg h, if_neg (by omega)]
    rfl

end TakesOut

/-! ## Indices -/

section Index
variable {t : Value} {items : List Value} {x : Float} {i : Int}

theorem resolve_outside {n : Nat} (h : ¬ (-n ≤ i ∧ i < n)) : resolve i n = none := by
  unfold resolve
  exact if_neg (by omega)

/-- A position that is cut off was out of range anyway. -/
theorem resolve_cutOff {n : Nat} (hn : n < 2 ^ 63) (i : Int) : resolve (cutOff i) n = resolve i n := by
  rcases cutOff_cases i with h | ⟨h, h'⟩ | ⟨h, h'⟩
  · rw [h]
  · rw [h', resolve_outside (by omega), resolve_outside (by omega)]
  · rw [h', resolve_outside (by omega), resolve_outside (by omega)]

theorem position?_whole (h : Double.toInt? x = some i) : position? (.number x) = some (cutOff i) := by
  simp only [position?, h, Option.isSome_some, if_true, Double.clampInt64_of_toInt? h]

/-- Arrays and texts are indexed alike, through their elements. -/
theorem index_elements (h : elements? t = some items) (hx : Double.toInt? x = some i)
    (flags : AccessFlags) :
    index t (.number x) flags = element items (cutOff i) (flags.optional || flags.soft) := by
  cases t with
  | array items' =>
    obtain rfl := Option.some.inj h
    simp only [index, position?_whole hx]
  | string s =>
    obtain rfl := Option.some.inj h
    simp only [index, position?_whole hx]
  | _ => cases h

theorem resolve_inside {n : Nat} (hlow : -n ≤ i) (hhigh : i < n) :
    resolve i n = some (boundIn n 1 i).toNat ∧ (boundIn n 1 i).toNat < n := by
  unfold resolve boundIn
  simp only [Int.one_pos, if_true]
  constructor
  · rw [if_pos (by omega)]
    congr 2
    omega
  · omega

theorem element_inside (hn : items.length < 2 ^ 63) (hlow : -items.length ≤ i) (hhigh : i < items.length)
    (forgiving : Bool) : ∃ h : (boundIn items.length 1 i).toNat < items.length,
      element items (cutOff i) forgiving = .ok items[(boundIn items.length 1 i).toNat] := by
  obtain ⟨hresolve, hlt⟩ := resolve_inside hlow hhigh
  refine ⟨hlt, ?_⟩
  unfold element
  rw [resolve_cutOff hn, hresolve, Option.bind_some, List.getElem?_eq_getElem hlt]

theorem element_outside (hn : items.length < 2 ^ 63) (h : ¬ (-items.length ≤ i ∧ i < items.length))
    (forgiving : Bool) : element items (cutOff i) forgiving =
      if forgiving then .ok .null else .error (.indexOutOfRange (cutOff i) items.length) := by
  unfold element
  rw [resolve_cutOff hn, resolve_outside h]
  rfl

end Index

/-! ## Slices -/

section Slice
variable {t start stop step : Value} {items : List Value} {a b c : Option Int}

/-- Arrays and texts are sliced alike, through their elements. -/
theorem slice_elements (h : elements? t = some items) (hn : items.length < 2 ^ 63)
    (ha : wholeNumber? start = some a) (hb : wholeNumber? stop = some b) (hc : wholeNumber? step = some c)
    (hzero : c ≠ some 0) (flags : AccessFlags) : ∃ part picked, slice t start stop step flags = .ok part ∧
      elements? part = some picked ∧ TakesOut items a b (c.getD 1) picked := by
  cases t with
  | array items' =>
    obtain rfl := Option.some.inj h
    obtain ⟨picked, hslice, htakes⟩ := slice_items ha hb hc hzero flags items' hn
    exact ⟨_, picked, hslice, rfl, htakes⟩
  | string s =>
    obtain rfl := Option.some.inj h
    rw [length_characters] at hn
    obtain ⟨cs, hslice, htakes⟩ := slice_text ha hb hc hzero flags s hn
    have helements := htakes.map fun c => Value.string (String.singleton c)
    refine ⟨_, _, hslice, congrArg some ?_, helements⟩
    unfold characters
    rw [String.toList_ofList]
  | _ => cases h

/-- From a position to the next one there is one element. -/
theorem takesOut_singleton {α : Type} {items : List α} {i : Int} (hlow : -items.length ≤ i)
    (hhigh : i < items.length) (hlt : (boundIn items.length 1 i).toNat < items.length) :
    TakesOut items (some i) (if i = -1 then none else some (i + 1)) 1
      [items[(boundIn items.length 1 i).toNat]] := by
  have hends : (lastIn items.length 1 (if i = -1 then none else some (i + 1))).toNat =
      (boundIn items.length 1 i).toNat + 1 := by
    split
    · subst i
      simp only [lastIn, boundIn, Int.one_pos, if_true]
      omega
    · simp only [lastIn, boundIn, Int.one_pos, if_true]
      split <;> split <;> omega
  have htakes := takesOut_extract items (some i) (if i = -1 then none else some (i + 1))
  rw [hends] at htakes
  have hextract : items.extract (boundIn items.length 1 i).toNat ((boundIn items.length 1 i).toNat + 1) =
      [items[(boundIn items.length 1 i).toNat]] := by
    rw [List.extract_eq_take_drop, Nat.add_sub_cancel_left, List.drop_eq_getElem_cons hlt, List.take_succ_cons,
      List.take_zero]
  exact hextract ▸ htakes

end Slice

/-! ## Texts and their characters -/

section Characters
variable {s : String}

theorem split_characters (s : String) :
    Functions.split [.string s, .string ""] = .ok (.array (characters s)) := by
  have hparts : (Text.split s "").map Value.string = characters s := by
    unfold Text.split characters
    simp
  unfold Functions.split
  rw [← hparts]
  rfl

/-- Characters that are joined with nothing between them. -/
theorem join_characters (cs : List Char) :
    Functions.join [.array (cs.map fun c => .string (String.singleton c)), .string ""] =
      .ok (.string (String.ofList cs)) := by
  have fold : ∀ (cs : List Char) (out : String),
      (cs.map String.singleton).foldl (fun out part => out ++ "" ++ part) out = out ++ String.ofList cs := by
    intro cs
    induction cs with
    | nil => simp
    | cons c cs ih =>
      intro out
      rw [List.map_cons, List.foldl_cons, ih]
      simp [String.ext_iff]
  have hjoin : Text.join (cs.map String.singleton) "" = String.ofList cs := by
    cases cs with
    | nil => rfl
    | cons c cs =>
      simp only [List.map_cons, Text.join, fold]
      simp
  have htexts : (cs.map fun c => Value.string (String.singleton c)).map Value.asText =
      cs.map String.singleton := by
    rw [List.map_map]
    rfl
  show Except.ok (Value.string (Text.join ((cs.map fun c => Value.string (String.singleton c)).map
    Value.asText) "")) = _
  rw [htexts, hjoin]

theorem pick_map {α β : Type} (f : α → β) (items : List α) (positions : List Nat) :
    pick (items.map f).toArray positions = (pick items.toArray positions).map f := by
  unfold pick
  rw [List.map_filterMap]
  refine List.filterMap_congr fun j _ => ?_
  simp

/-- The parameters of a slice are refused whatever is sliced, or they have values. -/
theorem slice_parameters (start stop step : Value) :
    (∃ e, ∀ t flags, slice t start stop step flags = .error e) ∨
      ∃ a b c, sliceStep step = .ok c ∧ sliceBound .start start = .ok a ∧ sliceBound .stop stop = .ok b := by
  cases hstep : sliceStep step with
  | error e => exact .inl ⟨e, fun t flags => by unfold slice; rw [hstep]; rfl⟩
  | ok c =>
    cases hstart : sliceBound .start start with
    | error e => exact .inl ⟨e, fun t flags => by unfold slice; rw [hstep, hstart]; rfl⟩
    | ok a =>
      cases hstop : sliceBound .stop stop with
      | error e => exact .inl ⟨e, fun t flags => by unfold slice; rw [hstep, hstart, hstop]; rfl⟩
      | ok b => exact .inr ⟨a, b, c, rfl, rfl, rfl⟩

/-- Two outcomes are the same error, or the first is the characters of the second joined together. -/
inductive Joined : Except RunError Value → Except RunError Value → Prop where
  | parts {parts text : Value} (h : Functions.join [parts, .string ""] = .ok text) :
    Joined (.ok text) (.ok parts)
  | error (e : RunError) : Joined (.error e) (.error e)

/-- **A slice of a text is the slice of its characters, joined**, whatever the parameters are. -/
theorem slice_joined (s : String) (start stop step : Value) (flags : AccessFlags) :
    Joined (slice (.string s) start stop step flags)
      (slice (.array (characters s)) start stop step flags) := by
  rcases slice_parameters start stop step with ⟨e, h⟩ | ⟨a, b, c, hstep, hstart, hstop⟩
  · rw [h, h]
    exact .error e
  · have hparts : slice (.array (characters s)) start stop step flags =
        .ok (.array ((pick s.toList.toArray (slicePositions s.toList.length a b c)).map
          fun c => .string (String.singleton c))) := by
      rw [slice_array hstep hstart hstop, ← pick_map, ← length_characters]
      rfl
    have htext := slice_string hstep hstart hstop s flags
    rw [hparts, htext]
    exact .parts (join_characters _)

end Characters

/-! ## Parts of a text -/

section Substr
variable {n : Nat} {s : String} {x y : Float} {start count : Int} {flags : AccessFlags}

/-- Two positions between which a part of `n` elements stands. -/
structure Ordered (ends : Int64 × Int64) (n : Nat) : Prop where
  nonneg : 0 ≤ ends.1.toInt
  ordered : ends.1.toInt ≤ ends.2.toInt
  inside : ends.2.toInt ≤ n
  /-- Casting changes neither position. -/
  cast : (ends.1.toUInt64.toNat : Int) = ends.1.toInt ∧ (ends.2.toUInt64.toNat : Int) = ends.2.toInt

theorem substrEnds_first (hn : n < 2 ^ 63) (start : Int64) (count : Option Int64) :
    (Functions.substrEnds (Int64.ofNat n) start count).1.toInt = boundIn n 1 start.toInt := by
  have hlength := Int64.toInt_ofNat_of_lt hn
  unfold Functions.substrEnds boundIn
  simp only [Int.one_pos, if_true, Int64.lt_iff_toInt_lt, Int64.toInt_zero]
  split
  · rename_i hneg
    rw [toInt_max, toInt_saturatingAdd hn (Int64.lt_iff_toInt_lt.mpr hneg), Int64.toInt_zero]
    omega
  · rw [toInt_min, hlength]
    omega

theorem toInt_ofIntClamp (z : Int) : (Int64.ofIntClamp z).toInt = cutOff z := by
  have hleast : Int64.minValue.toInt = -2 ^ 63 := by decide
  have hgreatest : Int64.maxValue.toInt = 2 ^ 63 - 1 := by decide
  unfold Int64.ofIntClamp
  rcases cutOff_cases z with h | ⟨h, h'⟩ | ⟨h, h'⟩
  · have hrange := cutOff_range z
    rw [dif_pos (by omega), dif_pos (by omega), Int64.toInt_ofIntLE, h]
  · rw [dif_neg (by omega), hleast, h']
  · rw [dif_pos (by omega), dif_neg (by omega), hgreatest, h']

/-- The sum of a position and a count of characters is exact or behind the end. -/
theorem min_saturatingAdd (hn : n < 2 ^ 63) {first count : Int64} (hfirst : 0 ≤ first.toInt)
    (hcount : 0 ≤ count.toInt) : (min (Int64.ofNat n) (saturatingAdd first count)).toInt =
      min (n : Int) (first.toInt + count.toInt) := by
  unfold saturatingAdd
  rw [toInt_min, Int64.toInt_ofNat_of_lt hn, toInt_ofIntClamp]
  rcases cutOff_cases (first.toInt + count.toInt) with h | ⟨h, h'⟩ | ⟨h, h'⟩ <;> omega

theorem substrEnds_last (hn : n < 2 ^ 63) (start : Int64) {count : Option Int64}
    (hcount : ∀ k ∈ count, 0 ≤ k.toInt) :
    (Functions.substrEnds (Int64.ofNat n) start count).2.toInt =
      (count.map fun k => min (n : Int) (boundIn n 1 start.toInt + k.toInt)).getD n := by
  have hbound := boundIn_inLimits (Int.natCast_nonneg n) 1 start.toInt
  simp only [InLimits, Int.one_pos, if_true] at hbound
  have hfirst := substrEnds_first hn start count
  cases count with
  | none => exact Int64.toInt_ofNat_of_lt hn
  | some k =>
    have hsum := min_saturatingAdd hn (hfirst ▸ hbound.1) (hcount k rfl)
    rw [hfirst] at hsum
    exact hsum

/-- **Nothing is cut out of range.** -/
theorem substrEnds_ordered (hn : n < 2 ^ 63) (start : Int64) {count : Option Int64}
    (hcount : ∀ k ∈ count, 0 ≤ k.toInt) :
    Ordered (Functions.substrEnds (Int64.ofNat n) start count) n := by
  have hbound := boundIn_inLimits (Int.natCast_nonneg n) 1 start.toInt
  simp only [InLimits, Int.one_pos, if_true] at hbound
  have hfirst := substrEnds_first hn start count
  have hlast := substrEnds_last hn start hcount
  have hordered : boundIn n 1 start.toInt ≤
        (count.map fun k => min (n : Int) (boundIn n 1 start.toInt + k.toInt)).getD n ∧
      (count.map fun k => min (n : Int) (boundIn n 1 start.toInt + k.toInt)).getD n ≤ n := by
    cases count with
    | none => exact ⟨hbound.2, le_refl _⟩
    | some k =>
      have hk := hcount k rfl
      simp only [Option.map_some, Option.getD_some]
      omega
  rw [← hfirst] at hbound
  rw [← hlast, ← hfirst] at hordered
  exact ⟨hbound.1, hordered.1, hordered.2, cast_of_nonneg hbound.1,
    cast_of_nonneg (hbound.1.trans hordered.1)⟩

/-- The part of a text that `substr` gives, where its ends are said in whole numbers. -/
theorem substr_extract (hs : s.toList.length < 2 ^ 63) (hx : Double.toInt? x = some start)
    {rest : List Value} {part : Option Int64} (hrest : rest.length ≤ 1)
    (hpart : Functions.substrCount rest[0]? = .ok part) (hcount : ∀ k ∈ part, 0 ≤ k.toInt) :
    Functions.substr (.string s :: .number x :: rest) = .ok (.string (String.ofList (s.toList.extract
      (boundIn s.toList.length 1 start).toNat
      ((part.map fun k => min (s.toList.length : Int) (boundIn s.toList.length 1 start + k.toInt)).getD
        s.toList.length).toNat))) := by
  have hstart : boundIn s.toList.length 1 (cutOff start) = boundIn s.toList.length 1 start :=
    show boundIn s.toList.length (cutOff 1) (cutOff start) = _ from
      boundIn_cutOff (Int.natCast_nonneg _) (by omega) start
  have hordered := substrEnds_ordered hs (Int64.ofInt (cutOff start)) hcount
  have hfirst := hordered.cast.1
  have hlast := hordered.cast.2
  rw [substrEnds_first hs, toInt_cutOff, hstart] at hfirst
  rw [substrEnds_last hs _ hcount, toInt_cutOff, hstart] at hlast
  have hinteger : Arguments.integer 1 (.number x) = .ok (cutOff start) := by
    simp only [Arguments.integer, hx, Option.isSome_some, if_true, Double.clampInt64_of_toInt? hx]
  have hextract : Functions.substr (.string s :: .number x :: rest) =
      .ok (.string (String.ofList (s.toList.extract
        (Functions.substrEnds (Int64.ofNat s.toList.length) (Int64.ofInt (cutOff start)) part).1.toUInt64.toNat
        (Functions.substrEnds (Int64.ofNat s.toList.length) (Int64.ofInt (cutOff start)) part).2.toUInt64.toNat))) := by
    have harity : Arguments.count (.between 2 3) (.string s :: .number x :: rest) = .ok () := by
      match rest with
      | [] => rfl
      | [_] => rfl
    have hthird : (Value.string s :: .number x :: rest)[2]? = rest[0]? := rfl
    unfold Functions.substr
    rw [harity, hthird, hpart]
    show (Except.bind (Arguments.integer 1 (.number x)) _) = _
    rw [hinteger]
    rfl
  rw [hextract, ← hlast, ← hfirst]
  rfl

/-- **A part of a text from a position on is a slice.** -/
theorem substr_rest (hs : s.toList.length < 2 ^ 63) (hx : Double.toInt? x = some start)
    (flags : AccessFlags) : ∃ cs, Functions.substr [.string s, .number x] = .ok (.string (String.ofList cs)) ∧
      slice (.string s) (.number x) .null .null flags = .ok (.string (String.ofList cs)) ∧
      cs = s.toList.drop (boundIn s.toList.length 1 start).toNat := by
  have hstart : wholeNumber? (.number x) = some (some start) := by
    simp only [wholeNumber?, hx, Option.map_some]
  have hnone : wholeNumber? .null = some none := rfl
  obtain ⟨cs, hslice, htakes⟩ := slice_text hstart hnone hnone (by decide) flags s hs
  obtain rfl := htakes.unique (takesOut_extract s.toList (some start) none)
  have hcount : Functions.substrCount ([] : List Value)[0]? = .ok none := rfl
  refine ⟨_, substr_extract hs hx (by decide) hcount (by simp), hslice, ?_⟩
  rw [List.extract_eq_take_drop]
  exact List.take_of_length_le (by simp)

/-- A number of characters in whole numbers. -/
theorem substrCount_whole (hy : Double.toInt? y = some count) (hcount : 0 ≤ count) :
    Functions.substrCount (some (.number y)) = .ok (some (Int64.ofInt (cutOff count))) ∧
      ∀ k ∈ some (Int64.ofInt (cutOff count)), 0 ≤ k.toInt := by
  have hnonneg : 0 ≤ cutOff count := by
    rcases cutOff_cases count with h | ⟨h, h'⟩ | ⟨h, h'⟩ <;> omega
  constructor
  · simp only [Functions.substrCount, Arguments.integer, hy, Option.isSome_some, if_true,
      Double.clampInt64_of_toInt? hy]
    exact if_neg hnonneg.not_gt
  · intro k hk
    obtain rfl := Option.some.inj hk
    rwa [toInt_cutOff]

/-- **A part of a given length is the front of this slice.** -/
theorem substr_front (hs : s.toList.length < 2 ^ 63) (hx : Double.toInt? x = some start)
    (hy : Double.toInt? y = some count) (hcount : 0 ≤ count) (flags : AccessFlags) : ∃ cs,
      Functions.substr [.string s, .number x, .number y] = .ok (.string (String.ofList cs)) ∧
      slice (.string (String.ofList (s.toList.drop (boundIn s.toList.length 1 start).toNat)))
        .null (.number y) .null flags = .ok (.string (String.ofList cs)) := by
  have hstop : wholeNumber? (.number y) = some (some count) := by
    simp only [wholeNumber?, hy, Option.map_some]
  have hbound := boundIn_inLimits (Int.natCast_nonneg s.toList.length) 1 start
  simp only [InLimits, Int.one_pos, if_true] at hbound
  generalize hf : boundIn s.toList.length 1 start = first at hbound
  have hrest : (String.ofList (s.toList.drop first.toNat)).toList = s.toList.drop first.toNat :=
    String.toList_ofList
  have hlength : (s.toList.drop first.toNat).length = s.toList.length - first.toNat := List.length_drop
  have hnone : wholeNumber? .null = some none := rfl
  obtain ⟨cs, hslice, htakes⟩ := slice_text hnone hstop hnone (by decide) flags
    (String.ofList (s.toList.drop first.toNat)) (by rw [hrest]; omega)
  rw [hrest] at htakes
  obtain rfl := htakes.unique (takesOut_extract _ none (some count))
  obtain ⟨hpart, hnonneg⟩ := substrCount_whole hy hcount
  have hsubstr : Functions.substr [.string s, .number x, .number y] = _ :=
    substr_extract hs hx le_rfl hpart hnonneg
  refine ⟨_, hsubstr, ?_⟩
  rw [hslice]
  congr 3
  rw [List.extract_eq_take_drop, List.extract_eq_take_drop, hf]
  have htaken : (lastIn (s.toList.drop first.toNat).length 1 (some count)).toNat -
      (firstIn (s.toList.drop first.toNat).length 1 none).toNat =
      (min (s.toList.length : Int) (first + cutOff count)).toNat - first.toNat := by
    simp only [lastIn, firstIn, boundIn, hlength, Int.one_pos, if_true]
    rcases cutOff_cases count with h | ⟨h, h'⟩ | ⟨h, h'⟩ <;> omega
  simp only [Option.map_some, Option.getD_some, toInt_cutOff]
  rw [htaken]
  rfl

end Substr

/-! ## All ways agree -/

/-- What it comes to that a sequence is indexed by a whole number. -/
structure Indexed (t : Value) (items : List Value) (x : Float) (i : Int) : Prop where
  /-- The library counts the elements, exactly as long as doubles can. -/
  length : ∃ n, Functions.len [t] = .ok (.number n) ∧
    (items.length ≤ 2 ^ 53 → Double.toInt? n = some (items.length : Int))
  succeeds : (∃ v, index t (.number x) ⟨false, false⟩ = .ok v) ↔ -items.length ≤ i ∧ i < items.length
  /-- What is found is the only element of the slice up to the next position. -/
  inside : -items.length ≤ i → i < items.length → ∃ v, (∀ flags, index t (.number x) flags = .ok v) ∧
    ∀ stop flags, wholeNumber? stop = some (if i = -1 then none else some (i + 1)) →
      ∃ part, slice t (.number x) stop .null flags = .ok part ∧ elements? part = some [v]
  outside : ¬ (-items.length ≤ i ∧ i < items.length) → ∀ flags, index t (.number x) flags =
    if flags.optional || flags.soft then .ok .null
    else .error (.indexOutOfRange (cutOff i) items.length)

theorem len_elements {t : Value} {items : List Value} (h : elements? t = some items) :
    Functions.len [t] = .ok (.number (Double.ofInt items.length)) := by
  cases t with
  | array items' => obtain rfl := Option.some.inj h; rfl
  | string s =>
    obtain rfl := Option.some.inj h
    rw [length_characters]
    rfl
  | _ => cases h

theorem indexed {t : Value} {items : List Value} {x : Float} {i : Int} (h : elements? t = some items)
    (hn : items.length < 2 ^ 63) (hx : Double.toInt? x = some i) : Indexed t items x i := by
  have hindex := index_elements h hx
  have hinside : -items.length ≤ i → i < items.length → ∃ v,
      (∀ flags, index t (.number x) flags = .ok v) ∧
      ∀ stop flags, wholeNumber? stop = some (if i = -1 then none else some (i + 1)) →
        ∃ part, slice t (.number x) stop .null flags = .ok part ∧ elements? part = some [v] := by
    intro hlow hhigh
    have hlt := (resolve_inside hlow hhigh).2
    refine ⟨items[(boundIn items.length 1 i).toNat], fun flags => ?_, fun stop flags hstop => ?_⟩
    · obtain ⟨_, helement⟩ := element_inside hn hlow hhigh (flags.optional || flags.soft)
      exact (hindex flags).trans helement
    · have hstart : wholeNumber? (.number x) = some (some i) := by
        simp only [wholeNumber?, hx, Option.map_some]
      obtain ⟨part, picked, hslice, helements, htakes⟩ :=
        slice_elements h hn hstart hstop (show wholeNumber? .null = some none from rfl) (by decide) flags
      obtain rfl := htakes.unique (takesOut_singleton hlow hhigh hlt)
      exact ⟨part, hslice, helements⟩
  have houtside : ¬ (-items.length ≤ i ∧ i < items.length) → ∀ flags, index t (.number x) flags =
      if flags.optional || flags.soft then .ok .null
      else .error (.indexOutOfRange (cutOff i) items.length) :=
    fun hout flags => (hindex flags).trans (element_outside hn hout _)
  refine ⟨⟨_, len_elements h, Double.toInt?_ofInt⟩, ⟨fun ⟨v, hv⟩ => ?_, fun ⟨hlow, hhigh⟩ => ?_⟩,
    hinside, houtside⟩
  · by_contra hout
    have hfails := houtside hout ⟨false, false⟩
    rw [hv] at hfails
    cases hfails
  · obtain ⟨v, hv, -⟩ := hinside hlow hhigh
    exact ⟨v, hv _⟩

/-- **Four ways of addressing a sequence agree.**  Positions are whole numbers of any size.  An index
succeeds from minus the length up to the length, and gives the only element of the slice up to the next
position; elsewhere it fails, or is null if the access forgives.  A text is indexed and sliced as the
characters that it is split into.  And `substr` is a slice, or the front of one, and never cuts out of
range. -/
theorem addressings_agree :
    (∀ t items x i, elements? t = some items → items.length < 2 ^ 63 → Double.toInt? x = some i →
      Indexed t items x i) ∧
    (∀ s, ∃ parts, Functions.split [.string s, .string ""] = .ok parts ∧
      (∀ x i flags, Double.toInt? x = some i →
        index (.string s) (.number x) flags = index parts (.number x) flags) ∧
      ∀ start stop step flags,
        Joined (slice (.string s) start stop step flags) (slice parts start stop step flags)) ∧
    (∀ s x start flags, s.toList.length < 2 ^ 63 → Double.toInt? x = some start → ∃ rest,
      slice (.string s) (.number x) .null .null flags = .ok rest ∧
      Functions.substr [.string s, .number x] = .ok rest ∧
      ∀ y count, Double.toInt? y = some count → 0 ≤ count → ∃ part,
        slice rest .null (.number y) .null flags = .ok part ∧
        Functions.substr [.string s, .number x, .number y] = .ok part) ∧
    ∀ (n : Nat) (start : Int64) (count : Option Int64), n < 2 ^ 63 → (∀ k ∈ count, 0 ≤ k.toInt) →
      Ordered (Functions.substrEnds (Int64.ofNat n) start count) n := by
  refine ⟨fun t items x i => indexed, fun s => ⟨_, split_characters s, fun x i flags hx => ?_,
    slice_joined s⟩, fun s x start flags hs hx => ?_, fun n start count hn => substrEnds_ordered hn start⟩
  · rw [index_elements (t := .string s) rfl hx, index_elements (t := .array (characters s)) rfl hx]
  · obtain ⟨cs, hsubstr, hslice, rfl⟩ := substr_rest hs hx flags
    refine ⟨_, hslice, hsubstr, fun y count hy hcount => ?_⟩
    obtain ⟨front, hfront, hpart⟩ := substr_front hs hx hy hcount flags
    exact ⟨_, hpart, hfront⟩

/-- The last but one of three characters, one of them outside the basic plane, and the part of the text
of one character from there on. -/
theorem addressings_agree_penultimate :
    Indexed (.string "a𝄞b") (characters "a𝄞b") (Float.ofBits 0xC000000000000000) (-2) ∧
    index (.string "a𝄞b") (.number (Float.ofBits 0xC000000000000000)) ⟨false, false⟩ =
      index (.array (characters "a𝄞b")) (.number (Float.ofBits 0xC000000000000000)) ⟨false, false⟩ ∧
    (∃ rest, slice (.string "a𝄞b") (.number (Float.ofBits 0xC000000000000000)) .null .null ⟨false, false⟩ =
      .ok rest ∧ ∃ part, slice rest .null (.number 1) .null ⟨false, false⟩ = .ok part ∧
        Functions.substr [.string "a𝄞b", .number (Float.ofBits 0xC000000000000000), .number 1] = .ok part) ∧
    Ordered (Functions.substrEnds (Int64.ofNat 3) (-2) (some 1)) 3 := by
  have hlast : Double.toInt? (Float.ofBits 0xC000000000000000) = some (-2) := rfl
  have hone : Double.toInt? 1 = some 1 := by decide +kernel
  have hlength : "a𝄞b".toList.length < 2 ^ 63 := by decide
  obtain ⟨hindexed, hcharacters, hsubstr, hordered⟩ := addressings_agree
  have hcount : ∀ k ∈ (some 1 : Option Int64), 0 ≤ k.toInt := by simp
  refine ⟨hindexed _ _ _ _ rfl (by decide) hlast, ?_, ?_, hordered 3 (-2) (some 1) (by decide) hcount⟩
  · obtain ⟨parts, hsplit, hindex, -⟩ := hcharacters "a𝄞b"
    obtain rfl := Except.ok.inj ((split_characters "a𝄞b").symm.trans hsplit)
    exact hindex _ _ _ hlast
  · obtain ⟨rest, hslice, -, hfront⟩ := hsubstr _ _ _ ⟨false, false⟩ hlength hlast
    exact ⟨rest, hslice, hfront 1 1 hone (by decide)⟩

end Access

end PipeExpr
