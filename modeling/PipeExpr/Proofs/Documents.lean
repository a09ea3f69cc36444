import Mathlib
import PipeExpr.Document.Bridge
import PipeExpr.Proofs.Equality
import PipeExpr.Proofs.Integers

/-!
# Values as documents and back

A document has no form for NaN and the infinities, and no sign on an integer zero.  Nothing else of a value
is lost on the way to a document and back (`toValue_ofValue`): items and entries stay in their order, under
their names, and every other number comes back as it was.  So a value comes back equal to itself if all its
numbers are finite, and only then (`equal_settled_iff`).

The two kinds of numbers in documents meet at `exactLimit`.  **Up to there an integer is a double, and from
there back the same integer** (`ofNumber_ofInt`), and a double without a fraction is an integer, and from
there back the same double, its zeros apart (`ofInt_truncate`).
-/

namespace PipeExpr

open Float.Model (UnpackedFloat)

/-! ## Numbers -/

namespace Double

theorem natAbs_truncate (b : Binary) : b.truncate.natAbs = b.wholePart := by
  unfold Binary.truncate
  split <;> omega

/-- A finite double is a zero, or has a place on one side of it. -/
theorem beq_zero_iff {x : Float} {b : Binary} (h : classify x = .finite b) :
    (x == 0.0) = true ↔ b.mantissa = 0 := by
  have hbeq : (x == 0.0) = (x.toModel.unpack.compare (.zero .positive) == some .eq) := rfl
  rw [hbeq]
  rcases eq_signed_of_classify h with ⟨hzero, hbits⟩ | ⟨hc, rfl⟩
  · rw [unpack_of_bits_zero hbits]
    exact iff_of_true rfl hzero
  · rw [hc.unpack_signed]
    refine iff_of_false ?_ hc.pos.ne'
    cases b.negative <;> exact Bool.false_ne_true

/-- **A double without a fraction is made again from its integer**; only zero loses its sign. -/
theorem ofInt_truncate {x : Float} {b : Binary} (h : classify x = .finite b) (hwhole : b.isWhole = true) :
    ofInt b.truncate = if x == 0.0 then 0.0 else x := by
  have hvalue := value_of_isWhole hwhole
  by_cases hzero : b.mantissa = 0
  · have hpart : b.wholePart = 0 := by
      rw [hzero, Nat.cast_zero, zero_mul] at hvalue
      exact_mod_cast hvalue
    rw [if_pos ((beq_zero_iff h).mpr hzero), Int.natAbs_eq_zero.mp ((natAbs_truncate b).trans hpart)]
    decide +kernel
  · obtain ⟨hc, rfl⟩ := (eq_signed_of_classify h).resolve_left fun hbits => hzero hbits.1
    have hpos : 0 < b.wholePart := hc.pos_of_eq (e := 0) (by simpa using hvalue)
    have hsign : decide (b.truncate < 0) = b.negative := by
      unfold Binary.truncate
      cases b.negative with
      | false => simp
      | true => simp; omega
    rw [if_neg ((beq_zero_iff h).not.mpr hzero), ofInt_of_magnitude hc (by rw [natAbs_truncate, hvalue]), hsign]

end Double

/-- An integer that is not too large comes back as it was. -/
theorem Document.ofNumber_ofInt {n : Int} (h : n.natAbs ≤ exactLimit) :
    Document.ofNumber (Double.ofInt n) = .integer n := by
  obtain ⟨b, hclass, hwhole, rfl⟩ := Double.toInt?_eq_some_iff.mp (Double.toInt?_ofInt_of_natAbs_le h)
  unfold Document.ofNumber
  rw [hclass]
  dsimp only
  rw [hwhole, decide_eq_true (Double.natAbs_truncate b ▸ h)]
  rfl

/-! ## What comes back -/

namespace Value

/-- A number as it comes back from a document: zero without its sign, and null for a number that has no form
there. -/
def settledNumber (x : Float) : Value :=
  if Double.isFinite x then .number (if x == 0.0 then 0.0 else x) else .null

mutual

/-- **A value with each number that is not finite replaced by null, and each zero without its sign.** -/
def settled : Value → Value
  | null => null
  | boolean b => boolean b
  | number x => settledNumber x
  | string s => string s
  | array items => array (settledItems items)
  | object fields => object (settledFields fields)

@[inherit_doc settled]
def settledItems : List Value → List Value
  | [] => []
  | v :: rest => v.settled :: settledItems rest

@[inherit_doc settled]
def settledFields : List (String × Value) → List (String × Value)
  | [] => []
  | (name, v) :: rest => (name, v.settled) :: settledFields rest

end

/-- A number that stands in a value, at whatever depth. -/
inductive HasNumber (x : Float) : Value → Prop
  | number : HasNumber x (.number x)
  | item {v : Value} {items : List Value} (hv : v ∈ items) (h : HasNumber x v) : HasNumber x (.array items)
  | entry {e : String × Value} {fields : List (String × Value)} (he : e ∈ fields) (h : HasNumber x e.2) :
    HasNumber x (.object fields)

theorem forall_hasNumber_array {P : Float → Prop} {items : List Value} :
    (∀ x, HasNumber x (.array items) → P x) ↔ ∀ v ∈ items, ∀ x, HasNumber x v → P x := by
  refine ⟨fun h v hv x hx => h x (.item hv hx), fun h x hx => ?_⟩
  cases hx with
  | item hv hx => exact h _ hv x hx

theorem forall_hasNumber_object {P : Float → Prop} {fields : List (String × Value)} :
    (∀ x, HasNumber x (.object fields) → P x) ↔ ∀ e ∈ fields, ∀ x, HasNumber x e.2 → P x := by
  refine ⟨fun h e he x hx => h x (.entry he hx), fun h x hx => ?_⟩
  cases hx with
  | entry he hx => exact h _ he x hx

/-- An array is equal to what becomes of it just if its items are. -/
theorem equal_array_map_iff (f : Value → Value) (items : List Value) :
    equal (.array (items.map f)) (.array items) = true ↔ ∀ v ∈ items, equal (f v) v = true := by
  rw [equal_array_iff, List.forall₂_map_left_iff, List.forall₂_same]

/-- An object is equal to what becomes of it just if its values are. -/
theorem equal_object_map_iff (f : Value → Value) {fields : List (String × Value)}
    (hnames : (fields.map Prod.fst).Nodup) :
    equal (.object (fields.map (Prod.map id f))) (.object fields) = true ↔
      ∀ e ∈ fields, equal (f e.2) e.2 = true := by
  rw [equal_object_iff, List.length_map, and_iff_right rfl, List.forall_mem_map]
  refine forall₂_congr fun e hmem => ?_
  -- what an object finds under the name of an entry of its own is the value of that entry
  have hget : Fields.get? fields e.1 = some e.2 := Fields.get?_of_mem hnames hmem
  constructor
  · rintro ⟨w, hw, hequal⟩
    obtain rfl := Option.some.inj (hget.symm.trans hw)
    exact hequal
  · exact fun hequal => ⟨e.2, hget, hequal⟩

theorem settledItems_eq_map (items : List Value) : settledItems items = items.map settled := by
  induction items with
  | nil => rfl
  | cons v rest ih => rw [settledItems, ih, List.map_cons]

theorem settledFields_eq_map (fields : List (String × Value)) :
    settledFields fields = fields.map (Prod.map id settled) := by
  induction fields with
  | nil => rfl
  | cons e rest ih => rw [settledFields, ih, List.map_cons]; rfl

theorem equal_settledNumber_iff (x : Float) :
    equal (settledNumber x) (.number x) = true ↔ Double.isFinite x = true := by
  unfold settledNumber
  cases hfinite : Double.isFinite x with
  | false =>
    rw [if_neg Bool.false_ne_true]
    exact iff_of_false (by simp [equal]) Bool.false_ne_true
  | true =>
    rw [if_pos rfl, equal]
    refine iff_of_true ?_ rfl
    split
    · rename_i hzero
      obtain ⟨hx, hz, hplace⟩ := Double.beq_iff.mp hzero
      exact Double.beq_iff.mpr ⟨hz, hx, hplace.symm⟩
    · unfold Double.isFinite at hfinite
      split at hfinite
      · rename_i hne _ b hclass
        have hnan : x.isNaN = false := by
          obtain ⟨hc, rfl⟩ := (Double.eq_signed_of_classify hclass).resolve_left fun hbits =>
            hne ((Double.beq_zero_iff hclass).mpr hbits.1)
          show (hc.signed _).toModel.unpack.isNaN = false
          rw [hc.unpack_signed]
          rfl
        exact Double.beq_iff.mpr ⟨hnan, hnan, rfl⟩
      · cases hfinite

/-- **A value comes back equal to itself just if all its numbers are finite.** -/
theorem equal_settled_iff {v : Value} (hv : v.WellFormed) :
    equal v.settled v = true ↔ ∀ x, v.HasNumber x → Double.isFinite x = true := by
  induction v using Value.induction with
  | null => exact iff_of_true (by rw [settled, equal]) (by rintro _ ⟨⟩)
  | boolean b => exact iff_of_true (by rw [settled, equal, beq_self_eq_true]) (by rintro _ ⟨⟩)
  | string s => exact iff_of_true (by rw [settled, equal, beq_self_eq_true]) (by rintro _ ⟨⟩)
  | number x =>
    rw [settled, equal_settledNumber_iff]
    refine ⟨fun h y hy => ?_, fun h => h x .number⟩
    cases hy
    exact h
  | array items ih =>
    cases hv with
    | array hitems =>
      rw [settled, settledItems_eq_map, equal_array_map_iff, forall_hasNumber_array]
      exact forall₂_congr fun v hmem => ih v hmem (hitems v hmem)
  | object fields ih =>
    cases hv with
    | object hnames hvalues =>
      rw [settled, settledFields_eq_map, equal_object_map_iff settled hnames, forall_hasNumber_object]
      exact forall₂_congr fun e hmem => ih e hmem (hvalues e hmem)

end Value

namespace Document

/-- Induction over documents, with the hypothesis for every item and every entry. -/
theorem induction {P : Document → Prop} (null : P .null) (boolean : ∀ b, P (.boolean b))
    (integer : ∀ n, P (.integer n)) (decimal : ∀ x, P (.decimal x)) (string : ∀ s, P (.string s))
    (array : ∀ items, (∀ d ∈ items, P d) → P (.array items))
    (object : ∀ fields, (∀ e ∈ fields, P e.2) → P (.object fields)) : ∀ d, P d := by
  intro d
  refine @Document.rec P (fun items => ∀ d ∈ items, P d) (fun fields => ∀ e ∈ fields, P e.2) (fun e => P e.2)
    null boolean integer decimal string array object ?_ ?_ ?_ ?_ ?_ d
  · exact fun _ h => nomatch h
  · exact fun _ _ hd ht => List.forall_mem_cons.mpr ⟨hd, ht⟩
  · exact fun _ h => nomatch h
  · exact fun _ _ hd ht => List.forall_mem_cons.mpr ⟨hd, ht⟩
  · exact fun _ _ h => h

/-- A document whose numbers are all integers that are not too large for a double. -/
inductive Integral : Document → Prop
  | null : Integral .null
  | boolean (b : Bool) : Integral (.boolean b)
  | integer {n : Int} (h : n.natAbs ≤ 2 ^ 53) : Integral (.integer n)
  | string (s : String) : Integral (.string s)
  | array {items : List Document} (h : ∀ d ∈ items, Integral d) : Integral (.array items)
  | object {fields : List (String × Document)} (h : ∀ e ∈ fields, Integral e.2) : Integral (.object fields)

theorem itemsToValues_eq_map (items : List Document) : itemsToValues items = items.map toValue := by
  induction items with
  | nil => rfl
  | cons d rest ih => rw [itemsToValues, ih, List.map_cons]

theorem fieldsToValues_eq_map (fields : List (String × Document)) :
    fieldsToValues fields = fields.map (Prod.map id toValue) := by
  induction fields with
  | nil => rfl
  | cons e rest ih => rw [fieldsToValues, ih, List.map_cons]; rfl

theorem ofItems_eq_map (items : List Value) : ofItems items = items.map ofValue := by
  induction items with
  | nil => rfl
  | cons v rest ih => rw [ofItems, ih, List.map_cons]

theorem ofFields_eq_map (fields : List (String × Value)) :
    ofFields fields = fields.map (Prod.map id ofValue) := by
  induction fields with
  | nil => rfl
  | cons e rest ih => rw [ofFields, ih, List.map_cons]; rfl

theorem toValue_ofNumber (x : Float) : (ofNumber x).toValue = Value.settledNumber x := by
  unfold ofNumber Value.settledNumber Double.isFinite
  cases hclass : Double.classify x with
  | notANumber => rfl
  | infinite negative => rfl
  | finite b =>
    dsimp only
    rw [if_pos rfl]
    split
    · rename_i h
      rw [Bool.and_eq_true] at h
      rw [toValue, Double.ofInt_truncate hclass h.1]
    · rename_i h
      rw [toValue, if_neg]
      intro hzero
      have hmantissa := (Double.beq_zero_iff hclass).mp hzero
      refine h ?_
      unfold Binary.isWhole Binary.wholePart
      rw [hmantissa]
      cases b.exponent <;> simp

/-- **What comes back of a value** is the value, as far as a document can hold it. -/
theorem toValue_ofValue (v : Value) : (ofValue v).toValue = v.settled := by
  induction v using Value.induction with
  | null => rfl
  | boolean b => rfl
  | number x => exact toValue_ofNumber x
  | string s => rfl
  | array items ih =>
    rw [ofValue, toValue, Value.settled, ofItems_eq_map, itemsToValues_eq_map, Value.settledItems_eq_map,
      List.map_map]
    exact congrArg _ (List.map_congr_left ih)
  | object fields ih =>
    rw [ofValue, toValue, Value.settled, ofFields_eq_map, fieldsToValues_eq_map, Value.settledFields_eq_map,
      List.map_map]
    exact congrArg _ (List.map_congr_left fun e he => congrArg (Prod.mk e.1) (ih e he))

/-- **Documents of integers come back as they were.** -/
theorem ofValue_toValue {d : Document} (h : d.Integral) : ofValue d.toValue = d := by
  induction d using Document.induction with
  | null => rfl
  | boolean b => rfl
  | integer n =>
    cases h with
    | integer h => exact ofNumber_ofInt h
  | decimal x => cases h
  | string s => rfl
  | array items ih =>
    cases h with
    | array h =>
      rw [toValue, ofValue, itemsToValues_eq_map, ofItems_eq_map, List.map_map]
      exact congrArg _ ((List.map_congr_left fun d hd => ih d hd (h d hd)).trans (List.map_id _))
  | object fields ih =>
    cases h with
    | object h =>
      rw [toValue, ofValue, fieldsToValues_eq_map, ofFields_eq_map, List.map_map]
      have hentry : ∀ e ∈ fields, (Prod.map id ofValue ∘ Prod.map id toValue) e = e := fun e he =>
        congrArg (Prod.mk e.1) (ih e he (h e he))
      exact congrArg _ ((List.map_congr_left hentry).trans (List.map_id _))

/-- A document names variables just if it is null or an object, and an object names its entries. -/
theorem toContext?_eq_some_iff {d : Document} {context : Fields Value} :
    d.toContext? = some context ↔
      d = .null ∧ context = [] ∨ ∃ fields, d = .object fields ∧ context = fieldsToValues fields := by
  cases d <;> simp [toContext?, eq_comm]

/-- **The bridge keeps all that a document can hold**: values come back settled, so equal just if their
numbers are finite, documents of integers come back as they were, and only null and objects name variables. -/
theorem bridge_keeps :
    (∀ v : Value, (ofValue v).toValue = v.settled) ∧
      (∀ v : Value, v.WellFormed →
        (Value.equal (ofValue v).toValue v = true ↔ ∀ x, v.HasNumber x → Double.isFinite x = true)) ∧
      (∀ d : Document, d.Integral → ofValue d.toValue = d) ∧
      ∀ (d : Document) (context : Fields Value), d.toContext? = some context ↔
        d = .null ∧ context = [] ∨ ∃ fields, d = .object fields ∧ Value.object context = d.toValue := by
  refine ⟨toValue_ofValue, fun v hv => ?_, fun d hd => ofValue_toValue hd, fun d context => ?_⟩
  · rw [toValue_ofValue, Value.equal_settled_iff hv]
  · rw [toContext?_eq_some_iff]
    refine or_congr_right (exists_congr fun fields => and_congr_right fun hd => ?_)
    rw [hd, toValue, Value.object.injEq]

/-- A row of numbers with a negative zero and a NaN in it, and a document with the integers of both ends. -/
theorem bridge_keeps_rows :
    (ofValue (.array [.number (-0.0), .number 2.5, .number (0.0 / 0.0)])).toValue =
        .array [.number 0.0, .number 2.5, .null] ∧
      Value.equal (ofValue (.array [.number (-0.0), .number 2.5])).toValue
        (.array [.number (-0.0), .number 2.5]) = true ∧
      ofValue (toValue (.array [.integer (2 ^ 53), .integer (-2 ^ 53)])) =
        .array [.integer (2 ^ 53), .integer (-2 ^ 53)] := by
  obtain ⟨hsettled, hequal, hback, -⟩ := bridge_keeps
  have hvalue : Value.WellFormed (.array [.number (-0.0), .number 2.5]) :=
    .array fun v hv => by
      obtain rfl | rfl := List.mem_pair.mp hv <;> exact .number _
  have hintegral : Integral (.array [.integer (2 ^ 53), .integer (-2 ^ 53)]) :=
    .array fun d hd => by
      obtain rfl | rfl := List.mem_pair.mp hd <;> exact .integer (by decide)
  refine ⟨(hsettled _).trans ?_, (hequal _ hvalue).mpr fun x hx => ?_, hback _ hintegral⟩
  · simp only [Value.settled, Value.settledItems, Value.settledNumber]
    rw [if_pos (by decide +kernel), if_pos (by decide +kernel), if_pos (by decide +kernel),
      if_neg (by decide +kernel), if_neg (by decide +kernel)]
  · cases hx with
    | item hmem hx =>
      obtain rfl | rfl := List.mem_pair.mp hmem <;> cases hx <;> decide +kernel

end Document

end PipeExpr
