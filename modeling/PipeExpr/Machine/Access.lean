import PipeExpr.Machine.Error

/-!
# Access to parts of values

Elements by key or position, and slices. Positions count characters in a text and items in an
array; negative ones count from the end. A flag can make an access forgive what is missing.
-/

namespace PipeExpr

namespace Access

/-- What an access to null was looking for. -/
def describeKey : Value → String
  | .string s => "'" ++ s ++ "'"
  | v => "[" ++ v.display ++ "]"

/-- The name that a key stands for in an object. -/
def fieldName? : Value → Option String
  | .string s => some s
  | .number x => some (Double.text x)
  | _ => none

/-- The position that a key stands for, at most as far out as 64 bits reach. -/
def position? : Value → Option Int
  | .number x => if (Double.toInt? x).isSome then some (Double.clampInt64 x) else none
  | _ => none

/-- A position in a sequence of `length` elements, counted from the start. -/
def resolve (position : Int) (length : Nat) : Option Nat :=
  let i := if position < 0 then position + length else position
  if 0 ≤ i ∧ i < length then some i.toNat else none

/-- The element at a position of a sequence. -/
def element (items : List Value) (position : Int) (forgiving : Bool) : Except RunError Value :=
  match (resolve position items.length).bind (items[·]?) with
  | some v => .ok v
  | none =>
    if forgiving then .ok .null else .error (.indexOutOfRange position items.length)

/-- The characters of a text as values. -/
def characters (s : String) : List Value := s.toList.map fun c => .string (String.singleton c)

/-- The part of a value under a key. If `optional`, null has only null parts; if `optional` or
`soft`, what is missing is null. -/
def index (target key : Value) (flags : AccessFlags) : Except RunError Value :=
  let forgiving := flags.optional || flags.soft
  match target with
  | .null => if flags.optional then .ok .null else .error (.nullAccess (describeKey key))
  | .object fields =>
    match fieldName? key with
    | none => .error (.invalidIndex .object key.kind)
    | some name =>
      match Fields.get? fields name with
      | some v => .ok v
      | none => if forgiving then .ok .null else .error (.propertyNotFound name)
  | .array items =>
    match position? key with
    | some position => element items position forgiving
    | none => .error (.invalidIndex .array key.kind)
  | .string s =>
    match position? key with
    | some position => element (characters s) position forgiving
    | none => .error (.invalidIndex .string key.kind)
  | v => .error (.invalidIndex v.kind key.kind)

/-! ## Slices -/

/-- The sum of two 64-bit integers, or the end of their range that it lies beyond. -/
def saturatingAdd (a b : Int64) : Int64 := Int64.ofIntClamp (a.toInt + b.toInt)

/-- The sum of two 64-bit integers, if it is one. -/
def checkedAdd (a b : Int64) : Option Int64 :=
  let sum := a.toInt + b.toInt
  if Double.leastInt64 ≤ sum ∧ sum ≤ Double.greatestInt64 then some (Int64.ofInt sum) else none

theorem toInt_of_checkedAdd {a b c : Int64} (h : checkedAdd a b = some c) :
    c.toInt = a.toInt + b.toInt := by
  unfold checkedAdd at h
  dsimp only at h
  split at h
  · rename_i hrange
    cases h
    exact Int64.toInt_ofInt_of_le hrange.1 (Int.lt_add_one_of_le hrange.2)
  · cases h

/-- Whether a position lies in front of `stop` in the direction of `step`. Nothing does if the step is
zero. -/
def isBefore (stop step i : Int64) : Bool := (0 < step && i < stop) || (step < 0 && stop < i)

/-- The positions `i`, `i + step`, … in front of `stop` in the direction of `step`, behind those found so
far. They also end where the next one would be no 64-bit integer. -/
def walk (stop step i : Int64) (found : Array Int64) : Array Int64 :=
  if _ : isBefore stop step i then
    match _ : checkedAdd i step with
    | some next => walk stop step next (found.push i)
    | none => found.push i
  else found
-- each step comes nearer to `stop`
termination_by (if 0 < step then stop.toInt - i.toInt else i.toInt - stop.toInt).toNat
decreasing_by
  rename_i hbefore hnext
  have hsum := toInt_of_checkedAdd hnext
  simp only [isBefore, Bool.or_eq_true, Bool.and_eq_true, decide_eq_true_eq,
    Int64.lt_iff_toInt_lt, Int64.toInt_zero] at hbefore ⊢
  split <;> omega

/-- The least and the greatest position that a bound may stand for. Going down, the lower end is the
position before the first. -/
def sliceLimits (length step : Int64) : Int64 × Int64 :=
  if 0 < step then (0, length) else (-1, length - 1)

/-- A bound of a slice, counted from the end if it is negative and moved between the limits. -/
def clampBound (length : Int64) (limits : Int64 × Int64) (bound : Int64) : Int64 :=
  max limits.1 (min limits.2 (if bound < 0 then saturatingAdd bound length else bound))

/-- Where a slice starts and stops. Omitted bounds take everything in the direction of the step. -/
def sliceEnds (length : Int64) (start stop : Option Int64) (step : Int64) : Int64 × Int64 :=
  let limits := sliceLimits length step
  let (first, last) := if 0 < step then limits else limits.swap
  let clamp := clampBound length limits
  ((start.map clamp).getD first, (stop.map clamp).getD last)

/-- The positions that a slice takes out of a sequence of `length` elements. -/
def slicePositions (length : Nat) (start stop : Option Int64) (step : Int64) : List Nat :=
  let (first, last) := sliceEnds (Int64.ofNat length) start stop step
  (walk last step first #[]).toList.map fun i => i.toUInt64.toNat

/-- A parameter of a slice: none if it is null. -/
def sliceBound (part : SlicePart) (v : Value) : Except RunError (Option Int64) :=
  match v with
  | .null => .ok none
  | .number x =>
    match position? v with
    | some n => .ok (some (Int64.ofInt n))
    | none => .error (.invalidSlice (.notInteger part x))
  | v => .error (.invalidSlice (.notNumber part v.kind))

/-- The step of a slice: one if it is omitted, and never zero. -/
def sliceStep (v : Value) : Except RunError Int64 :=
  match v with
  | .number x =>
    if x == 0.0 then .error (.invalidSlice .zeroStep)
    else (·.getD 1) <$> sliceBound .step v
  | v => (·.getD 1) <$> sliceBound .step v

/-- The elements at given positions; positions out of range are passed over. -/
def pick {α : Type} (items : Array α) (positions : List Nat) : List α :=
  positions.filterMap (items[·]?)

/-- A part of a sequence between two bounds. The parameters are looked at before the target. -/
def slice (target start stop step : Value) (flags : AccessFlags) : Except RunError Value := do
  let step ← sliceStep step
  let start ← sliceBound .start start
  let stop ← sliceBound .stop stop
  match target with
  | .null => if flags.optional then .ok .null else .error (.nullAccess "a slice")
  | .array items =>
    .ok (.array (pick items.toArray (slicePositions items.length start stop step)))
  | .string s =>
    let cs := s.toList.toArray
    .ok (.string (String.ofList (pick cs (slicePositions cs.size start stop step))))
  | v => .error (.invalidSlice (.notSliceable v.kind))

end Access

end PipeExpr
