import PipeExpr.Proofs.Equality
import PipeExpr.Proofs.KeyedHandlers

/-!
# Values that are made of well-formed ones

Equality is symmetric as long as no object has a name twice (`Value.WellFormed`).  Nothing that programs do with
values makes such an object: operators only give scalars, accesses give parts of their targets, and what a
function or a handler of the standard library makes of arguments and of outcomes of blocks is an array of them,
an object whose names it has told apart, or a part of them (`Library.standard_keepsForm`).

A handler may answer errors as it likes, so what is asked of it is said of its questions and its outcomes
(`PipeProgram.KeepsForm`): as long as the outcomes of the block are well-formed, the bindings are, and in the end
the result.
-/

namespace PipeExpr

/-! ## Outcomes -/

/-- An outcome that is an error or a value with a property. -/
def Yields {ε α : Type} (P : α → Prop) (x : Except ε α) : Prop := ∀ v, x = .ok v → P v

/-- An outcome that is an error or a well-formed value. -/
abbrev YieldsWellFormed {ε : Type} (x : Except ε Value) : Prop := Yields Value.WellFormed x

namespace Yields

variable {ε α β : Type} {P : α → Prop} {Q : β → Prop} {x : Except ε α} {f : α → Except ε β} {v : α}

theorem ok (h : P v) : Yields P (.ok v : Except ε α) := by
  rintro _ ⟨⟩
  exact h

theorem error (e : ε) : Yields P (.error e : Except ε α) := by
  rintro _ ⟨⟩

theorem bind (hx : Yields P x) (hf : ∀ v, P v → Yields Q (f v)) : Yields Q (x >>= f) := by
  cases x with
  | error e => exact error e
  | ok v => exact hf v (hx v rfl)

/-- What comes out in the end does not depend on what came out before. -/
theorem behind (hf : ∀ v, Yields Q (f v)) : Yields Q (x >>= f) :=
  bind (P := fun _ => True) (fun _ _ => trivial) fun v _ => hf v

theorem map (f : α → β) (h : ∀ v, Q (f v)) : Yields Q (f <$> x) := by
  cases x with
  | error e => exact error e
  | ok v => exact ok (h v)

theorem mapError {ε' : Type} (h : Yields P x) (f : ε → ε') : Yields P (x.mapError f) := by
  cases x with
  | error e => exact error (f e)
  | ok v => exact ok (h v rfl)

end Yields

/-! ## Operators and accesses -/

namespace Operator

/-- **An operator gives a number, a text or a boolean**, whatever its operands are. -/
theorem binary_wellFormed (op : Opcode) (left right : Value) : YieldsWellFormed (binary op left right) := by
  cases op with
  | add =>
    show YieldsWellFormed (add left right)
    unfold add
    split
    · exact .ok (.number _)
    · exact .ok (.string _)
    · exact .error _
  | sub | mul | div | mod | pow =>
    unfold binary
    dsimp only
    split
    · exact .map _ fun x => .number x
    · exact .error _
  | bitAnd | bitOr | bitXor | shiftLeft | shiftRight =>
    exact .behind fun m => .behind fun n => .map _ fun word => .number _
  | _ => exact .error _

theorem unary_wellFormed (op : Opcode) (operand : Value) : YieldsWellFormed (unary op operand) := by
  unfold unary
  split
  · exact .ok (.boolean _)
  · exact .ok (.number _)
  · split
    · exact .ok (.number _)
    · exact .error _
  · exact .error _
  · exact .error _
  · exact .error _

end Operator

namespace Access

variable {items : List Value}

theorem element_wellFormed (h : ∀ v ∈ items, v.WellFormed) (position : Int) (forgiving : Bool) :
    YieldsWellFormed (element items position forgiving) := by
  unfold element
  split
  · rename_i v hv
    obtain ⟨n, _, hget⟩ := Option.bind_eq_some_iff.mp hv
    exact .ok (h v (List.mem_of_getElem? hget))
  · split
    · exact .ok .null
    · exact .error _

theorem characters_wellFormed (s : String) : ∀ v ∈ characters s, v.WellFormed := by
  intro v hv
  obtain ⟨c, _, rfl⟩ := List.mem_map.mp hv
  exact .string _

/-- **A part of a well-formed value is well-formed.** -/
theorem index_wellFormed {target : Value} (h : target.WellFormed) (key : Value) (flags : AccessFlags) :
    YieldsWellFormed (index target key flags) := by
  cases h with
  | null =>
    rw [index]
    split
    · exact .ok .null
    · exact .error _
  | object hnames hvalues =>
    rw [index]
    split
    · exact .error _
    · split
      · rename_i v hv
        exact .ok (hvalues _ (Fields.mem_of_get? hv))
      · split
        · exact .ok .null
        · exact .error _
  | array hitems =>
    rw [index]
    split
    · exact element_wellFormed hitems _ _
    · exact .error _
  | string s =>
    rw [index]
    split
    · exact element_wellFormed (characters_wellFormed s) _ _
    · exact .error _
  | boolean | number => exact .error _

/-- What a slice takes out of a row stands in the row. -/
theorem mem_of_mem_pick {α : Type} {row : Array α} {positions : List Nat} {x : α}
    (h : x ∈ pick row positions) : x ∈ row := by
  obtain ⟨n, _, hn⟩ := List.mem_filterMap.mp h
  exact Array.mem_of_getElem? hn

theorem slice_wellFormed {target : Value} (h : target.WellFormed) (start stop step : Value)
    (flags : AccessFlags) : YieldsWellFormed (slice target start stop step flags) := by
  refine .behind fun n => .behind fun first => .behind fun last => ?_
  cases h with
  | null =>
    show YieldsWellFormed (if flags.optional then _ else _)
    split
    · exact .ok .null
    · exact .error _
  | array hitems => exact .ok (.array fun v hv => hitems v (List.mem_toArray.mp (mem_of_mem_pick hv)))
  | string s => exact .ok (.string _)
  | boolean | number | object => exact .error _

end Access

/-! ## Functions -/

/-- **A function that makes well-formed values of well-formed arguments.** -/
def HostFunction.KeepsForm (f : HostFunction) : Prop :=
  ∀ arguments, (∀ v ∈ arguments, v.WellFormed) → YieldsWellFormed (f arguments)

namespace Functions

open Arguments

/-- The only argument of a function is as well-formed as its arguments are. -/
theorem one_wellFormed {arguments : List Value} (h : ∀ v ∈ arguments, v.WellFormed) :
    YieldsWellFormed (one arguments) := by
  unfold one
  split
  · exact .ok (h _ (List.mem_singleton_self _))
  · exact .error _

theorem object_wellFormed {v : Value} (h : v.WellFormed) (position : Nat) :
    Yields (fun fields => ∀ x ∈ fields, x.2.WellFormed) (object position v) := by
  cases h with
  | object hnames hvalues => exact .ok hvalues
  | _ => exact .error _

theorem ofNumber_keepsForm (f : Float → Float) : (ofNumber f).KeepsForm :=
  fun _ _ => .behind fun _ => .behind fun x => .ok (.number (f x))

theorem best_wellFormed (better : Float → Float → Bool) (xs : List Float) :
    (best better xs).WellFormed := by
  unfold best
  split
  · exact .number _
  · split
    · exact .null
    · exact .number _

theorem values_keepsForm : HostFunction.KeepsForm values := by
  intro arguments h
  refine .bind (one_wellFormed h) fun v hv => .bind (object_wellFormed hv 0) fun fields hfields => ?_
  refine .ok (.array fun w hw => ?_)
  obtain ⟨x, hx, rfl⟩ := List.mem_map.mp hw
  exact hfields x hx

/-- A row of texts is well-formed. -/
theorem texts_wellFormed (texts : List String) : (Value.array (texts.map .string)).WellFormed := by
  refine .array fun v hv => ?_
  obtain ⟨s, _, rfl⟩ := List.mem_map.mp hv
  exact .string s

theorem keys_keepsForm : HostFunction.KeepsForm keys :=
  fun _ _ => .behind fun _ => .behind fun fields => .ok (texts_wellFormed (Fields.names fields))

theorem split_keepsForm : HostFunction.KeepsForm split :=
  fun _ _ => .behind fun _ => .behind fun s => .behind fun separator =>
    .ok (texts_wellFormed (Text.split s separator))

theorem len_keepsForm : HostFunction.KeepsForm len := by
  refine fun _ _ => .behind fun v => ?_
  cases v with
  | boolean | number => exact .error _
  | _ => exact .ok (.number _)

theorem contains_keepsForm : HostFunction.KeepsForm contains := by
  refine fun arguments _ => .behind fun _ => ?_
  dsimp only
  split
  · exact .behind fun _ => .ok (.boolean _)
  · exact .ok (.boolean _)
  · exact .behind fun _ => .ok (.boolean _)
  · exact .error _

theorem matches_keepsForm : HostFunction.KeepsForm «matches» := by
  refine fun _ _ => .behind fun _ => .behind fun s => .behind fun text => ?_
  split
  · exact .ok (.boolean _)
  · exact .error _

theorem round_keepsForm : HostFunction.KeepsForm round := by
  refine fun _ _ => .behind fun _ => .behind fun x => ?_
  have hrounded : ∀ digits : Int, YieldsWellFormed (if digits < 0 ∨ 28 < digits then
      (.error .digitsOutOfRange : Checked Value) else .ok (.number (Double.roundTo x digits.toNat))) := by
    intro digits
    split
    · exact .error _
    · exact .ok (.number _)
  dsimp only
  split
  · exact .behind hrounded
  · exact hrounded 0

/-- A row of items as one text, whether the separator is given or not. -/
theorem join_keepsForm : HostFunction.KeepsForm join := by
  refine fun _ _ => .behind fun _ => .behind fun items => ?_
  dsimp only
  split
  · exact .behind fun separator => .ok (.string _)
  · exact .ok (.string _)

theorem avg_keepsForm : HostFunction.KeepsForm avg := by
  refine fun _ _ => .behind fun _ => .behind fun xs => ?_
  split
  · exact .ok .null
  · exact .ok (.number _)

theorem num_keepsForm : HostFunction.KeepsForm num := by
  refine fun _ _ => .behind fun v => ?_
  split
  · exact .ok (.number _)
  · exact .ok (.number _)
  · split
    · exact .ok (.number _)
    · exact .error _
  · exact .error _

/-- **The functions of the standard library keep values well-formed.** -/
theorem standard_keepsForm : ∀ x ∈ Library.standardFunctions, x.2.KeepsForm := by
  intro x hx
  simp only [Library.standardFunctions, List.mem_cons, List.not_mem_nil, or_false] at hx
  rcases hx with rfl | rfl | rfl | rfl | rfl | rfl | rfl | rfl | rfl | rfl | rfl | rfl | rfl | rfl | rfl | rfl |
    rfl | rfl | rfl | rfl | rfl | rfl | rfl | rfl | rfl | rfl
  · exact len_keepsForm
  · exact fun _ _ => .behind fun _ => .behind fun _ => .behind fun _ => .behind fun _ => .ok (.string _)
  · exact contains_keepsForm
  · exact fun _ _ => .behind fun _ => .behind fun _ => .behind fun _ => .ok (.boolean _)
  · exact fun _ _ => .behind fun _ => .behind fun _ => .behind fun _ => .ok (.boolean _)
  · exact fun _ _ => .behind fun _ => .behind fun _ => .ok (.string _)
  · exact fun _ _ => .behind fun _ => .behind fun _ => .ok (.string _)
  · exact fun _ _ => .behind fun _ => .behind fun _ => .ok (.string _)
  · exact split_keepsForm
  · exact join_keepsForm
  · exact fun _ _ => .behind fun _ => .behind fun _ => .behind fun _ => .behind fun _ => .ok (.string _)
  · exact matches_keepsForm
  · exact ofNumber_keepsForm _
  · exact ofNumber_keepsForm _
  · exact ofNumber_keepsForm _
  · exact ofNumber_keepsForm _
  · exact round_keepsForm
  · exact fun _ _ => .map _ fun xs => best_wellFormed _ xs
  · exact fun _ _ => .map _ fun xs => best_wellFormed _ xs
  · exact fun _ _ => .behind fun _ => .behind fun _ => .ok (.number _)
  · exact avg_keepsForm
  · exact keys_keepsForm
  · exact values_keepsForm
  · exact fun _ _ => .behind fun _ => .ok (.string _)
  · exact fun _ _ => .behind fun _ => .ok (.string _)
  · exact num_keepsForm

end Functions

/-! ## Handlers -/

/-- **A handler's program that keeps values well-formed**: it binds well-formed values only, and has a well-formed
one in the end, as long as the block gives none but such. -/
def PipeProgram.KeepsForm : PipeProgram → Prop
  | .done outcome => YieldsWellFormed outcome
  | .eval bindings next => (∀ x ∈ bindings, x.2.WellFormed) ∧
      ∀ outcome, YieldsWellFormed outcome → (next outcome).KeepsForm

/-- A handler that keeps values well-formed. -/
def PipeHandler.KeepsForm (handler : PipeHandler) : Prop :=
  ∀ name input, input.WellFormed → (handler name input).KeepsForm

namespace PipeProgram

variable {handler : String} {items : List Value} {item : Value}

theorem value_keepsForm {v : Value} (h : v.WellFormed) : (value v).KeepsForm := .ok h

theorem evalThen_keepsForm {bindings : Fields Value} {next : Value → PipeProgram}
    (hbindings : ∀ x ∈ bindings, x.2.WellFormed) (hnext : ∀ v, v.WellFormed → (next v).KeepsForm) :
    (evalThen bindings next).KeepsForm := by
  refine ⟨hbindings, fun outcome houtcome => ?_⟩
  cases outcome with
  | ok v => exact hnext v (houtcome v rfl)
  | error e => exact .error e

theorem itemBindings_wellFormed (h : item.WellFormed) (index : Nat) :
    ∀ x ∈ itemBindings item index, x.2.WellFormed := by
  intro x hx
  obtain rfl | rfl := List.mem_pair.mp hx
  · exact h
  · exact .number _

theorem withItems_keepsForm {input : Value} {next : List Value → PipeProgram} (hinput : input.WellFormed)
    (hnext : ∀ items, (∀ v ∈ items, v.WellFormed) → (next items).KeepsForm) :
    (withItems handler input next).KeepsForm := by
  cases hinput with
  | array hitems => exact hnext _ hitems
  | _ => exact .error _

theorem evalAll_keepsForm {next : List Value → PipeProgram} (hitems : ∀ v ∈ items, v.WellFormed)
    (hnext : ∀ values, (∀ v ∈ values, v.WellFormed) → (next values).KeepsForm) :
    (evalAll items next).KeepsForm := by
  have hgo : ∀ (items : List Value), (∀ v ∈ items, v.WellFormed) → ∀ (index : Nat) (values : List Value),
      (∀ v ∈ values, v.WellFormed) → (evalAll.go next items index values).KeepsForm := by
    intro items
    induction items with
    | nil => exact fun _ _ values hvalues => hnext _ fun v hv => hvalues v (List.mem_reverse.mp hv)
    | cons item rest ih =>
      intro h index values hvalues
      obtain ⟨hitem, hrest⟩ := List.forall_mem_cons.mp h
      refine evalThen_keepsForm (itemBindings_wellFormed hitem index) fun v hv => ?_
      exact ih hrest (index + 1) (v :: values) (List.forall_mem_cons.mpr ⟨hv, hvalues⟩)
  exact hgo items hitems 0 [] fun v hv => absurd hv List.not_mem_nil

theorem evalUntil_keepsForm {test : Value → Bool} {next : Option Value → PipeProgram}
    (hitems : ∀ v ∈ items, v.WellFormed)
    (hnext : ∀ found : Option Value, (∀ v ∈ found, v.WellFormed) → (next found).KeepsForm) :
    (evalUntil test items next).KeepsForm := by
  have hgo : ∀ (items : List Value), (∀ v ∈ items, v.WellFormed) → ∀ (index : Nat),
      (evalUntil.go test next items index).KeepsForm := by
    intro items
    induction items with
    | nil => exact fun _ index => hnext none fun _ hv => nomatch hv
    | cons item rest ih =>
      intro h index
      obtain ⟨hitem, hrest⟩ := List.forall_mem_cons.mp h
      refine evalThen_keepsForm (itemBindings_wellFormed hitem index) fun v hv => ?_
      by_cases htest : test v
      · rw [if_pos htest]
        exact hnext (some item) fun w hw => Option.some.inj hw ▸ hitem
      · rw [if_neg htest]
        exact ih hrest (index + 1)
  exact hgo items hitems 0

end PipeProgram

namespace PipeHandler

open PipeProgram

variable {items values : List Value}

theorem once_keepsForm : once.KeepsForm := by
  intro name input hinput
  refine evalThen_keepsForm (fun x hx => ?_) fun v hv => value_keepsForm hv
  obtain rfl := List.mem_singleton.mp hx
  exact hinput

/-- A handler that makes something of an array and of the values of the block for all its elements. -/
theorem keepsForm_of_evalAll {finish : List Value → List Value → Value}
    (h : ∀ items values, (∀ v ∈ items, v.WellFormed) → (∀ v ∈ values, v.WellFormed) →
      (finish items values).WellFormed) :
    PipeHandler.KeepsForm fun name input => withItems name input fun items =>
      evalAll items fun values => value (finish items values) := by
  intro name input hinput
  refine withItems_keepsForm hinput fun items hitems => evalAll_keepsForm hitems fun values hvalues => ?_
  exact value_keepsForm (h items values hitems hvalues)

/-- A handler that makes something of the first element that passes a test. -/
theorem keepsForm_of_evalUntil {test : Value → Bool} {finish : Option Value → Value}
    (h : ∀ found : Option Value, (∀ v ∈ found, v.WellFormed) → (finish found).WellFormed) :
    PipeHandler.KeepsForm fun name input => withItems name input fun items =>
      evalUntil test items fun found => value (finish found) := by
  intro name input hinput
  refine withItems_keepsForm hinput fun items hitems => evalUntil_keepsForm hitems fun found hfound => ?_
  exact value_keepsForm (h found hfound)

theorem reduce_keepsForm : reduce.KeepsForm := by
  have hgo : ∀ (items : List Value), (∀ v ∈ items, v.WellFormed) → ∀ (index : Nat) (acc : Value),
      acc.WellFormed → (reduce.go items index acc).KeepsForm := by
    intro items
    induction items with
    | nil => exact fun _ _ acc hacc => value_keepsForm hacc
    | cons item rest ih =>
      intro h index acc hacc
      obtain ⟨hitem, hrest⟩ := List.forall_mem_cons.mp h
      refine evalThen_keepsForm (fun x hx => ?_) fun v hv => ih hrest (index + 1) v hv
      rcases List.mem_append.mp hx with hx | hx
      · exact itemBindings_wellFormed hitem index x hx
      · obtain rfl := List.mem_singleton.mp hx
        exact hacc
  exact fun name input hinput => withItems_keepsForm hinput fun items hitems => hgo items hitems 0 .null .null

theorem mem_of_mem_keepNew {entries : List (Value × Value)} {seen kept : List Value} {v : Value}
    (h : v ∈ keepNew entries seen kept) : v ∈ entries.map Prod.fst ∨ v ∈ kept := by
  induction entries generalizing seen kept with
  | nil => exact .inr (List.mem_reverse.mp h)
  | cons x rest ih =>
    obtain ⟨item, key⟩ := x
    rw [keepNew] at h
    split at h
    · exact (ih h).imp_left (List.mem_cons_of_mem _)
    · rcases ih h with hrest | hkept
      · exact .inl (List.mem_cons_of_mem _ hrest)
      · rcases List.mem_cons.mp hkept with rfl | hkept
        · exact .inl List.mem_cons_self
        · exact .inr hkept

/-- What a value gives to an array into which it is spliced. -/
theorem spliced_wellFormed {v : Value} (h : v.WellFormed) : ∀ w ∈ spliced v, w.WellFormed := by
  unfold spliced
  split
  · cases h with
    | array hitems => exact hitems
  · exact List.forall_mem_singleton.mpr h

/-- An element beside its key is an element. -/
theorem mem_of_mem_zip {v : Value} (h : v ∈ (items.zip values).map Prod.fst) : v ∈ items := by
  obtain ⟨x, hx, rfl⟩ := List.mem_map.mp h
  exact (List.of_mem_zip hx).1

/-- **The groups of an array are an object with distinct names**, the texts of the keys. -/
theorem groups_wellFormed (hitems : ∀ v ∈ items, v.WellFormed) :
    (Value.object (((items.zip values).foldl (fun groups (item, key) =>
      addToGroup groups key.asText item) []).map fun (name, group) => (name, .array group.reverse))).WellFormed := by
  have hgroups : (items.zip values).foldl (fun groups (item, key) => addToGroup groups key.asText item) [] =
      ((items.zip values).map (Prod.map id Value.asText)).foldl (fun groups x => addToGroup groups x.2 x.1) [] := by
    rw [List.foldl_map]
    rfl
  rw [hgroups, foldl_addToGroup, List.map_map]
  refine .object ?_ fun x hx => ?_
  · rw [List.map_map]
    exact (List.map_id _).symm ▸ nodup_eraseDups _
  · obtain ⟨name, _, rfl⟩ := List.mem_map.mp hx
    refine .array fun v hv => hitems v ?_
    rw [List.reverse_reverse] at hv
    obtain ⟨y, hy, rfl⟩ := List.mem_map.mp hv
    obtain ⟨z, hz, rfl⟩ := List.mem_map.mp (List.mem_of_mem_filter hy)
    exact (List.of_mem_zip hz).1

end PipeHandler

/-! ## The standard library -/

/-- **A library that keeps values well-formed.** -/
structure Library.KeepsForm (library : Library) : Prop where
  functions : ∀ name f, library.functions.get? name = some f → f.KeepsForm
  handlers : ∀ name handler, library.handlers.get? name = some handler → handler.KeepsForm

/-- **The standard library keeps values well-formed.** -/
theorem Library.standard_keepsForm : Library.standard.KeepsForm := by
  have hall : ∀ x ∈ Library.standard.handlers, x.2.KeepsForm := by
    intro x hx
    simp only [standard, basic, standardHandlers, List.cons_append, List.nil_append, List.mem_cons,
      List.not_mem_nil, or_false] at hx
    rcases hx with rfl | rfl | rfl | rfl | rfl | rfl | rfl | rfl | rfl | rfl | rfl
    · exact PipeHandler.once_keepsForm
    · exact PipeHandler.keepsForm_of_evalAll fun _ values _ hvalues => .array hvalues
    · refine PipeHandler.keepsForm_of_evalAll fun items values hitems _ => .array fun v hv => ?_
      exact hitems v (PipeHandler.mem_of_mem_zip (List.map_subset _ (List.filter_subset_self _) hv))
    · exact PipeHandler.reduce_keepsForm
    · refine PipeHandler.keepsForm_of_evalUntil fun found hfound => ?_
      cases found with
      | none => exact .null
      | some v => exact hfound v rfl
    · exact PipeHandler.keepsForm_of_evalUntil fun found _ => .boolean _
    · exact PipeHandler.keepsForm_of_evalUntil fun found _ => .boolean _
    · refine PipeHandler.keepsForm_of_evalAll fun items values hitems _ => .array fun v hv => ?_
      rcases PipeHandler.mem_of_mem_keepNew hv with hzip | hnone
      · exact hitems v (PipeHandler.mem_of_mem_zip hzip)
      · cases hnone
    · refine PipeHandler.keepsForm_of_evalAll fun items values hitems _ => .array fun v hv => ?_
      exact hitems v (PipeHandler.mem_of_mem_zip (((List.mergeSort_perm _ _).map _).mem_iff.mp hv))
    · exact PipeHandler.keepsForm_of_evalAll fun items values hitems _ => PipeHandler.groups_wellFormed hitems
    · refine PipeHandler.keepsForm_of_evalAll fun items values _ hvalues => .array fun v hv => ?_
      obtain ⟨w, hw, hmem⟩ := List.mem_flatMap.mp hv
      exact PipeHandler.spliced_wellFormed (hvalues w hw) v hmem
  exact ⟨fun name f h => Functions.standard_keepsForm _ (Fields.mem_of_get? h),
    fun name handler h => hall _ (Fields.mem_of_get? h)⟩

end PipeExpr
