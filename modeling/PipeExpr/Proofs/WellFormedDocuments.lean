import PipeExpr.Command.Check
import PipeExpr.Proofs.Documents
import PipeExpr.Proofs.WellFormedRuns

/-!
# Well-formed documents

A document is well-formed if every object in it has each name once.  What is read from text is well-formed, also if
the text has a name twice (`Document.ofText?_wellFormed`), and the bridge between documents and values keeps it in
both directions.  So the checking of an expression goes from well-formed documents to well-formed values and back
(`Command.Check.run_wellFormed`): what the laws of equality ask of values holds of all that come in, and what goes
out has no name twice.
-/

namespace PipeExpr

namespace Document

/-- Whether every object in a document has each name once. -/
inductive WellFormed : Document → Prop where
  | null : WellFormed .null
  | boolean (b : Bool) : WellFormed (.boolean b)
  | integer (n : Int) : WellFormed (.integer n)
  | decimal (x : Float) : WellFormed (.decimal x)
  | string (s : String) : WellFormed (.string s)
  | array {items : List Document} (h : ∀ d ∈ items, WellFormed d) : WellFormed (.array items)
  | object {fields : List (String × Document)} (hnames : (fields.map Prod.fst).Nodup)
    (h : ∀ x ∈ fields, WellFormed x.2) : WellFormed (.object fields)

/-! ## The bridge -/

/-- **Well-formed documents stand for well-formed values.** -/
theorem toValue_wellFormed {d : Document} (h : d.WellFormed) : d.toValue.WellFormed := by
  induction d using Document.induction with
  | null => exact .null
  | boolean b => exact .boolean b
  | integer n => exact .number _
  | decimal x => exact .number x
  | string s => exact .string s
  | array items ih =>
    cases h with
    | array hitems =>
      rw [toValue, itemsToValues_eq_map]
      exact .array (List.forall_mem_map.mpr fun d hd => ih d hd (hitems d hd))
  | object fields ih =>
    cases h with
    | object hnames hvalues =>
      rw [toValue, fieldsToValues_eq_map]
      refine .object ?_ (List.forall_mem_map.mpr fun x hx => ih x hx (hvalues x hx))
      rwa [List.map_map]

theorem ofNumber_wellFormed (x : Float) : (ofNumber x).WellFormed := by
  unfold ofNumber
  split
  · split
    · exact .integer _
    · exact .decimal x
  · exact .null

/-- **Well-formed values have well-formed documents.** -/
theorem ofValue_wellFormed {v : Value} (h : v.WellFormed) : (ofValue v).WellFormed := by
  induction v using Value.induction with
  | null => exact .null
  | boolean b => exact .boolean b
  | number x => exact ofNumber_wellFormed x
  | string s => exact .string s
  | array items ih =>
    cases h with
    | array hitems =>
      rw [ofValue, ofItems_eq_map]
      exact .array (List.forall_mem_map.mpr fun v hv => ih v hv (hitems v hv))
  | object fields ih =>
    cases h with
    | object hnames hvalues =>
      rw [ofValue, ofFields_eq_map]
      refine .object ?_ (List.forall_mem_map.mpr fun x hx => ih x hx (hvalues x hx))
      rwa [List.map_map]

/-- The variables that a well-formed document names. -/
theorem toContext?_wellFormed {d : Document} (h : d.WellFormed) {context : Fields Value}
    (hcontext : d.toContext? = some context) : ∀ x ∈ context, x.2.WellFormed := by
  rcases toContext?_eq_some_iff.mp hcontext with ⟨_, rfl⟩ | ⟨fields, rfl, rfl⟩
  · exact fun _ h => absurd h List.not_mem_nil
  · have hvalue := toValue_wellFormed h
    rw [toValue] at hvalue
    cases hvalue with
    | object _ hvalues => exact hvalues

/-! ## Reading -/

/-- A reader that only reads what has a property. -/
def Reads {α : Type} (P : α → Prop) (m : Read α) : Prop := ∀ cs v rest, m.run cs = some (v, rest) → P v

namespace Reads

variable {α β : Type} {P : α → Prop} {Q : β → Prop} {m : Read α} {f : α → Read β}

theorem pure {v : α} (h : P v) : Reads P (Pure.pure v) := by
  intro cs w rest hrun
  obtain ⟨rfl, _⟩ := Prod.mk.inj (Option.some.inj hrun)
  exact h

theorem failure : Reads P (failure : Read α) := fun _ _ _ hrun => nomatch hrun

theorem bind (hm : Reads P m) (hf : ∀ v, P v → Reads Q (f v)) : Reads Q (m >>= f) := by
  intro cs w rest hrun
  rw [StateT.run_bind] at hrun
  obtain ⟨⟨v, cs'⟩, hfirst, hsecond⟩ := Option.bind_eq_some_iff.mp hrun
  exact hf v (hm cs v cs' hfirst) cs' w rest hsecond

theorem ite {c : Prop} [Decidable c] {n : Read α} (hm : Reads P m) (hn : Reads P n) :
    Reads P (if c then m else n) := by
  split
  · exact hm
  · exact hn

/-- What is read in the end does not depend on what was read before. -/
theorem behind (hf : ∀ v, Reads Q (f v)) : Reads Q (m >>= f) :=
  bind (P := fun _ => True) (fun _ _ _ _ => trivial) fun v _ => hf v

end Reads

theorem ofParts?_wellFormed {negative : Bool} {mantissa : Nat} {exponent : Int} {d : Document}
    (h : ofParts? negative mantissa exponent = some d) : d.WellFormed := by
  obtain ⟨magnitude, _, hd⟩ := Option.bind_eq_some_iff.mp h
  obtain rfl := Option.some.inj hd
  exact .decimal _

/-- Behind the digits in front of its point a number is a decimal, whatever follows. -/
theorem numberTail_reads (negative : Bool) (whole : List Char) :
    Reads WellFormed (numberTail negative whole) := by
  have hparts : ∀ mantissa exponent, Reads WellFormed (ofParts? negative mantissa exponent : Read Document) := by
    intro mantissa exponent cs d rest hrun
    obtain ⟨d', hd, hrest⟩ := Option.bind_eq_some_iff.mp hrun
    obtain ⟨rfl, _⟩ := Prod.mk.inj (Option.some.inj hrest)
    exact ofParts?_wellFormed hd
  refine .behind fun cs => .ite (.behind fun _ => .behind fun fraction => .behind fun _ => .behind fun digits => ?_)
    (.behind fun digits => ?_)
  -- the exponent, with the digits behind the point read or without such
  all_goals
    refine .behind fun cs => ?_
    split
    · exact .behind fun _ => .behind fun power => .ite (.behind fun _ => .pure (.decimal _)) (hparts _ _)
    · exact .behind fun _ => .behind fun power => .ite (.behind fun _ => .pure (.decimal _)) (hparts _ _)
    · exact hparts _ _

theorem number_reads (negative : Bool) : Reads WellFormed (number negative) :=
  .behind fun whole => .behind fun _ => .behind fun _ => .behind fun _ =>
    .ite (numberTail_reads negative whole)
      (.ite (.pure (.integer _)) (.ite (.pure (.decimal _)) (.pure (.integer _))))

theorem scalar_reads (bound : Nat) : Reads WellFormed (scalar bound) := by
  refine .behind fun c => ?_
  split
  · exact .behind fun _ => .pure .null
  · exact .behind fun _ => .pure (.boolean true)
  · exact .behind fun _ => .pure (.boolean false)
  · exact .behind fun s => .pure (.string s)
  · exact .behind fun _ => number_reads true
  · exact number_reads false

section Brackets
variable {α : Type} {P : α → Prop} {item : Read α}

theorem itemsTail_reads (h : Reads P item) (close : Char) (fuel : Nat) {read : List α} (hread : ∀ x ∈ read, P x) :
    Reads (fun xs => ∀ x ∈ xs, P x) (itemsTail item close fuel read) := by
  induction fuel generalizing read with
  | zero => exact .failure
  | succ fuel ih =>
    refine .behind fun _ => .bind h fun x hx => .behind fun _ => .behind fun c => ?_
    have hmore : ∀ y ∈ x :: read, P y := List.forall_mem_cons.mpr ⟨hx, hread⟩
    split
    · exact .pure fun y hy => hmore y (List.mem_reverse.mp hy)
    · exact .behind fun _ => ih hmore

theorem items_reads (h : Reads P item) (bound : Nat) (close : Char) :
    Reads (fun xs => ∀ x ∈ xs, P x) (items bound item close) := by
  refine .behind fun _ => .behind fun _ => .behind fun c => ?_
  split
  · exact .behind fun _ => .pure fun x hx => absurd hx List.not_mem_nil
  · exact itemsTail_reads h close bound fun x hx => absurd hx List.not_mem_nil

theorem entry_reads (h : Reads P item) (bound : Nat) : Reads (fun x => P x.2) (entry bound item) :=
  .behind fun _ => .behind fun _ => .behind fun _ => .behind fun _ => .bind h fun _ hx => .pure hx

end Brackets

/-- **The reader builds objects of entries**, so none has a name twice, at any depth. -/
theorem nested_reads (bound depth : Nat) : Reads WellFormed (nested bound depth) := by
  induction depth with
  | zero => exact scalar_reads bound
  | succ depth ih =>
    refine .behind fun c => ?_
    split
    · exact .bind (items_reads ih bound ']') fun _ hitems => .pure (.array hitems)
    · refine .bind (items_reads (entry_reads ih bound) bound _) fun entries hentries => .pure ?_
      obtain ⟨hnames, hmem⟩ := Fields.ofList_spec entries
      exact .object hnames fun x hx => hentries x (hmem x hx)
    · exact scalar_reads bound

/-- **What is read from text is well-formed.** -/
theorem ofText?_wellFormed {s : String} {d : Document} (h : ofText? s = some d) : d.WellFormed := by
  obtain ⟨⟨d', rest⟩, hread, hrest⟩ := Option.bind_eq_some_iff.mp h
  obtain ⟨_, _, hd⟩ := Option.bind_eq_some_iff.mp hrest
  obtain rfl := Option.some.inj hd
  have hwhole : Reads WellFormed (do
      Read.blanks
      let d ← nested s.toList.length nestingLimit
      Read.blanks
      return d) := .behind fun _ => .bind (nested_reads _ _) fun d hd => .behind fun _ => .pure hd
  exact hwhole _ _ _ hread

end Document

/-! ## Checking -/

namespace Command

/-- The variables in the text of a context are well-formed. -/
theorem readContext_wellFormed (text : Option String) :
    Yields (fun context => ∀ x ∈ context, x.2.WellFormed) (readContext text) := by
  have hnone : Yields (fun context : Fields Value => ∀ x ∈ context, x.2.WellFormed)
      (.ok [] : Except CommandError (Fields Value)) := .ok fun x hx => absurd hx List.not_mem_nil
  unfold readContext
  split
  · exact hnone
  · split
    · exact hnone
    · split
      · exact .error _
      · rename_i d hd
        split
        · exact .error _
        · rename_i context hcontext
          exact .ok (Document.toContext?_wellFormed (Document.ofText?_wellFormed hd) hcontext)

/-- **What a check finds is well-formed**, whatever the texts of the expression and of its context are. -/
theorem Check.run_wellFormed (c : Check) :
    Yields (fun outcome => ∀ d, outcome = .value d → d.WellFormed) c.run := by
  refine .behind fun e => ?_
  split
  · exact .ok nofun
  · refine .bind (readContext_wellFormed c.context) fun context hcontext => ?_
    refine .bind (.mapError (compileExpr_constants e) _) fun p hp => ?_
    refine .bind (.mapError (runProgram_wellFormed hp hcontext) _) fun v hv => .ok fun d hd => ?_
    obtain rfl := Outcome.value.inj hd
    exact Document.ofValue_wellFormed hv

end Command

end PipeExpr
