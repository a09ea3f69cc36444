import PipeExpr.Library.Standard
import PipeExpr.Machine.Operator
import PipeExpr.Machine.Access
import PipeExpr.Proofs.Fields

/-!
# Failures that are not the program's

Most errors of a run say something about the values that the program meets.  Three kinds say that the
program itself is broken: a stack that runs empty, an instruction that cannot be read, and a
malformation.  The other ones are *benign* (`RunError.Benign`), and those among them that say nothing
about the room on the stack either are *ordinary* (`RunError.Ordinary`).

Operators, applied by the opcodes that stand for them, and accesses only fail in ordinary ways, whatever
the values are.  A handler of the standard library adds nothing but complaints about its input to the
errors of the block of its stage (`Library.standard_failsWith`).
-/

namespace PipeExpr

/-- An error that does not say that the program is broken. -/
def RunError.Benign : RunError → Prop
  | .stackUnderflow | .decode _ | .malformed _ => False
  | _ => True

/-- An error that says something about values: neither is the program broken nor the stack full. -/
def RunError.Ordinary : RunError → Prop
  | .stackUnderflow | .stackOverflow _ | .decode _ | .malformed _ => False
  | _ => True

theorem RunError.Ordinary.benign {e : RunError} (h : e.Ordinary) : e.Benign := by
  cases e with
  | stackOverflow limit => trivial
  | _ => exact h

/-- An outcome that is a value or an error with a property. -/
def FailsWith {α : Type} (P : RunError → Prop) (x : Except RunError α) : Prop :=
  ∀ e, x = .error e → P e

/-- An outcome that is a value or a benign error. -/
abbrev FailsBenignly {α : Type} (x : Except RunError α) : Prop := FailsWith RunError.Benign x

/-- An outcome that is a value or an ordinary error. -/
abbrev FailsOrdinarily {α : Type} (x : Except RunError α) : Prop := FailsWith RunError.Ordinary x

namespace FailsWith

variable {α β : Type} {P Q : RunError → Prop} {x : Except RunError α} {e : RunError}

theorem ok (v : α) : FailsWith P (.ok v : Except RunError α) := by
  intro e h
  cases h

theorem error (h : P e) : FailsWith P (.error e : Except RunError α) := by
  rintro _ ⟨⟩
  exact h

theorem bind {f : α → Except RunError β} (hx : FailsWith P x) (hf : ∀ v, FailsWith P (f v)) :
    FailsWith P (x >>= f) := by
  cases x with
  | error e => exact error (hx e rfl)
  | ok v => exact hf v

theorem map (f : α → β) (hx : FailsWith P x) : FailsWith P (f <$> x) := by
  cases x with
  | error e => exact error (hx e rfl)
  | ok v => exact ok (f v)

theorem mono (hx : FailsWith P x) (h : ∀ e, P e → Q e) : FailsWith Q x :=
  fun e he => h e (hx e he)

theorem benign (hx : FailsOrdinarily x) : FailsBenignly x := hx.mono fun _ => RunError.Ordinary.benign

end FailsWith

/-! ## Operators -/

namespace Operator

/-- The opcodes of operators that always take both operands, comparisons aside. -/
def binaryOpcodes : List Opcode :=
  [.add, .sub, .mul, .div, .mod, .pow, .bitAnd, .bitOr, .bitXor, .shiftLeft, .shiftRight]

/-- The opcodes of comparisons. -/
def comparisonOpcodes : List Opcode :=
  [.equal, .notEqual, .less, .greater, .lessEqual, .greaterEqual]

/-- The opcodes of prefix operators. -/
def unaryOpcodes : List Opcode := [.negate, .not, .bitNot]

variable {op : Opcode}

theorem add_failsOrdinarily (left right : Value) : FailsOrdinarily (add left right) := by
  unfold add
  split
  · exact .ok _
  · exact .ok _
  · exact .error trivial

theorem arithmetic_failsOrdinarily (h : op ∈ [Opcode.sub, .mul, .div, .mod, .pow]) (x y : Float) :
    FailsOrdinarily (arithmetic op x y) := by
  cases op with
  | sub | mul | pow => exact .ok _
  | div | mod =>
    rw [arithmetic]
    split
    · exact .error trivial
    · exact .ok _
  | _ => exact absurd h (by decide)

theorem integerOperand_failsOrdinarily (op : Opcode) (left right v : Value) :
    FailsOrdinarily (integerOperand op left right v) := by
  unfold integerOperand
  split
  · split
    · exact .ok _
    · exact .error trivial
  · exact .error trivial

theorem bitwise_failsOrdinarily (op : Opcode) (m n : Int) : FailsOrdinarily (bitwise op m n) := by
  unfold bitwise
  split
  · exact .ok _
  · exact .ok _
  · exact .ok _
  · unfold shift
    split
    · exact .error trivial
    · exact .ok _

theorem binary_failsOrdinarily (h : op ∈ binaryOpcodes) (left right : Value) :
    FailsOrdinarily (binary op left right) := by
  cases op with
  | add => exact add_failsOrdinarily left right
  | sub | mul | div | mod | pow =>
    unfold binary
    dsimp only
    split
    · exact (arithmetic_failsOrdinarily (by decide) _ _).map _
    · exact .error trivial
  | bitAnd | bitOr | bitXor | shiftLeft | shiftRight =>
    refine (integerOperand_failsOrdinarily _ left right left).bind fun m => ?_
    refine (integerOperand_failsOrdinarily _ left right right).bind fun n => ?_
    exact (bitwise_failsOrdinarily _ m n).map _
  | _ => exact absurd h (by decide)

theorem unary_failsOrdinarily (h : op ∈ unaryOpcodes) (operand : Value) :
    FailsOrdinarily (unary op operand) := by
  cases op with
  | not => exact .ok _
  | negate =>
    cases operand with
    | number x => exact .ok _
    | _ => exact .error trivial
  | bitNot =>
    cases operand with
    | number x =>
      rw [unary]
      split
      · exact .ok _
      · exact .error trivial
    | _ => exact .error trivial
  | _ => exact absurd h (by decide)

theorem equals_failsOrdinarily (op : Opcode) (left right : Value) :
    FailsOrdinarily (equals op left right) := by
  unfold equals
  split
  · exact .ok _
  · split
    · exact .ok _
    · exact .error trivial

theorem compare_failsOrdinarily (h : op ∈ comparisonOpcodes) (left right : Value) :
    FailsOrdinarily (compare op left right) := by
  cases op with
  | equal => exact equals_failsOrdinarily _ left right
  | notEqual => exact (equals_failsOrdinarily _ left right).map _
  | less | greater | lessEqual | greaterEqual =>
    unfold compare
    dsimp only
    split
    · exact .ok _
    · exact .ok _
    · exact .error trivial
  | _ => exact absurd h (by decide)

end Operator

/-! ## Accesses -/

namespace Access

theorem element_failsOrdinarily (items : List Value) (position : Int) (forgiving : Bool) :
    FailsOrdinarily (element items position forgiving) := by
  unfold element
  split
  · exact .ok _
  · split
    · exact .ok _
    · exact .error trivial

theorem index_failsOrdinarily (target key : Value) (flags : AccessFlags) :
    FailsOrdinarily (index target key flags) := by
  cases target with
  | null =>
    rw [index]
    split
    · exact .ok _
    · exact .error trivial
  | object fields =>
    rw [index]
    split
    · exact .error trivial
    · split
      · exact .ok _
      · split
        · exact .ok _
        · exact .error trivial
  | array items | string s =>
    rw [index]
    cases position? key with
    | none => exact .error trivial
    | some position => exact element_failsOrdinarily _ position _
  | _ => exact .error trivial

theorem sliceBound_failsOrdinarily (part : SlicePart) (v : Value) :
    FailsOrdinarily (sliceBound part v) := by
  unfold sliceBound
  split
  · exact .ok _
  · split
    · exact .ok _
    · exact .error trivial
  · exact .error trivial

theorem sliceStep_failsOrdinarily (v : Value) : FailsOrdinarily (sliceStep v) := by
  unfold sliceStep
  split
  · split
    · exact .error trivial
    · exact (sliceBound_failsOrdinarily _ _).map _
  · exact (sliceBound_failsOrdinarily _ _).map _

theorem slice_failsOrdinarily (target start stop step : Value) (flags : AccessFlags) :
    FailsOrdinarily (slice target start stop step flags) := by
  refine (sliceStep_failsOrdinarily step).bind fun n => ?_
  refine (sliceBound_failsOrdinarily .start start).bind fun first => ?_
  refine (sliceBound_failsOrdinarily .stop stop).bind fun last => ?_
  cases target with
  | null =>
    show FailsOrdinarily (if flags.optional then _ else _)
    split
    · exact .ok _
    · exact .error trivial
  | array items | string s => exact .ok _
  | _ => exact .error trivial

end Access

/-! ## Handlers -/

/-- A handler's program whose errors have a property as long as those of the block do. -/
def PipeProgram.FailsWith (P : RunError → Prop) : PipeProgram → Prop
  | .done outcome => PipeExpr.FailsWith P outcome
  | .eval _ next => ∀ outcome, PipeExpr.FailsWith P outcome → (next outcome).FailsWith P

/-- A handler's program that fails benignly as long as the block does. -/
abbrev PipeProgram.FailsBenignly (prog : PipeProgram) : Prop := prog.FailsWith RunError.Benign

namespace PipeProgram

variable {P : RunError → Prop} {bindings : Fields Value} {handler : String} {items : List Value}

theorem value_failsWith (v : Value) : (value v).FailsWith P := .ok v

theorem evalThen_failsWith {next : Value → PipeProgram} (h : ∀ v, (next v).FailsWith P) :
    (evalThen bindings next).FailsWith P := by
  intro outcome houtcome
  cases outcome with
  | ok v => exact h v
  | error e => exact .error (houtcome e rfl)

theorem withItems_failsWith {input : Value} {next : List Value → PipeProgram}
    (hinput : ∀ kind, P (.pipeInput handler kind)) (h : ∀ items, (next items).FailsWith P) :
    (withItems handler input next).FailsWith P := by
  cases input with
  | array items => exact h items
  | _ => exact .error (hinput _)

theorem evalAll_failsWith {next : List Value → PipeProgram}
    (h : ∀ values, (next values).FailsWith P) : (evalAll items next).FailsWith P := by
  have hgo : ∀ (items : List Value) (index : Nat) (values : List Value),
      (evalAll.go next items index values).FailsWith P := by
    intro items
    induction items with
    | nil => exact fun index values => h _
    | cons item rest ih =>
      exact fun index values => evalThen_failsWith fun v => ih (index + 1) (v :: values)
  exact hgo items 0 []

theorem evalUntil_failsWith {test : Value → Bool} {next : Option Value → PipeProgram}
    (h : ∀ found, (next found).FailsWith P) : (evalUntil test items next).FailsWith P := by
  have hgo : ∀ (items : List Value) (index : Nat),
      (evalUntil.go test next items index).FailsWith P := by
    intro items
    induction items with
    | nil => exact fun index => h none
    | cons item rest ih =>
      intro index
      refine evalThen_failsWith fun v => ?_
      by_cases htest : test v
      · rw [if_pos htest]
        exact h (some item)
      · rw [if_neg htest]
        exact ih (index + 1)
  exact hgo items 0

end PipeProgram

/-- A handler whose errors have a property as long as those of the block do. -/
def PipeHandler.FailsWith (P : RunError → Prop) (handler : PipeHandler) : Prop :=
  ∀ name input, (handler name input).FailsWith P

namespace PipeHandler

open PipeProgram

variable {P : RunError → Prop}

theorem once_failsWith : once.FailsWith P :=
  fun _ _ => evalThen_failsWith value_failsWith

section Arrays
variable (hinput : ∀ name kind, P (.pipeInput name kind))
include hinput

/-- A handler that evaluates the block for every element of an array. -/
theorem failsWith_of_evalAll {finish : List Value → List Value → Value} :
    PipeHandler.FailsWith P fun name input => withItems name input fun items =>
      evalAll items fun values => value (finish items values) := by
  intro name input
  refine withItems_failsWith (hinput name) fun items => ?_
  exact evalAll_failsWith fun values => value_failsWith _

/-- A handler that evaluates the block up to the first element that passes a test. -/
theorem failsWith_of_evalUntil {test : Value → Bool} {finish : Option Value → Value} :
    PipeHandler.FailsWith P fun name input => withItems name input fun items =>
      evalUntil test items fun found => value (finish found) := by
  intro name input
  refine withItems_failsWith (hinput name) fun items => ?_
  exact evalUntil_failsWith fun found => value_failsWith _

theorem reduce_failsWith : reduce.FailsWith P := by
  have hgo : ∀ (items : List Value) (index : Nat) (acc : Value),
      (reduce.go items index acc).FailsWith P := by
    intro items
    induction items with
    | nil => exact fun index acc => value_failsWith acc
    | cons item rest ih => exact fun index acc => evalThen_failsWith fun v => ih (index + 1) v
  exact fun name input => withItems_failsWith (hinput name) fun items => hgo items 0 .null

end Arrays

end PipeHandler

/-- A library whose handlers add no errors without a property to those of the blocks. -/
def Library.FailsWith (P : RunError → Prop) (library : Library) : Prop :=
  ∀ name handler, library.handlers.get? name = some handler → handler.FailsWith P

/-- A library whose handlers fail benignly as long as their blocks do. -/
abbrev Library.FailsBenignly (library : Library) : Prop := library.FailsWith RunError.Benign

/-- **The handlers of the standard library** only fail as the blocks of their stages do, or because their
input is no array. -/
theorem Library.standard_failsWith {P : RunError → Prop}
    (hinput : ∀ name kind, P (.pipeInput name kind)) : Library.standard.FailsWith P := by
  have hall : ∀ x ∈ Library.standard.handlers, x.2.FailsWith P := by
    intro x hx
    simp only [standard, basic, standardHandlers, List.cons_append, List.nil_append, List.mem_cons,
      List.not_mem_nil, or_false] at hx
    rcases hx with rfl | rfl | rfl | rfl | rfl | rfl | rfl | rfl | rfl | rfl | rfl
    · exact PipeHandler.once_failsWith
    · exact PipeHandler.failsWith_of_evalAll hinput
    · exact PipeHandler.failsWith_of_evalAll hinput
    · exact PipeHandler.reduce_failsWith hinput
    · exact PipeHandler.failsWith_of_evalUntil hinput
    · exact PipeHandler.failsWith_of_evalUntil hinput
    · exact PipeHandler.failsWith_of_evalUntil hinput
    · exact PipeHandler.failsWith_of_evalAll hinput
    · exact PipeHandler.failsWith_of_evalAll hinput
    · exact PipeHandler.failsWith_of_evalAll hinput
    · exact PipeHandler.failsWith_of_evalAll hinput
  exact fun name handler h => hall _ (Fields.mem_of_get? h)

theorem Library.standard_failsBenignly : Library.standard.FailsBenignly :=
  standard_failsWith fun _ _ => trivial

end PipeExpr
