import PipeExpr.Expr.Basic
import PipeExpr.Machine.Access
import PipeExpr.Machine.Operator
import PipeExpr.Machine.Pipe

/-!
# What expressions mean

The value of an expression by recursion on its tree, without programs, stacks and offsets.  This is
what the results of running compiled programs are compared with.

An expression is evaluated in a `Setting`: functions, context variables and locals.  Operands,
items and arguments are evaluated from left to right, and the first failure is the outcome.  A
conditional evaluates the chosen branch only, a conjunction or disjunction its right side only if
the left one does not decide, and `??` its right side only if the left one is null.  The left side
of `??` is evaluated *softened* (`soft = true`): if it is a variable or a step of access, what
this step misses is null.

A chain is evaluated stage by stage (`evalStages`).  A handler is a tree of questions, so all it
can do with the block of its stage is ask for its value under bindings of its choice
(`PipeProgram.answerBy`); the block sees those bindings in front of the aliases of the stages before.

Trees that have no program (chains inside of expressions, calls of something that is no name) have
no meaning either; `eval` says null for them.
-/

namespace PipeExpr

/-- What an expression is evaluated in. -/
structure Setting where
  /-- The functions in reach. -/
  functions : Fields HostFunction
  /-- The variables of the context. -/
  context : Fields Value
  /-- The pipe locals in reach. -/
  locals : String → Option Value

/-! ## Single steps -/

/-- The value of a prefix operator. -/
def UnaryOp.apply : UnaryOp → Value → Except RunError Value
  | .negate, v => Operator.unary .negate v
  | .not, v => Operator.unary .not v
  | .bitNot, v => Operator.unary .bitNot v

/-- The value of a binary operator on the values of both operands. -/
def BinaryOp.apply (op : BinaryOp) (left right : Value) : Except RunError Value :=
  match op with
  | .add => Operator.binary .add left right
  | .subtract => Operator.binary .sub left right
  | .multiply => Operator.binary .mul left right
  | .divide => Operator.binary .div left right
  | .modulo => Operator.binary .mod left right
  | .power => Operator.binary .pow left right
  | .bitAnd => Operator.binary .bitAnd left right
  | .bitOr => Operator.binary .bitOr left right
  | .bitXor => Operator.binary .bitXor left right
  | .shiftLeft => Operator.binary .shiftLeft left right
  | .shiftRight => Operator.binary .shiftRight left right
  | .equal => .boolean <$> Operator.compare .equal left right
  | .notEqual => .boolean <$> Operator.compare .notEqual left right
  | .lessThan => .boolean <$> Operator.compare .less left right
  | .greaterThan => .boolean <$> Operator.compare .greater left right
  | .lessEqual => .boolean <$> Operator.compare .lessEqual left right
  | .greaterEqual => .boolean <$> Operator.compare .greaterEqual left right
  | .and => .ok (.boolean (left.isTruthy && right.isTruthy))
  | .or => .ok (.boolean (left.isTruthy || right.isTruthy))
  | .nullCoalesce => .ok (if left.isNull then right else left)

/-- The key that a property stands for. -/
def Property.key : Property → Value
  | .name s => .string s
  | .position i => .number (Double.ofInt i)

namespace Setting

/-- The value of a name: that of a local, which has to be bound, or that of a context variable,
which may be missing where `lenient`. -/
def lookup (S : Setting) (name : String) (lenient : Bool) : Except RunError Value :=
  if isLocalName name then
    match S.locals name with
    | some v => .ok v
    | none => .error (.undefinedLocal name)
  else
    match S.context.get? name with
    | some v => .ok v
    | none => if lenient then .ok .null else .error (.undefinedVariable name)

/-- The value of a function on the values of its arguments. -/
def call (S : Setting) (name : String) (arguments : List Value) : Except RunError Value :=
  match S.functions.get? name with
  | none => .error (.unknownFunction name)
  | some f =>
    match f arguments with
    | .ok v => .ok v
    | .error e => .error (.function name e)

end Setting

/-! ## Entries of objects -/

/-- Entries in ascending order of their names; equal names keep their order. -/
def byName {α : Type} (entries : List (String × α)) : List (String × α) :=
  entries.mergeSort fun a b => decide (a.1 ≤ b.1)

/-- The entries whose name does not come up again behind them. -/
def keepLast {α : Type} : List (String × α) → List (String × α)
  | [] => []
  | (name, v) :: rest =>
    if name ∈ rest.map Prod.fst then keepLast rest else (name, v) :: keepLast rest

/-- The values of entries, or the first failure among them. -/
def collect {ε α : Type} : List (String × Except ε α) → Except ε (List (String × α))
  | [] => .ok []
  | (name, outcome) :: rest => do
    let v ← outcome
    let values ← collect rest
    return (name, v) :: values

/-! ## Expressions -/

namespace Expr

mutual

/-- The value of an expression. Where it is `soft`, a variable or a step of access gives null for
what is missing. -/
def eval (S : Setting) : Expr → Bool → Except RunError Value
  | .number _ x, _ => .ok (.number x)
  | .string _ s _, _ => .ok (.string s)
  | .boolean _ b, _ => .ok (.boolean b)
  | .null _, _ => .ok .null
  | .reference _ name optional, soft => S.lookup name (optional || soft)
  | .unary _ op operand, _ => do
    let v ← eval S operand false
    op.apply v
  | .binary _ .and left right, _ => do
    let l ← eval S left false
    if l.isTruthy then
      let r ← eval S right false
      return .boolean r.isTruthy
    else return .boolean false
  | .binary _ .or left right, _ => do
    let l ← eval S left false
    if l.isTruthy then return .boolean true
    else
      let r ← eval S right false
      return .boolean r.isTruthy
  | .binary _ .nullCoalesce left right, _ => do
    let l ← eval S left true
    if l.isNull then eval S right false else return l
  | .binary _ op left right, _ => do
    let l ← eval S left false
    let r ← eval S right false
    op.apply l r
  | .conditional _ condition consequent alternate, _ => do
    let c ← eval S condition false
    if c.isTruthy then eval S consequent false else eval S alternate false
  | .array _ items, _ => do
    let vs ← evalItems S items
    return .array vs
  | .object _ entries, _ => do
    let fields ← collect (byName (evalEntries S entries))
    return .object (keepLast fields)
  | .call _ (.reference _ name _) arguments, _ => do
    let vs ← evalItems S arguments
    S.call name vs
  | .call .., _ => .ok .null
  | .member _ target property optional, soft => do
    let v ← eval S target false
    Access.index v property.key ⟨optional, soft⟩
  | .index _ target key optional, soft => do
    let v ← eval S target false
    let k ← eval S key false
    Access.index v k ⟨optional, soft⟩
  | .slice _ target start stop step optional, _ => do
    let v ← eval S target false
    let a ← evalBound S start
    let b ← evalBound S stop
    let c ← evalBound S step
    Access.slice v a b c ⟨optional, false⟩
  | .pipe .., _ => .ok .null

/-- The values of expressions, or the first failure among them. -/
def evalItems (S : Setting) : List Expr → Except RunError (List Value)
  | [] => .ok []
  | e :: rest => do
    let v ← eval S e false
    let vs ← evalItems S rest
    return v :: vs

/-- The outcome of every entry. -/
def evalEntries (S : Setting) : List (String × Expr) → List (String × Except RunError Value)
  | [] => []
  | (name, e) :: rest => (name, eval S e false) :: evalEntries S rest

/-- The value of a bound of a slice; an omitted one is null. -/
def evalBound (S : Setting) : Option Expr → Except RunError Value
  | none => .ok .null
  | some e => eval S e false

end

end Expr

/-! ## Chains -/

/-- Whether an expression is a chain. -/
def Expr.isPipe : Expr → Bool
  | .pipe .. => true
  | _ => false

/-- What a handler gives if the block of its stage is a function of the bindings. -/
def PipeProgram.answerBy (block : Fields Value → Except RunError Value) :
    PipeProgram → Except RunError Value
  | .done outcome => outcome
  | .eval bindings next => answerBy block (next (block bindings))

/-- The value that the last binding of a name gives it. -/
def latest (bindings : Fields Value) (name : String) : Option Value :=
  Fields.get? bindings.reverse name

/-- Locals where `bindings` hide those further out. -/
def shadow (bindings : Fields Value) (outer : String → Option Value) (name : String) :
    Option Value :=
  (latest bindings name).or (outer name)

/-- The binding that the result of a stage gets. -/
def Stage.binding {ε : Type} (stage : Stage ε) (v : Value) : Fields Value :=
  match stage.boundAs with
  | some name => [(name, v)]
  | none => []

/-- The value of a chain from a stage on, given the aliases bound before, oldest first, and the
value that flows into the stage. -/
def evalStages (library : Library) (context : Fields Value) (aliases : Fields Value)
    (input : Value) : List (Stage Expr) → Except RunError Value
  | [] => .ok input
  | stage :: rest =>
    match library.handlers.get? stage.handler with
    | none => .error (.unknownPipe stage.handler)
    | some handler => do
      let output ← (handler stage.handler input).answerBy fun bindings =>
        stage.body.eval ⟨library.functions, context, shadow bindings (latest aliases)⟩ false
      evalStages library context (aliases ++ stage.binding output) output rest

/-- The value of a chain: that of its head flows through the stages behind it. -/
def evalChain (library : Library) (context : Fields Value) (head : Stage Expr)
    (rest : List (Stage Expr)) : Except RunError Value := do
  let v ← head.body.eval ⟨library.functions, context, fun _ => none⟩ false
  evalStages library context (head.binding v) v rest

end PipeExpr
