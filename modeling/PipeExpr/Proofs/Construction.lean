import PipeExpr.Proofs.Readers

/-!
# What readers are built of

The readers of the grammar are put together from few primitives: they look at the next token, read it, record an
error or give up with one, go one level deeper, and go on with what comes out of another reader.  What the
primitives keep in every state is kept by all readers, and their text is followed once for it, in one step for
each construct (`Built`).

The readers of one construct under two bounds on its turns are built alike, but for the turns that the first one
does not have.  And of the errors the text tells what the primitives alone do not: they are errors of syntax, at
places that the reader has been given or has found at a token (`Errors`).
-/

namespace PipeExpr

namespace Parse

/-- A reader that goes on with whatever comes out of another one. -/
def attempt {α β : Type} (p : Parse α) (k : Except Failure α → Parse β) : Parse β := fun s => k (p s).1 (p s).2

/-- A sequence goes on with results and gives up with errors. -/
theorem bind_eq_attempt {α β : Type} (p : Parse α) (f : α → Parse β) : (p >>= f) = attempt p fun
    | .ok v => f v
    | .error e => throw e := by
  funext s
  rw [run_bind]
  unfold attempt
  rcases p s with ⟨_ | _, _⟩ <;> rfl

/-- The code of an unexpected token is one of syntax. -/
theorem unexpectedCode_syntactic (token : Token) : (Fault.unexpectedCode token).isLexical = false := by
  unfold Fault.unexpectedCode
  split <;> rfl

/-- What is asked of the errors of a reader: those of syntax at some places have it. -/
structure Errors where
  /-- The places. -/
  place : Position → Prop
  /-- What is asked. -/
  sound : Diagnostic → Prop
  report : ∀ {f : Fault} {position : Position}, f.code.isLexical = false → place position →
    sound (f.report position)

/-- **A reader that is built of primitives, and one that is built alike** but may have more turns.  A token has
a place that an error may be at, and so has all that a reader has been given. -/
inductive Built (E : Errors) : {α : Type} → Parse α → Parse α → Prop where
  | pure {α : Type} (v : α) : Built E (Pure.pure v) (Pure.pure v)
  | exhausted {α : Type} (q : Parse α) : Built E (throw .exhausted) q
  | fault {α : Type} {d : Diagnostic} (sound : E.sound d) :
    Built E (throw (.fault d) : Parse α) (throw (.fault d))
  | record {d : Diagnostic} (sound : E.sound d) :
    Built E (modify (·.record d) : Parse Unit) (modify (·.record d))
  | current {α : Type} {f g : Token → Parse α} (next : ∀ t, E.place t.position → Built E (f t) (g t)) :
    Built E (Parse.current >>= f) (Parse.current >>= g)
  | advance : Built E Parse.advance Parse.advance
  | skip : Built E (modify State.skipToPipe : Parse Unit) (modify State.skipToPipe)
  | nested {α : Type} {p q : Parse α} (o : Options) (inner : Built E p q) :
    Built E (Parse.nested o p) (Parse.nested o q)
  | attempt {α β : Type} {p q : Parse α} {k l : Except Failure α → Parse β} (first : Built E p q)
    (next : ∀ result, (∀ d, result = .error (.fault d) → E.sound d) → Built E (k result) (l result))
    (exhausted : ∀ s, (k (.error .exhausted) s).1 = .error .exhausted) :
    Built E (Parse.attempt p k) (Parse.attempt q l)

variable {E : Errors}

namespace Built
variable {α β : Type} {p q : Parse α}

theorem bind (h : Built E p q) {f g : α → Parse β} (hfg : ∀ v, Built E (f v) (g v)) :
    Built E (p >>= f) (q >>= g) := by
  rw [bind_eq_attempt, bind_eq_attempt]
  refine .attempt h (fun result hresult => ?_) fun _ => rfl
  cases result with
  | ok v => exact hfg v
  | error e =>
    cases e with
    | fault d => exact .fault (hresult d rfl)
    | exhausted => exact .exhausted _

theorem map (f : α → β) (h : Built E p q) : Built E (f <$> p) (f <$> q) := by
  rw [map_eq_pure_bind, map_eq_pure_bind]
  exact h.bind fun _ => .pure _

theorem currentKind : Built E Parse.currentKind Parse.currentKind := .current fun _ _ => .pure _

theorem looksAt (s : Symbol) : Built E (Parse.looksAt s) (Parse.looksAt s) :=
  .current (f := fun t => Pure.pure (t.kind.isSymbol s)) fun _ _ => .pure _

theorem recordAt {position : Position} (h : E.place position) {f : Fault} (hf : f.code.isLexical = false) :
    Built E (Parse.recordAt position f) (Parse.recordAt position f) := .record (E.report hf h)

theorem failAt {position : Position} (h : E.place position) {f : Fault} (hf : f.code.isLexical = false) :
    Built E (Parse.failAt position f : Parse α) (Parse.failAt position f) := .fault (E.report hf h)

theorem fail {f : Fault} (hf : f.code.isLexical = false) : Built E (Parse.fail f : Parse α) (Parse.fail f) :=
  .current fun _ ht => failAt ht hf

theorem unexpected (expected : String) :
    Built E (Parse.unexpected expected : Parse α) (Parse.unexpected expected) :=
  .current fun token _ => fail (unexpectedCode_syntactic token)

theorem unexpectedAs {code : ErrorCode} (hcode : code.isLexical = false) (expected : String) :
    Built E (Parse.unexpectedAs code expected : Parse α) (Parse.unexpectedAs code expected) := by
  refine .current fun token _ => fail ?_
  show (if token.kind.isEof then ErrorCode.unexpectedEof else code).isLexical = false
  split
  · rfl
  · exact hcode

theorem disabled (feature : Feature) :
    Built E (Parse.disabled feature : Parse α) (Parse.disabled feature) := .current fun _ _ => fail rfl

theorem notClosed (bracket : Bracket) {opened : Position} (h : E.place opened) :
    Built E (Parse.notClosed bracket opened : Parse α) (Parse.notClosed bracket opened) := by
  refine .current fun token _ => ?_
  split
  · exact failAt h (by cases bracket <;> rfl)
  · exact fail rfl
  · exact fail rfl
  · exact unexpected _

end Built

/-! ## The grammar -/

theorem close_built (bracket : Bracket) {opened : Position} (h : E.place opened) :
    Built E (close bracket opened) (close bracket opened) := by
  refine .bind (.looksAt _) fun found => ?_
  split
  · exact .advance
  · exact .notClosed _ h

section Lists
variable {α : Type} {item item' : Parse α} (hitem : Built E item item')
include hitem

theorem listItems_built (bracket : Bracket) {opened : Position} (h : E.place opened) :
    ∀ {n m : Nat} (items : List α), n ≤ m →
    Built E (listItems bracket opened item n items) (listItems bracket opened item' m items) := by
  intro n
  induction n with
  | zero => exact fun _ _ => .exhausted _
  | succ n ih =>
    intro m items hle
    obtain ⟨m, rfl⟩ : ∃ k, m = k + 1 := ⟨m - 1, by omega⟩
    have ih : ∀ items, Built E (listItems bracket opened item n items)
        (listItems bracket opened item' m items) := fun items => ih items (by omega)
    rw [listItems, listItems]
    refine .bind (.looksAt _) fun closing => ?_
    split
    · exact .bind .advance fun _ => .pure _
    refine .bind (.looksAt _) fun comma => ?_
    split
    · exact .current fun _ ht => .bind (.recordAt ht rfl) fun _ => .bind .advance fun _ => ih _
    refine .bind .currentKind fun kind => ?_
    split
    · exact .notClosed _ h
    refine hitem.bind fun x => .bind (.looksAt _) fun comma => ?_
    split
    · refine .current fun _ ht => .bind .advance fun _ => .bind (.looksAt _) fun closing => ?_
      split
      · exact .bind (.recordAt ht rfl) fun _ => ih _
      · exact ih _
    refine .bind (.looksAt _) fun closing => ?_
    split
    · exact ih _
    · exact .notClosed _ h

end Lists

section Nested
variable {expr expr' : Parse Expr} (hexpr : Built E expr expr')
include hexpr

/-! ### Primaries -/

theorem objectEntry_built : Built E (objectEntry expr) (objectEntry expr') := by
  refine .current fun token _ => ?_
  split
  · exact .fail rfl
  · refine .bind .advance fun _ => .bind (.looksAt _) fun colon => ?_
    split
    · exact .bind .advance fun _ => hexpr.bind fun _ => .pure _
    · exact .unexpectedAs rfl _

omit hexpr in
theorem leadingDot_built (o : Options) (optional : Bool) (position : Position) :
    Built E (leadingDot o optional position) (leadingDot o optional position) := by
  unfold leadingDot
  split
  · exact .disabled _
  · refine .bind .advance fun _ => .bind .currentKind fun kind => ?_
    split
    · exact .bind .advance fun _ => .pure _
    · exact .unexpectedAs rfl _

theorem parenthesized_built {position : Position} (h : E.place position) :
    Built E (parenthesized expr position) (parenthesized expr' position) := by
  refine .bind .advance fun _ => .bind (.looksAt _) fun closing => ?_
  split
  · exact .fail rfl
  · exact hexpr.bind fun _ => .bind (close_built _ h) fun _ => .pure _

theorem primary_built (o : Options) {n m : Nat} (hle : n ≤ m) :
    Built E (primary o expr n) (primary o expr' m) := by
  refine .current fun token ht => ?_
  dsimp only
  split
  · exact .bind .advance fun _ => .pure _
  · exact .bind .advance fun _ => .pure _
  · exact .bind .advance fun _ => .pure _
  · exact .bind .advance fun _ => .pure _
  · exact .bind .advance fun _ => .pure _
  · exact leadingDot_built o _ _
  · exact leadingDot_built o _ _
  · exact parenthesized_built hexpr ht
  · exact .bind .advance fun _ => .bind (listItems_built hexpr _ ht _ hle) fun _ => .pure _
  · exact .bind .advance fun _ =>
      .bind (listItems_built (objectEntry_built hexpr) _ ht _ hle) fun _ => .pure _
  · exact .unexpected _

/-! ### Postfix chains -/

theorem member_built (target : Expr) (optional : Bool) :
    Built E (member expr target optional) (member expr' target optional) := by
  refine .current fun token ht => ?_
  split
  · exact .bind .advance fun _ => .pure _
  split
  · exact .bind .advance fun _ => hexpr.bind fun _ => .bind (close_built _ ht) fun _ => .pure _
  · exact .unexpectedAs rfl _

/-- A bound of a slice may be missing. -/
theorem sliceBound_built {α : Type} (missing : Bool) {f g : Option Expr → Parse α}
    (hfg : ∀ v, Built E (f v) (g v)) :
    Built E (if missing = true then pure none >>= f else some <$> expr >>= f)
      (if missing = true then pure none >>= g else some <$> expr' >>= g) := by
  split
  · exact .bind (.pure none) hfg
  · exact (hexpr.map some).bind hfg

theorem sliceRest_built (target : Expr) (start : Option Expr) (optional : Bool) {opened : Position}
    (h : E.place opened) :
    Built E (sliceRest expr target start optional opened) (sliceRest expr' target start optional opened) := by
  refine .bind (.looksAt _) fun colon => .bind (.looksAt _) fun closing =>
    sliceBound_built hexpr _ fun stop => .bind (.looksAt _) fun colon => ?_
  split
  · exact .bind .advance fun _ => .bind (.looksAt _) fun closing =>
      sliceBound_built hexpr _ fun step => .bind (close_built _ h) fun _ => .pure _
  · exact .bind (close_built _ h) fun _ => .pure _

theorem brackets_built (target : Expr) (optional : Bool) {opened : Position} (h : E.place opened) :
    Built E (brackets expr target optional opened) (brackets expr' target optional opened) := by
  refine .bind (.looksAt _) fun closing => ?_
  split
  · exact .fail rfl
  refine .bind (.looksAt _) fun colon => ?_
  split
  · exact .bind .advance fun _ => sliceRest_built hexpr _ _ _ h
  refine hexpr.bind fun first => .bind (.looksAt _) fun colon => ?_
  split
  · exact .bind .advance fun _ => sliceRest_built hexpr _ _ _ h
  · exact .bind (close_built _ h) fun _ => .pure _

theorem postfixStep_built (o : Options) {n m : Nat} (hle : n ≤ m) (target : Expr) :
    Built E (postfixStep o expr n target) (postfixStep o expr' m target) := by
  refine .current fun token ht => ?_
  split
  · exact .bind .advance fun _ => (member_built hexpr _ _).map some
  · split
    · exact .bind .advance fun _ => (member_built hexpr _ _).map some
    · exact .disabled _
  · exact .bind .advance fun _ => (brackets_built hexpr _ _ ht).map some
  · split
    · exact .bind .advance fun _ => (brackets_built hexpr _ _ ht).map some
    · exact .disabled _
  · split
    · exact .bind .advance fun _ => .bind (listItems_built hexpr _ ht _ hle) fun _ => .pure _
    · exact .fail rfl
  · exact .pure _

theorem postfixChain_built (o : Options) {n m : Nat} (hle : n ≤ m) : ∀ {k l : Nat} (target : Expr), k ≤ l →
    Built E (postfixChain o expr n k target) (postfixChain o expr' m l target) := by
  intro k
  induction k with
  | zero => exact fun _ _ => .exhausted _
  | succ k ih =>
    intro l target hkl
    obtain ⟨l, rfl⟩ : ∃ i, l = i + 1 := ⟨l - 1, by omega⟩
    rw [postfixChain, postfixChain]
    refine (postfixStep_built hexpr o hle target).bind fun longer => ?_
    cases longer with
    | none => exact .pure _
    | some longer => exact ih longer (by omega)

/-! ### Operators -/

theorem prefixed_built (o : Options) {n m : Nat} (hle : n ≤ m) : ∀ {k l : Nat}, k ≤ l →
    Built E (prefixed o expr n k) (prefixed o expr' m l) := by
  intro k
  induction k with
  | zero => exact fun _ => .exhausted _
  | succ k ih =>
    intro l hkl
    obtain ⟨l, rfl⟩ : ∃ i, l = i + 1 := ⟨l - 1, by omega⟩
    rw [prefixed, prefixed]
    refine .current fun token _ => ?_
    split
    · exact .bind .advance fun _ => .bind (.nested o (ih (by omega))) fun _ => .pure _
    · exact (primary_built hexpr o hle).bind fun _ => postfixChain_built hexpr o hle _ hle

theorem power_built (o : Options) {n m : Nat} (hle : n ≤ m) : ∀ {k l : Nat}, k ≤ l →
    Built E (power o expr n k) (power o expr' m l) := by
  intro k
  induction k with
  | zero => exact fun _ => .exhausted _
  | succ k ih =>
    intro l hkl
    obtain ⟨l, rfl⟩ : ∃ i, l = i + 1 := ⟨l - 1, by omega⟩
    rw [power, power]
    refine (prefixed_built hexpr o hle hle).bind fun base => .bind .currentKind fun kind => ?_
    split
    · exact .bind .advance fun _ => .bind (.nested o (ih (by omega))) fun _ => .pure _
    · exact .pure _

omit hexpr in
theorem operands_built (o : Options) (lvl : Nat) {operand operand' : Parse Expr}
    (hoperand : Built E operand operand') : ∀ {k l : Nat} (left : Expr), k ≤ l →
    Built E (operands o lvl operand k left) (operands o lvl operand' l left) := by
  intro k
  induction k with
  | zero => exact fun _ _ => .exhausted _
  | succ k ih =>
    intro l left hkl
    obtain ⟨l, rfl⟩ : ∃ i, l = i + 1 := ⟨l - 1, by omega⟩
    rw [operands, operands]
    refine .bind .currentKind fun kind => ?_
    split
    · exact .pure _
    split
    · exact .disabled _
    · exact .bind .advance fun _ => hoperand.bind fun _ => ih _ (by omega)

theorem level_built (o : Options) {n m : Nat} (hle : n ≤ m) (lvl : Nat) :
    Built E (level o expr n lvl) (level o expr' m lvl) := by
  induction lvl with
  | zero => exact power_built hexpr o hle hle
  | succ lvl ih =>
    rw [level, level]
    exact ih.bind fun left => operands_built o _ ih left hle

theorem conditional_built (o : Options) {n m : Nat} (hle : n ≤ m) :
    Built E (conditional o expr n) (conditional o expr' m) := by
  refine (level_built hexpr o hle _).bind fun condition => .bind (.looksAt _) fun question => ?_
  split
  · refine .current fun _ ht => .bind .advance fun _ => hexpr.bind fun consequent =>
      .bind (.looksAt _) fun colon => ?_
    split
    · exact .bind .advance fun _ => hexpr.bind fun _ => .pure _
    refine .bind .currentKind fun kind => ?_
    split
    · exact .notClosed _ ht
    · exact .notClosed _ ht
    · exact .notClosed _ ht
    · exact .unexpected _
  · exact .pure _

end Nested

/-- **The readers of expressions are built of the primitives.** -/
theorem expression_built (o : Options) {n m : Nat} (hle : n ≤ m) : ∀ {k l : Nat}, k ≤ l →
    Built E (expression o n k) (expression o m l) := by
  intro k
  induction k with
  | zero => exact fun _ => .exhausted _
  | succ k ih =>
    intro l hkl
    obtain ⟨l, rfl⟩ : ∃ i, l = i + 1 := ⟨l - 1, by omega⟩
    rw [expression, expression]
    exact .nested o (conditional_built (ih (by omega)) o hle)

/-! ### Programs -/

theorem optionalAlias_built : Built E optionalAlias optionalAlias := by
  have hname : Built E aliasName aliasName := by
    refine .bind .currentKind fun kind => ?_
    split
    · split
      · exact .bind .advance fun _ => .pure _
      · exact .fail rfl
    · exact .unexpected _
  refine .bind (.looksAt _) fun found => ?_
  split
  · refine .bind .advance fun _ => hname.bind fun name => .bind (.looksAt _) fun again => ?_
    split
    · exact .fail rfl
    · exact .pure _
  · exact .pure _

section Programs
variable {expr expr' : Parse Expr} (hexpr : Built E expr expr')
include hexpr

/-- An empty segment is an error at its marker. -/
theorem stage_built (handler : String) {position : Position} (h : E.place position) :
    Built E (stage expr handler position) (stage expr' handler position) := by
  have hbody : Built E
      (do let body ← expr; let boundAs ← optionalAlias; return Stage.mk handler boundAs position body)
      (do let body ← expr'; let boundAs ← optionalAlias; return Stage.mk handler boundAs position body) :=
    hexpr.bind fun _ => .bind optionalAlias_built fun _ => .pure _
  unfold stage
  split
  · refine .bind .currentKind fun kind => ?_
    split
    · exact .bind (.failAt h rfl) fun (_ : PUnit) => hbody
    · exact .bind (.failAt h rfl) fun (_ : PUnit) => hbody
    · exact .bind (.failAt h rfl) fun (_ : PUnit) => hbody
    · exact hbody
  · exact hbody

omit hexpr in
/-- What a reader of segments does with the outcome of a stage. -/
def settle : Except Failure (Stage Expr) → Parse (Option (Stage Expr))
  | .ok read => do
    let token ← current
    if token.kind.isEof || token.kind.isPipe then return some read
    else
      modify (·.record ((Fault.unexpected token "end of input or a pipe").report token.position))
      modify State.skipToPipe
      return some read
  | .error (.fault d) => do
    modify (·.record d)
    modify State.skipToPipe
    return none
  | .error .exhausted => throw .exhausted

omit hexpr in
theorem segment_eq_attempt (expr : Parse Expr) (handler : String) (position : Position) :
    segment expr handler position = attempt (stage expr handler position) settle := by
  funext s
  unfold segment attempt
  rcases stage expr handler position s with ⟨(d | _) | read, s'⟩
  · rfl
  · rfl
  · show (if s'.current.kind.isEof || s'.current.kind.isPipe then _ else _) =
      (if s'.current.kind.isEof || s'.current.kind.isPipe then _ else _ : Parse (Option (Stage Expr))) s'
    split <;> rfl

theorem segment_built (handler : String) {position : Position} (h : E.place position) :
    Built E (segment expr handler position) (segment expr' handler position) := by
  rw [segment_eq_attempt, segment_eq_attempt]
  refine .attempt (stage_built hexpr handler h) (fun result hresult => ?_) fun _ => rfl
  cases result with
  | ok read =>
    refine .current fun token ht => ?_
    split
    · exact .pure _
    · have hcode : (Fault.unexpected token "end of input or a pipe").code.isLexical = false :=
        unexpectedCode_syntactic token
      exact .bind (.recordAt ht hcode) fun _ => .bind .skip fun _ => .pure _
  | error e =>
    cases e with
    | fault d => exact .bind (.record (hresult d rfl)) fun _ => .bind .skip fun _ => .pure _
    | exhausted => exact .exhausted _

theorem segments_built (o : Options) : ∀ {n m : Nat} (handler : String) {position : Position}
    (stages : List (Stage Expr)), E.place position → n ≤ m →
      Built E (segments o expr n handler position stages) (segments o expr' m handler position stages) := by
  intro n
  induction n with
  | zero => exact fun _ _ _ _ _ => .exhausted _
  | succ n ih =>
    intro m handler position stages h hle
    obtain ⟨m, rfl⟩ : ∃ k, m = k + 1 := ⟨m - 1, by omega⟩
    rw [segments, segments]
    refine (segment_built hexpr handler h).bind fun read => .current fun token ht => ?_
    dsimp only
    split
    · split
      · exact .bind (.recordAt ht rfl) fun _ => .bind .advance fun _ => ih _ _ ht (by omega)
      · exact .bind .advance fun _ => ih _ _ ht (by omega)
    · exact .pure _

end Programs

end Parse

end PipeExpr
