import PipeExpr.Library.Standard
import PipeExpr.Proofs.Chains
import PipeExpr.Proofs.Frames
import PipeExpr.Proofs.Sites

/-!
# Handlers on arrays

The block of a stage leaves the machine as it was, so on a machine that stands still its outcome is a function
of the bindings (`Expr.exists_block`), and the outcomes for the elements of an array do not depend on each
other (`itemOutcomes`).  A handler asks for them from the front.  One that needs all of them gets the values
or the first failure; one that stops at a value gets no further than to this value or to the first failure,
whichever comes first.

So two cases are enough: all elements have values, or those in front have values and the next one fails.  In
both cases every handler is an operation on lists (`arrayHandlers_lists`).
-/

namespace PipeExpr

open Machine PipeProgram

/-! ## Elements and values -/

/-- The outcomes of a block for the elements of an array, of which the first one has the index `start`. -/
def itemOutcomes (block : Fields Value → Except RunError Value) (start : Nat) (items : List Value) :
    List (Except RunError Value) :=
  (items.zipIdx start).map fun x => block (itemBindings x.1 x.2)

/-- The left fold of a block over the elements of an array, of which the first one has the index `start`. -/
def foldItems (block : Fields Value → Except RunError Value) (start : Nat) (acc : Value) (items : List Value) :
    Except RunError Value :=
  (items.zipIdx start).foldlM (fun acc x => block (itemBindings x.1 x.2 ++ [("$acc", acc)])) acc

/-- The elements whose value passes a test. -/
def passing (test : Value → Bool) (items values : List Value) : List Value :=
  ((items.zip values).filter (test ·.2)).map Prod.fst

section Passing
variable {test : Value → Bool} {items values : List Value} {item v : Value}

@[simp] theorem passing_nil (items : List Value) : passing test items [] = [] := by
  rw [passing, List.zip_nil_right]
  rfl

theorem passing_cons_of_pos (h : test v = true) :
    passing test (item :: items) (v :: values) = item :: passing test items values := by
  simp [passing, h]

theorem passing_cons_of_neg (h : test v = false) :
    passing test (item :: items) (v :: values) = passing test items values := by
  simp [passing, h]

theorem passing_eq_nil_iff (h : values.length ≤ items.length) :
    passing test items values = [] ↔ values.any test = false := by
  have hvalues : values = (items.zip values).map Prod.snd := (List.map_snd_zip h).symm
  rw [passing, List.map_eq_nil_iff, List.filter_eq_nil_iff]
  conv_rhs => rw [hvalues]
  simp

theorem isSome_head?_passing (h : values.length ≤ items.length) :
    (passing test items values).head?.isSome = values.any test := by
  rw [Bool.eq_iff_iff, List.isSome_head?, ne_eq, passing_eq_nil_iff h, Bool.not_eq_false]

theorem length_passing_eq_iff (h : values.length ≤ items.length) :
    (passing test items values).length = values.length ↔ values.all test = true := by
  have hvalues : values = (items.zip values).map Prod.snd := (List.map_snd_zip h).symm
  have hlength : (items.zip values).length = values.length := by
    rw [List.length_zip, Nat.min_eq_right h]
  rw [passing, List.length_map, ← hlength, List.length_filter_eq_length_iff]
  conv_rhs => rw [hvalues]
  simp

end Passing

/-! ## Questions to a function -/

section Questions
variable {block : Fields Value → Except RunError Value} {items values : List Value} {start : Nat}
  {tail : List (Except RunError Value)}

theorem answerBy_evalThen (bindings : Fields Value) (next : Value → PipeProgram) :
    (evalThen bindings next).answerBy block = block bindings >>= fun v => (next v).answerBy block := by
  rw [evalThen, answerBy]
  cases block bindings <;> rfl

theorem itemOutcomes_cons (item : Value) (items : List Value) (start : Nat) :
    itemOutcomes block start (item :: items) =
      block (itemBindings item start) :: itemOutcomes block (start + 1) items := rfl

/-- The first outcome is that of the first element. -/
theorem itemOutcomes_eq_cons {outcome : Except RunError Value}
    (h : itemOutcomes block start items = outcome :: tail) :
    ∃ item rest, items = item :: rest ∧ block (itemBindings item start) = outcome ∧
      itemOutcomes block (start + 1) rest = tail := by
  cases items with
  | nil => cases h
  | cons item rest =>
    obtain ⟨houtcome, hrest⟩ := List.cons.inj h
    exact ⟨item, rest, rfl, houtcome, hrest⟩

theorem itemOutcomes_eq_nil (h : itemOutcomes block start items = []) : items = [] := by
  cases items with
  | nil => rfl
  | cons item rest => cases h

theorem length_of_itemOutcomes (h : itemOutcomes block start items = values.map .ok ++ tail) :
    items.length = values.length + tail.length := by
  have hlength := congrArg List.length h
  simpa [itemOutcomes] using hlength

theorem le_of_itemOutcomes (h : itemOutcomes block start items = values.map .ok ++ tail) :
    values.length ≤ items.length := by
  rw [length_of_itemOutcomes h]
  exact Nat.le_add_right _ _

/-- A handler that needs all values goes on behind the elements that have some. -/
theorem answerBy_evalAll_go {next : List Value → PipeProgram} (seen : List Value)
    (h : itemOutcomes block start items = values.map .ok ++ tail) : ∃ rest,
      itemOutcomes block (start + values.length) rest = tail ∧
      (evalAll.go next items start seen).answerBy block =
        (evalAll.go next rest (start + values.length) (values.reverse ++ seen)).answerBy block := by
  induction values generalizing items start seen with
  | nil => exact ⟨items, h, rfl⟩
  | cons v values ih =>
    obtain ⟨item, items, rfl, hv, hitems⟩ := itemOutcomes_eq_cons h
    obtain ⟨rest, htail, heq⟩ := ih (v :: seen) hitems
    rw [Nat.add_right_comm start 1, Nat.add_assoc] at htail heq
    refine ⟨rest, htail, ?_⟩
    rw [evalAll.go, evalItem, answerBy_evalThen, hv, List.reverse_cons, List.append_assoc]
    exact heq

/-- A handler that stops at a value that passes a test stops at the first one, or goes on behind the elements
that have values if there is none. -/
theorem answerBy_evalUntil_go {test : Value → Bool} {next : Option Value → PipeProgram}
    (h : itemOutcomes block start items = values.map .ok ++ tail) :
    (∃ item ∈ (passing test items values).head?,
      (evalUntil.go test next items start).answerBy block = (next (some item)).answerBy block) ∨
    passing test items values = [] ∧ ∃ rest, itemOutcomes block (start + values.length) rest = tail ∧
      (evalUntil.go test next items start).answerBy block =
        (evalUntil.go test next rest (start + values.length)).answerBy block := by
  induction values generalizing items start with
  | nil => exact .inr ⟨passing_nil items, items, h, rfl⟩
  | cons v values ih =>
    obtain ⟨item, items, rfl, hv, hitems⟩ := itemOutcomes_eq_cons h
    rw [evalUntil.go, evalItem, answerBy_evalThen, hv]
    cases htest : test v with
    | true =>
      refine .inl ⟨item, by rw [passing_cons_of_pos htest]; rfl, ?_⟩
      exact congrArg (answerBy block) (if_pos htest)
    | false =>
      have hgo : (Except.ok v >>= fun v => (if test v then next (some item)
          else evalUntil.go test next items (start + 1)).answerBy block) =
          (evalUntil.go test next items (start + 1)).answerBy block :=
        congrArg (answerBy block) (if_neg (by rw [htest]; exact Bool.false_ne_true))
      rw [passing_cons_of_neg htest, hgo, List.length_cons, Nat.add_comm values.length, ← Nat.add_assoc]
      exact ih hitems

/-- A handler that needs all values has them. -/
theorem answerBy_evalAll_of_values {next : List Value → PipeProgram}
    (h : itemOutcomes block 0 items = values.map .ok) :
    (evalAll items next).answerBy block = (next values).answerBy block := by
  rw [← List.append_nil (values.map _)] at h
  obtain ⟨rest, hrest, heq⟩ := answerBy_evalAll_go [] h
  obtain rfl := itemOutcomes_eq_nil hrest
  rw [evalAll, heq, evalAll.go, List.append_nil, List.reverse_reverse]

/-- A handler that needs all values fails with the first element that fails. -/
theorem answerBy_evalAll_of_failure {next : List Value → PipeProgram} {e : RunError}
    (h : itemOutcomes block 0 items = values.map .ok ++ .error e :: tail) :
    (evalAll items next).answerBy block = .error e := by
  obtain ⟨rest, hrest, heq⟩ := answerBy_evalAll_go [] h
  obtain ⟨item, rest, rfl, he, _⟩ := itemOutcomes_eq_cons hrest
  rw [evalAll, heq, evalAll.go, evalItem, answerBy_evalThen, he]
  rfl

/-- A handler that stops at a value that passes a test gets the first element with such a value. -/
theorem answerBy_evalUntil_of_values {test : Value → Bool} {next : Option Value → PipeProgram}
    (h : itemOutcomes block 0 items = values.map .ok) :
    (evalUntil test items next).answerBy block = (next (passing test items values).head?).answerBy block := by
  rw [← List.append_nil (values.map _)] at h
  rcases answerBy_evalUntil_go h with ⟨item, hitem, heq⟩ | ⟨hnone, rest, hrest, heq⟩
  · rw [evalUntil, heq, Option.mem_def.mp hitem]
  · obtain rfl := itemOutcomes_eq_nil hrest
    rw [evalUntil, heq, hnone, evalUntil.go]
    rfl

/-- A handler that stops at a value that passes a test fails with the first element that fails, unless a value
in front of it passes. -/
theorem answerBy_evalUntil_of_failure {test : Value → Bool} {next : Option Value → PipeProgram} {e : RunError}
    (h : itemOutcomes block 0 items = values.map .ok ++ .error e :: tail) :
    (evalUntil test items next).answerBy block =
      if values.any test then (next (passing test items values).head?).answerBy block else .error e := by
  have hlength := le_of_itemOutcomes h
  rcases answerBy_evalUntil_go h with ⟨item, hitem, heq⟩ | ⟨hnone, rest, hrest, heq⟩
  · have hany : values.any test = true := by
      by_contra hno
      rw [(passing_eq_nil_iff hlength).mpr (Bool.eq_false_of_not_eq_true hno)] at hitem
      cases hitem
    rw [if_pos hany, evalUntil, heq, Option.mem_def.mp hitem]
  · obtain ⟨item, rest, rfl, he, _⟩ := itemOutcomes_eq_cons hrest
    rw [(passing_eq_nil_iff hlength).mp hnone, if_neg Bool.false_ne_true, evalUntil, heq, evalUntil.go,
      evalItem, answerBy_evalThen, he]
    rfl

theorem foldItems_cons (acc item : Value) : foldItems block start acc (item :: items) =
    block (itemBindings item start ++ [("$acc", acc)]) >>= fun v => foldItems block (start + 1) v items := by
  rw [foldItems, List.zipIdx_cons, List.foldlM_cons]
  rfl

/-- The handler that folds gives the fold. -/
theorem answerBy_reduce_go (acc : Value) :
    (PipeHandler.reduce.go items start acc).answerBy block = foldItems block start acc items := by
  induction items generalizing start acc with
  | nil => rfl
  | cons item items ih =>
    rw [PipeHandler.reduce.go, answerBy_evalThen, foldItems_cons]
    exact congrArg _ (funext fun v => ih v)

end Questions

/-! ## Questions on a machine -/

/-- **The block of a stage is a function of the bindings**, on a machine in whatever state. -/
theorem Expr.exists_block {e : Expr} {p : Program} (h : e.compile = .ok p) {code : Code} (hcode : code ∈ p.blocks)
    {env : Env} (henv : env.program = p) {fuel : Nat} (hfuel : code.size < fuel) (s : State) :
    ∃ block : Fields Value → Except RunError Value, ∀ bindings,
      inScope bindings (execute env fuel code) s = ((block bindings).mapError .error, s) := by
  obtain ⟨main, blocks, t, _, hp, hemits⟩ := Expr.emits_of_compile h
  generalize main.toList = instructions at hp hemits
  have hserves : t.Serves env.program := by
    rw [henv, hp]
    exact ⟨List.prefix_rfl, List.prefix_rfl⟩
  have hmem : code ∈ blocks.map streamOf := by
    rw [hp] at hcode
    exact List.mem_toArray.mp hcode
  obtain ⟨row, hrow, rfl⟩ := List.mem_map.mp hmem
  cases hemits with
  | expr | empty => cases hrow
  | chain hhead hbinding hstages =>
    have hvalid := hbinding.serves.2 ▸ (hhead.serves NameTable.empty_valid).2
    obtain ⟨stage, _, code, t₁, t₂, rfl, hcode, hv₁, hs⟩ :=
      exists_of_forall₂ (hstages.block_code hvalid) row hrow
    have hs₂ : t₂.Serves env.program := hs.trans hserves
    have hemits := Compile.emits_of_code _ hcode
    refine ⟨fun bindings => (stage.body.plan false).within
      (setting env { s with scopes := Fields.ofList bindings :: s.scopes }) env.stackSize s.stack.size,
      fun bindings => ?_⟩
    unfold inScope execute
    rw [hemits.frame_eq hv₁ hs₂ hfuel]
    rfl

/-- Whether a handler, in a state, asks in this state only, and for elements of a row only, of which the first
one has the index `start`. -/
def AsksOnly (run : Machine Value) (s : State) (prog : PipeProgram) (items : List Value) (start : Nat) : Prop :=
  ∀ asked s', Asks run prog s asked s' → s' = s ∧ ∃ x ∈ items.zipIdx start, itemBindings x.1 x.2 <+: asked

section Asks
variable {run : Machine Value} {s : State} {block : Fields Value → Except RunError Value} {item : Value}
  {items front back : List Value} {start : Nat}

theorem asksOnly_done (outcome : Except RunError Value) : AsksOnly run s (.done outcome) items start :=
  fun _ _ h => nomatch h

theorem AsksOnly.evalThen {bindings : Fields Value} {next : Value → PipeProgram}
    (hblock : inScope bindings run s = ((block bindings).mapError .error, s))
    (hitem : itemBindings item start <+: bindings)
    (hnext : ∀ v, block bindings = .ok v → AsksOnly run s (next v) items (start + 1)) :
    AsksOnly run s (.evalThen bindings next) (item :: items) start := by
  intro asked s' h
  rw [List.zipIdx_cons]
  cases h with
  | first => exact ⟨rfl, (item, start), List.mem_cons_self, hitem⟩
  | afterValue hrun h =>
    rw [hblock] at hrun
    obtain ⟨hv, rfl⟩ := Prod.mk.inj hrun
    cases hvalue : block bindings with
    | error e =>
      rw [hvalue] at hv
      cases hv
    | ok v =>
      rw [hvalue] at hv
      obtain rfl := Except.ok.inj hv
      obtain ⟨hstate, x, hx, hasked⟩ := hnext _ hvalue asked s' h
      exact ⟨hstate, x, List.mem_cons_of_mem _ hx, hasked⟩
  | afterError _ h => cases h

/-- A handler that needs all values asks no further than up to an element that fails. -/
theorem asksOnly_evalAll_go
    (hblock : ∀ bindings, inScope bindings run s = ((block bindings).mapError .error, s))
    {next : List Value → PipeProgram} (seen : List Value)
    (hlast : ∃ e, block (itemBindings item (start + front.length)) = .error e) :
    AsksOnly run s (evalAll.go next (front ++ item :: back) start seen) (front ++ [item]) start := by
  induction front generalizing start seen with
  | nil =>
    obtain ⟨e, he⟩ := hlast
    refine .evalThen (hblock _) List.prefix_rfl fun v hv => ?_
    rw [show block (itemBindings item start) = .error e from he] at hv
    cases hv
  | cons first front ih =>
    refine .evalThen (hblock _) List.prefix_rfl fun v _ => ih (v :: seen) ?_
    rwa [List.length_cons, Nat.add_comm front.length, ← Nat.add_assoc] at hlast

/-- A handler that stops at a value asks no further than up to an element with such a value, or one that
fails. -/
theorem asksOnly_evalUntil_go
    (hblock : ∀ bindings, inScope bindings run s = ((block bindings).mapError .error, s))
    {test : Value → Bool} {next : Option Value → PipeProgram} (hnext : ∀ found, ∃ r, next found = .done r)
    (hlast : ∀ v, block (itemBindings item (start + front.length)) = .ok v → test v = true) :
    AsksOnly run s (evalUntil.go test next (front ++ item :: back) start) (front ++ [item]) start := by
  have hfound : ∀ found items start, AsksOnly run s (next found) items start := fun found items start => by
    obtain ⟨r, hr⟩ := hnext found
    rw [hr]
    exact asksOnly_done r
  induction front generalizing start with
  | nil =>
    refine .evalThen (hblock _) List.prefix_rfl fun v hv => ?_
    rw [if_pos (hlast v hv)]
    exact hfound _ _ _
  | cons first front ih =>
    refine .evalThen (hblock _) List.prefix_rfl fun v _ => ?_
    by_cases htest : test v = true
    · rw [if_pos htest]
      exact hfound _ _ _
    · rw [if_neg htest]
      refine ih ?_
      rwa [List.length_cons, Nat.add_comm front.length, ← Nat.add_assoc] at hlast

/-- A fold asks no further than up to an element that fails. -/
theorem asksOnly_reduce_go
    (hblock : ∀ bindings, inScope bindings run s = ((block bindings).mapError .error, s)) (acc last : Value)
    (hfold : foldItems block start acc front = .ok last)
    (hlast : ∃ e, block (itemBindings item (start + front.length) ++ [("$acc", last)]) = .error e) :
    AsksOnly run s (PipeHandler.reduce.go (front ++ item :: back) start acc) (front ++ [item]) start := by
  induction front generalizing start acc with
  | nil =>
    obtain ⟨e, he⟩ := hlast
    obtain rfl := Except.ok.inj hfold
    refine .evalThen (hblock _) (List.prefix_append ..) fun v hv => ?_
    rw [show block (itemBindings item start ++ [("$acc", acc)]) = .error e from he] at hv
    cases hv
  | cons first front ih =>
    refine .evalThen (hblock _) (List.prefix_append ..) fun v hv => ih v ?_ ?_
    · rw [foldItems_cons, hv] at hfold
      exact hfold
    · rwa [List.length_cons, Nat.add_comm front.length, ← Nat.add_assoc] at hlast

end Asks

/-! ## The handlers -/

namespace PipeHandler

/-- The handlers whose results are told here, by name. -/
def onArrays : Fields PipeHandler :=
  [("map", map), ("flatMap", flatMap), ("filter", filter), ("reduce", reduce), ("find", find), ("some", some),
   ("every", every)]

/-- A handler that is used under a name on an input ends with an outcome, and leaves the machine as it was. -/
def Gives (run : Machine Value) (s : State) (name : String) (input : Value) (handler : PipeHandler)
    (outcome : Except RunError Value) : Prop :=
  answer run (handler name input) s = (outcome.mapError .error, s)

/-- What the handlers give for elements that all have values. -/
structure OfValues (gives : PipeHandler → Except RunError Value → Prop) (items values : List Value) :
    Prop where
  map : gives map (.ok (.array values))
  flatMap : gives flatMap (.ok (.array (values.flatMap spliced)))
  filter : gives filter (.ok (.array (passing Value.isTruthy items values)))
  find : gives find (.ok ((passing Value.isTruthy items values).head?.getD .null))
  some : gives some (.ok (.boolean !(passing Value.isTruthy items values).isEmpty))
  every : gives every (.ok (.boolean ((passing Value.isTruthy items values).length == items.length)))

/-- What the handlers give if an element fails, the first one behind those that have `values`. -/
structure OfFailure (gives : PipeHandler → Except RunError Value → Prop) (items values : List Value)
    (e : RunError) : Prop where
  map : gives map (.error e)
  flatMap : gives flatMap (.error e)
  filter : gives filter (.error e)
  find : gives find (if values.any Value.isTruthy then
    .ok ((passing Value.isTruthy items values).head?.getD .null) else .error e)
  some : gives some (if values.any Value.isTruthy then .ok (.boolean true) else .error e)
  every : gives every (if values.all Value.isTruthy then .error e else .ok (.boolean false))

/-- Where the handlers stop: `within` holds of those that ask for no element behind `item`. -/
structure Settles (block : Fields Value → Except RunError Value) (front : List Value) (item : Value)
    (within : PipeHandler → Prop) : Prop where
  failure : ∀ e, block (itemBindings item front.length) = .error e →
    ∀ handler ∈ [map, flatMap, filter, find, some, every], within handler
  truthy : ∀ v, block (itemBindings item front.length) = .ok v → v.isTruthy = true → within find ∧ within some
  falsy : ∀ v, block (itemBindings item front.length) = .ok v → v.isTruthy = false → within every
  fold : ∀ acc e, foldItems block 0 .null front = .ok acc →
    block (itemBindings item front.length ++ [("$acc", acc)]) = .error e → within reduce

section Imp
variable {gives gives' : PipeHandler → Except RunError Value → Prop} {items values : List Value}

theorem OfValues.imp (h : OfValues gives items values)
    (himp : ∀ {handler outcome}, gives handler outcome → gives' handler outcome) : OfValues gives' items values :=
  ⟨himp h.map, himp h.flatMap, himp h.filter, himp h.find, himp h.some, himp h.every⟩

theorem OfFailure.imp {e : RunError} (h : OfFailure gives items values e)
    (himp : ∀ {handler outcome}, gives handler outcome → gives' handler outcome) :
    OfFailure gives' items values e :=
  ⟨himp h.map, himp h.flatMap, himp h.filter, himp h.find, himp h.some, himp h.every⟩

end Imp

section Laws
variable {block : Fields Value → Except RunError Value} {items values : List Value} (name : String)

theorem ofValues (h : itemOutcomes block 0 items = values.map .ok) :
    OfValues (fun handler r => (handler name (.array items)).answerBy block = r) items values where
  map := answerBy_evalAll_of_values h
  flatMap := answerBy_evalAll_of_values h
  filter := answerBy_evalAll_of_values h
  find := answerBy_evalUntil_of_values h
  some := by
    refine (answerBy_evalUntil_of_values h).trans (congrArg (fun b => Except.ok (Value.boolean b)) ?_)
    cases passing Value.isTruthy items values <;> rfl
  every := by
    refine (answerBy_evalUntil_of_values h).trans (congrArg (fun b => Except.ok (Value.boolean b)) ?_)
    have hlength : values.length = items.length := by
      rw [← List.append_nil (values.map _)] at h
      exact (length_of_itemOutcomes h).symm
    rw [← hlength, Bool.eq_iff_iff, Option.isNone_iff_eq_none, List.head?_eq_none_iff, beq_iff_eq,
      passing_eq_nil_iff hlength.le, length_passing_eq_iff hlength.le]
    simp

theorem ofFailure {e : RunError} {rest : List (Except RunError Value)}
    (h : itemOutcomes block 0 items = values.map .ok ++ .error e :: rest) :
    OfFailure (fun handler r => (handler name (.array items)).answerBy block = r) items values e where
  map := answerBy_evalAll_of_failure h
  flatMap := answerBy_evalAll_of_failure h
  filter := answerBy_evalAll_of_failure h
  find := answerBy_evalUntil_of_failure h
  some := by
    refine (answerBy_evalUntil_of_failure h).trans (ite_congr rfl (fun hany => ?_) fun _ => rfl)
    have hfound := (isSome_head?_passing (le_of_itemOutcomes h)).trans hany
    exact congrArg (fun b => Except.ok (Value.boolean b)) hfound
  every := by
    rw [← ite_not]
    refine (answerBy_evalUntil_of_failure h).trans (ite_congr ?_ (fun hany => ?_) fun _ => rfl)
    · simp
    · have hfalsy : values.any (! ·.isTruthy) = true := by simpa using hany
      refine congrArg (fun b => Except.ok (Value.boolean b)) ?_
      rw [Option.isNone_eq_false_iff]
      exact (isSome_head?_passing (le_of_itemOutcomes h)).trans hfalsy

/-- No handler asks further than up to the element that decides. -/
theorem settles {run : Machine Value} {s : State}
    (hblock : ∀ bindings, inScope bindings run s = ((block bindings).mapError .error, s))
    (front : List Value) (item : Value) (back : List Value) :
    Settles block front item fun handler =>
      AsksOnly run s (handler name (.array (front ++ item :: back))) (front ++ [item]) 0 := by
  -- one lemma for the handlers that need all values, one for those that stop at a value
  have hall : ∀ e, block (itemBindings item front.length) = .error e → ∀ next : List Value → PipeProgram,
      AsksOnly run s (evalAll (front ++ item :: back) next) (front ++ [item]) 0 := fun e he next =>
    asksOnly_evalAll_go hblock [] ⟨e, by rwa [Nat.zero_add]⟩
  have huntil : ∀ (test : Value → Bool) (f : Option Value → Value),
      (∀ v, block (itemBindings item front.length) = .ok v → test v = true) →
      AsksOnly run s (evalUntil test (front ++ item :: back) fun found => value (f found)) (front ++ [item]) 0 :=
    fun test f hlast => asksOnly_evalUntil_go hblock (fun found => ⟨_, rfl⟩) (by rwa [Nat.zero_add])
  constructor
  case failure =>
    intro e he
    have hnone : ∀ (test : Value → Bool) v, block (itemBindings item front.length) = .ok v → test v = true :=
      fun test v hv => nomatch he.symm.trans hv
    simp only [List.forall_mem_cons]
    exact ⟨hall e he _, hall e he _, hall e he _, huntil _ _ (hnone _), huntil _ _ (hnone _),
      huntil _ _ (hnone _), fun _ hmem => nomatch hmem⟩
  case truthy =>
    intro v hv htruthy
    have honly : ∀ w, block (itemBindings item front.length) = .ok w → w.isTruthy = true := fun w hw => by
      rwa [← Except.ok.inj (hv.symm.trans hw)]
    exact ⟨huntil _ _ honly, huntil _ _ honly⟩
  case falsy =>
    intro v hv hfalsy
    refine huntil _ _ fun w hw => ?_
    rw [← Except.ok.inj (hv.symm.trans hw), hfalsy]
    rfl
  case fold =>
    intro acc e hacc he
    exact asksOnly_reduce_go hblock .null acc hacc ⟨e, by rwa [Nat.zero_add]⟩

/-- No handler on arrays takes anything else. -/
theorem onArrays_of_not_array {input : Value} (hinput : input.items? = none) :
    ∀ x ∈ onArrays, x.2 name input = .fail (.pipeInput name input.kind) := by
  simp only [onArrays, List.forall_mem_cons]
  cases input with
  | array items => cases hinput
  | null | boolean | number | string | object =>
    exact ⟨rfl, rfl, rfl, rfl, rfl, rfl, rfl, fun _ hmem => nomatch hmem⟩

end Laws

end PipeHandler

open PipeHandler in
/-- **The handlers on arrays are operations on lists.**  Let a block of a compiled program be evaluated on a
machine in any state.  Its outcome is a function `g` of the bindings, and no evaluation changes the state.  If
all elements of an array have values, the handlers give what `OfValues` says; if those in front have values
and the next one fails, what `OfFailure` says; and `reduce` gives the left fold from null.  No handler asks
for an element behind one that fails, and none that looks for a truthy or a falsy value for one behind an
element that has it.  On anything but an array each of them fails with the kind of what it got. -/
theorem arrayHandlers_lists {e : Expr} {p : Program} (h : e.compile = .ok p) {code : Code}
    (hcode : code ∈ p.blocks) {env : Env} (henv : env.program = p) {fuel : Nat} (hfuel : code.size < fuel)
    (s : State) (name : String) :
    ∃ g : Fields Value → Except RunError Value,
      (∀ bindings, inScope bindings (execute env fuel code) s = ((g bindings).mapError .error, s)) ∧
      (∀ items values, itemOutcomes g 0 items = values.map .ok →
        OfValues (Gives (execute env fuel code) s name (.array items)) items values) ∧
      (∀ items values e rest, itemOutcomes g 0 items = values.map .ok ++ .error e :: rest →
        OfFailure (Gives (execute env fuel code) s name (.array items)) items values e) ∧
      (∀ items, Gives (execute env fuel code) s name (.array items) reduce (foldItems g 0 .null items)) ∧
      (∀ front item back, Settles g front item fun handler =>
        AsksOnly (execute env fuel code) s (handler name (.array (front ++ item :: back))) (front ++ [item]) 0) ∧
      ∀ x ∈ onArrays, Library.standard.handlers.get? x.1 = .some x.2 ∧
        ∀ input : Value, input.items? = none →
          Gives (execute env fuel code) s name input x.2 (.error (.pipeInput name input.kind)) := by
  obtain ⟨g, hblock⟩ := Expr.exists_block h hcode henv hfuel s
  have hgives : ∀ {handler : PipeHandler} {input : Value} {outcome : Except RunError Value},
      (handler name input).answerBy g = outcome →
      Gives (execute env fuel code) s name input handler outcome := fun hanswer => by
    rw [Gives, answer_eq hblock, hanswer]
  refine ⟨g, hblock, fun items values hvalues => (ofValues name hvalues).imp hgives,
    fun items values e rest hfailure => (ofFailure name hfailure).imp hgives,
    fun items => hgives (answerBy_reduce_go .null), fun front item back => settles name hblock front item back,
    fun x hx => ⟨?_, fun input hinput => hgives ?_⟩⟩
  · revert x hx
    simp only [onArrays, List.forall_mem_cons]
    exact ⟨rfl, rfl, rfl, rfl, rfl, rfl, rfl, fun _ hmem => nomatch hmem⟩
  · rw [onArrays_of_not_array name hinput x hx]
    rfl

theorem ofList_itemBindings (item : Value) (index : Nat) :
    Fields.ofList (itemBindings item index) = [("$item", item), ("$index", .ofNat index)] := by
  simp [Fields.ofList, itemBindings, Fields.insert]

/-- A chain that looks for an item with a truthy `ok`. -/
def lookingForOk : Expr :=
  .pipe ⟨1, 1⟩ [⟨sourceStage, none, ⟨1, 1⟩, .null ⟨1, 1⟩⟩,
    ⟨"find", none, ⟨1, 6⟩, .member ⟨1, 18⟩ (.reference ⟨1, 13⟩ "$item" false) (.name "ok") false⟩]

open PipeHandler in
/-- An item that is found hides that the next one fails, and one that is falsy hides it as well; all values
are not to be had. -/
theorem lookingForOk_lists : ∃ p code, lookingForOk.compile = .ok p ∧ code ∈ p.blocks ∧ code.size < 64 ∧
    ∀ name, let run := execute ⟨.standard, 4, p, []⟩ 64 code
      let items := .array [.object [("ok", .boolean false)], .object [("ok", .boolean true)], .null]
      answer run (find name items) .initial = (.ok (.object [("ok", .boolean true)]), .initial) ∧
      answer run (every name items) .initial = (.ok (.boolean false), .initial) ∧
      answer run (map name items) .initial = (.error (.error (.nullAccess "'ok'")), .initial) ∧
      AsksOnly run .initial (find name items)
        [.object [("ok", .boolean false)], .object [("ok", .boolean true)]] 0 := by
  have hc : lookingForOk.compile = .ok _ := rfl
  refine ⟨_, _, hc, Array.mem_of_getElem? (i := 0) rfl, by decide, fun name => ?_⟩
  obtain ⟨g, hblock, _, hfailure, _, hstops, _⟩ := @arrayHandlers_lists _ _ hc _
    (Array.mem_of_getElem? (i := 0) rfl) ⟨.standard, 4, _, []⟩ rfl 64 (by decide) .initial name
  have houtcome : ∀ {item : Value} {index : Nat} {r : Except RunError Value},
      (execute ⟨.standard, 4, _, []⟩ 64 _ ⟨#[], [[("$item", item), ("$index", .ofNat index)]], []⟩).1 =
        r.mapError .error → g (itemBindings item index) = r := fun {item index r} hr => by
    have hrun := (Prod.mk.inj (hblock (itemBindings item index))).1
    rw [ofList_itemBindings] at hrun
    exact mapError_inj (hrun.symm.trans hr)
  have hfalsy : g (itemBindings (.object [("ok", .boolean false)]) 0) = .ok (.boolean false) := houtcome rfl
  have htruthy : g (itemBindings (.object [("ok", .boolean true)]) 1) = .ok (.boolean true) := houtcome rfl
  have hfails : g (itemBindings .null 2) = .error (.nullAccess "'ok'") := houtcome rfl
  have houtcomes : itemOutcomes g 0 [.object [("ok", .boolean false)], .object [("ok", .boolean true)], .null] =
      [.boolean false, .boolean true].map .ok ++ .error (.nullAccess "'ok'") :: [] := by
    simp only [itemOutcomes_cons, hfalsy, htruthy, hfails]
    rfl
  have hlaws := hfailure _ _ _ _ houtcomes
  have hasks := hstops [.object [("ok", .boolean false)]] (.object [("ok", .boolean true)]) [.null]
  exact ⟨hlaws.find, hlaws.every, hlaws.map, (hasks.truthy _ htruthy rfl).1⟩

end PipeExpr
