import PipeExpr.Proofs.Emission
import PipeExpr.Proofs.Nodes
import PipeExpr.Proofs.Switches

/-!
# Why an expression has no program

An expression fails to compile because the program would be too large or nested too deep, or because of a
node that has no code: a call of something that is not a named function, or a pipe below the root
(`Expr.compile_failure`).  This is a post-condition of every step of compilation, on errors alone
(`Compile.FailsFor`), and passes through sequences, so each construct takes one step for each of its own.
An instruction cannot be written only if an operand is too large, as all of them have their operands
(`emit_fails`).

A tree that is read from a source has a known shape (`Expr.Sourced`), with pipes at its root only.  What is
left of the reasons are the limits, and callees that are calls or pipe locals (`parse_compile`).
-/

namespace PipeExpr

/-! ## Reasons -/

/-- Errors that say that a program is too large, or an expression nested too deep. -/
def CompileError.IsLimit : CompileError → Prop
  | .tooManyConstants _ | .tooManyVariables _ | .tooManyElements _ _ | .tooManyBlocks _
  | .nestingTooDeep _ | .encode (.operandOverflow ..) => True
  | .invalidCallee _ | .nestedPipe _ | .encode (.operandCount ..) | .encode (.invalidPatch _) => False

namespace Compile

/-- What an error of compilation says about a tree: it is one of the limits, or a node has no code. -/
inductive Reason (e : Expr) : CompileError → Prop where
  | limit {err : CompileError} (h : err.IsLimit) : Reason e err
  | callee {p : Position} {callee : Expr} {arguments : List Expr}
    (hnode : Expr.NodeOf (.call p callee arguments) e) (hname : calleeName? callee = none) :
    Reason e (.invalidCallee p)
  | pipe {p : Position} {stages : List (Stage Expr)} (hnode : Expr.NodeOf (.pipe p stages) e) :
    Reason e (.nestedPipe p)

theorem Reason.of_child {y e : Expr} {err : CompileError} (h : Reason y err) (hy : y ∈ e.children) :
    Reason e err := by
  cases h with
  | limit h => exact .limit h
  | callee hnode hname => exact .callee (.child hnode hy) hname
  | pipe hnode => exact .pipe (.child hnode hy)

/-- A step of compilation that fails only with errors of one kind. -/
def FailsFor (E : CompileError → Prop) {α : Type} (m : Compile α) : Prop := ∀ t err, m t = .error err → E err

namespace FailsFor

variable {α β : Type} {E E' : CompileError → Prop} {m : Compile α}

theorem pure (a : α) : FailsFor E (Pure.pure a : Compile α) :=
  fun t _ h => nomatch (show Except.ok (a, t) = .error _ from h)

theorem throw {err : CompileError} (h : E err) : FailsFor E (MonadExcept.throw err : Compile α) :=
  fun _ _ hrun => Except.error.inj hrun ▸ h

theorem bind {f : α → Compile β} (h : FailsFor E m) (hf : ∀ a, FailsFor E (f a)) : FailsFor E (m >>= f) := by
  intro t err hrun
  have hrun' : (m t >>= fun y => f y.1 y.2) = .error err := hrun
  cases hm : m t with
  | error e =>
    rw [hm] at hrun'
    exact Except.error.inj hrun' ▸ h t e hm
  | ok y =>
    rw [hm] at hrun'
    exact hf y.1 y.2 err hrun'

theorem mono (h : FailsFor E m) (hE : ∀ err, E err → E' err) : FailsFor E' m :=
  fun t err hrun => hE err (h t err hrun)

end FailsFor

/-! ## Steps of compilation -/

section Steps
variable {E : CompileError → Prop} (hlimit : ∀ err, err.IsLimit → E err)
include hlimit

/-- **An instruction with all its operands** cannot be written only because one of them is too large. -/
theorem emit_fails {op : Opcode} {operands : List Nat} (hcount : operands.length = op.widths.length) :
    FailsFor E (emit op operands) := by
  have herr : ∀ err, Instruction.encode ⟨op, operands⟩ = .error err → E (.encode err) := by
    intro err h
    unfold Instruction.encode at h
    rw [if_neg (not_not_intro hcount)] at h
    split at h
    · exact Except.error.inj h ▸ hlimit _ trivial
    · cases h
  unfold emit
  split
  · exact .throw (herr _ ‹_›)
  · exact .pure _

theorem constantIndex_fails (v : Value) (p : Position) : FailsFor E (constantIndex v p) := by
  refine FailsFor.bind (fun _ _ h => nomatch h) fun t => ?_
  split
  · exact .throw (hlimit _ trivial)
  · exact FailsFor.bind (fun _ _ h => nomatch h) fun _ => .pure _

theorem constant_fails (v : Value) (p : Position) : FailsFor E (constant v p) :=
  (constantIndex_fails hlimit v p).bind fun _ => emit_fails hlimit rfl

theorem reference_fails (name : String) (flags : AccessFlags) (p : Position) :
    FailsFor E (reference name flags p) := by
  unfold reference
  split
  · exact (constantIndex_fails hlimit _ p).bind fun _ => emit_fails hlimit rfl
  · refine FailsFor.bind (fun _ _ h => nomatch h) fun t => ?_
    rcases t.contextVars.slot name with ⟨slot, contextVars⟩
    refine FailsFor.bind (fun _ _ h => nomatch h) fun _ => ?_
    split
    · exact .throw (hlimit _ trivial)
    · exact emit_fails hlimit rfl

theorem count_fails (n : Nat) (p : Position) : FailsFor E (count n p) := by
  unfold count
  split
  · exact .throw (hlimit _ trivial)
  · exact .pure _

theorem deeper_fails (soft : Bool) (depth : Nat) (p : Position) : FailsFor E (deeper soft depth p) := by
  unfold deeper
  split
  · exact .pure _
  split
  · exact .throw (hlimit _ trivial)
  · exact .pure _

omit hlimit in
theorem itemsCode_fails {items : List Expr}
    (h : ∀ e ∈ items, ∀ depth offset, FailsFor E (code e false depth offset)) (depth offset : Nat)
    (done : Assembly) : FailsFor E (itemsCode items depth offset done) := by
  induction items generalizing offset done with
  | nil => exact .pure _
  | cons e rest ih =>
    obtain ⟨he, hrest⟩ := List.forall_mem_cons.mp h
    exact (he depth offset).bind fun item => ih hrest _ _

theorem entriesCode_fails {entries : List (String × Writer)}
    (h : ∀ x ∈ entries, ∀ depth offset, FailsFor E (x.2 depth offset)) (p : Position) (depth offset : Nat)
    (done : Assembly) : FailsFor E (entriesCode p depth offset done entries) := by
  induction entries generalizing offset done with
  | nil => exact .pure _
  | cons x rest ih =>
    obtain ⟨hx, hrest⟩ := List.forall_mem_cons.mp h
    exact (constant_fails hlimit _ p).bind fun key => (hx depth _).bind fun value => ih hrest _ _

theorem boundCode_fails {bound : Option Expr}
    (h : ∀ e ∈ bound, ∀ depth offset, FailsFor E (code e false depth offset)) (p : Position)
    (depth offset : Nat) : FailsFor E (boundCode bound p depth offset) := by
  cases bound with
  | none => exact constant_fails hlimit _ p
  | some e => exact h e rfl depth offset

end Steps

/-! ## Expressions -/

/-- What needs both of its sides is one operation without operands. -/
theorem widths_strict {op : BinaryOp} {c : Opcode} (h : strategy op = .strict c) : c.widths = [] := by
  cases op <;> cases h <;> rfl

/-- **The code of a node fails** with a limit, as the code of a part does, or because it has none. -/
theorem code_fails {E : CompileError → Prop} (hlimit : ∀ err, err.IsLimit → E err) {e : Expr}
    (hparts : ∀ y ∈ e.parts, ∀ soft depth offset, FailsFor E (code y soft depth offset))
    (hcallee : ∀ p callee arguments, e = .call p callee arguments → calleeName? callee = none →
      E (.invalidCallee p))
    (hpipe : ∀ p stages, e = .pipe p stages → E (.nestedPipe p)) (soft : Bool) (depth offset : Nat) :
    FailsFor E (code e soft depth offset) := by
  cases e with
  | number p x | string p s style | boolean p b | null p =>
    exact (deeper_fails hlimit _ _ _).bind fun _ => constant_fails hlimit _ _
  | reference p name optional =>
    exact (deeper_fails hlimit _ _ _).bind fun _ => reference_fails hlimit _ _ _
  | unary p op operand =>
    have hoperand := hparts operand (List.mem_singleton_self operand)
    exact (deeper_fails hlimit _ _ _).bind fun _ => (hoperand _ _ _).bind fun _ =>
      (emit_fails hlimit (by cases op <;> rfl)).bind fun _ => .pure _
  | binary p op left right =>
    have hleft := hparts left (List.mem_cons_self ..)
    have hright := hparts right (List.mem_cons_of_mem left (List.mem_singleton_self right))
    refine (deeper_fails hlimit _ _ _).bind fun depth => ?_
    split
    · rename_i hs
      exact (hleft _ _ _).bind fun _ => (hright _ _ _).bind fun _ =>
        (emit_fails hlimit (by rw [widths_strict hs])).bind fun _ => .pure _
    · rename_i hs
      obtain ⟨decisive, rfl, rfl, _⟩ := Expr.plan_shortCircuit hs
      exact (hleft _ _ _).bind fun _ => (hright _ _ _).bind fun _ =>
        (emit_fails hlimit (by cases decisive <;> rfl)).bind fun _ =>
          (emit_fails hlimit (by cases decisive <;> rfl)).bind fun _ => .pure _
    · exact (hleft _ _ _).bind fun _ => (hright _ _ _).bind fun _ =>
        (emit_fails hlimit (by rfl)).bind fun _ => .pure _
  | conditional p condition consequent alternate =>
    have hall : ∀ y ∈ [condition, consequent, alternate], ∀ soft depth offset,
        FailsFor E (code y soft depth offset) := hparts
    simp only [List.forall_mem_cons] at hall
    obtain ⟨hcondition, hconsequent, halternate, _⟩ := hall
    exact (deeper_fails hlimit _ _ _).bind fun _ => (hcondition _ _ _).bind fun _ =>
      (hconsequent _ _ _).bind fun _ => (emit_fails hlimit (by rfl)).bind fun _ =>
        (halternate _ _ _).bind fun _ => (emit_fails hlimit (by rfl)).bind fun _ => .pure _
  | array p items =>
    exact (deeper_fails hlimit _ _ _).bind fun _ => (count_fails hlimit _ _).bind fun _ =>
      (itemsCode_fails (fun y hy => hparts y hy false) _ _ _).bind fun _ =>
        (emit_fails hlimit (by rfl)).bind fun _ => .pure _
  | object p entries =>
    have hentries : ∀ x ∈ sortEntries (entryWriters entries), ∀ depth offset,
        FailsFor E (x.2 depth offset) := by
      intro x hx
      rw [sortEntries, List.mem_mergeSort, entryWriters_eq_map] at hx
      obtain ⟨y, hy, rfl⟩ := List.mem_map.mp hx
      exact hparts y.2 (List.mem_map_of_mem hy) false
    exact (deeper_fails hlimit _ _ _).bind fun _ => (count_fails hlimit _ _).bind fun _ =>
      (entriesCode_fails hlimit hentries _ _ _ _).bind fun _ =>
        (emit_fails hlimit (by rfl)).bind fun _ => .pure _
  | call p callee arguments =>
    refine (deeper_fails hlimit _ _ _).bind fun _ => ?_
    split
    · exact .throw (hcallee p callee arguments rfl ‹_›)
    · exact (count_fails hlimit _ _).bind fun _ =>
        (itemsCode_fails (fun y hy => hparts y hy false) _ _ _).bind fun _ =>
          (constantIndex_fails hlimit _ _).bind fun _ => (emit_fails hlimit (by rfl)).bind fun _ => .pure _
  | member p target property optional =>
    have htarget := hparts target (List.mem_singleton_self target)
    exact (deeper_fails hlimit _ _ _).bind fun _ => (htarget _ _ _).bind fun _ =>
      (constant_fails hlimit _ _).bind fun _ => (emit_fails hlimit (by rfl)).bind fun _ => .pure _
  | index p target key optional =>
    have htarget := hparts target (List.mem_cons_self ..)
    have hkey := hparts key (List.mem_cons_of_mem target (List.mem_singleton_self key))
    exact (deeper_fails hlimit _ _ _).bind fun _ => (htarget _ _ _).bind fun _ =>
      (hkey _ _ _).bind fun _ => (emit_fails hlimit (by rfl)).bind fun _ => .pure _
  | slice p target start stop step optional =>
    have hall : ∀ y ∈ target :: (start.toList ++ stop.toList ++ step.toList), ∀ soft depth offset,
        FailsFor E (code y soft depth offset) := hparts
    simp only [List.forall_mem_cons, List.forall_mem_append, Option.mem_toList] at hall
    obtain ⟨htarget, ⟨hstart, hstop⟩, hstep⟩ := hall
    exact (deeper_fails hlimit _ _ _).bind fun _ => (htarget _ _ _).bind fun _ =>
      (boundCode_fails hlimit (fun y hy => hstart y hy false) _ _ _).bind fun _ =>
        (boundCode_fails hlimit (fun y hy => hstop y hy false) _ _ _).bind fun _ =>
          (boundCode_fails hlimit (fun y hy => hstep y hy false) _ _ _).bind fun _ =>
            (emit_fails hlimit (by rfl)).bind fun _ => .pure _
  | pipe p stages =>
    exact (deeper_fails hlimit _ _ _).bind fun _ => .throw (hpipe p stages rfl)

/-- **The code of an expression fails** for a reason that stands in it. -/
theorem code_reason (e : Expr) : ∀ soft depth offset, FailsFor (Reason e) (code e soft depth offset) := by
  induction e using Expr.of_parts with
  | h e ih =>
    refine code_fails (fun _ => .limit) (fun y hy soft depth offset => ?_) ?_ ?_
    · exact (ih y hy soft depth offset).mono fun _ hreason => hreason.of_child (e.parts_subset_children hy)
    · rintro p callee arguments rfl hname
      exact .callee .root hname
    · rintro p stages rfl
      exact .pipe .root

/-! ## Programs -/

/-- The expressions of a program: those of its stages, or the expression itself. -/
def bodies : Expr → List Expr
  | .pipe _ stages => stages.map Stage.body
  | e => [e]

/-- Why a program cannot be written: because of a limit, or for a reason in one of its expressions. -/
def Failure (e : Expr) (err : CompileError) : Prop := err.IsLimit ∨ ∃ y ∈ bodies e, Reason y err

section Programs
variable {E : CompileError → Prop} (hlimit : ∀ err, err.IsLimit → E err)
include hlimit

theorem bindAlias_fails (name : Option String) (p : Position) : FailsFor E (bindAlias name p) := by
  cases name with
  | none => exact .pure _
  | some name => exact (constantIndex_fails hlimit _ p).bind fun _ => emit_fails hlimit rfl

theorem aliasOperand_fails (name : Option String) (p : Position) : FailsFor E (aliasOperand name p) := by
  cases name with
  | none => exact .pure _
  | some name => exact constantIndex_fails hlimit _ p

theorem blockCode_fails {stage : Stage Expr} (h : FailsFor E (code stage.body false 0 0)) (k : Nat) :
    FailsFor E (blockCode k stage) := by
  unfold blockCode
  split
  · exact .throw (hlimit _ trivial)
  · exact h

theorem stagesCode_fails {stages : List (Stage Expr)}
    (h : ∀ stage ∈ stages, FailsFor E (code stage.body false 0 0)) (done : Assembly) (blocks : Array Code) :
    FailsFor E (stagesCode done blocks stages) := by
  induction stages generalizing done blocks with
  | nil => exact .pure _
  | cons stage rest ih =>
    obtain ⟨hstage, hrest⟩ := List.forall_mem_cons.mp h
    exact (constantIndex_fails hlimit _ _).bind fun _ => (aliasOperand_fails hlimit _ _).bind fun _ =>
      (blockCode_fails hlimit hstage _).bind fun _ => (emit_fails hlimit (by rfl)).bind fun _ => ih hrest _ _

omit hlimit in
theorem streams_failure (e : Expr) : FailsFor (Failure e) (streams e) := by
  have plain : bodies e = [e] →
      FailsFor (Failure e) (do return (← code e false 0 0, #[]) : Compile (Assembly × Array Code)) := by
    intro hbodies
    have hcode : FailsFor (Failure e) (code e false 0 0) :=
      (code_reason e false 0 0).mono fun err h => .inr ⟨e, hbodies ▸ List.mem_singleton_self e, h⟩
    exact hcode.bind fun _ => .pure _
  cases e with
  | pipe p stages =>
    have hbody : ∀ stage ∈ stages, FailsFor (Failure (.pipe p stages)) (code stage.body false 0 0) :=
      fun stage hstage => (code_reason stage.body false 0 0).mono fun err h =>
        .inr ⟨stage.body, List.mem_map_of_mem hstage, h⟩
    cases stages with
    | nil => exact (constant_fails (fun _ => .inl) _ p).bind fun _ => .pure _
    | cons head rest =>
      obtain ⟨hhead, hrest⟩ := List.forall_mem_cons.mp hbody
      exact hhead.bind fun main => (bindAlias_fails (fun _ => .inl) _ _).bind fun binding =>
        stagesCode_fails (fun _ => .inl) hrest _ _
  | _ => exact plain rfl

end Programs

end Compile

/-- **An expression that does not compile** is too large, or has a node without code. -/
theorem Expr.compile_failure {e : Expr} {err : CompileError} (h : e.compile = .error err) :
    Compile.Failure e err := by
  unfold Expr.compile at h
  split at h
  · rename_i err' hrun
    obtain rfl := Except.error.inj h
    exact Compile.streams_failure e _ _ hrun
  · cases h

/-! ## Trees of sources -/

open Parse

/-- What a tree that is read from a source looks like. -/
structure Expr.Sourced (e : Expr) : Prop where
  /-- There are no pipes below the root. -/
  pipes : ∀ y ∈ e.children, ∀ p stages, ¬ NodeOf (.pipe p stages) y
  /-- A pipe at the root starts with the source, and has an alias if there is nothing else in it.  Aliases are
  dollar signs with at least one character behind them. -/
  chain : ∀ p stages, e = .pipe p stages → ∃ head rest, stages = head :: rest ∧ head.handler = sourceStage ∧
    (rest = [] → head.boundAs.isSome = true) ∧
    ∀ stage ∈ stages, ∀ name ∈ stage.boundAs, ∃ c cs, name.toList = '$' :: c :: cs
  callees : ∀ p callee arguments, NodeOf (.call p callee arguments) e →
    (∃ q name, callee = .reference q name false) ∨ ∃ q inner others, callee = .call q inner others
  positions : ∀ p target i optional, NodeOf (.member p target (.position i) optional) e → 0 ≤ i

section Sources
variable {source : String} {o : Options} {e : Expr}

/-- A source with a tree has stages, the first of which is the source of the chain. -/
theorem stages_of_parse (h : parse source o = .ok e) : ∃ position head rest,
    e = Parse.programOf position (head :: rest) ∧ head.handler = sourceStage ∧
      ∀ stage ∈ head :: rest, Sound o stage := by
  obtain ⟨first, rest, final, stages, htokens, _, hstages, rfl⟩ := parse_eq_ok.mp h
  have hinner := tokens_inner (tokenize_ok htokens)
  obtain ⟨hsound, _⟩ := stages_widen (Nat.le_refl _) htokens hstages
  obtain ⟨s, others, hcut, hhandler⟩ : ∃ s others, segmentsOf first rest final = s :: others ∧
      s.handler = sourceStage := by
    obtain ⟨r, _, ⟨_, hcut⟩ | ⟨_, _, _, _, _, hcut⟩⟩ :=
      cut_cases (.eof final) sourceStage first.position hinner
    · exact ⟨_, _, hcut, rfl⟩
    · exact ⟨_, _, hcut, rfl⟩
  have hformed : s.WellFormed := (cut_wellFormed final sourceStage first.position hinner).1 s
    (by rw [segmentsOf] at hcut; rw [hcut]; exact List.mem_cons_self ..)
  rw [hcut] at hstages
  cases hstages with
  | @cons _ head _ rest hread _ =>
    obtain ⟨_, _, hplace⟩ := Segment.acts o hformed.tokens hformed.stop (Nat.lt_succ_self _)
    rw [hread] at hplace
    exact ⟨_, head, rest, rfl, (hplace head rfl).1.trans hhandler, hsound⟩

theorem Expr.Fits.formed (h : e.Fits o) : e.All Expr.Formed := (Expr.all_and.mp h).2

/-- The nodes of a program other than a pipe at its root are nodes of its stages, and children are. -/
theorem nodeOf_programOf {position : Position} {stages : List (Stage Expr)} {x : Expr}
    (h : Expr.NodeOf x (Parse.programOf position stages)) :
    x = .pipe position stages ∨ ∃ stage ∈ stages, Expr.NodeOf x stage.body := by
  rcases programOf_cases position stages with ⟨stage, rfl, _, hbody⟩ | ⟨_, hpipe⟩
  · rw [hbody] at h
    exact .inr ⟨stage, List.mem_singleton_self stage, h⟩
  · rw [hpipe] at h
    refine (Expr.nodeOf_cases h).imp_right fun ⟨y, hy, hx⟩ => ?_
    obtain ⟨stage, hstage, rfl⟩ := List.mem_map.mp hy
    exact ⟨stage, hstage, hx⟩

/-- The name of an alias is a dollar sign with something behind it. -/
theorem toList_of_isLocalName {name : String} (h : isLocalName name = true) (hlength : 1 < name.length) :
    ∃ c cs, name.toList = '$' :: c :: cs := by
  rw [← String.length_toList] at hlength
  unfold isLocalName at h
  split at h
  · rename_i rest hname
    rw [hname] at hlength
    obtain ⟨c, cs, rfl⟩ := List.exists_cons_of_length_pos (Nat.lt_of_succ_lt_succ hlength)
    exact ⟨c, cs, hname⟩
  · cases h

/-- **Trees of sources are well shaped.** -/
theorem sourced_of_parse (h : parse source o = .ok e) : e.Sourced := by
  obtain ⟨position, head, rest, rfl, hhandler, hsound⟩ := stages_of_parse h
  have hformed : ∀ stage ∈ head :: rest, stage.body.All Expr.Formed :=
    fun stage hstage => (hsound stage hstage).body.formed
  have hnodes : ∀ x, Expr.NodeOf x (Parse.programOf position (head :: rest)) →
      x = .pipe position (head :: rest) ∨ x.Formed := by
    intro x hx
    refine (nodeOf_programOf hx).imp_right fun ⟨stage, hstage, hx⟩ => ?_
    exact hformed stage hstage x hx
  refine ⟨fun y hy p stages hpipe => ?_, fun p stages hroot => ?_, fun p callee arguments hcall => ?_,
    fun p target i optional hmember => ?_⟩
  · rcases programOf_cases position (head :: rest) with ⟨stage, hstages, _, hbody⟩ | ⟨_, hchain⟩
    · rw [hbody] at hy
      exact hformed stage (hstages ▸ List.mem_singleton_self stage) _ (.child hpipe hy)
    · rw [hchain] at hy
      obtain ⟨stage, hstage, rfl⟩ := List.mem_map.mp hy
      exact hformed stage hstage _ hpipe
  · rcases programOf_cases position (head :: rest) with ⟨stage, hstages, _, hbody⟩ | ⟨halias, hchain⟩
    · rw [hbody] at hroot
      have hbodyFormed := hformed stage (hstages ▸ List.mem_singleton_self stage) stage.body .root
      rw [hroot] at hbodyFormed
      exact hbodyFormed.elim
    · rw [hchain] at hroot
      obtain ⟨rfl, rfl⟩ := Expr.pipe.inj hroot
      refine ⟨head, rest, rfl, hhandler, fun hrest => ?_, fun stage hstage name hname => ?_⟩
      · rw [Option.isSome_iff_ne_none]
        exact halias head (by rw [hrest])
      · obtain ⟨hlocal, hlength⟩ := (hsound stage hstage).boundAs name hname
        exact toList_of_isLocalName hlocal hlength
  · have hcallable : callee.isCallable = true := (hnodes _ hcall).resolve_left (by simp)
    cases callee with
    | reference q name optional =>
      obtain rfl : optional = false := by simpa [Expr.isCallable] using hcallable
      exact .inl ⟨q, name, rfl⟩
    | call q inner others => exact .inr ⟨q, inner, others, rfl⟩
    | _ => cases hcallable
  · exact (hnodes _ hmember).resolve_left (by simp) i rfl

/-- The expressions of a tree from a source stand in it, and there are no pipes in them. -/
theorem Expr.Sourced.bodies (h : e.Sourced) {y : Expr} (hy : y ∈ Compile.bodies e) :
    Expr.NodeOf y e ∧ ∀ p stages, ¬ Expr.NodeOf (.pipe p stages) y := by
  have plain : Compile.bodies e = [e] → (∀ p stages, e ≠ .pipe p stages) →
      Expr.NodeOf y e ∧ ∀ p stages, ¬ Expr.NodeOf (.pipe p stages) y := by
    intro hbodies hne
    rw [hbodies] at hy
    obtain rfl := List.mem_singleton.mp hy
    refine ⟨.root, fun p stages hpipe => ?_⟩
    rcases Expr.nodeOf_cases hpipe with hroot | ⟨z, hz, hpipe⟩
    · exact hne p stages hroot.symm
    · exact h.pipes z hz p stages hpipe
  cases e with
  | pipe p stages => exact ⟨.child .root hy, h.pipes y hy⟩
  | _ => exact plain rfl (by rintro _ _ ⟨⟩)

/-- **What is read from a source compiles**, unless it is too large.  Its tree is well shaped, with pipes at
its root only, so the one other reason is a call in it whose callee is a call itself or a pipe local. -/
theorem parse_compile (source : String) (o : Options) (e : Expr) (h : parse source o = .ok e) :
    e.Sourced ∧ ∀ err, e.compile = .error err → err.IsLimit ∨ ∃ p callee arguments,
      err = .invalidCallee p ∧ Expr.NodeOf (.call p callee arguments) e ∧
      ((∃ q name, callee = .reference q name false ∧ isLocalName name = true) ∨
        ∃ q inner others, callee = .call q inner others) := by
  have hsourced := sourced_of_parse h
  refine ⟨hsourced, fun err herr => ?_⟩
  rcases Expr.compile_failure herr with hlimit | ⟨y, hy, hreason⟩
  · exact .inl hlimit
  obtain ⟨hnode, hpipes⟩ := hsourced.bodies hy
  cases hreason with
  | limit hlimit => exact .inl hlimit
  | pipe hpipe => exact absurd hpipe (hpipes _ _)
  | @callee p callee arguments hcall hname =>
    refine .inr ⟨p, callee, arguments, rfl, hcall.trans hnode, ?_⟩
    refine (hsourced.callees p callee arguments (hcall.trans hnode)).imp_left ?_
    rintro ⟨q, name, rfl⟩
    refine ⟨q, name, rfl, ?_⟩
    simpa [Compile.calleeName?] using hname

end Sources

/-- A call of a pipe local is read, and does not compile. -/
theorem parse_compile_local : ∃ e, parse "$f(1)" {} = .ok e ∧ e.Sourced ∧
    e.compile = .error (.invalidCallee ⟨1, 1⟩) ∧
    ∃ callee arguments, Expr.NodeOf (.call ⟨1, 1⟩ callee arguments) e := by
  have hparse : parse "$f(1)" {} = .ok (.call ⟨1, 1⟩ (.reference ⟨1, 1⟩ "$f" false)
      [.number ⟨1, 4⟩ (Numeral.toDouble ⟨['1'], [], 0⟩)]) := by rfl
  have hcompile : (Expr.call ⟨1, 1⟩ (.reference ⟨1, 1⟩ "$f" false)
      [.number ⟨1, 4⟩ (Numeral.toDouble ⟨['1'], [], 0⟩)]).compile = .error (.invalidCallee ⟨1, 1⟩) := by rfl
  obtain ⟨hsourced, hfails⟩ := parse_compile "$f(1)" {} _ hparse
  refine ⟨_, hparse, hsourced, hcompile, ?_⟩
  rcases hfails _ hcompile with hlimit | ⟨p, callee, arguments, hp, hnode, _⟩
  · exact hlimit.elim
  · obtain rfl := CompileError.invalidCallee.inj hp
    exact ⟨callee, arguments, hnode⟩

end PipeExpr
