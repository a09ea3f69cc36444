import PipeExpr.Proofs.Sites

/-!
# What `??` forgives

The left side of `??` is softened: what its last step misses counts as null.  That is an unprovided context
variable, or a member or an element that is missing where the target and the key have values (`Forgivable`).
Nothing else that fails is forgiven, so `left ?? right` has the value of the left side, the outcome of the
right one or the error of the left one, each of them as their programs give it on their own
(`Site.coalesce_forgives`).

What softening changes is shown on the stack (`Site.value_soft`), where nothing is asked about room: the outcome
of an expression stays the same unless its failure is forgiven.
-/

namespace PipeExpr

/-! ## Softened steps -/

/-- An error of an access that misses what it looks for. -/
def RunError.Missing : RunError → Prop
  | .propertyNotFound _ | .indexOutOfRange _ _ => True
  | _ => False

/-- What a softened access gives in place of an outcome. -/
def forgive : Except RunError Value → Except RunError Value
  | .error (.propertyNotFound _) | .error (.indexOutOfRange _ _) => .ok .null
  | r => r

theorem forgive_missing {e : RunError} (h : e.Missing) : forgive (.error e) = .ok .null := by
  cases e <;> first | rfl | exact h.elim

/-- Nothing changes but an error of an access that misses. -/
theorem forgive_cases (x : Except RunError Value) : forgive x = x ∨ ∃ err, x = .error err ∧ err.Missing := by
  cases x with
  | ok v => exact .inl rfl
  | error err =>
    by_cases hmissing : err.Missing
    · exact .inr ⟨err, rfl, hmissing⟩
    · refine .inl ?_
      cases err <;> first | rfl | exact absurd trivial hmissing

/-- **Softening an access forgives what it misses**, and changes nothing else. -/
theorem Access.index_soft (target key : Value) (optional : Bool) :
    Access.index target key ⟨optional, true⟩ = forgive (Access.index target key ⟨optional, false⟩) := by
  have element_soft : ∀ items position, Access.element items position (optional || true) =
      forgive (Access.element items position (optional || false)) := by
    intro items position
    unfold Access.element
    cases (Access.resolve position items.length).bind (items[·]?) with
    | some v => rfl
    | none => cases optional <;> rfl
  cases target with
  | null => cases optional <;> rfl
  | boolean b => rfl
  | number x => rfl
  | object fields =>
    unfold Access.index
    dsimp only
    cases Access.fieldName? key with
    | none => rfl
    | some name =>
      dsimp only
      cases Fields.get? fields name with
      | some v => rfl
      | none => cases optional <;> rfl
  | array items =>
    unfold Access.index
    dsimp only
    cases Access.position? key with
    | none => rfl
    | some position => exact element_soft _ _
  | string s =>
    unfold Access.index
    dsimp only
    cases Access.position? key with
    | none => rfl
    | some position => exact element_soft _ _

/-- **The left sides that `??` forgives**: context variables that are not provided, and accesses that miss
something although their targets and keys have values. -/
inductive Forgivable (evaluates : Expr → Value → Prop) (context : Fields Value) : Expr → Prop where
  | contextVar {p : Position} {name : String} {optional : Bool} (hname : isLocalName name = false)
    (hmissing : context.get? name = none) : Forgivable evaluates context (.reference p name optional)
  | member {p : Position} {target : Expr} {property : Property} {optional : Bool} {v : Value} {e : RunError}
    (htarget : evaluates target v) (hfails : Access.index v property.key ⟨optional, false⟩ = .error e)
    (hmissing : e.Missing) : Forgivable evaluates context (.member p target property optional)
  | index {p : Position} {target key : Expr} {optional : Bool} {v k : Value} {e : RunError}
    (htarget : evaluates target v) (hkey : evaluates key k)
    (hfails : Access.index v k ⟨optional, false⟩ = .error e) (hmissing : e.Missing) :
    Forgivable evaluates context (.index p target key optional)

/-- What softening an access on the values of its parts can change. -/
theorem gather_soft (S : Setting) (size h : Nat) (parts : List Plan) (optional : Bool) :
    (Plan.gather parts (.index ⟨optional, true⟩)).within S size h =
        (Plan.gather parts (.index ⟨optional, false⟩)).within S size h ∨
      ∃ target key err, Plan.withinRow S size h parts = .ok [target, key] ∧
        Access.index target key ⟨optional, false⟩ = .error err ∧ err.Missing ∧
        (Plan.gather parts (.index ⟨optional, false⟩)).within S size h = .error err := by
  rw [Plan.within, Plan.within]
  cases hrow : Plan.withinRow S size h parts with
  | error err => exact .inl rfl
  | ok vs =>
    -- only two values make an access
    rcases vs with _ | ⟨target, _ | ⟨key, _ | ⟨other, rest⟩⟩⟩
    · exact .inl rfl
    · exact .inl rfl
    · rcases forgive_cases (Access.index target key ⟨optional, false⟩) with hsame | ⟨err, hindex, hmissing⟩
      · refine .inl ?_
        show (Access.index target key ⟨optional, true⟩ >>= place size h) =
          (Access.index target key ⟨optional, false⟩ >>= place size h)
        rw [Access.index_soft, hsame]
      · refine .inr ⟨target, key, err, rfl, hindex, hmissing, ?_⟩
        show (Access.index target key ⟨optional, false⟩ >>= place size h) = .error err
        rw [hindex]
        rfl
    · exact .inl rfl

/-! ## At a site -/

/-- A program with other bytes at the end of its main stream. -/
def Program.withEnd (p : Program) (other : Code) : Program :=
  { p with main := p.main.extract 0 (p.main.size - other.size) ++ other }

namespace Site
variable {m : Site} {e l r : Expr} {p : Program}

/-- **Whether `??` forgives a left side at a site**, going by what the programs of its parts give. -/
def Forgives (m : Site) : Expr → Prop := Forgivable (fun e v => m.Gives e (.ok v)) m.context

/-- What a softened variable gives in place of an error. -/
theorem variable_soft (m : Site) (pos : Position) (name : String) (optional : Bool) :
    m.value (.reference pos name optional) true = m.value (.reference pos name optional) false ∨
      (∃ err, m.value (.reference pos name optional) false = .error err) ∧
        m.Forgives (.reference pos name optional) := by
  have hvalue : ∀ soft, m.value (.reference pos name optional) soft =
      (m.setting.lookup name (optional || soft) >>= place m.stackSize m.state.stack.size) := fun _ => rfl
  by_cases hname : isLocalName name = true
  · refine .inl ?_
    rw [hvalue, hvalue]
    simp only [Setting.lookup, if_pos hname]
  · have hcontext : isLocalName name = false := Bool.eq_false_of_not_eq_true hname
    cases hget : m.context.get? name with
    | some v =>
      refine .inl ?_
      rw [hvalue, hvalue]
      simp [Setting.lookup, hcontext, setting, hget]
    | none =>
      cases optional with
      | true => exact .inl rfl
      | false =>
        refine .inr ⟨⟨.undefinedVariable name, ?_⟩, .contextVar hcontext hget⟩
        rw [hvalue]
        simp only [Setting.lookup, hcontext, setting, hget]
        rfl

/-- **Softening changes nothing but a failure that is forgiven.** -/
theorem value_soft (he : e.Compiles) :
    m.value e true = m.value e false ∨ (∃ err, m.value e false = .error err) ∧ m.Forgives e := by
  obtain ⟨p, hp⟩ := he.program
  cases e with
  | reference pos name optional => exact m.variable_soft pos name optional
  | member pos target property optional =>
    have htarget := Expr.compile_member hp
    rcases gather_soft m.setting m.stackSize m.state.stack.size
      [target.plan false, .constant property.key] optional with
      hsame | ⟨v, k, err, hrow, hfails, hmissing, herr⟩
    · exact .inl hsame
    · obtain ⟨hv, hk⟩ := withinRow_pair hrow
      obtain rfl := place_ok hk
      exact .inr ⟨⟨err, herr⟩, .member ((gives_iff htarget _).mpr hv) hfails hmissing⟩
  | index pos target key optional =>
    obtain ⟨htarget, hkey⟩ := Expr.compile_index hp
    rcases gather_soft m.setting m.stackSize m.state.stack.size
      [target.plan false, key.plan false] optional with
      hsame | ⟨v, k, err, hrow, hfails, hmissing, herr⟩
    · exact .inl hsame
    · obtain ⟨hv, hk⟩ := withinRow_pair hrow
      -- the key was evaluated above the target, and on its own it has one place more
      have hk : m.value key false = .ok k := key.within_lower false hk
      exact .inr ⟨⟨err, herr⟩,
        .index ((gives_iff htarget _).mpr hv) ((gives_iff hkey _).mpr hk) hfails hmissing⟩
  | binary pos op left right => cases op <;> exact .inl rfl
  | call pos callee arguments => cases callee <;> exact .inl rfl
  | _ => exact .inl rfl

/-- What has a value has the same one where it is softened. -/
theorem value_soft_ok {v : Value} (he : e.Compiles) (h : m.value e false = .ok v) : m.value e true = .ok v := by
  rcases value_soft (m := m) he with hsame | ⟨⟨err, herr⟩, -⟩
  · exact hsame.trans h
  · cases h.symm.trans herr

/-- **What is forgiven is null where it is softened.** -/
theorem value_soft_null (he : e.Compiles) (hroom : m.HasRoom e) (hf : m.Forgives e) :
    m.value e true = .ok .null := by
  obtain ⟨p, hp⟩ := he.program
  rw [value_eq_eval hroom]
  cases hf with
  | contextVar hname hmissing => simp [Expr.eval, Setting.lookup, hname, setting, hmissing]
  | member hv hfails hmissing =>
    rw [Expr.eval, Gives.eval hv (Expr.compile_member hp)]
    show Access.index _ _ ⟨_, true⟩ = _
    rw [Access.index_soft, hfails, forgive_missing hmissing]
  | index hv hk hfails hmissing =>
    obtain ⟨htarget, hkey⟩ := Expr.compile_index hp
    rw [Expr.eval, Gives.eval hv htarget, Gives.eval hk hkey]
    show Access.index _ _ ⟨_, true⟩ = _
    rw [Access.index_soft, hfails, forgive_missing hmissing]

/-- The main stream up to the code of the right side, with other bytes behind it. -/
theorem toList_withEnd {front back : List Instruction} {t : Tables} {other : Code}
    (hfits : ∀ i ∈ front ++ back, i.Fits) (hsize : other.size = rowSize back) :
    ((programOf (front ++ back) [] t).withEnd other).main.toList = rowBytes front ++ other.toList := by
  have hbytes : (programOf (front ++ back) [] t).main.toList = rowBytes front ++ rowBytes back := by
    show (rowBytes (front ++ back)) = _
    rw [rowBytes, List.flatMap_append]
    rfl
  have hback : (rowBytes back).length = rowSize back :=
    length_rowBytes fun i hi => hfits i (List.mem_append_right front hi)
  have hlength : (programOf (front ++ back) [] t).main.size - other.size = (rowBytes front).length := by
    rw [← Array.length_toList, hbytes, List.length_append, hback, hsize, Nat.add_sub_cancel]
  unfold Program.withEnd
  rw [hlength, Array.toList_append, Array.toList_extract, hbytes]
  simp

/-- Code that ends with a jump to the end of the stream, which is taken. -/
theorem leads_over {env : Machine.Env} {code : Code} {s : Machine.State} {q : Plan} {a : List Instruction}
    {t : Tables} {v : Value} (ha : Emits .empty 0 [q] a t) (hs : t.Serves env.program)
    (hplaced : Placed code 0 (a ++ [⟨.jumpIfNotNull, [code.size]⟩]))
    (hvalue : q.within (Machine.setting env s) env.stackSize s.stack.size = .ok v) (hv : v.isNull = false) :
    Machine.Leads env code s.stack.size 0 s code.size s (.ok [v]) := by
  have hbase : s.stack.size ≤ s.stack.size := Nat.le_refl _
  have hleads := ha.leads NameTable.empty_valid hs hplaced.left hbase
  rw [withinRow_singleton, hvalue] at hleads
  have hjump := hplaced.right
  refine hleads.bind (r := .ok [v]) (f := .ok) (Nat.le_of_lt hjump.lt_size) fun vs hvs => ?_
  obtain rfl := Except.ok.inj hvs
  exact .turn hjump (step_jumpIfNotNull_value hbase (Nat.le_refl _) hv) hjump.lt_size (.done [v])

/-- **Where the left side has a value, the right side is not evaluated**: any bytes may stand in place of its
code. -/
theorem outcome_withEnd {v : Value} (h : Expr.Coalesced l r p)
    (hvalue : m.value l true = .ok v) (hv : v.isNull = false) {q : Program} (hq : r.compile = .ok q)
    {other : Code} (hother : other.size = q.main.size) : m.outcome (p.withEnd other) = .ok v := by
  obtain ⟨q', a, b, t₁, t₂, target, hq', hsize, rfl, ha, hb, htarget, hmax⟩ := h.code
  obtain rfl := Except.ok.inj (hq.symm.trans hq')
  have hvalid := (ha.serves NameTable.empty_valid).2
  have hserves := (hb.serves hvalid).1
  have hfits : ∀ i ∈ a ++ [⟨.jumpIfNotNull, [target]⟩], i.Fits :=
    List.forall_mem_append.mpr ⟨fun i hi => (ha.plain NameTable.empty_valid i hi).fits,
      List.forall_mem_singleton.mpr (fits_of_le rfl hmax)⟩
  have hrow : a ++ ⟨.jumpIfNotNull, [target]⟩ :: b = a ++ [⟨.jumpIfNotNull, [target]⟩] ++ b := by simp
  rw [hrow]
  have hbytes := toList_withEnd (t := t₂)
    (List.forall_mem_append.mpr ⟨hfits, fun i hi => (hb.plain hvalid i hi).fits⟩) (hother.trans hsize)
  generalize hp : (programOf (a ++ [⟨.jumpIfNotNull, [target]⟩] ++ b) [] t₂).withEnd other = p' at hbytes ⊢
  have hend : target = p'.main.size := by
    rw [← Array.length_toList, hbytes, List.length_append, length_rowBytes hfits, Array.length_toList, hother,
      hsize, rowSize_append, htarget]
    rfl
  subst hend
  have hplaced : Placed p'.main 0 (a ++ [⟨.jumpIfNotNull, [p'.main.size]⟩]) :=
    ⟨hfits, by rw [hbytes]; exact List.prefix_append _ _⟩
  have hs : t₁.Serves (Machine.Env.mk m.library m.stackSize p' m.context).program := by
    rw [← hp]
    exact ⟨hserves.constants, hserves.contextVars⟩
  have hrun := leads_over ha hs hplaced hvalue hv
  have hfuel : p'.main.size < p'.fuel := Nat.lt_of_succ_lt (Program.lt_fuel p').1
  exact congrArg Prod.fst (Machine.frame_of_leads (r := .ok v) hfuel hrun)

section Coalesce
variable {pos : Position} {soft : Bool} {v : Value} {err : RunError}

/-- The value of `l ?? r` on a stack. -/
theorem value_coalesce (m : Site) (pos : Position) (l r : Expr) (soft : Bool) :
    m.value (.binary pos .nullCoalesce l r) soft = (do
      let v ← m.value l true
      if v.isNull then m.value r false else return v) := by
  show ((Expr.binary pos .nullCoalesce l r).plan soft).within _ _ _ = _
  rw [Expr.plan_coalesce rfl, Plan.within]
  rfl

/-- The right side counts where the softened left one is null. -/
theorem value_coalesce_null (hl : m.value l true = .ok v) (hv : v.isNull = true) :
    m.value (.binary pos .nullCoalesce l r) soft = m.value r false := by
  rw [value_coalesce, hl]
  exact if_pos hv

theorem value_coalesce_value (hl : m.value l true = .ok v) (hv : v.isNull = false) :
    m.value (.binary pos .nullCoalesce l r) soft = .ok v := by
  rw [value_coalesce, hl]
  exact if_neg (ne_true_of_eq_false hv)

theorem value_coalesce_error (hl : m.value l true = .error err) :
    m.value (.binary pos .nullCoalesce l r) soft = .error err := by
  rw [value_coalesce, hl]
  rfl

/-- **What `??` forgives.**  Both sides of a compiled `l ?? r` compile on their own.  If the left one gives a
value other than null, this is the value of both together, and the right one is not evaluated: whatever stands
in place of its code, the value is the same.  If the left one gives null, they give what the right one gives.
If it fails, they do if its failure is forgiven, and otherwise fail as it does. -/
theorem coalesce_forgives (h : (Expr.binary pos .nullCoalesce l r).compile = .ok p)
    (hroom : m.HasRoom (.binary pos .nullCoalesce l r)) : ∃ pl pr, l.compile = .ok pl ∧ r.compile = .ok pr ∧
    (∀ v, m.outcome pl = .ok v → v.isNull = false → m.outcome p = .ok v ∧
      ∀ other : Code, other.size = pr.main.size → m.outcome (p.withEnd other) = .ok v) ∧
    (∀ v, m.outcome pl = .ok v → v.isNull = true → m.outcome p = m.outcome pr) ∧
    ∀ halt, m.outcome pl = .error halt → (m.Forgives l → m.outcome p = m.outcome pr) ∧
      (¬ m.Forgives l → m.outcome p = .error halt) := by
  have hcode := Expr.compile_coalesce h
  obtain ⟨pl, hl⟩ := hcode.left_compiles.program
  obtain ⟨pr, hr⟩ := hcode.right_compiles.program
  have hleft : m.outcome pl = _ := outcome_eq_value hcode.left_compiles.root hl
  have hright : m.outcome pr = _ := outcome_eq_value hcode.right_compiles.root hr
  have hboth : m.outcome p = _ := outcome_eq_value rfl h
  refine ⟨pl, pr, hl, hr, ?_⟩
  rw [hleft, hright, hboth]
  refine ⟨fun v hv hnull => ?_, fun v hv hnull => ?_, fun halt hfails => ⟨fun hf => ?_, fun hf => ?_⟩⟩
  · have hvalue := value_soft_ok hcode.left_compiles (mapError_eq_ok hv)
    rw [value_coalesce_value hvalue hnull]
    exact ⟨rfl, fun other hother => outcome_withEnd hcode hvalue hnull hr hother⟩
  · rw [value_coalesce_null (value_soft_ok hcode.left_compiles (mapError_eq_ok hv)) hnull]
  · rw [value_coalesce_null (value_soft_null hcode.left_compiles hroom.left hf) rfl]
  · rcases value_soft (m := m) hcode.left_compiles with hsame | ⟨-, hf'⟩
    · cases hvalue : m.value l false with
      | ok v =>
        rw [hvalue] at hfails
        cases hfails
      | error err =>
        rw [hvalue] at hfails
        rw [value_coalesce_error (hsame.trans hvalue)]
        exact hfails
    · exact absurd hf' hf

end Coalesce

/-- A machine on which nothing has happened. -/
def fresh : Site := ⟨.basic, 2, [], .initial⟩

/-- A position behind the end of an array: `[false].1`. -/
def outside : Expr := .member ⟨1, 8⟩ (.array ⟨1, 1⟩ [.boolean ⟨1, 2⟩ false]) (.position 1) false

/-- Where an element is missing, the right side comes in its place: `[false].1 ?? true`. -/
theorem coalesce_outside : ∃ p,
    (Expr.binary ⟨1, 8⟩ .nullCoalesce outside (.boolean ⟨1, 14⟩ true)).compile = .ok p ∧
    fresh.Gives outside (.error (.indexOutOfRange 1 1)) ∧ fresh.outcome p = .ok (.boolean true) := by
  have hc : (Expr.binary ⟨1, 8⟩ .nullCoalesce outside (.boolean ⟨1, 14⟩ true)).compile = .ok _ := rfl
  obtain ⟨pl, pr, hl, hr, -, -, hfails⟩ := coalesce_forgives (m := fresh) hc (by decide)
  have htarget : fresh.Gives (.array ⟨1, 1⟩ [.boolean ⟨1, 2⟩ false]) (.ok (.array [.boolean false])) :=
    (gives_iff ⟨rfl, _, rfl⟩ _).mpr rfl
  have houtside : fresh.outcome pl = .error (.error (.indexOutOfRange 1 1)) := outcome_eq_value rfl hl
  have hforgives : fresh.Forgives outside := .member htarget rfl trivial
  refine ⟨_, hc, ⟨pl, hl, houtside⟩, ?_⟩
  rw [(hfails _ houtside).1 hforgives]
  exact outcome_eq_value rfl hr

end Site

end PipeExpr
