import Mathlib.Data.List.Forall2
import PipeExpr.Proofs.Heights
import PipeExpr.Proofs.Parts
import PipeExpr.Proofs.Tables

/-!
# Compiled programs are well formed

What compilation writes passes verification, whatever the expression, also one that no source has
(`compile_wellFormed`).  Compilation keeps the operands of an instruction as numbers of any size, and
the bytes hold the lowest two or one of their digits.  `Program.WellFormed` says that the streams
decode to the very rows that compilation assembled, so no operand has lost anything.

The proof puts together what the modules before say of emitted code: its instructions fit and refer
to the tables (`Emits.plain`), and it climbs from one height to another (`Emits.climbs`).  New here
are the variables and the numbers of elements of its plans (`Emits.mem_names`, `Emits.writable`) and
the stages of a chain.
-/

namespace PipeExpr

/-! ## The property -/

/-- The stages of a chain behind its head. -/
def Expr.laterStages : Expr → List (Stage Expr)
  | .pipe _ (_ :: rest) => rest
  | _ => []

/-- The instruction that runs block `k` for a stage. -/
structure Program.RunsStage (p : Program) (stage : Stage Expr) (k : Nat) (i : Instruction) :
    Prop where
  opcode : i.opcode = .pipe
  handler : p.nameAt? (i.slot 0) = some stage.handler
  withoutAlias : stage.boundAs = none → i.slot 1 = noAlias
  withAlias : ∀ name ∈ stage.boundAs, i.slot 1 ≠ noAlias ∧ p.nameAt? (i.slot 1) = some name
  block : i.slot 2 = k

/-- What the program of an expression looks like. -/
structure Program.WellFormed (p : Program) (e : Expr) : Prop where
  /-- The main stream passes verification and is read as it was assembled, and its pipe instructions
  run the blocks in order. -/
  main : ∃ (row : Assembly) (t : Tables), Compile.streams e .empty = .ok ((row, p.blocks), t) ∧
    p.Verifies p.main (located 0 row.toList) ∧
    List.Forall₂ (fun x i => p.RunsStage x.1 x.2 i) e.laterStages.zipIdx
      (row.toList.filter fun i => i.opcode = .pipe)
  /-- So does the block of each stage, which runs no blocks and binds nothing. -/
  blocks : List.Forall₂ (fun (stage : Stage Expr) (block : Code) =>
    ∃ (row : Assembly) (t t' : Tables), Compile.code stage.body false 0 0 t = .ok (row, t') ∧
      p.Verifies block (located 0 row.toList) ∧
      ∀ i ∈ row.toList, i.opcode ≠ .pipe ∧ i.opcode ≠ .storeLocal) e.laterStages p.blocks.toList
  /-- Each context variable of the expression has one slot, and nothing else has. -/
  names : p.contextVars.toList.Nodup ∧ ∀ name, name ∈ p.contextVars ↔ e.UsesVariable name
  /-- Indices have room. -/
  tables : p.constants.size ≤ maxOperand ∧ p.contextVars.size ≤ maxOperand ∧
    p.blocks.size ≤ maxOperand
  /-- Numbers of elements have room. -/
  counts : ∀ x, Expr.Within x e → ∀ n ∈ x.count?, n ≤ maxOperand

/-! ## Verification of rows -/

/-- A row whose instructions fit and are in range passes verification if it climbs from nothing to
one value. -/
theorem Climbs.verifies {p : Program} {row : List Instruction} (hc : Climbs 0 0 row 1)
    (hfits : ∀ i ∈ row, i.Fits) (hrange : ∀ i ∈ row, p.InRange i) :
    p.Verifies (streamOf row) (located 0 row) := by
  obtain ⟨H, hH, hstart, hend⟩ := hc
  have hsize : (streamOf row).size = rowSize row := size_streamOf hfits
  refine ⟨decodeAll_streamOf hfits, fun x hx => hrange _ (mem_of_mem_located hx), ?_, ?_⟩
  -- there is a level at the target of a jump, so it is a boundary
  · intro x hx hjump
    obtain ⟨n, hn⟩ := Option.isSome_iff_exists.mp hjump
    obtain ⟨h, _, hfit⟩ := hH.fitting x hx
    obtain ⟨hlt, htarget⟩ := hfit.jumps n hn
    refine ⟨hlt, ?_⟩
    have hdomain := hH.domain x.2.target (by rw [htarget]; rfl)
    rwa [Nat.zero_add, ← hsize] at hdomain
  -- the levels are heights; within instructions any height will do
  · have hat : ∀ {n h : Nat}, H n = some h → (H n).getD 0 = h := fun hn => by
      rw [hn, Option.getD_some]
    refine ⟨fun n => (H n).getD 0, hat hstart, ?_, ?_⟩
    · rw [hsize]
      exact hat (Nat.zero_add (rowSize row) ▸ hend)
    · intro x hx
      obtain ⟨h, hh, hfit⟩ := hH.fitting x hx
      refine ⟨?_, fun n hn => ?_, fun n hn => ?_⟩
      · rw [hat hh]; exact hfit.takes
      · rw [hat (hfit.falls n hn), hat hh]
      · rw [hat (hfit.jumps n hn).2, hat hh]

/-! ## What emitted plans contain -/

/-- A plan that can be written by itself: something is there, and its number of elements has room. -/
def Plan.Writable (p : Plan) : Prop := p ≠ .absent ∧ ∀ n ∈ p.count?, n ≤ maxOperand

theorem Plan.writable_of_count {p : Plan} (hp : p ≠ .absent) (hcount : p.count? = none) :
    p.Writable := by
  refine ⟨hp, fun n hn => ?_⟩
  rw [hcount] at hn
  cases hn

theorem Finish.Emits.writable {finish : Finish} {parts : List Plan} {t t' : Tables}
    {i : Instruction} (h : finish.Emits parts.length t i t') : (Plan.gather parts finish).Writable := by
  refine ⟨nofun, fun n hn => ?_⟩
  generalize hlen : parts.length = len at h
  cases h with
  | unary | strict | index | slice => cases hn
  | array _ h | call _ _ h _ =>
    obtain rfl : parts.length = n := Option.some.inj hn
    exact hlen ▸ h
  | @object _ m h =>
    obtain rfl : parts.length / 2 = n := Option.some.inj hn
    omega

/-- Everything in plans that have code can be written. -/
theorem Emits.writable {t t' : Tables} {o : Nat} {ps : List Plan} {row : List Instruction}
    (he : Emits t o ps row t') : ∀ p ∈ ps, ∀ q, Plan.Within q p → q.Writable := by
  induction he with
  | nil => exact fun p hp => nomatch hp
  | cons _ _ iha ihb => exact List.forall_mem_cons.mpr ⟨List.forall_mem_singleton.mp iha, ihb⟩
  | constant | pipeLocal | contextVar =>
    exact List.forall_mem_singleton.mpr
      (Plan.forall_within (Plan.writable_of_count nofun rfl) fun _ hy => nomatch hy)
  | gather _ hfinish ih => exact List.forall_mem_singleton.mpr (Plan.forall_within hfinish.writable ih)
  | junction _ _ _ _ iha ihb | coalesce _ _ _ _ iha ihb =>
    refine List.forall_mem_singleton.mpr (Plan.forall_within (Plan.writable_of_count nofun rfl) ?_)
    exact List.forall_mem_cons.mpr ⟨List.forall_mem_singleton.mp iha, ihb⟩
  | choose _ _ _ _ _ _ _ iha ihb ihc =>
    refine List.forall_mem_singleton.mpr (Plan.forall_within (Plan.writable_of_count nofun rfl) ?_)
    exact List.forall_mem_cons.mpr ⟨List.forall_mem_singleton.mp iha,
      List.forall_mem_cons.mpr ⟨List.forall_mem_singleton.mp ihb, ihc⟩⟩

/-- **The variables that code adds to the tables are those of its plans.** -/
theorem Emits.mem_names {t t' : Tables} {o : Nat} {ps : List Plan} {row : List Instruction}
    (he : Emits t o ps row t') (hv : t.contextVars.Valid) (x : String) :
    x ∈ t'.contextVars.names ↔ x ∈ t.contextVars.names ∨ ∃ p ∈ ps, p.UsesVariable x := by
  induction he with
  | nil => simp
  | cons ha _ iha ihb =>
    rw [ihb (ha.serves hv).2, iha hv]
    simp [or_assoc]
  | constant t o v =>
    simp [Tables.push, Plan.not_usesVariable_constant]
  | @pipeLocal t o name flags hname =>
    have hnone : ¬ (Plan.variable name flags).UsesVariable x := fun h => by
      obtain ⟨hx, rfl⟩ := (Plan.usesVariable_variable ..).mp h
      rw [hname] at hx
      cases hx
    simp [Tables.push, hnone]
  | @contextVar t o name flags hname =>
    rw [NameTable.mem_slot hv]
    refine or_congr_right ?_
    simp only [List.mem_singleton, exists_eq_left, Plan.usesVariable_variable]
    exact ⟨fun hx => ⟨hx ▸ hname, hx⟩, fun hx => hx.2⟩
  | gather _ hfinish ih =>
    rw [hfinish.serves.2, ih hv]
    simp [Plan.usesVariable_gather]
  | junction ha _ _ _ iha ihb | coalesce ha _ _ _ iha ihb =>
    rw [ihb (ha.serves hv).2, iha hv]
    simp [Plan.usesVariable_junction, Plan.usesVariable_coalesce, or_assoc]
  | choose ha hb _ _ _ _ _ iha ihb ihc =>
    obtain ⟨_, hva⟩ := ha.serves hv
    rw [ihc (hb.serves hva).2, ihb hva, iha hv]
    simp [Plan.usesVariable_choose, or_assoc]

/-- Tables to which every index fits. -/
def Tables.Fit (t : Tables) : Prop :=
  t.constants.size ≤ maxOperand ∧ t.contextVars.names.size ≤ maxOperand

theorem Tables.Fit.push {t : Tables} (h : t.Fit) (v : Value) (hroom : t.constants.size < maxOperand) :
    (t.push v).Fit := by
  refine ⟨?_, h.2⟩
  rw [Tables.push, Array.size_push]
  exact hroom

theorem Finish.Emits.fit {finish : Finish} {n : Nat} {t t' : Tables} {i : Instruction}
    (hf : finish.Emits n t i t') (h : t.Fit) : t'.Fit := by
  cases hf with
  | call _ _ _ hroom => exact h.push _ hroom
  | unary | strict | array | object | index | slice => exact h

theorem Emits.fit {t t' : Tables} {o : Nat} {ps : List Plan} {row : List Instruction}
    (he : Emits t o ps row t') (h : t.Fit) : t'.Fit := by
  induction he with
  | nil => exact h
  | constant t o v hroom => exact h.push _ hroom
  | pipeLocal t o flags hname hroom => exact h.push _ hroom
  | @contextVar t o name flags hname hroom =>
    refine ⟨h.1, ?_⟩
    unfold NameTable.slot at hroom ⊢
    split
    · exact h.2
    · rename_i hnew
      rw [hnew] at hroom
      rw [Array.size_push]
      exact hroom
  | gather _ hfinish ih => exact hfinish.fit (ih h)
  | cons _ _ iha ihb | junction _ _ _ _ iha ihb | coalesce _ _ _ _ iha ihb => exact ihb (iha h)
  | choose _ _ _ _ _ _ _ iha ihb ihc => exact ihc (ihb (iha h))

section Bodies
variable {e : Expr} {soft : Bool} {t t' : Tables} {o : Nat} {row : List Instruction}

theorem Emits.body_counts (he : Emits t o [e.plan soft] row t') {x : Expr} (hx : Expr.Within x e) :
    ∀ n ∈ x.count?, n ≤ maxOperand := by
  have hall := List.forall_mem_singleton.mp he.writable
  obtain ⟨s, hs⟩ := hx.plan fun q hq => (hall q hq).1
  obtain ⟨hplan, hcount⟩ := hall _ hs
  rwa [Expr.plan_count? hplan] at hcount

theorem Emits.body_names (he : Emits t o [e.plan soft] row t') (hv : t.contextVars.Valid)
    (x : String) : x ∈ t'.contextVars.names ↔ x ∈ t.contextVars.names ∨ e.UsesVariable x := by
  have hall := List.forall_mem_singleton.mp he.writable
  rw [he.mem_names hv, ← Expr.usesVariable_plan fun q hq => (hall q hq).1]
  simp

end Bodies

/-! ## Aliases and stages -/

theorem EmitsAlias.serves {t t' : Tables} {name : Option String} {bound : Nat}
    (h : EmitsAlias t name bound t') : t.Serves t'.program ∧ t'.contextVars = t.contextVars := by
  cases h with
  | none => exact ⟨.refl t, rfl⟩
  | some name => exact ⟨.push t _, rfl⟩

theorem EmitsAlias.fit {t t' : Tables} {name : Option String} {bound : Nat}
    (he : EmitsAlias t name bound t') (h : t.Fit) : t'.Fit ∧ bound ≤ maxOperand := by
  cases he with
  | none => exact ⟨h, Nat.le_refl _⟩
  | some name hroom => exact ⟨h.push _ hroom, Nat.le_of_lt hroom⟩

theorem EmitsBinding.serves {t t' : Tables} {name : Option String} {row : List Instruction}
    (h : EmitsBinding t name row t') : t.Serves t'.program ∧ t'.contextVars = t.contextVars := by
  cases h with
  | none => exact ⟨.refl t, rfl⟩
  | some name => exact ⟨.push t _, rfl⟩

theorem EmitsBinding.fit {t t' : Tables} {name : Option String} {row : List Instruction}
    (he : EmitsBinding t name row t') (h : t.Fit) : t'.Fit := by
  cases he with
  | none => exact h
  | some name hroom => exact h.push _ hroom

/-- The code that binds a result fits, refers to the name, and keeps the height. -/
theorem EmitsBinding.binds {t t' : Tables} {p : Program} {name : Option String}
    {row : List Instruction} (h : EmitsBinding t name row t') (hs : t'.Serves p) :
    (∀ i ∈ row, i.Fits ∧ p.InRange i ∧ i.opcode ≠ .pipe) ∧
      ∀ o n, Climbs o (n + 1) row (n + 1) := by
  cases h with
  | none => exact ⟨fun i hi => absurd hi List.not_mem_nil, fun o n => .nil o (n + 1)⟩
  | some name hroom =>
    refine ⟨List.forall_mem_singleton.mpr ⟨fits_of_le rfl (Nat.le_of_lt hroom), ?_, nofun⟩, ?_⟩
    · show (p.nameAt? t.constants.size).isSome
      rw [hs.nameAt? (nameAt?_push t name)]
      rfl
    · exact fun o n => .single rfl (Nat.le_add_left 1 n) rfl

section Stages
variable {t t' : Tables} {k : Nat} {stages : List (Stage Expr)} {row : List Instruction}
  {blocks : List (List Instruction)}

/-- The tables only grow with stages, and stay valid. -/
theorem EmitsStages.serves (h : EmitsStages t k stages row blocks t') (hv : t.contextVars.Valid) :
    t.Serves t'.program ∧ t'.contextVars.Valid := by
  induction h with
  | nil t => exact ⟨.refl t, hv⟩
  | @cons t _ _ _ _ _ stage _ _ _ _ _ halias _ hcode _ ih =>
    obtain ⟨hbound, hsame⟩ := halias.serves
    obtain ⟨hbody, hvb⟩ := (Compile.emits_of_code _ hcode).serves (hsame ▸ hv)
    obtain ⟨hrest, hvr⟩ := ih hvb
    exact ⟨(Tables.Serves.push t _).trans (hbound.trans (hbody.trans hrest)), hvr⟩

theorem EmitsStages.fit (h : EmitsStages t k stages row blocks t') (ht : t.Fit)
    (hk : k ≤ maxOperand) : t'.Fit ∧ k + blocks.length ≤ maxOperand := by
  induction h with
  | nil => exact ⟨ht, hk⟩
  | @cons _ _ _ _ k _ _ _ _ _ blocks hroom halias hcount hcode _ ih =>
    obtain ⟨hrest, hle⟩ :=
      ih ((Compile.emits_of_code _ hcode).fit (halias.fit (ht.push _ hroom)).1) hcount
    refine ⟨hrest, ?_⟩
    rw [List.length_cons]
    omega

theorem EmitsStages.length_blocks (h : EmitsStages t k stages row blocks t') :
    blocks.length = stages.length := by
  induction h with
  | nil => rfl
  | cons _ _ _ _ _ ih => rw [List.length_cons, List.length_cons, ih]

/-- The instructions of stages fit, and run their blocks in order. -/
theorem EmitsStages.runs {p : Program} (h : EmitsStages t k stages row blocks t')
    (hv : t.contextVars.Valid) (ht : t.Fit) (hs : t'.Serves p) :
    List.Forall₂ (fun x i => i.Fits ∧ p.RunsStage x.1 x.2 i) (stages.zipIdx k) row := by
  induction h with
  | nil => exact .nil
  | @cons t t₁ t₂ t₃ k bound stage rest block row blocks hroom halias hcount hcode hrest ih =>
    obtain ⟨hbound, hsame⟩ := halias.serves
    obtain ⟨hfit₁, hboundMax⟩ := halias.fit (ht.push _ hroom)
    have hemits := Compile.emits_of_code _ hcode
    obtain ⟨hbody, hv₂⟩ := hemits.serves (hsame ▸ hv)
    have hs₂ : t₂.Serves p := (hrest.serves hv₂).1.trans hs
    have hs₁ : t₁.Serves p := hbody.trans hs₂
    refine .cons ⟨⟨rfl, fun x hx => ?_⟩, rfl, ?_, fun hnone => ?_, fun name hname => ?_, rfl⟩
      (ih hv₂ (hemits.fit hfit₁) hs)
    -- the name, the alias and the block are all below the sentinel or equal to it
    · have hmem : x ∈ [(t.constants.size, 2), (bound, 2), (k, 2)] := hx
      simp only [List.mem_cons, List.not_mem_nil, or_false] at hmem
      have hbig : maxOperand < 256 ^ 2 := by decide
      rcases hmem with rfl | rfl | rfl
      · exact Nat.lt_trans hroom hbig
      · exact Nat.lt_of_le_of_lt hboundMax hbig
      · exact Nat.lt_trans hcount hbig
    · exact (hbound.trans hs₁).nameAt? (nameAt?_push t stage.handler)
    · rw [hnone] at halias
      cases halias
      rfl
    · rw [Option.mem_def.mp hname] at halias
      cases halias with
      | some _ hlt => exact ⟨Nat.ne_of_lt hlt, hs₁.nameAt? (nameAt?_push _ name)⟩

/-- An instruction that runs a stage is in range if its block exists. -/
theorem Program.RunsStage.inRange {p : Program} {stage : Stage Expr} {i : Instruction}
    (h : p.RunsStage stage k i) (hk : k < p.blocks.size) : p.InRange i := by
  unfold Program.InRange
  rw [h.opcode]
  refine ⟨by rw [h.handler]; rfl, ?_, h.block.symm ▸ hk⟩
  cases hbound : stage.boundAs with
  | none => exact .inl (h.withoutAlias hbound)
  | some name =>
    refine .inr ?_
    rw [(h.withAlias name hbound).2]
    rfl

/-- Stages keep the height. -/
theorem EmitsStages.climbs (h : EmitsStages t k stages row blocks t') :
    ∀ o n, Climbs o (n + 1) row (n + 1) := by
  induction h with
  | nil => exact fun o n => .nil o (n + 1)
  | cons _ _ _ _ _ ih =>
    intro o n
    exact .append (.single rfl (Nat.le_add_left 1 n) rfl) (ih _ n)

/-- Each block is code of its stage, and the finished tables serve it. -/
theorem EmitsStages.block_code (h : EmitsStages t k stages row blocks t') (hv : t.contextVars.Valid) :
    List.Forall₂ (fun stage block => ∃ (code : Assembly) (t₁ t₂ : Tables), block = code.toList ∧
      Compile.code stage.body false 0 0 t₁ = .ok (code, t₂) ∧ t₁.contextVars.Valid ∧
      t₂.Serves t'.program) stages blocks := by
  induction h with
  | nil => exact .nil
  | @cons t t₁ t₂ t₃ _ _ _ _ block _ _ _ halias _ hcode hrest ih =>
    have hv₁ : t₁.contextVars.Valid := halias.serves.2 ▸ hv
    have hv₂ := ((Compile.emits_of_code _ hcode).serves hv₁).2
    exact .cons ⟨block, t₁, t₂, rfl, hcode, hv₁, (hrest.serves hv₂).1⟩ (ih hv₂)

/-- The variables that stages add to the tables are those of their bodies. -/
theorem EmitsStages.mem_names (h : EmitsStages t k stages row blocks t')
    (hv : t.contextVars.Valid) (x : String) : x ∈ t'.contextVars.names ↔
      x ∈ t.contextVars.names ∨ ∃ stage ∈ stages, stage.body.UsesVariable x := by
  induction h with
  | nil => simp
  | cons _ halias _ hcode _ ih =>
    have hsame := halias.serves.2
    have hemits := Compile.emits_of_code _ hcode
    rw [ih (hemits.serves (hsame ▸ hv)).2, hemits.body_names (hsame ▸ hv), hsame]
    simp [Tables.push, or_assoc]

end Stages

/-! ## Whole programs -/

section Chains
variable {pos : Position} {stages : List (Stage Expr)}

/-- What stands in a chain stands in the body of a stage. -/
theorem Expr.within_pipe {x : Expr} (h : Within x (.pipe pos stages)) :
    x = .pipe pos stages ∨ ∃ stage ∈ stages, Within x stage.body := by
  cases h with
  | self => exact .inl rfl
  | part hx hy =>
    obtain ⟨stage, hstage, rfl⟩ := List.mem_map.mp hy
    exact .inr ⟨stage, hstage, hx⟩

theorem Expr.usesVariable_pipe (name : String) : (Expr.pipe pos stages).UsesVariable name ↔
    ∃ stage ∈ stages, stage.body.UsesVariable name := by
  constructor
  · rintro ⟨hname, p, optional, h⟩
    rcases within_pipe h with h | ⟨stage, hstage, h⟩
    · cases h
    · exact ⟨stage, hstage, hname, p, optional, h⟩
  · rintro ⟨stage, hstage, hname, p, optional, h⟩
    exact ⟨hname, p, optional, .part h (List.mem_map_of_mem hstage)⟩

end Chains

/-- What is related to a row comes from the other one. -/
theorem exists_of_forall₂ {α β : Type} {R : α → β → Prop} {as : List α} {bs : List β}
    (h : List.Forall₂ R as bs) : ∀ b ∈ bs, ∃ a ∈ as, R a b := by
  induction h with
  | nil => exact fun b hb => absurd hb List.not_mem_nil
  | @cons a b _ _ hab _ ih =>
    refine List.forall_mem_cons.mpr ⟨⟨a, List.mem_cons_self .., hab⟩, fun b hb => ?_⟩
    obtain ⟨a, ha, hab⟩ := ih b hb
    exact ⟨a, List.mem_cons_of_mem _ ha, hab⟩

theorem Tables.empty_fit : Tables.empty.Fit := ⟨Nat.zero_le _, Nat.zero_le _⟩

section Programs
variable {e : Expr} {row : List Instruction} {blocks : List (List Instruction)} {t : Tables}

/-- The main row of a program fits, is in range and climbs to one value, and its pipe instructions run
the later stages in order. -/
theorem EmitsProgram.main (h : EmitsProgram e row blocks t) :
    (∀ i ∈ row, i.Fits ∧ (programOf row blocks t).InRange i) ∧ Climbs 0 0 row 1 ∧
      List.Forall₂ (fun x i => (programOf row blocks t).RunsStage x.1 x.2 i) e.laterStages.zipIdx
        (row.filter fun i => i.opcode = .pipe) := by
  generalize hp : programOf row blocks t = p
  have hserves : t.Serves p := hp ▸ ⟨List.prefix_rfl, List.prefix_rfl⟩
  have hblocks : p.blocks.size = blocks.length := by rw [← hp]; simp [programOf]
  clear hp
  have hnone : ∀ {row : List Instruction}, (∀ i ∈ row, i.opcode ≠ .pipe) →
      (row.filter fun i => i.opcode = .pipe) = [] := fun hrow =>
    List.filter_eq_nil_iff.mpr fun i hi => by simpa using hrow i hi
  cases h with
  | @expr _ _ _ hroot h =>
    have hplain := fun i hi => (h.plain NameTable.empty_valid i hi).mono hserves
    have hlater : e.laterStages = [] := by
      cases e <;> first | rfl | cases hroot
    refine ⟨fun i hi => ⟨(hplain i hi).fits, (hplain i hi).inRange⟩, h.climbs 0, ?_⟩
    rw [hlater, hnone fun i hi => (hplain i hi).noPipe]
    exact .nil
  | empty pos =>
    have h : Emits .empty 0 [.constant .null] [⟨.constant, [0]⟩] (Tables.empty.push .null) :=
      .constant _ 0 _ (by decide)
    have hplain := fun i hi => (h.plain NameTable.empty_valid i hi).mono hserves
    refine ⟨fun i hi => ⟨(hplain i hi).fits, (hplain i hi).inRange⟩, h.climbs 0, ?_⟩
    exact .nil
  | @chain pos head rest t₁ t₂ _ a b c _ hhead hbinding hstages =>
    obtain ⟨hserves₁, hv₁⟩ := hhead.serves NameTable.empty_valid
    obtain ⟨hserves₂, hsame⟩ := hbinding.serves
    have hv₂ : t₂.contextVars.Valid := hsame ▸ hv₁
    have hs₂ : t₂.Serves p := (hstages.serves hv₂).1.trans hserves
    have hplain := fun i hi => (hhead.plain NameTable.empty_valid i hi).mono (hserves₂.trans hs₂)
    obtain ⟨hbinds, hclimbs⟩ := hbinding.binds hs₂
    have hruns := hstages.runs hv₂ (hbinding.fit (hhead.fit Tables.empty_fit)) hserves
    rw [hstages.length_blocks] at hblocks
    -- a pipe instruction stands in the third part, and there is nothing else
    have hpipes : ∀ i ∈ c, i.Fits ∧ i.opcode = .pipe ∧ p.InRange i := by
      intro i hi
      obtain ⟨⟨stage, k⟩, hmem, hfits, hrun⟩ := exists_of_forall₂ hruns i hi
      refine ⟨hfits, hrun.opcode, hrun.inRange ?_⟩
      have := List.mem_zipIdx hmem
      omega
    refine ⟨?_, (hhead.climbs 0).append ((hclimbs _ 0).append (hstages.climbs _ 0)), ?_⟩
    · refine List.forall_mem_append.mpr ⟨fun i hi => ⟨(hplain i hi).fits, (hplain i hi).inRange⟩,
        List.forall_mem_append.mpr ⟨fun i hi => ⟨(hbinds i hi).1, (hbinds i hi).2.1⟩, ?_⟩⟩
      exact fun i hi => ⟨(hpipes i hi).1, (hpipes i hi).2.2⟩
    · have hall : (c.filter fun i => i.opcode = .pipe) = c :=
        List.filter_eq_self.mpr fun i hi => by simpa using (hpipes i hi).2.1
      rw [List.filter_append, List.filter_append, hnone fun i hi => (hplain i hi).noPipe,
        hnone fun i hi => (hbinds i hi).2.2, hall]
      exact List.Forall₂.imp (fun x i h => h.2) hruns

/-- Each block of a program is read as it was assembled. -/
theorem EmitsProgram.blocks_verify (h : EmitsProgram e row blocks t) :
    List.Forall₂ (fun (stage : Stage Expr) (block : Code) =>
      ∃ (code : Assembly) (t₁ t₂ : Tables), Compile.code stage.body false 0 0 t₁ = .ok (code, t₂) ∧
        (programOf row blocks t).Verifies block (located 0 code.toList) ∧
        ∀ i ∈ code.toList, i.opcode ≠ .pipe ∧ i.opcode ≠ .storeLocal)
      e.laterStages (blocks.map streamOf) := by
  generalize hp : programOf row blocks t = p
  have hserves : t.Serves p := hp ▸ ⟨List.prefix_rfl, List.prefix_rfl⟩
  cases h with
  | @expr _ _ _ hroot h =>
    have hlater : e.laterStages = [] := by
      cases e <;> first | rfl | cases hroot
    rw [hlater]
    exact .nil
  | empty pos => exact .nil
  | chain hhead hbinding hstages =>
    have hv₂ := hbinding.serves.2 ▸ (hhead.serves NameTable.empty_valid).2
    refine List.forall₂_map_right_iff.mpr (List.Forall₂.imp ?_ (hstages.block_code hv₂))
    rintro stage _ ⟨code, t₁, t₂, rfl, hcode, hv₁, hs⟩
    have hemits := Compile.emits_of_code _ hcode
    have hplain := fun i hi => (hemits.plain hv₁ i hi).mono (hs.trans hserves)
    refine ⟨code, t₁, t₂, hcode, ?_, fun i hi => ⟨(hplain i hi).noPipe, (hplain i hi).noStore⟩⟩
    exact (hemits.climbs 0).verifies (fun i hi => (hplain i hi).fits)
      fun i hi => (hplain i hi).inRange

/-- The tables of a program fit, and hold its variables. -/
theorem EmitsProgram.names (h : EmitsProgram e row blocks t) : t.contextVars.Valid ∧
    ∀ x, x ∈ t.contextVars.names ↔ e.UsesVariable x := by
  have hempty : ∀ x : String, x ∉ Tables.empty.contextVars.names := fun x => Array.not_mem_empty x
  cases h with
  | expr _ h =>
    refine ⟨(h.serves NameTable.empty_valid).2, fun x => ?_⟩
    rw [h.body_names NameTable.empty_valid]
    exact or_iff_right (hempty x)
  | empty pos =>
    refine ⟨NameTable.empty_valid, fun x => iff_of_false (hempty x) ?_⟩
    rw [Expr.usesVariable_pipe]
    rintro ⟨stage, hstage, _⟩
    cases hstage
  | chain hhead hbinding hstages =>
    have hsame := hbinding.serves.2
    have hv₁ := (hhead.serves NameTable.empty_valid).2
    refine ⟨(hstages.serves (hsame ▸ hv₁)).2, fun x => ?_⟩
    rw [hstages.mem_names (hsame ▸ hv₁), hsame, hhead.body_names NameTable.empty_valid,
      or_iff_right (hempty x), Expr.usesVariable_pipe, List.exists_mem_cons_iff]

theorem EmitsProgram.fit (h : EmitsProgram e row blocks t) :
    t.Fit ∧ blocks.length ≤ maxOperand := by
  cases h with
  | expr _ h => exact ⟨h.fit Tables.empty_fit, Nat.zero_le _⟩
  | empty pos => exact ⟨Tables.empty_fit.push _ (by decide), Nat.zero_le _⟩
  | chain hhead hbinding hstages =>
    obtain ⟨hfit, hle⟩ :=
      hstages.fit (hbinding.fit (hhead.fit Tables.empty_fit)) (Nat.zero_le _)
    exact ⟨hfit, Nat.zero_add blocks.length ▸ hle⟩

/-- The numbers of elements in a program fit. -/
theorem EmitsProgram.counts (h : EmitsProgram e row blocks t) {x : Expr} (hx : Expr.Within x e) :
    ∀ n ∈ x.count?, n ≤ maxOperand := by
  have hself : ∀ {pos : Position} {stages : List (Stage Expr)},
      ∀ n ∈ (Expr.pipe pos stages).count?, n ≤ maxOperand := fun _ hn => by cases hn
  cases h with
  | expr _ h => exact h.body_counts hx
  | empty pos =>
    rcases Expr.within_pipe hx with rfl | ⟨stage, hstage, _⟩
    · exact hself
    · cases hstage
  | chain hhead hbinding hstages =>
    rcases Expr.within_pipe hx with rfl | ⟨stage, hstage, hbody⟩
    · exact hself
    · rcases List.mem_cons.mp hstage with rfl | hstage
      · exact hhead.body_counts hbody
      · have hv₂ := hbinding.serves.2 ▸ (hhead.serves NameTable.empty_valid).2
        have hflip := (hstages.block_code hv₂).flip
        obtain ⟨_, _, code, t₁, t₂, _, hcode, _⟩ := exists_of_forall₂ hflip stage hstage
        exact (Compile.emits_of_code _ hcode).body_counts hbody

end Programs

/-- **Compiled programs are well formed**, whatever the expression. -/
theorem compile_wellFormed {e : Expr} {p : Program} (h : e.compile = .ok p) : p.WellFormed e := by
  obtain ⟨main, blocks, t, hstreams, rfl, hemits⟩ := Expr.emits_of_compile h
  obtain ⟨hmain, hclimbs, hruns⟩ := hemits.main
  obtain ⟨hvalid, hnames⟩ := hemits.names
  obtain ⟨⟨hconstants, hvariables⟩, hblocks⟩ := hemits.fit
  have hsize : (programOf main.toList blocks t).blocks.size = blocks.length := by simp [programOf]
  exact {
    main := ⟨main, t, hstreams,
      hclimbs.verifies (fun i hi => (hmain i hi).1) (fun i hi => (hmain i hi).2), hruns⟩
    blocks := hemits.blocks_verify
    names := ⟨hvalid.nodup, hnames⟩
    tables := ⟨hconstants, hvariables, hsize ▸ hblocks⟩
    counts := fun _ hx => hemits.counts hx }

/-- A chain that binds the result of its head, and in its only stage speaks of an item and of that
result. -/
def pairing : Expr :=
  .pipe ⟨1, 1⟩
    [⟨sourceStage, some "$all", ⟨1, 1⟩, .array ⟨1, 1⟩ [.string ⟨1, 2⟩ "a" default, .null ⟨1, 7⟩]⟩,
     ⟨"map", none, ⟨1, 14⟩,
      .binary ⟨1, 20⟩ .and (.reference ⟨1, 20⟩ "$item" false) (.reference ⟨1, 29⟩ "$all" false)⟩]

theorem pairing_wellFormed :
    ∃ p, pairing.compile = .ok p ∧ p.blocks.size = 1 ∧ p.WellFormed pairing :=
  ⟨_, rfl, rfl, compile_wellFormed rfl⟩

end PipeExpr
