import PipeExpr.Proofs.Emission
import PipeExpr.Proofs.Verification

/-!
# The tables of a program

What emitted code refers to is in the tables, and stays there while they grow.  Constants are only ever
added at the end; a name that is looked up has a slot of its own, the same one each time
(`NameTable.Valid`).  So an instruction whose operands are in range when it is written is in range in
the finished program (`Plain.mono`), and every instruction of emitted code is
(`Emits.plain`).
-/

namespace PipeExpr

/-! ## Names -/

namespace NameTable

/-- A table in which the slot of a name is the place where it stands. -/
def Valid (t : NameTable) : Prop :=
  ∀ (name : String) (n : Nat), t.slots[name]? = some n ↔ t.names[n]? = some name

theorem empty_valid : empty.Valid := by
  intro name n
  simp [empty]

variable {t : NameTable} {name : String}

/-- A name stands in one place only. -/
theorem Valid.nodup (hv : t.Valid) : t.names.toList.Nodup := by
  refine List.pairwise_iff_getElem.mpr fun i j hi hj hij heq => ?_
  have hat : t.names[i]? = some t.names.toList[i] := by simp [Array.length_toList.symm ▸ hi]
  have hat' : t.names[j]? = some t.names.toList[i] := by rw [heq]; simp
  have hslot := ((hv _ _).mpr hat).symm.trans ((hv _ _).mpr hat')
  exact Nat.ne_of_lt hij (Option.some.inj hslot)

/-- The slot of a name is the place where it stands afterwards. -/
theorem slot_get (hv : t.Valid) (name : String) :
    (t.slot name).2.names[(t.slot name).1]? = some name := by
  unfold slot
  split
  · exact (hv _ _).mp ‹_›
  · simp

theorem slot_names (t : NameTable) (name : String) :
    (t.slot name).2.names = t.names ∨ (t.slot name).2.names = t.names.push name := by
  unfold slot
  split
  · exact .inl rfl
  · exact .inr rfl

theorem slot_valid (hv : t.Valid) (name : String) : (t.slot name).2.Valid := by
  unfold slot
  split
  · exact hv
  · rename_i hnew
    intro x n
    have hfresh : ∀ n : Nat, t.names[n]? ≠ some name := fun n hn => by
      rw [(hv _ _).mpr hn] at hnew
      cases hnew
    rw [Std.HashMap.getElem?_insert, Array.getElem?_push]
    by_cases hx : name = x
    -- the new name stands at the new index and nowhere else
    · subst hx
      by_cases hn : n = t.names.size
      · simp [hn]
      · have := hfresh n
        simp [hn, this, eq_comm]
    -- another name keeps its slot, which is not the new one
    · by_cases hn : n = t.names.size
      · have hout : t.slots[x]? ≠ some n := fun h => by
          have := (Array.getElem?_eq_some_iff.mp ((hv _ _).mp h)).1
          omega
        simp [hx, hn] at hout ⊢
        exact hout
      · simp [hx, hn]
        exact hv x n

theorem mem_slot (hv : t.Valid) (name x : String) :
    x ∈ (t.slot name).2.names ↔ x ∈ t.names ∨ x = name := by
  have hmem : name ∈ (t.slot name).2.names := Array.mem_of_getElem? (slot_get hv name)
  rcases slot_names t name with h | h
  · rw [h] at hmem ⊢
    exact ⟨.inl, fun hx => hx.elim id fun hx => hx ▸ hmem⟩
  · rw [h, Array.mem_push]

end NameTable

/-! ## Growth -/

/-- The tables as those of a program. -/
def Tables.program (t : Tables) : Program := ⟨#[], t.constants, t.contextVars.names, #[]⟩

/-- A program that holds everything the tables hold, in the same places. -/
structure Tables.Serves (t : Tables) (p : Program) : Prop where
  constants : t.constants.toList <+: p.constants.toList
  contextVars : t.contextVars.names.toList <+: p.contextVars.toList

theorem getElem?_of_toList_isPrefix {α : Type} {a b : Array α} (h : a.toList <+: b.toList)
    {n : Nat} {x : α} (hx : a[n]? = some x) : b[n]? = some x := by
  rw [← Array.getElem?_toList] at hx ⊢
  obtain ⟨rest, hr⟩ := h
  rw [← hr, List.getElem?_append_left (List.getElem?_eq_some_iff.mp hx).1, hx]

namespace Tables.Serves
variable {t t₁ : Tables} {p : Program}

theorem refl (t : Tables) : t.Serves t.program := ⟨List.prefix_rfl, List.prefix_rfl⟩

theorem trans (h : t.Serves t₁.program) (h₁ : t₁.Serves p) : t.Serves p :=
  ⟨h.constants.trans h₁.constants, h.contextVars.trans h₁.contextVars⟩

theorem push (t : Tables) (v : Value) : t.Serves (t.push v).program :=
  ⟨by rw [Tables.program, Tables.push, Array.toList_push]; exact List.prefix_append _ _,
    List.prefix_rfl⟩

theorem slot (t : Tables) (name : String) :
    t.Serves (Tables.program { t with contextVars := (t.contextVars.slot name).2 }) := by
  refine ⟨List.prefix_rfl, ?_⟩
  rcases NameTable.slot_names t.contextVars name with h | h
  · show t.contextVars.names.toList <+: (t.contextVars.slot name).2.names.toList
    exact h ▸ List.prefix_rfl
  · show t.contextVars.names.toList <+: (t.contextVars.slot name).2.names.toList
    rw [h, Array.toList_push]
    exact List.prefix_append _ _

theorem constant (h : t.Serves p) {n : Nat} {v : Value} (hv : t.constants[n]? = some v) :
    p.constants[n]? = some v :=
  getElem?_of_toList_isPrefix h.constants hv

theorem contextVar (h : t.Serves p) {n : Nat} {name : String}
    (hname : t.contextVars.names[n]? = some name) : p.contextVars[n]? = some name :=
  getElem?_of_toList_isPrefix h.contextVars hname

theorem nameAt? (h : t.Serves p) {n : Nat} {name : String}
    (hname : t.program.nameAt? n = some name) : p.nameAt? n = some name := by
  obtain ⟨v, hv, hs⟩ := Option.bind_eq_some_iff.mp hname
  exact Option.bind_eq_some_iff.mpr ⟨v, h.constant hv, hs⟩

end Tables.Serves

/-- The constant that is pushed next, as a name. -/
theorem nameAt?_push (t : Tables) (name : String) :
    (t.push (.string name)).program.nameAt? t.constants.size = some name := by
  simp [Program.nameAt?, Tables.program, Tables.push, Value.string?]

/-! ## Instructions of expressions -/

/-- An instruction as expressions need it: it fits, its operands are in range, and it neither runs a
block nor binds a local. -/
structure Plain (p : Program) (i : Instruction) : Prop where
  fits : i.Fits
  inRange : p.InRange i
  noPipe : i.opcode ≠ .pipe
  noStore : i.opcode ≠ .storeLocal

theorem Plain.mono {t : Tables} {p : Program} {i : Instruction} (h : Plain t.program i)
    (hs : t.Serves p) : Plain p i := by
  refine ⟨h.fits, ?_, h.noPipe, h.noStore⟩
  have hr := h.inRange
  have hname : ∀ {n : Nat}, (t.program.nameAt? n).isSome → (p.nameAt? n).isSome := by
    intro n hsome
    obtain ⟨name, hname⟩ := Option.isSome_iff_exists.mp hsome
    rw [hs.nameAt? hname]
    rfl
  unfold Program.InRange at hr ⊢
  cases hop : i.opcode <;> simp only [hop] at hr ⊢
  case constant => exact Nat.lt_of_lt_of_le hr hs.constants.length_le
  case loadVar => exact Nat.lt_of_lt_of_le hr hs.contextVars.length_le
  case loadLocal => exact hname hr
  case storeLocal => exact hname hr
  case call => exact hname hr
  case pipe => exact absurd hop h.noPipe

/-- Operands of two bytes. -/
theorem fits_of_le {op : Opcode} {n : Nat} (hop : op.widths = [2]) (hn : n ≤ maxOperand) :
    Instruction.Fits ⟨op, [n]⟩ := by
  refine ⟨by rw [hop]; rfl, fun x hx => ?_⟩
  rw [hop] at hx
  obtain rfl : x = (n, 2) := List.mem_singleton.mp hx
  exact Nat.lt_succ_of_le hn

theorem fits_of_none {op : Opcode} (hop : op.widths = []) : Instruction.Fits ⟨op, []⟩ :=
  ⟨by rw [hop], fun _ hx => nomatch hx⟩

theorem AccessFlags.toNat_lt (flags : AccessFlags) : flags.toNat < 256 := by
  rcases flags with ⟨a, b⟩
  cases a <;> cases b <;> decide

theorem fits_of_flags {op : Opcode} (hop : op.widths = [1]) (flags : AccessFlags) :
    Instruction.Fits ⟨op, [flags.toNat]⟩ := by
  refine ⟨by rw [hop]; rfl, fun x hx => ?_⟩
  rw [hop] at hx
  obtain rfl : x = (flags.toNat, 1) := List.mem_singleton.mp hx
  exact flags.toNat_lt

/-- Whether the operands of an operation refer to a table. -/
def Opcode.refers : Opcode → Bool
  | .constant | .loadVar | .loadLocal | .storeLocal | .call | .pipe => true
  | _ => false

theorem plain_of_fits {p : Program} {i : Instruction} (hf : i.Fits)
    (hop : i.opcode.refers = false) : Plain p i := by
  refine ⟨hf, ?_, fun h => ?_, fun h => ?_⟩
  · unfold Program.InRange
    split <;> simp_all [Opcode.refers]
  · rw [h] at hop; cases hop
  · rw [h] at hop; cases hop

theorem Finish.Emits.serves {finish : Finish} {n : Nat} {t t' : Tables} {i : Instruction}
    (h : finish.Emits n t i t') : t.Serves t'.program ∧ t'.contextVars = t.contextVars := by
  cases h with
  | call _ name hn hroom => exact ⟨.push t _, rfl⟩
  | unary | strict | array | object | index | slice => exact ⟨.refl t, rfl⟩

theorem Finish.Emits.plain {finish : Finish} {n : Nat} {t t' : Tables} {i : Instruction}
    (h : finish.Emits n t i t') : Plain t'.program i := by
  cases h with
  | unary _ op => cases op <;> exact plain_of_fits (fits_of_none rfl) rfl
  | @strict _ op c hs =>
    cases op <;> cases hs <;> exact plain_of_fits (fits_of_none rfl) rfl
  | array _ hn => exact plain_of_fits (fits_of_le rfl hn) rfl
  | object _ hn => exact plain_of_fits (fits_of_le rfl hn) rfl
  | index _ flags => exact plain_of_fits (fits_of_flags rfl flags) rfl
  | slice _ flags => exact plain_of_fits (fits_of_flags rfl flags) rfl
  | call _ name hn hroom =>
    refine ⟨⟨rfl, fun x hx => ?_⟩, ?_, nofun, nofun⟩
    · have hmem : x ∈ [(t.constants.size, 2), (n, 2)] := hx
      rcases List.mem_cons.mp hmem with rfl | hmem
      · exact Nat.lt_succ_of_lt hroom
      · obtain rfl := List.mem_singleton.mp hmem
        exact Nat.lt_succ_of_le hn
    · show ((t.push _).program.nameAt? t.constants.size).isSome
      rw [nameAt?_push]
      rfl

/-! ## Emitted code -/

/-- The tables only grow, and stay valid. -/
theorem Emits.serves {t t' : Tables} {o : Nat} {ps : List Plan} {row : List Instruction}
    (he : Emits t o ps row t') (hv : t.contextVars.Valid) :
    t.Serves t'.program ∧ t'.contextVars.Valid := by
  induction he with
  | nil t o => exact ⟨.refl t, hv⟩
  | cons _ _ iha ihb =>
    obtain ⟨ha, hva⟩ := iha hv
    exact ⟨ha.trans (ihb hva).1, (ihb hva).2⟩
  | constant t o v hroom => exact ⟨.push t v, hv⟩
  | pipeLocal t o flags hname hroom => exact ⟨.push t _, hv⟩
  | contextVar t o flags hname hroom => exact ⟨.slot t _, NameTable.slot_valid hv _⟩
  | gather _ hfinish ih =>
    obtain ⟨hp, hvp⟩ := ih hv
    obtain ⟨hf, hsame⟩ := hfinish.serves
    exact ⟨hp.trans hf, hsame ▸ hvp⟩
  | junction _ _ _ _ iha ihb | coalesce _ _ _ _ iha ihb =>
    obtain ⟨ha, hva⟩ := iha hv
    exact ⟨ha.trans (ihb hva).1, (ihb hva).2⟩
  | choose _ _ _ _ _ _ _ iha ihb ihc =>
    obtain ⟨ha, hva⟩ := iha hv
    obtain ⟨hb, hvb⟩ := ihb hva
    exact ⟨(ha.trans hb).trans (ihc hvb).1, (ihc hvb).2⟩

/-- **Every instruction of emitted code is plain** in the tables behind it. -/
theorem Emits.plain {t t' : Tables} {o : Nat} {ps : List Plan} {row : List Instruction}
    (he : Emits t o ps row t') (hv : t.contextVars.Valid) : ∀ i ∈ row, Plain t'.program i := by
  induction he with
  | nil t o => exact fun i hi => nomatch hi
  | cons ha hb iha ihb =>
    obtain ⟨_, hva⟩ := ha.serves hv
    have hext := (hb.serves hva).1
    exact List.forall_mem_append.mpr ⟨fun i hi => (iha hv i hi).mono hext, ihb hva⟩
  | constant t o v hroom =>
    refine List.forall_mem_singleton.mpr
      ⟨fits_of_le rfl (Nat.le_of_lt hroom), ?_, nofun, nofun⟩
    show t.constants.size < (t.constants.push v).size
    rw [Array.size_push]
    exact Nat.lt_succ_self _
  | @pipeLocal t o name flags hname hroom =>
    refine List.forall_mem_singleton.mpr
      ⟨fits_of_le rfl (Nat.le_of_lt hroom), ?_, nofun, nofun⟩
    show ((t.push _).program.nameAt? t.constants.size).isSome
    rw [nameAt?_push]
    rfl
  | @contextVar t o name flags hname hroom =>
    refine List.forall_mem_singleton.mpr ⟨⟨rfl, fun x hx => ?_⟩, ?_, nofun, nofun⟩
    -- the slot takes two bytes and the flags one
    · have hmem : x ∈ [((t.contextVars.slot name).1, 2), (flags.toNat, 1)] := hx
      rcases List.mem_cons.mp hmem with rfl | hmem
      · exact Nat.lt_succ_of_lt hroom
      · obtain rfl := List.mem_singleton.mp hmem
        exact flags.toNat_lt
    · exact (Array.getElem?_eq_some_iff.mp (NameTable.slot_get hv name)).1
  | gather _ hfinish ih =>
    exact List.forall_mem_append.mpr
      ⟨fun i hi => (ih hv i hi).mono hfinish.serves.1, List.forall_mem_singleton.mpr hfinish.plain⟩
  | @junction _ _ _ _ decisive _ _ _ _ target ha hb _ hmax iha ihb =>
    obtain ⟨_, hva⟩ := ha.serves hv
    have hext := (hb.serves hva).1
    refine List.forall_mem_append.mpr ⟨fun i hi => (iha hv i hi).mono hext,
      List.forall_mem_cons.mpr ⟨?_, List.forall_mem_append.mpr
        ⟨ihb hva, List.forall_mem_singleton.mpr ?_⟩⟩⟩
    · cases decisive <;> exact plain_of_fits (fits_of_le rfl hmax) rfl
    · cases decisive <;> exact plain_of_fits (fits_of_none rfl) rfl
  | coalesce ha hb _ hmax iha ihb =>
    obtain ⟨_, hva⟩ := ha.serves hv
    have hext := (hb.serves hva).1
    exact List.forall_mem_append.mpr ⟨fun i hi => (iha hv i hi).mono hext,
      List.forall_mem_cons.mpr ⟨plain_of_fits (fits_of_le rfl hmax) rfl, ihb hva⟩⟩
  | choose ha hb hc _ _ hmax hmax' iha ihb ihc =>
    obtain ⟨_, hva⟩ := ha.serves hv
    obtain ⟨hext, hvb⟩ := hb.serves hva
    have hext' := (hc.serves hvb).1
    exact List.forall_mem_append.mpr ⟨fun i hi => (iha hv i hi).mono (hext.trans hext'),
      List.forall_mem_cons.mpr ⟨plain_of_fits (fits_of_le rfl hmax) rfl,
        List.forall_mem_append.mpr ⟨fun i hi => (ihb hva i hi).mono hext',
          List.forall_mem_cons.mpr ⟨plain_of_fits (fits_of_le rfl hmax') rfl, ihc hvb⟩⟩⟩⟩

end PipeExpr
