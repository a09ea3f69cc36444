import PipeExpr.Proofs.Decoding

/-!
# Verified programs

A program is *verified* (`Program.Verified`) when a reader who only looks at its bytes and tables
finds nothing wrong with it: every stream decodes, every operand refers to something, jumps lead
forward to an instruction or to the end, blocks run no blocks, and the boundaries of every stream
have *heights* — numbers of values on the stack — that fit what each instruction takes and leaves
on each way out of it.

What an instruction does to the height is its `Flow`.  An instruction takes some values off the stack
or looks at them, and leaves others in their place; how many it leaves depends on whether the stream
goes on behind it or at its target.
-/

namespace PipeExpr

/-! ## Heights -/

/-- What an instruction does to the height of the stack. -/
structure Flow where
  /-- How many values it needs. -/
  takes : Nat
  /-- How many it leaves in their place if the stream goes on behind it, where it may. -/
  falls : Option Nat
  /-- How many it leaves in their place if the stream goes on at its target, where it may. -/
  jumps : Option Nat
  deriving DecidableEq, Repr

/-- The flow of an instruction. -/
def Instruction.flow (i : Instruction) : Flow :=
  match i.opcode with
  | .constant | .loadVar | .loadLocal => ⟨0, some 1, none⟩
  | .storeLocal => ⟨1, some 1, none⟩
  | .pop => ⟨1, some 0, none⟩
  | .add | .sub | .mul | .div | .mod | .pow
  | .bitAnd | .bitOr | .bitXor | .shiftLeft | .shiftRight
  | .equal | .notEqual | .less | .greater | .lessEqual | .greaterEqual
  | .and | .or | .index => ⟨2, some 1, none⟩
  | .negate | .not | .bitNot | .pipe => ⟨1, some 1, none⟩
  | .jump => ⟨0, none, some 0⟩
  | .jumpIfFalse => ⟨1, some 0, some 0⟩
  | .andShortCircuit | .orShortCircuit => ⟨1, some 1, some 1⟩
  | .jumpIfNotNull => ⟨1, some 0, some 1⟩
  | .array => ⟨i.slot 0, some 1, none⟩
  | .object => ⟨i.slot 0 * 2, some 1, none⟩
  | .slice => ⟨4, some 1, none⟩
  | .call => ⟨i.slot 1, some 1, none⟩

/-- The target of an instruction that jumps. -/
def Instruction.target (i : Instruction) : Nat := i.slot 0

/-- Heights that fit an instruction at an offset, on both of its ways out. -/
structure Consistent (height : Nat → Nat) (offset : Nat) (i : Instruction) : Prop where
  takes : i.flow.takes ≤ height offset
  falls : ∀ n ∈ i.flow.falls, height (offset + i.length) = height offset - i.flow.takes + n
  jumps : ∀ n ∈ i.flow.jumps, height i.target = height offset - i.flow.takes + n

instance (height : Nat → Nat) (offset : Nat) (i : Instruction) :
    Decidable (Consistent height offset i) :=
  decidable_of_iff (i.flow.takes ≤ height offset ∧
      (∀ n ∈ i.flow.falls, height (offset + i.length) = height offset - i.flow.takes + n) ∧
      ∀ n ∈ i.flow.jumps, height i.target = height offset - i.flow.takes + n)
    ⟨fun ⟨htakes, hfalls, hjumps⟩ => ⟨htakes, hfalls, hjumps⟩,
      fun ⟨htakes, hfalls, hjumps⟩ => ⟨htakes, hfalls, hjumps⟩⟩

/-! ## Programs -/

namespace Program

/-- Whether the operands of an instruction refer to something: constants and variables that exist,
constants that are names, blocks that exist. -/
def InRange (p : Program) (i : Instruction) : Prop :=
  match i.opcode with
  | .constant => i.slot 0 < p.constants.size
  | .loadVar => i.slot 0 < p.contextVars.size
  | .loadLocal | .storeLocal | .call => (p.nameAt? (i.slot 0)).isSome
  | .pipe =>
    (p.nameAt? (i.slot 0)).isSome ∧ (i.slot 1 = noAlias ∨ (p.nameAt? (i.slot 1)).isSome) ∧
      i.slot 2 < p.blocks.size
  | _ => True

/-- A stream that passes verification and decodes to `rows`. -/
structure Verifies (p : Program) (code : Code) (rows : List (Nat × Instruction)) : Prop where
  decodes : decodeAll code = .ok rows
  operands : ∀ x ∈ rows, p.InRange x.2
  /-- Jumps lead forward, to an instruction or to the end. -/
  targets : ∀ x ∈ rows, x.2.flow.jumps.isSome → x.1 < x.2.target ∧
    (x.2.target = code.size ∨ x.2.target ∈ rows.map Prod.fst)
  /-- The stream starts with nothing on the stack and ends with its value. -/
  heights : ∃ height : Nat → Nat, height 0 = 0 ∧ height code.size = 1 ∧
    ∀ x ∈ rows, Consistent height x.1 x.2

/-- **A verified program.** -/
structure Verified (p : Program) : Prop where
  main : ∃ rows, p.Verifies p.main rows
  blocks : ∀ block ∈ p.blocks, ∃ rows, p.Verifies block rows ∧ ∀ x ∈ rows, x.2.opcode ≠ .pipe

end Program

/-! ## The rows of a stream that decodes -/

/-- An instruction that is read lies inside of the stream. -/
theorem decodeAt_some {code : Code} {offset : Nat} {i : Instruction}
    (h : decodeAt code offset = .ok i) : offset < code.size ∧ offset + i.length ≤ code.size := by
  obtain ⟨hfits, hplaced⟩ := decodeAt_eq_ok_iff.mp h
  have hlt : offset < code.size := lt_size_of_placed hplaced
  have hlength := hplaced.length_le
  rw [i.length_bytes hfits, List.length_drop, Array.length_toList] at hlength
  exact ⟨hlt, by omega⟩

/-- What follows a row of offsets: the next one, or the end. -/
def nextOffset (size : Nat) : List (Nat × Instruction) → Nat
  | [] => size
  | x :: _ => x.1

/-- Rows that follow each other without gaps up to the end of a stream. -/
inductive Chained (code : Code) : List (Nat × Instruction) → Prop where
  | nil : Chained code []
  | cons {offset : Nat} {i : Instruction} {rows : List (Nat × Instruction)}
    (hread : decodeAt code offset = .ok i) (hnext : offset + i.length = nextOffset code.size rows)
    (hrows : Chained code rows) : Chained code ((offset, i) :: rows)

theorem decodeFrom_chained {code : Code} : ∀ {fuel offset : Nat}
    {done rows : List (Nat × Instruction)}, offset ≤ code.size → code.size ≤ offset + fuel →
    decodeFrom code fuel offset done = .ok rows →
    ∃ rest, rows = done.reverse ++ rest ∧ Chained code rest ∧ nextOffset code.size rest = offset
  | 0, offset, done, rows, hle, hfuel, h => by
    refine ⟨[], ?_, .nil, ?_⟩
    · rw [List.append_nil]; exact (Except.ok.inj h).symm
    · show code.size = offset
      omega
  | fuel + 1, offset, done, rows, hle, hfuel, h => by
    rw [decodeFrom] at h
    by_cases hlt : offset < code.size
    -- an instruction, and by induction the rows behind it
    · rw [if_pos hlt] at h
      cases hread : decodeAt code offset with
      | error e => rw [hread] at h; cases h
      | ok i =>
        rw [hread] at h
        have hpos := i.length_pos
        have hend := (decodeAt_some hread).2
        obtain ⟨rest, hrows, hchained, hnext⟩ := decodeFrom_chained hend (by omega) h
        refine ⟨(offset, i) :: rest, ?_, .cons hread hnext.symm hchained, rfl⟩
        rw [hrows, List.reverse_cons, List.append_assoc]
        rfl
    · rw [if_neg hlt] at h
      refine ⟨[], ?_, .nil, ?_⟩
      · rw [List.append_nil]; exact (Except.ok.inj h).symm
      · show code.size = offset
        omega

/-- **The rows of a stream that decodes follow each other from its start to its end.** -/
theorem decodeAll_chained {code : Code} {rows : List (Nat × Instruction)}
    (h : decodeAll code = .ok rows) : Chained code rows ∧ nextOffset code.size rows = 0 := by
  obtain ⟨rest, hrows, hchained, hnext⟩ :=
    decodeFrom_chained (Nat.zero_le _) (Nat.le_of_eq (Nat.zero_add _).symm) h
  obtain rfl : rows = rest := hrows
  exact ⟨hchained, hnext⟩

theorem nextOffset_mem (size : Nat) (rows : List (Nat × Instruction)) :
    nextOffset size rows = size ∨ nextOffset size rows ∈ rows.map Prod.fst := by
  cases rows with
  | nil => exact .inl rfl
  | cons x rest => exact .inr (List.mem_cons_self ..)

/-- Each row is read at its offset, and behind it stands another row or the end. -/
theorem Chained.of_mem {code : Code} {rows : List (Nat × Instruction)} (h : Chained code rows)
    {x : Nat × Instruction} (hx : x ∈ rows) : decodeAt code x.1 = .ok x.2 ∧
      (x.1 + x.2.length = code.size ∨ x.1 + x.2.length ∈ rows.map Prod.fst) := by
  induction h with
  | nil => cases hx
  | @cons offset i rest hread hnext _ ih =>
    rcases List.mem_cons.mp hx with rfl | hx
    · refine ⟨hread, ?_⟩
      rw [hnext]
      exact (nextOffset_mem _ rest).imp_right (List.mem_cons_of_mem _)
    · exact ⟨(ih hx).1, (ih hx).2.imp_right (List.mem_cons_of_mem _)⟩

end PipeExpr
