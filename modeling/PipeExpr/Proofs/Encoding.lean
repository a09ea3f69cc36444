import Mathlib.Tactic.Ring
import PipeExpr.Bytecode.Compile

/-!
# Reading what was written

An instruction *fits* when it has as many operands as its operation has widths and each of them
is below the bound of its width (`Instruction.Fits`).  Fitting instructions are exactly those that
have an encoding, and they are read back from it wherever it stands in a stream
(`decodeAt_of_placed`).

A row of instructions is placed in a stream one behind the other, so the offsets of its
instructions are the sums of the lengths in front of them (`located`).  The stream of a row of
fitting instructions decodes to that row at those offsets (`decodeAll_streamOf`): nothing of an operand
is lost on the way.

"The bytes `bs` stand in `code` at `offset`" is written `bs <+: code.toList.drop offset` throughout.
-/

namespace PipeExpr

/-! ## Bytes at an offset -/

section Placement
variable {code : Code} {offset : Nat}

theorem getElem?_of_placed {b : UInt8} {bs : List UInt8}
    (h : b :: bs <+: code.toList.drop offset) : code[offset]? = some b := by
  obtain ⟨rest, hr⟩ := h
  have h0 : (code.toList.drop offset)[0]? = some b := by rw [← hr]; rfl
  rw [List.getElem?_drop, Nat.add_zero, Array.getElem?_toList] at h0
  exact h0

theorem placed_left {as bs : List UInt8} (h : as ++ bs <+: code.toList.drop offset) :
    as <+: code.toList.drop offset :=
  (List.prefix_append as bs).trans h

/-- What stands behind the first part of a placed row of bytes is placed behind it. -/
theorem placed_right {as bs : List UInt8} (h : as ++ bs <+: code.toList.drop offset) :
    bs <+: code.toList.drop (offset + as.length) := by
  obtain ⟨rest, hr⟩ := h
  refine ⟨rest, ?_⟩
  rw [← List.drop_drop, ← hr, List.append_assoc, List.drop_left]

theorem placed_tail {b : UInt8} {bs : List UInt8} (h : b :: bs <+: code.toList.drop offset) :
    bs <+: code.toList.drop (offset + 1) :=
  @placed_right _ _ [b] bs h

theorem lt_size_of_placed {b : UInt8} {bs : List UInt8}
    (h : b :: bs <+: code.toList.drop offset) : offset < code.size := by
  have hb := getElem?_of_placed h
  exact (Array.getElem?_eq_some_iff.mp hb).1

end Placement

/-! ## Big-endian numbers -/

@[simp] theorem length_bigEndian (width value : Nat) : (bigEndian width value).length = width := by
  induction width with
  | zero => rfl
  | succ width ih => rw [bigEndian, List.length_cons, ih]

/-- The digits written for a number are read behind those in `high`, up to the width. -/
theorem readBigEndian_of_placed {code : Code} {value : Nat} : ∀ {width cursor high : Nat},
    bigEndian width value <+: code.toList.drop cursor →
    readBigEndian code cursor width high = some (high * 256 ^ width + value % 256 ^ width)
  | 0, cursor, high, _ => by simp [readBigEndian, Nat.mod_one]
  | width + 1, cursor, high, h => by
    rw [bigEndian] at h
    have hdigit : (UInt8.ofNat (value / Nat.pow 256 width)).toNat = value / 256 ^ width % 256 := by
      rw [UInt8.toNat_ofNat']; rfl
    rw [readBigEndian, getElem?_of_placed h]
    show readBigEndian code (cursor + 1) width _ = _
    rw [readBigEndian_of_placed (placed_tail h), hdigit, Nat.mod_pow_succ, Nat.pow_succ]
    congr 1
    ring

/-! ## Instructions that fit -/

namespace Instruction

/-- An instruction whose operands are as many as its operation has widths and each below the bound
of its width. -/
structure Fits (i : Instruction) : Prop where
  count : i.operands.length = i.opcode.widths.length
  bound : ∀ x ∈ i.operands.zip i.opcode.widths, x.1 < 256 ^ x.2

theorem overflow?_eq_none_iff (i : Instruction) :
    i.overflow? = none ↔ ∀ x ∈ i.operands.zip i.opcode.widths, x.1 < 256 ^ x.2 := by
  simp [overflow?, List.find?_eq_none]

/-- **Exactly the instructions that fit have an encoding.** -/
theorem encode_eq_ok_iff (i : Instruction) (bytes : List UInt8) :
    i.encode = .ok bytes ↔ i.Fits ∧ bytes = i.bytes := by
  unfold encode
  by_cases hc : i.operands.length = i.opcode.widths.length
  · cases ho : i.overflow? with
    | none =>
      have hfits : i.Fits := ⟨hc, (overflow?_eq_none_iff i).mp ho⟩
      simp [hc, hfits, eq_comm]
    | some x =>
      have hnot : ¬ i.Fits := fun hf => by
        rw [(overflow?_eq_none_iff i).mpr hf.bound] at ho
        cases ho
      simp [hc, hnot]
  · have hnot : ¬ i.Fits := fun hf => hc hf.count
    simp [hc, hnot]

theorem length_operandBytes : ∀ {operands widths : List Nat}, operands.length = widths.length →
    (List.zipWith bigEndian widths operands).flatten.length = widths.foldr (· + ·) 0
  | [], [], _ => rfl
  | v :: operands, w :: widths, h => by
    rw [List.zipWith_cons_cons, List.flatten_cons, List.length_append, length_bigEndian,
      length_operandBytes (Nat.succ.inj h)]
    rfl

/-- The bytes of an instruction with the right number of operands are as many as its operation
says. -/
theorem length_bytes {i : Instruction} (h : i.Fits) : i.bytes.length = i.length := by
  rw [bytes, List.length_cons, length_operandBytes h.count, Nat.add_comm]
  rfl

theorem length_pos (i : Instruction) : 0 < i.length := i.opcode.encodedLength_pos

end Instruction

theorem readOperands_of_placed {code : Code} : ∀ {operands widths : List Nat} {cursor : Nat},
    operands.length = widths.length → (∀ x ∈ operands.zip widths, x.1 < 256 ^ x.2) →
    (List.zipWith bigEndian widths operands).flatten <+: code.toList.drop cursor →
    readOperands code cursor widths = some operands
  | [], [], _, _, _, _ => rfl
  | v :: operands, w :: widths, cursor, hc, hb, h => by
    rw [List.zipWith_cons_cons, List.flatten_cons] at h
    have hv : v < 256 ^ w := hb (v, w) (List.mem_cons_self ..)
    have hread : readBigEndian code cursor w 0 = some v := by
      rw [readBigEndian_of_placed (placed_left h), Nat.mod_eq_of_lt hv, Nat.zero_mul, Nat.zero_add]
    have hrest : readOperands code (cursor + w) widths = some operands := by
      refine readOperands_of_placed (Nat.succ.inj hc) (fun x hx => hb x (List.mem_cons_of_mem _ hx)) ?_
      simpa using placed_right h
    simp [readOperands, hread, hrest]

/-- **A fitting instruction is read wherever its bytes stand.** -/
theorem decodeAt_of_placed {code : Code} {offset : Nat} {i : Instruction} (hi : i.Fits)
    (h : i.bytes <+: code.toList.drop offset) : decodeAt code offset = .ok i := by
  rw [Instruction.bytes] at h
  have hops : readOperands code (offset + 1) i.opcode.widths = some i.operands :=
    readOperands_of_placed hi.count hi.bound (placed_tail h)
  simp [decodeAt, getElem?_of_placed h, hops]

/-! ## Rows of instructions -/

/-- The instructions of a row with their offsets, if the row starts at `offset`. -/
def located (offset : Nat) : List Instruction → List (Nat × Instruction)
  | [] => []
  | i :: row => (offset, i) :: located (offset + i.length) row

/-- The size of a row in bytes. -/
def rowSize (row : List Instruction) : Nat := (row.map Instruction.length).sum

/-- The bytes of a row. -/
def rowBytes (row : List Instruction) : List UInt8 := row.flatMap Instruction.bytes

@[simp] theorem rowSize_nil : rowSize [] = 0 := rfl

@[simp] theorem rowSize_cons (i : Instruction) (row : List Instruction) :
    rowSize (i :: row) = i.length + rowSize row := by
  simp [rowSize]

@[simp] theorem rowSize_append (row row' : List Instruction) :
    rowSize (row ++ row') = rowSize row + rowSize row' := by
  simp [rowSize]

@[simp] theorem located_append (offset : Nat) (row row' : List Instruction) :
    located offset (row ++ row') = located offset row ++ located (offset + rowSize row) row' := by
  induction row generalizing offset with
  | nil => simp [located]
  | cons i row ih => simp [located, ih, Nat.add_assoc]

theorem length_rowBytes {row : List Instruction} (h : ∀ i ∈ row, i.Fits) :
    (rowBytes row).length = rowSize row := by
  induction row with
  | nil => rfl
  | cons i row ih =>
    obtain ⟨hi, hrow⟩ := List.forall_mem_cons.mp h
    rw [rowBytes, List.flatMap_cons, List.length_append, i.length_bytes hi, rowSize_cons]
    exact congrArg (i.length + ·) (ih hrow)

/-- The offsets of a placed row lie inside it. -/
theorem located_bounds {offset : Nat} {row : List Instruction} {x : Nat × Instruction}
    (h : x ∈ located offset row) : offset ≤ x.1 ∧ x.1 + x.2.length ≤ offset + rowSize row := by
  induction row generalizing offset with
  | nil => cases h
  | cons i row ih =>
    rw [located, List.mem_cons] at h
    rcases h with rfl | h
    · simp
    · have := ih h
      simp only [rowSize_cons]
      omega

theorem mem_of_mem_located {offset : Nat} {row : List Instruction} {x : Nat × Instruction}
    (h : x ∈ located offset row) : x.2 ∈ row := by
  induction row generalizing offset with
  | nil => cases h
  | cons i row ih =>
    rw [located, List.mem_cons] at h
    rcases h with rfl | h
    · exact List.mem_cons_self ..
    · exact List.mem_cons_of_mem _ (ih h)

/-- The stream of a row. -/
def streamOf (row : List Instruction) : Code := (rowBytes row).toArray

theorem size_streamOf {row : List Instruction} (h : ∀ i ∈ row, i.Fits) :
    (streamOf row).size = rowSize row := by
  rw [streamOf, List.size_toArray, length_rowBytes h]

theorem Assembly.stream_eq (code : Assembly) : code.stream = streamOf code.toList := by
  have key : ∀ (row : List Instruction) (out : Code),
      row.foldl (fun out i => out ++ i.bytes.toArray) out = out ++ streamOf row := by
    intro row
    induction row with
    | nil => intro out; simp [streamOf, rowBytes]
    | cons i row ih => intro out; simp [ih, streamOf, rowBytes, Array.append_assoc]
  rw [Assembly.stream, ← Array.foldl_toList, key, Array.empty_append]

theorem Assembly.size_eq (code : Assembly) : code.size = rowSize code.toList := by
  have key : ∀ (row : List Instruction) (n : Nat),
      row.foldl (fun n i => n + i.length) n = n + rowSize row := by
    intro row
    induction row with
    | nil => intro n; rfl
    | cons i row ih => intro n; simp [ih, Nat.add_assoc]
  rw [Assembly.size, ← Array.foldl_toList, key, Nat.zero_add]

@[simp] theorem Assembly.size_append (a b : Assembly) :
    Assembly.size (a ++ b) = Assembly.size a + Assembly.size b := by
  simp [Assembly.size_eq]

/-- The rest of a row is read behind what has been read already. -/
theorem decodeFrom_row {code : Code} : ∀ {fuel offset : Nat} {row : List Instruction}
    {done : List (Nat × Instruction)}, (∀ i ∈ row, i.Fits) →
    code.toList.drop offset = rowBytes row → row.length ≤ fuel →
    decodeFrom code fuel offset done = .ok (done.reverse ++ located offset row)
  | 0, offset, row, done, _, _, hf => by
    have hnil : row = [] := List.length_eq_zero_iff.mp (Nat.le_zero.mp hf)
    simp [decodeFrom, hnil, located]
  | fuel + 1, offset, [], done, _, h, _ => by
    -- no bytes are left, so reading has come to the end
    have hend : ¬ offset < code.size := by
      have hlen := congrArg List.length h
      simp [rowBytes] at hlen
      omega
    simp [decodeFrom, hend, located]
  | fuel + 1, offset, i :: row, done, hrow, h, hf => by
    obtain ⟨hi, hrow'⟩ := List.forall_mem_cons.mp hrow
    have hplaced : i.bytes ++ rowBytes row <+: code.toList.drop offset := by
      rw [h]; exact List.prefix_rfl
    have hlt : offset < code.size := lt_size_of_placed (placed_left hplaced)
    have hrest : code.toList.drop (offset + i.length) = rowBytes row := by
      rw [← List.drop_drop, h, ← i.length_bytes hi]
      exact List.drop_left
    have hread := decodeAt_of_placed hi (placed_left hplaced)
    rw [decodeFrom, if_pos hlt, hread]
    show decodeFrom code fuel (offset + i.length) _ = _
    rw [decodeFrom_row hrow' hrest (Nat.le_of_succ_le_succ hf)]
    simp [located]

theorem length_le_rowSize (row : List Instruction) : row.length ≤ rowSize row := by
  induction row with
  | nil => exact Nat.le_refl _
  | cons i row ih =>
    have := i.length_pos
    simp only [List.length_cons, rowSize_cons]
    omega

/-- **The stream of a row of fitting instructions decodes to that row**, each instruction at the sum
of the lengths in front of it. -/
theorem decodeAll_streamOf {row : List Instruction} (h : ∀ i ∈ row, i.Fits) :
    decodeAll (streamOf row) = .ok (located 0 row) := by
  rw [decodeAll, decodeFrom_row h (by simp [streamOf]) ?_]
  · rfl
  · rw [size_streamOf h]
    exact length_le_rowSize row

/-! ## Rows in a stream -/

/-- A row of fitting instructions that stands in a stream. -/
structure Placed (code : Code) (offset : Nat) (row : List Instruction) : Prop where
  fits : ∀ i ∈ row, i.Fits
  bytes : rowBytes row <+: code.toList.drop offset

namespace Placed
variable {code : Code} {offset : Nat} {a b : List Instruction} {i : Instruction}

theorem left (h : Placed code offset (a ++ b)) : Placed code offset a where
  fits := fun i hi => h.fits i (List.mem_append_left b hi)
  bytes := by
    have hb := h.bytes
    rw [rowBytes, List.flatMap_append] at hb
    exact placed_left hb

theorem right (h : Placed code offset (a ++ b)) : Placed code (offset + rowSize a) b where
  fits := fun i hi => h.fits i (List.mem_append_right a hi)
  bytes := by
    have hb := h.bytes
    rw [rowBytes, List.flatMap_append] at hb
    rw [← length_rowBytes h.left.fits]
    exact placed_right hb

theorem tail (h : Placed code offset (i :: b)) : Placed code (offset + i.length) b := by
  have hr := right (a := [i]) h
  rwa [rowSize_cons, rowSize_nil, Nat.add_zero] at hr

/-- The first instruction of a placed row is read at its offset. -/
theorem head (h : Placed code offset (i :: b)) : decodeAt code offset = .ok i :=
  decodeAt_of_placed (h.fits i (List.mem_cons_self ..)) (placed_left h.bytes)

theorem lt_size (h : Placed code offset (i :: b)) : offset < code.size :=
  lt_size_of_placed (placed_left h.bytes)

/-- A placed row ends inside of its stream, unless it is empty. -/
theorem end_le (h : Placed code offset a) (ho : offset ≤ code.size) :
    offset + rowSize a ≤ code.size := by
  have hle := h.bytes.length_le
  rw [length_rowBytes h.fits, List.length_drop, Array.length_toList] at hle
  omega

theorem end_le_of_cons (h : Placed code offset (i :: b)) :
    offset + i.length + rowSize b ≤ code.size := by
  have hend := h.end_le (Nat.le_of_lt h.lt_size)
  rwa [rowSize_cons, ← Nat.add_assoc] at hend

theorem streamOf (h : ∀ i ∈ a, i.Fits) : Placed (streamOf a) 0 a :=
  ⟨h, List.prefix_rfl⟩

end Placed

end PipeExpr
