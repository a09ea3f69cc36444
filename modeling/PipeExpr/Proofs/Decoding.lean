import PipeExpr.Proofs.Encoding

/-!
# Writing what was read

The other half of the codec.  What is read at an offset fits, and its bytes stand there
(`decodeAt_eq_ok_iff`), so an instruction has one encoding only.  Reading a stream therefore cuts off whole
instructions up to the end or up to the first offset where none stands (`decodeFrom_cases`), and since
whole instructions in the same place are the same, no longer row of them stands there
(`Placed.rowSize_le`).

Together with the first half: reading a stream and writing a row are inverse to each other, and where
reading fails the error tells why no instruction stands at the end of the longest row (`stream_codec`).
-/

namespace PipeExpr

/-! ## Bytes at an offset -/

section Placement
variable {code : Code} {offset : Nat}

theorem placed_append {as bs : List UInt8} (ha : as <+: code.toList.drop offset)
    (hb : bs <+: code.toList.drop (offset + as.length)) : as ++ bs <+: code.toList.drop offset := by
  obtain ⟨rest, hr⟩ := ha
  rw [← List.drop_drop, ← hr, List.drop_left] at hb
  rw [← hr]
  exact (List.prefix_append_right_inj as).mpr hb

theorem placed_cons {b : UInt8} {bs : List UInt8} (hb : code[offset]? = some b)
    (hbs : bs <+: code.toList.drop (offset + 1)) : b :: bs <+: code.toList.drop offset := by
  obtain ⟨hlt, rfl⟩ := Array.getElem?_eq_some_iff.mp hb
  have hdrop := List.drop_eq_getElem_cons (l := code.toList) (by simpa using hlt)
  rw [hdrop, Array.getElem_toList]
  exact (List.prefix_cons_inj _).mpr hbs

end Placement

/-! ## Big-endian numbers -/

theorem bigEndian_succ (width value : Nat) :
    bigEndian (width + 1) value = UInt8.ofNat (value / 256 ^ width) :: bigEndian width value := rfl

/-- What stands in front of the last digits of a number is not written. -/
theorem bigEndian_add (width high value : Nat) :
    bigEndian width (high * 256 ^ width + value) = bigEndian width value := by
  induction width generalizing high with
  | zero => rfl
  | succ width ih =>
    have hsplit : high * 256 ^ (width + 1) + value = high * 256 * 256 ^ width + value := by ring
    have hdigit : (high * 256 * 256 ^ width + value) / 256 ^ width =
        high * 256 + value / 256 ^ width := by
      rw [Nat.mul_comm (high * 256)]
      exact Nat.mul_add_div (Nat.pow_pos (by omega)) _ _
    have hbyte : UInt8.ofNat (high * 256 + value / 256 ^ width) =
        UInt8.ofNat (value / 256 ^ width) := by
      rw [← UInt8.toNat_inj, UInt8.toNat_ofNat', UInt8.toNat_ofNat']
      omega
    rw [bigEndian_succ, bigEndian_succ, hsplit, hdigit, hbyte, ih]

/-- A number that is read stands there, behind the digits in `high`. -/
theorem readBigEndian_eq_some {code : Code} : ∀ {width cursor high v : Nat},
    readBigEndian code cursor width high = some v → ∃ value, v = high * 256 ^ width + value ∧
      value < 256 ^ width ∧ bigEndian width value <+: code.toList.drop cursor
  | 0, cursor, high, v, h => by
    obtain rfl := Option.some.inj h
    exact ⟨0, by ring, Nat.one_pos, List.nil_prefix⟩
  | width + 1, cursor, high, v, h => by
    rw [readBigEndian] at h
    split at h
    · rename_i b hb
      obtain ⟨value, rfl, hlt, hplaced⟩ := readBigEndian_eq_some h
      refine ⟨b.toNat * 256 ^ width + value, by ring, ?_, ?_⟩
      · have hb : b.toNat + 1 ≤ 256 := b.toNat_lt
        calc b.toNat * 256 ^ width + value < b.toNat * 256 ^ width + 256 ^ width := by omega
          _ = (b.toNat + 1) * 256 ^ width := by ring
          _ ≤ 256 * 256 ^ width := Nat.mul_le_mul_right _ hb
          _ = 256 ^ (width + 1) := by ring
      · have hdigit : (b.toNat * 256 ^ width + value) / 256 ^ width = b.toNat := by
          rw [Nat.mul_comm b.toNat, Nat.mul_add_div (Nat.pow_pos (by omega)),
            Nat.div_eq_of_lt hlt, Nat.add_zero]
        rw [bigEndian_succ, hdigit, bigEndian_add, UInt8.ofNat_toNat]
        exact placed_cons hb hplaced
    · cases h

theorem readBigEndian_eq_none {code : Code} : ∀ {width cursor high : Nat},
    readBigEndian code cursor width high = none → code.size < cursor + width
  | 0, _, _, h => nomatch h
  | width + 1, cursor, high, h => by
    rw [readBigEndian] at h
    split at h
    · have := readBigEndian_eq_none h
      omega
    · rename_i hb
      have := Array.getElem?_eq_none_iff.mp hb
      omega

/-! ## Instructions -/

/-- Operands that are read fit, and stand there. -/
theorem readOperands_eq_some {code : Code} : ∀ {widths operands : List Nat} {cursor : Nat},
    readOperands code cursor widths = some operands → operands.length = widths.length ∧
      (∀ x ∈ operands.zip widths, x.1 < 256 ^ x.2) ∧
      (List.zipWith bigEndian widths operands).flatten <+: code.toList.drop cursor
  | [], operands, cursor, h => by
    obtain rfl := Option.some.inj h
    exact ⟨rfl, (fun _ hx => nomatch hx), List.nil_prefix⟩
  | width :: widths, operands, cursor, h => by
    obtain ⟨v, hv, h⟩ := Option.bind_eq_some_iff.mp h
    obtain ⟨rest, hrest, h⟩ := Option.bind_eq_some_iff.mp h
    obtain rfl := Option.some.inj h
    obtain ⟨value, rfl, hlt, hplaced⟩ := readBigEndian_eq_some hv
    obtain ⟨hcount, hbound, hplaced'⟩ := readOperands_eq_some hrest
    rw [Nat.zero_mul, Nat.zero_add] at *
    refine ⟨congrArg (· + 1) hcount, List.forall_mem_cons.mpr ⟨hlt, hbound⟩, ?_⟩
    rw [List.zipWith_cons_cons, List.flatten_cons]
    refine placed_append hplaced ?_
    rwa [length_bigEndian]

theorem readOperands_eq_none {code : Code} : ∀ {widths : List Nat} {cursor : Nat},
    readOperands code cursor widths = none → code.size < cursor + widths.foldr (· + ·) 0
  | [], _, h => nomatch h
  | width :: widths, cursor, h => by
    rw [List.foldr_cons]
    cases hv : readBigEndian code cursor width 0 with
    | none =>
      have := readBigEndian_eq_none hv
      omega
    | some v =>
      cases hrest : readOperands code (cursor + width) widths with
      | none =>
        have := readOperands_eq_none hrest
        omega
      | some rest => simp [readOperands, hv, hrest] at h

/-- **An instruction is read exactly where its bytes stand**, if it fits. -/
theorem decodeAt_eq_ok_iff {code : Code} {offset : Nat} {i : Instruction} :
    decodeAt code offset = .ok i ↔ i.Fits ∧ i.bytes <+: code.toList.drop offset := by
  refine ⟨fun h => ?_, fun ⟨hfits, hplaced⟩ => decodeAt_of_placed hfits hplaced⟩
  unfold decodeAt at h
  split at h
  · cases h
  · rename_i b hb
    split at h
    · cases h
    · rename_i op hop
      split at h
      · cases h
      · rename_i operands hoperands
        obtain rfl := Except.ok.inj h
        obtain ⟨hcount, hbound, hplaced⟩ := readOperands_eq_some hoperands
        rw [← Opcode.byte_eq_of_ofByte? hop] at hb
        exact ⟨⟨hcount, hbound⟩, placed_cons hb hplaced⟩

/-- Why no instruction stands at an offset inside of a stream: the byte there is no opcode, or the stream
ends before the operands do. -/
inductive DecodeError.Explains (code : Code) (offset : Nat) : DecodeError → Prop where
  | unknownOpcode {b : UInt8} (hbyte : code[offset]? = some b) (hnone : ∀ op : Opcode, op.byte ≠ b) :
    Explains code offset (.unknownOpcode b offset)
  | truncated {op : Opcode} (hbyte : code[offset]? = some op.byte)
    (hshort : code.size < offset + op.encodedLength) : Explains code offset (.truncated op offset)

theorem decodeAt_explains {code : Code} {offset : Nat} {e : DecodeError} (hlt : offset < code.size)
    (h : decodeAt code offset = .error e) : e.Explains code offset := by
  unfold decodeAt at h
  split at h
  · rename_i hbyte
    have := Array.getElem?_eq_none_iff.mp hbyte
    omega
  · rename_i b hbyte
    split at h
    · rename_i hnone
      obtain rfl := Except.error.inj h
      refine .unknownOpcode hbyte fun op hop => ?_
      rw [← hop, Opcode.ofByte?_byte] at hnone
      cases hnone
    · rename_i op hop
      split at h
      · rename_i hoperands
        obtain rfl := Except.error.inj h
        have hshort := readOperands_eq_none hoperands
        refine .truncated (by rw [Opcode.byte_eq_of_ofByte? hop]; exact hbyte) ?_
        rw [Opcode.encodedLength]
        omega
      · cases h

/-! ## Streams -/

namespace Placed
variable {code : Code} {offset : Nat} {a b : List Instruction} {i : Instruction}

theorem nil (code : Code) (offset : Nat) : Placed code offset [] :=
  ⟨(fun _ h => nomatch h), List.nil_prefix⟩

theorem cons (hi : decodeAt code offset = .ok i) (h : Placed code (offset + i.length) b) :
    Placed code offset (i :: b) := by
  obtain ⟨hfits, hplaced⟩ := decodeAt_eq_ok_iff.mp hi
  refine ⟨List.forall_mem_cons.mpr ⟨hfits, h.fits⟩, ?_⟩
  rw [rowBytes, List.flatMap_cons]
  refine placed_append hplaced ?_
  rw [i.length_bytes hfits]
  exact h.bytes

/-- **No row reaches beyond an offset where no instruction stands**, if another row ends there. -/
theorem rowSize_le {e : DecodeError} (ha : Placed code offset a) (hb : Placed code offset b)
    (h : decodeAt code (offset + rowSize a) = .error e) : rowSize b ≤ rowSize a := by
  induction a generalizing offset b with
  | nil =>
    cases b with
    | nil => exact Nat.le_refl _
    | cons i b =>
      rw [rowSize_nil, Nat.add_zero, hb.head] at h
      cases h
  | cons i a ih =>
    cases b with
    | nil => exact Nat.zero_le _
    | cons j b =>
      -- both rows start with the instruction that is read here
      obtain rfl : i = j := Except.ok.inj (ha.head.symm.trans hb.head)
      rw [rowSize_cons, ← Nat.add_assoc] at h
      rw [rowSize_cons, rowSize_cons]
      exact Nat.add_le_add_left (ih ha.tail hb.tail h) _

end Placed

/-- **A stream is read up to its end, or up to the first offset where no instruction stands.** -/
theorem decodeFrom_cases (code : Code) (fuel offset : Nat) (done : List (Nat × Instruction))
    (hfuel : code.size ≤ offset + fuel) : ∃ row, Placed code offset row ∧
      ((decodeFrom code fuel offset done = .ok (done.reverse ++ located offset row) ∧
          rowBytes row = code.toList.drop offset) ∨
        ∃ e, decodeFrom code fuel offset done = .error e ∧ offset + rowSize row < code.size ∧
          decodeAt code (offset + rowSize row) = .error e) := by
  induction fuel generalizing offset done with
  | zero =>
    refine ⟨[], .nil code offset, .inl ⟨by simp [decodeFrom, located], ?_⟩⟩
    exact (List.drop_eq_nil_of_le (by simpa using hfuel)).symm
  | succ fuel ih =>
    by_cases hlt : offset < code.size
    · rw [decodeFrom, if_pos hlt]
      cases hread : decodeAt code offset with
      | error e => exact ⟨[], .nil code offset, .inr ⟨e, rfl, hlt, hread⟩⟩
      | ok i =>
        have hpos := i.length_pos
        obtain ⟨row, hplaced, hcases⟩ := ih (offset + i.length) ((offset, i) :: done) (by omega)
        refine ⟨i :: row, .cons hread hplaced, ?_⟩
        rw [rowSize_cons, ← Nat.add_assoc]
        rcases hcases with ⟨hrows, hbytes⟩ | herror
        · refine .inl ⟨by simpa [located] using hrows, ?_⟩
          -- the bytes of the row are all that is left, since they are as many
          have hbytes' : i.bytes ++ rowBytes row <+: code.toList.drop offset :=
            (Placed.cons hread hplaced).bytes
          refine hbytes'.eq_of_length ?_
          have hlength := congrArg List.length hbytes
          obtain ⟨hfits, hprefix⟩ := decodeAt_eq_ok_iff.mp hread
          have hle := hprefix.length_le
          rw [i.length_bytes hfits] at hle
          simp only [List.length_append, List.length_drop, Array.length_toList,
            i.length_bytes hfits] at hlength hle ⊢
          omega
        · exact .inr herror
    · rw [decodeFrom, if_neg hlt]
      refine ⟨[], .nil code offset, .inl ⟨by simp [located], ?_⟩⟩
      exact (List.drop_eq_nil_of_le (by simpa using hlt)).symm

/-- The encodings of a row one behind the other, if every instruction has one. -/
def encodeAll : List Instruction → Except EncodeError (List UInt8)
  | [] => .ok []
  | i :: row => do return (← i.encode) ++ (← encodeAll row)

/-- A row is written if and only if its instructions fit. -/
theorem encodeAll_eq_ok_iff {row : List Instruction} {bytes : List UInt8} :
    encodeAll row = .ok bytes ↔ (∀ i ∈ row, i.Fits) ∧ bytes = rowBytes row := by
  induction row generalizing bytes with
  | nil => simp [encodeAll, rowBytes, eq_comm]
  | cons i row ih =>
    rw [List.forall_mem_cons, rowBytes, List.flatMap_cons]
    constructor
    · intro h
      cases hi : i.encode with
      | error e => simp [encodeAll, hi, bind, Except.bind] at h
      | ok first =>
        cases hrow : encodeAll row with
        | error e => simp [encodeAll, hi, hrow, bind, Except.bind] at h
        | ok rest =>
          simp [encodeAll, hi, hrow, bind, Except.bind, pure, Except.pure] at h
          obtain ⟨hfits, rfl⟩ := (i.encode_eq_ok_iff first).mp hi
          obtain ⟨hrest, rfl⟩ := ih.mp hrow
          exact ⟨⟨hfits, hrest⟩, h.symm⟩
    · rintro ⟨⟨hfits, hrest⟩, rfl⟩
      have hi := (i.encode_eq_ok_iff i.bytes).mpr ⟨hfits, rfl⟩
      have hrow := ih.mpr ⟨hrest, rfl⟩
      simp [encodeAll, hi, hrow, bind, Except.bind, pure, Except.pure, rowBytes]

theorem located_map_snd (offset : Nat) (row : List Instruction) :
    (located offset row).map Prod.snd = row := by
  induction row generalizing offset with
  | nil => rfl
  | cons i row ih => rw [located, List.map_cons, ih]

/-- An instruction of a row stands behind the lengths of those in front. -/
theorem located_offset {offset : Nat} {row : List Instruction} {k : Nat}
    (hk : k < (located offset row).length) :
    ((located offset row)[k]).1 = offset + rowSize (row.take k) := by
  induction row generalizing offset k with
  | nil => cases hk
  | cons i row ih =>
    cases k with
    | zero => rfl
    | succ k =>
      have hrest := @ih (offset + i.length) k (Nat.lt_of_succ_lt_succ hk)
      rw [List.take_succ_cons, rowSize_cons, ← Nat.add_assoc]
      exact hrest

/-- A stream is the stream of the row that is read from it, or it starts with a row behind which no
instruction stands. -/
theorem decodeAll_cases (code : Code) : ∃ row, Placed code 0 row ∧
    ((decodeAll code = .ok (located 0 row) ∧ rowBytes row = code.toList) ∨
      ∃ e, decodeAll code = .error e ∧ rowSize row < code.size ∧
        decodeAt code (rowSize row) = .error e) := by
  obtain ⟨row, hplaced, hcases⟩ :=
    decodeFrom_cases code code.size 0 [] (Nat.le_of_eq (Nat.zero_add _).symm)
  rw [Nat.zero_add] at hcases
  exact ⟨row, hplaced, hcases⟩

/-- Slots that an operation does not use are zero. -/
theorem Instruction.slot_unused {i : Instruction} (hi : i.Fits) {n : Nat}
    (hn : i.opcode.widths.length ≤ n) : i.slot n = 0 := by
  rw [slot, List.getD_eq_getElem?_getD, List.getElem?_eq_none (hi.count ▸ hn)]
  rfl

/-- Writing what was read gives the stream back. -/
theorem encodeAll_of_decodeAll {code : Code} {rows : List (Nat × Instruction)}
    (h : decodeAll code = .ok rows) : encodeAll (rows.map Prod.snd) = .ok code.toList := by
  obtain ⟨row, hplaced, ⟨hrows, hbytes⟩ | ⟨e, herror, _⟩⟩ := decodeAll_cases code
  · obtain rfl := Except.ok.inj (h.symm.trans hrows)
    rw [located_map_snd]
    exact encodeAll_eq_ok_iff.mpr ⟨hplaced.fits, hbytes.symm⟩
  · rw [h] at herror
    cases herror

/-- **The error of a stream is found behind the longest row with which it starts.** -/
theorem decodeAll_explains {code : Code} {e : DecodeError} (h : decodeAll code = .error e) :
    ∃ row bytes, encodeAll row = .ok bytes ∧ bytes <+: code.toList ∧
      (∀ row' bytes', encodeAll row' = .ok bytes' → bytes' <+: code.toList →
        bytes'.length ≤ bytes.length) ∧
      e.Explains code bytes.length := by
  obtain ⟨row, hplaced, ⟨hrows, _⟩ | ⟨e', herror, hlt, hat⟩⟩ := decodeAll_cases code
  · rw [h] at hrows
    cases hrows
  · obtain rfl := Except.error.inj (h.symm.trans herror)
    have hlength := length_rowBytes hplaced.fits
    refine ⟨row, rowBytes row, encodeAll_eq_ok_iff.mpr ⟨hplaced.fits, rfl⟩, hplaced.bytes, ?_, ?_⟩
    · intro row' bytes' h' hprefix
      obtain ⟨hfits', rfl⟩ := encodeAll_eq_ok_iff.mp h'
      rw [hlength, length_rowBytes hfits']
      rw [← Nat.zero_add (rowSize row)] at hat
      exact hplaced.rowSize_le ⟨hfits', hprefix⟩ hat
    · rw [hlength]
      exact decodeAt_explains hlt hat

/-- **The codec is a bijection on valid streams.**  An instruction has an encoding if and only if it has
as many operands as its operation has widths, each below the bound of its width.  What is written for a
row of such instructions is read as this row, each instruction at the sum of the lengths in front of it,
and with nothing in the slots that its operation does not use.  A stream that is read is the encoding of
what is read from it.  A stream that is not read starts with the encoding of a row, as long as there is
one, and the error says why no instruction stands behind it. -/
theorem stream_codec :
    (∀ i : Instruction, (∃ bytes, i.encode = .ok bytes) ↔
      i.operands.length = i.opcode.widths.length ∧
        ∀ x ∈ i.operands.zip i.opcode.widths, x.1 < 256 ^ x.2) ∧
    (∀ row : List Instruction, (∀ i ∈ row, ∃ bytes, i.encode = .ok bytes) →
      ∃ bytes rows, encodeAll row = .ok bytes ∧ decodeAll bytes.toArray = .ok rows ∧
        rows.map Prod.snd = row ∧
        (∀ k (hk : k < rows.length), rows[k].1 = ((row.take k).map Instruction.length).sum) ∧
        ∀ i ∈ row, ∀ n, i.opcode.widths.length ≤ n → i.slot n = 0) ∧
    (∀ code : Code, (∃ rows, decodeAll code = .ok rows) ↔ ∃ row, encodeAll row = .ok code.toList) ∧
    (∀ (code : Code) (rows : List (Nat × Instruction)), decodeAll code = .ok rows →
      encodeAll (rows.map Prod.snd) = .ok code.toList) ∧
    ∀ (code : Code) (e : DecodeError), decodeAll code = .error e →
      ∃ row bytes, encodeAll row = .ok bytes ∧ bytes <+: code.toList ∧
        (∀ row' bytes', encodeAll row' = .ok bytes' → bytes' <+: code.toList →
          bytes'.length ≤ bytes.length) ∧
        e.Explains code bytes.length := by
  have hencode : ∀ i : Instruction, (∃ bytes, i.encode = .ok bytes) ↔ i.Fits := fun i =>
    ⟨fun ⟨bytes, h⟩ => ((i.encode_eq_ok_iff bytes).mp h).1,
      fun h => ⟨i.bytes, (i.encode_eq_ok_iff i.bytes).mpr ⟨h, rfl⟩⟩⟩
  refine ⟨fun i => (hencode i).trans ⟨fun h => ⟨h.count, h.bound⟩, fun h => ⟨h.1, h.2⟩⟩,
    fun row hrow => ?_, fun code => ⟨fun ⟨rows, h⟩ => ⟨_, encodeAll_of_decodeAll h⟩, ?_⟩,
    fun _ _ => encodeAll_of_decodeAll, fun _ _ => decodeAll_explains⟩
  · have hfits : ∀ i ∈ row, i.Fits := fun i hi => (hencode i).mp (hrow i hi)
    refine ⟨rowBytes row, located 0 row, encodeAll_eq_ok_iff.mpr ⟨hfits, rfl⟩,
      decodeAll_streamOf hfits, located_map_snd 0 row, fun k hk => ?_, fun i hi n hn => ?_⟩
    · rw [located_offset hk, Nat.zero_add, rowSize]
    · exact Instruction.slot_unused (hfits i hi) hn
  · rintro ⟨row, h⟩
    obtain ⟨hfits, hbytes⟩ := encodeAll_eq_ok_iff.mp h
    have hcode : streamOf row = code := Array.toList_inj.mp hbytes.symm
    exact ⟨_, hcode ▸ decodeAll_streamOf hfits⟩

/-- Operands of both widths, and a constant whose index is cut off behind a whole instruction. -/
theorem truncated_codec :
    (∃ bytes rows, encodeAll [⟨.loadVar, [258, 2]⟩, ⟨.pop, []⟩] = .ok bytes ∧
      decodeAll bytes.toArray = .ok rows ∧ rows.map Prod.snd = [⟨.loadVar, [258, 2]⟩, ⟨.pop, []⟩]) ∧
    decodeAll #[0x04, 0x00, 0x01] = .error (.truncated .constant 1) ∧
    ∃ row bytes, encodeAll row = .ok bytes ∧ bytes <+: [0x04, 0x00, 0x01] ∧
      (DecodeError.truncated .constant 1).Explains #[0x04, 0x00, 0x01] bytes.length := by
  obtain ⟨hmake, hwritten, _, _, herror⟩ := stream_codec
  have hrow : ∀ i ∈ [Instruction.mk .loadVar [258, 2], ⟨.pop, []⟩], ∃ bytes, i.encode = .ok bytes :=
    List.forall_mem_cons.mpr ⟨(hmake _).mpr ⟨rfl, by decide⟩,
      List.forall_mem_singleton.mpr ((hmake _).mpr ⟨rfl, by decide⟩)⟩
  obtain ⟨bytes, rows, hbytes, hrows, hsame, _⟩ := hwritten _ hrow
  have hcut : decodeAll #[0x04, 0x00, 0x01] = .error (.truncated .constant 1) := rfl
  obtain ⟨row, whole, hwhole, hprefix, _, hexplains⟩ := herror _ _ hcut
  exact ⟨⟨bytes, rows, hbytes, hrows, hsame⟩, hcut, row, whole, hwhole, hprefix, hexplains⟩

end PipeExpr
