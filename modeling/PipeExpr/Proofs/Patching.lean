import PipeExpr.Proofs.Decoding

/-!
# Patching

An instruction with one operand can be written before its operand is known and patched later.  Behind the
patch the stream is the one in which the instruction had this operand from the beginning, and an operand that
cannot be patched could not have been written either (`patchInPlace_streamOf`).  So jumps may be written with
their targets at once, and no error is lost by that.

A patch writes a whole instruction or nothing (`patchInPlace_cases`).  Opcode and length stay what they were,
so everything in front and behind is read as before: patching is local and atomic
(`patchInPlace_local_atomic`).
-/

namespace PipeExpr

/-! ## Overwriting -/

@[simp] theorem size_overwrite (code : Code) (offset : Nat) (bytes : List UInt8) :
    (overwrite code offset bytes).size = code.size := by
  induction bytes generalizing code offset with
  | nil => rfl
  | cons b bytes ih => rw [overwrite, ih, Array.size_setIfInBounds]

/-- What lies outside of the overwritten bytes stays. -/
theorem getElem?_overwrite {code : Code} {offset k : Nat} {bytes : List UInt8}
    (h : k < offset ∨ offset + bytes.length ≤ k) : (overwrite code offset bytes)[k]? = code[k]? := by
  induction bytes generalizing code offset with
  | nil => rfl
  | cons b bytes ih =>
    rw [List.length_cons] at h
    rw [overwrite, ih (by omega), Array.getElem?_setIfInBounds_ne (by omega)]

/-- What is overwritten with as many bytes leaves what stands in front and behind. -/
theorem overwrite_append {old new : List UInt8} (h : old.length = new.length) (front back : List UInt8) :
    overwrite (front ++ (old ++ back)).toArray front.length new = (front ++ (new ++ back)).toArray := by
  induction new generalizing front old with
  | nil =>
    obtain rfl := List.length_eq_zero_iff.mp h
    rfl
  | cons b new ih =>
    obtain ⟨a, old, rfl⟩ := List.exists_cons_of_length_eq_add_one h
    have hset : (front ++ (a :: old ++ back)).toArray.setIfInBounds front.length b =
        ((front ++ [b]) ++ (old ++ back)).toArray := by
      rw [List.setIfInBounds_toArray, List.set_append_right _ _ (Nat.le_refl _), Nat.sub_self]
      simp
    have hrest := ih (Nat.succ.inj h) (front ++ [b])
    rw [List.length_append] at hrest
    rw [overwrite, hset]
    refine hrest.trans ?_
    rw [List.append_assoc]
    rfl

theorem streamOf_append_cons (front : List Instruction) (i : Instruction) (back : List Instruction) :
    streamOf (front ++ i :: back) = (rowBytes front ++ (i.bytes ++ rowBytes back)).toArray := by
  rw [streamOf, rowBytes, List.flatMap_append, List.flatMap_cons]
  rfl

/-! ## One patch -/

/-- All checks stand in front of the one write. -/
theorem patchInPlace_eq (code : Code) (offset value : Nat) : patchInPlace offset value code =
    match code[offset]?.bind Opcode.ofByte? with
    | none => (.error (.invalidPatch offset), code)
    | some op =>
      match Instruction.encode ⟨op, [value]⟩ with
      | .error e => (.error e, code)
      | .ok bytes =>
        if offset + bytes.length ≤ code.size then (.ok (), overwrite code offset bytes)
        else (.error (.invalidPatch offset), code) := by
  simp only [patchInPlace, bind, ExceptT.bind, ExceptT.mk, StateT.bind, get, getThe, MonadStateOf.get,
    liftM, monadLift, MonadLift.monadLift, ExceptT.lift, StateT.get, Functor.map, StateT.map, pure,
    ExceptT.bindCont, MonadExcept.ofExcept]
  cases code[offset]?.bind Opcode.ofByte? with
  | none => rfl
  | some op =>
    dsimp only
    cases Instruction.encode ⟨op, [value]⟩ with
    | error e => rfl
    | ok bytes => exact apply_ite (fun m : ExceptT EncodeError (StateM Code) Unit => m code) _ _ _

/-- **A patch writes a whole instruction**, with the opcode that stands there, **or nothing.** -/
theorem patchInPlace_cases (code : Code) (offset value : Nat) :
    (∃ e, patchInPlace offset value code = (.error e, code)) ∨
      ∃ op, code[offset]? = some op.byte ∧ (Instruction.mk op [value]).Fits ∧
        offset + op.encodedLength ≤ code.size ∧ patchInPlace offset value code =
          (.ok (), overwrite code offset (Instruction.bytes ⟨op, [value]⟩)) := by
  rw [patchInPlace_eq]
  split
  · exact .inl ⟨_, rfl⟩
  · rename_i op hop
    obtain ⟨b, hbyte, hop⟩ := Option.bind_eq_some_iff.mp hop
    split
    · exact .inl ⟨_, rfl⟩
    · rename_i bytes hencode
      obtain ⟨hfits, rfl⟩ := (Instruction.encode_eq_ok_iff _ _).mp hencode
      split
      · rename_i hroom
        rw [Instruction.length_bytes hfits] at hroom
        exact .inr ⟨op, by rw [hbyte, Opcode.byte_eq_of_ofByte? hop], hfits, hroom, rfl⟩
      · exact .inl ⟨_, rfl⟩

/-- What has one operand and no other fits if this operand is below the bound of its width. -/
theorem Instruction.fits_singleton_iff {op : Opcode} {value : Nat} :
    (Instruction.mk op [value]).Fits ↔ ∃ width, op.widths = [width] ∧ value < 256 ^ width := by
  constructor
  · intro h
    obtain ⟨width, hwidth⟩ := List.length_eq_one_iff.mp h.count.symm
    exact ⟨width, hwidth, h.bound (value, width) (by simp [hwidth])⟩
  · rintro ⟨width, hwidth, hlt⟩
    exact ⟨by simp [hwidth], by simpa [hwidth] using hlt⟩

/-! ## Patches of whole streams -/

section Stream
variable {front back : List Instruction} {i : Instruction}

/-- Where an instruction of a stream is patched, the patch succeeds if the instruction with the new operand
fits, and the stream is then the one that has this instruction there. -/
theorem patchInPlace_streamOf (h : ∀ j ∈ front ++ i :: back, j.Fits) (value : Nat) :
    ((Instruction.mk i.opcode [value]).Fits →
      patchInPlace (rowSize front) value (streamOf (front ++ i :: back)) =
        (.ok (), streamOf (front ++ ⟨i.opcode, [value]⟩ :: back))) ∧
    ∀ e, Instruction.encode ⟨i.opcode, [value]⟩ = .error e →
      patchInPlace (rowSize front) value (streamOf (front ++ i :: back)) =
        (.error e, streamOf (front ++ i :: back)) := by
  obtain ⟨hfront, hback⟩ := List.forall_mem_append.mp h
  obtain ⟨hold, hback⟩ := List.forall_mem_cons.mp hback
  have hsize := length_rowBytes hfront
  have hbyte : (streamOf (front ++ i :: back))[rowSize front]?.bind Opcode.ofByte? = some i.opcode := by
    rw [streamOf_append_cons, ← hsize, List.getElem?_toArray, List.getElem?_append_right (Nat.le_refl _),
      Nat.sub_self]
    exact Opcode.ofByte?_byte i.opcode
  rw [patchInPlace_eq, hbyte]
  refine ⟨fun hnew => ?_, fun e he => by simp only [he]⟩
  have hlength : i.bytes.length = (Instruction.bytes ⟨i.opcode, [value]⟩).length :=
    (Instruction.length_bytes hold).trans (Instruction.length_bytes hnew).symm
  have hroom : rowSize front + (Instruction.bytes ⟨i.opcode, [value]⟩).length ≤
      (streamOf (front ++ i :: back)).size := by
    rw [size_streamOf h, rowSize_append, rowSize_cons, Instruction.length_bytes hnew]
    exact Nat.add_le_add_left (Nat.le_add_right _ _) _
  simp only [(Instruction.encode_eq_ok_iff _ _).mpr ⟨hnew, rfl⟩, if_pos hroom]
  rw [streamOf_append_cons, streamOf_append_cons, ← hsize, overwrite_append hlength]

end Stream

/-- The rows around an instruction of a row. -/
theorem located_eq_append_cons {start offset : Nat} {row : List Instruction} {i : Instruction}
    {front back : List (Nat × Instruction)} (h : located start row = front ++ (offset, i) :: back) :
    ∃ a b, row = a ++ i :: b ∧ offset = start + rowSize a ∧ front = located start a ∧
      back = located (offset + i.length) b := by
  induction row generalizing start front with
  | nil => simp [located] at h
  | cons j row ih =>
    cases front with
    | nil =>
      obtain ⟨hhead, rfl⟩ := List.cons.inj h
      obtain ⟨rfl, rfl⟩ := Prod.mk.inj hhead
      exact ⟨[], row, rfl, rfl, rfl, rfl⟩
    | cons first front =>
      obtain ⟨rfl, hrest⟩ := List.cons.inj h
      obtain ⟨a, b, rfl, rfl, rfl, rfl⟩ := ih hrest
      exact ⟨j :: a, b, rfl, by rw [rowSize_cons, Nat.add_assoc], rfl, rfl⟩

/-! ## Locality -/

/-- A patch keeps the opcode byte and everything beside the operand of the instruction. -/
theorem getElem?_patched {code : Code} {offset k value : Nat} {op : Opcode}
    (hbyte : code[offset]? = some op.byte) (hfits : (Instruction.mk op [value]).Fits)
    (hk : k ≤ offset ∨ offset + op.encodedLength ≤ k) :
    (overwrite code offset (Instruction.bytes ⟨op, [value]⟩))[k]? = code[k]? := by
  by_cases heq : k = offset
  · -- the first byte that is written is the one that stands there
    subst heq
    have hset : code.setIfInBounds k op.byte = code := by
      obtain ⟨hlt, hget⟩ := Array.getElem?_eq_some_iff.mp hbyte
      rw [← hget, Array.setIfInBounds_def, dif_pos hlt, Array.set_getElem_self]
    rw [Instruction.bytes, overwrite, hset, getElem?_overwrite (.inl (Nat.lt_succ_self k))]
  · refine getElem?_overwrite ?_
    rw [Instruction.length_bytes hfits]
    exact hk.imp (Nat.lt_of_le_of_ne · heq) id

/-- An instruction stands wherever there is an opcode with room for its operands behind it. -/
theorem decodeAt_of_room {code : Code} {offset : Nat} {op : Opcode} (hbyte : code[offset]? = some op.byte)
    (hroom : offset + op.encodedLength ≤ code.size) :
    ∃ operands, decodeAt code offset = .ok ⟨op, operands⟩ := by
  have hread : readOperands code (offset + 1) op.widths ≠ none := fun hnone => by
    have := readOperands_eq_none hnone
    rw [Opcode.encodedLength] at hroom
    omega
  obtain ⟨operands, hoperands⟩ := Option.ne_none_iff_exists'.mp hread
  exact ⟨operands, by simp [decodeAt, hbyte, hoperands]⟩

/-- **Patching is local and atomic.**  Let a stream be read to its end.  At the offset of one of its
instructions a patch succeeds if and only if the operation has exactly one operand and the value is below the
bound of its width, and then the patched stream is read as before but for this operand.  In any stream and at
any offset, a patch that fails leaves all bytes as they were, and one that succeeds changes no byte but those
of the operand of the instruction that stands at the offset. -/
theorem patchInPlace_local_atomic :
    (∀ (code : Code) (front back : List (Nat × Instruction)) (offset : Nat) (i : Instruction),
      decodeAll code = .ok (front ++ (offset, i) :: back) → ∀ value : Nat,
      ((∃ patched, patchInPlace offset value code = (.ok (), patched)) ↔
        ∃ width, i.opcode.widths = [width] ∧ value < 256 ^ width) ∧
      ∀ patched, patchInPlace offset value code = (.ok (), patched) →
        decodeAll patched = .ok (front ++ (offset, ⟨i.opcode, [value]⟩) :: back)) ∧
    ∀ (code : Code) (offset value : Nat),
      (∀ e after, patchInPlace offset value code = (.error e, after) → after = code) ∧
      ∀ patched, patchInPlace offset value code = (.ok (), patched) → ∃ i : Instruction,
        decodeAt code offset = .ok i ∧ patched.size = code.size ∧
          ∀ k, k ≤ offset ∨ offset + i.length ≤ k → patched[k]? = code[k]? := by
  constructor
  · intro code front back offset i hrows value
    obtain ⟨row, hplaced, ⟨hrow, hbytes⟩ | ⟨e, herror, _⟩⟩ := decodeAll_cases code
    · obtain ⟨a, b, rfl, rfl, rfl, rfl⟩ := located_eq_append_cons (Except.ok.inj (hrow.symm.trans hrows))
      obtain rfl : streamOf (a ++ i :: b) = code := Array.toList_inj.mp hbytes
      obtain ⟨hok, herror⟩ := patchInPlace_streamOf hplaced.fits value
      rw [Nat.zero_add, ← Instruction.fits_singleton_iff]
      -- a patch that succeeded wrote an instruction that has an encoding
      have hfits : ∀ patched, patchInPlace (rowSize a) value (streamOf (a ++ i :: b)) = (.ok (), patched) →
          (Instruction.mk i.opcode [value]).Fits := fun patched hpatched => by
        cases hencode : Instruction.encode ⟨i.opcode, [value]⟩ with
        | ok bytes => exact ((Instruction.encode_eq_ok_iff _ _).mp hencode).1
        | error e =>
          rw [herror e hencode] at hpatched
          cases hpatched
      refine ⟨⟨fun ⟨patched, hpatched⟩ => hfits patched hpatched, fun hnew => ⟨_, hok hnew⟩⟩,
        fun patched hpatched => ?_⟩
      have hnew := hfits patched hpatched
      obtain rfl := (Prod.mk.inj ((hok hnew).symm.trans hpatched)).2
      obtain ⟨hfront, hback⟩ := List.forall_mem_append.mp hplaced.fits
      have hback := List.forall_mem_cons.mp hback
      rw [decodeAll_streamOf (List.forall_mem_append.mpr ⟨hfront, List.forall_mem_cons.mpr ⟨hnew, hback.2⟩⟩),
        located_append, Nat.zero_add]
      rfl
    · rw [hrows] at herror
      cases herror
  · intro code offset value
    rcases patchInPlace_cases code offset value with ⟨e, hrun⟩ | ⟨op, hbyte, hfits, hroom, hrun⟩
    · rw [hrun]
      exact ⟨fun _ _ h => (Prod.mk.inj h).2.symm, fun _ h => nomatch (Prod.mk.inj h).1⟩
    · rw [hrun]
      refine ⟨fun _ _ h => (nomatch (Prod.mk.inj h).1), fun patched h => ?_⟩
      obtain rfl := (Prod.mk.inj h).2
      obtain ⟨operands, hdecode⟩ := decodeAt_of_room hbyte hroom
      exact ⟨_, hdecode, size_overwrite .., fun k hk => getElem?_patched hbyte hfits hk⟩

/-- A jump between two other instructions takes the greatest target and none beyond, and a patch inside of the
jump writes the operand of the instruction that is read from there. -/
theorem patchInPlace_jump :
    decodeAll #[0x10, 0x60, 0, 0, 0x10] =
      .ok ([(0, ⟨.add, []⟩)] ++ (1, ⟨.jump, [0]⟩) :: [(4, ⟨.add, []⟩)]) ∧
    (∃ patched, patchInPlace 1 65535 #[0x10, 0x60, 0, 0, 0x10] = (.ok (), patched) ∧
      decodeAll patched = .ok ([(0, ⟨.add, []⟩)] ++ (1, ⟨.jump, [65535]⟩) :: [(4, ⟨.add, []⟩)])) ∧
    (¬ ∃ patched, patchInPlace 1 65536 #[0x10, 0x60, 0, 0, 0x10] = (.ok (), patched)) ∧
    patchInPlace 2 258 #[0x10, 0x60, 0, 0, 0x10] = (.ok (), #[0x10, 0x60, 0, 1, 2]) ∧
    ∃ i, decodeAt #[0x10, 0x60, 0, 0, 0x10] 2 = .ok i ∧
      ∀ k, k ≤ 2 ∨ 2 + i.length ≤ k → (#[0x10, 0x60, 0, 1, 2] : Code)[k]? = #[0x10, 0x60, 0, 0, 0x10][k]? := by
  obtain ⟨hstream, hbytes⟩ := patchInPlace_local_atomic
  have hrows : decodeAll #[0x10, 0x60, 0, 0, 0x10] =
      .ok ([(0, ⟨.add, []⟩)] ++ (1, ⟨.jump, [0]⟩) :: [(4, ⟨.add, []⟩)]) := rfl
  obtain ⟨hgreatest, hpatched⟩ := hstream _ _ _ _ _ hrows 65535
  obtain ⟨patched, hrun⟩ := hgreatest.mpr ⟨2, rfl, by decide⟩
  have hbeyond : ¬ ∃ width, Opcode.jump.widths = [width] ∧ 65536 < 256 ^ width := by
    rintro ⟨width, hwidth, hlt⟩
    obtain rfl := (List.cons.inj hwidth).1
    exact absurd hlt (by decide)
  have hinside : patchInPlace 2 258 #[0x10, 0x60, 0, 0, 0x10] = (.ok (), #[0x10, 0x60, 0, 1, 2]) := rfl
  obtain ⟨i, hdecode, _, hrest⟩ := (hbytes _ _ _).2 _ hinside
  exact ⟨hrows, ⟨patched, hrun, hpatched patched hrun⟩,
    fun h => hbeyond ((hstream _ _ _ _ _ hrows 65536).1.mp h), hinside, i, hdecode, hrest⟩

end PipeExpr
