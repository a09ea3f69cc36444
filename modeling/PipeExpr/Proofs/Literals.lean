import Mathlib
import PipeExpr.Proofs.Respacing

/-!
# Spellings of texts

A text literal may be spelled in many ways, and the scanner reads all of them and nothing else
(`Scanner.literals_decoded`).

What a spelling is, is said without the scanner: a text is spelled character by character
(`SpelledText`), each one as itself, by an escape of one letter, or by the digits of its code units
(`Spelled`).  Reading takes one spelled character after the other, so a spelled text is read whatever
stands behind its last quote (`quotedBody_spelled`), and what has been read is spelled
(`quotedBody_reads`).  The arithmetic of surrogates is in two lemmas about one escape,
`unicodeEscape_spelled` and `unicodeEscape_reads`.
-/

namespace PipeExpr

namespace Scan

/-! ## What a spelling is -/

/-- The characters that a backslash and one more character stand for. -/
def shortEscapes : List (Char × Char) :=
  [('n', '\n'), ('t', '\t'), ('r', '\r'), ('b', '\x08'), ('f', '\x0c'), ('0', '\x00'), ('/', '/'),
    ('"', '"'), ('\'', '\''), ('\\', '\\')]

/-- The hexadecimal digits, the greater ones in lower case and in upper case. -/
def lowerDigits : List Char :=
  ['0', '1', '2', '3', '4', '5', '6', '7', '8', '9', 'a', 'b', 'c', 'd', 'e', 'f']

@[inherit_doc lowerDigits]
def upperDigits : List Char :=
  ['0', '1', '2', '3', '4', '5', '6', '7', '8', '9', 'A', 'B', 'C', 'D', 'E', 'F']

/-- Whether a character is the hexadecimal digit of a number, in either case. -/
def IsHex (c : Char) (n : Nat) : Prop := lowerDigits[n]? = some c ∨ upperDigits[n]? = some c

instance (c : Char) (n : Nat) : Decidable (IsHex c n) :=
  inferInstanceAs (Decidable (_ ∨ _))

/-- Whether four characters are the hexadecimal digits of a code unit. -/
def SpellsUnit (digits : List Char) (unit : Nat) : Prop :=
  ∃ a b c d i j k l, digits = [a, b, c, d] ∧ IsHex a i ∧ IsHex b j ∧ IsHex c k ∧ IsHex d l ∧
    unit = i * 16 ^ 3 + j * 16 ^ 2 + k * 16 + l

/-- What may stand behind `\u`: the digits of a character of one code unit, or those of both halves of
a pair of surrogates. -/
inductive SpelledUnits (c : Char) : List Char → Prop where
  | one {digits : List Char} (h : SpellsUnit digits c.toNat) : SpelledUnits c digits
  | pair {high low : List Char} (hc : 0xFFFF < c.toNat)
    (hhigh : SpellsUnit high (0xD800 + (c.toNat - 0x10000) / 0x400))
    (hlow : SpellsUnit low (0xDC00 + (c.toNat - 0x10000) % 0x400)) :
    SpelledUnits c (high ++ '\\' :: 'u' :: low)

/-- The spellings of a character between quotes. -/
inductive Spelled (quote c : Char) : List Char → Prop where
  | itself (hquote : c ≠ quote) (hescape : c ≠ '\\') : Spelled quote c [c]
  | short {letter : Char} (h : (letter, c) ∈ shortEscapes) : Spelled quote c ['\\', letter]
  | units {digits : List Char} (h : SpelledUnits c digits) : Spelled quote c ('\\' :: 'u' :: digits)

/-- The spellings of a text between quotes. -/
inductive SpelledText (quote : Char) : List Char → List Char → Prop where
  | nil : SpelledText quote [] []
  | cons {c : Char} {w cs ws : List Char} (hc : Spelled quote c w) (hcs : SpelledText quote cs ws) :
    SpelledText quote (c :: cs) (w ++ ws)

/-- A text with its quotes doubled. -/
def doubled (quote : Char) (cs : List Char) : List Char :=
  cs.flatMap fun c => if c = quote then [quote, quote] else [c]

/-- The literals of a text: between quotes, and raw. -/
inductive Spells (s : String) : (raw : Bool) → (quote : Char) → List Char → Prop where
  | quoted {quote : Char} {body : List Char} (h : SpelledText quote s.toList body) :
    Spells s false quote (quote :: (body ++ [quote]))
  | raw (quote : Char) : Spells s true quote ('r' :: quote :: (doubled quote s.toList ++ [quote]))

/-! ## Digits -/

theorem IsHex.lt {c : Char} {n : Nat} (h : IsHex c n) : n < 16 := by
  rcases h with h | h
  · exact (List.getElem?_eq_some_iff.mp h).1
  · exact (List.getElem?_eq_some_iff.mp h).1

theorem hexDigit?_of_isHex {c : Char} {n : Nat} (h : IsHex c n) : Text.hexDigit? c = some n := by
  have hlower : ∀ i : Fin 16, lowerDigits[i.val]?.bind Text.hexDigit? = some i.val := by decide
  have hupper : ∀ i : Fin 16, upperDigits[i.val]?.bind Text.hexDigit? = some i.val := by decide
  have hn := h.lt
  rcases h with h | h
  · have hdigit := hlower ⟨n, hn⟩
    rwa [h, Option.bind_some] at hdigit
  · have hdigit := hupper ⟨n, hn⟩
    rwa [h, Option.bind_some] at hdigit

theorem isHex_of_hexDigit? {c : Char} {n : Nat} (h : Text.hexDigit? c = some n) : IsHex c n := by
  have hascii : c.toNat < 128 := by
    by_contra hge
    have hnone : Text.hexDigit? c = none := by
      unfold Text.hexDigit?
      simp only [Char.le_def, UInt32.le_iff_toNat_le]
      change (if 48 ≤ c.toNat ∧ c.toNat ≤ 57 then _ else if 65 ≤ c.toNat ∧ c.toNat ≤ 70 then _
        else if 97 ≤ c.toNat ∧ c.toNat ≤ 102 then _ else _) = _
      rw [if_neg (by omega), if_neg (by omega), if_neg (by omega)]
    rw [hnone] at h
    cases h
  have htable : ∀ k : Fin 128, ∀ n ∈ Text.hexDigit? (Char.ofNat k), IsHex (Char.ofNat k) n := by decide
  have hdigit := htable ⟨c.toNat, hascii⟩ n
  rw [Char.ofNat_toNat c] at hdigit
  exact hdigit h

section Units
variable {digits cs more : List Char} {unit : Nat} {c : Char} {n : Nat}

theorem SpellsUnit.length (h : SpellsUnit digits unit) : digits.length = 4 := by
  obtain ⟨_, _, _, _, _, _, _, _, rfl, _⟩ := h
  rfl

theorem SpellsUnit.lt (h : SpellsUnit digits unit) : unit < 2 ^ 16 := by
  obtain ⟨a, b, c, d, i, j, k, l, rfl, ha, hb, hc, hd, rfl⟩ := h
  have hi := ha.lt
  have hj := hb.lt
  have hk := hc.lt
  have hl := hd.lt
  omega

theorem hexQuad_spelled (h : SpellsUnit digits unit) (more : List Char) :
    hexQuad (digits ++ more) = .ok unit := by
  obtain ⟨a, b, c, d, i, j, k, l, rfl, ha, hb, hc, hd, rfl⟩ := h
  unfold hexQuad
  simp only [List.cons_append, List.nil_append, List.take_succ_cons, List.take_zero, List.map_cons,
    List.map_nil, hexDigit?_of_isHex ha, hexDigit?_of_isHex hb, hexDigit?_of_isHex hc,
    hexDigit?_of_isHex hd, List.takeWhile_cons, Option.isSome_some, if_true, List.takeWhile_nil,
    List.length_cons, List.length_nil, List.foldl_cons, List.foldl_nil, Option.getD_some]
  congr 1
  ring

theorem hexQuad_reads (h : hexQuad cs = .ok unit) :
    ∃ digits back, cs = digits ++ back ∧ SpellsUnit digits unit := by
  obtain ⟨digits, back, rfl, hfour, hdigits⟩ := hexQuad_kept h
  refine ⟨digits, back, rfl, ?_⟩
  have hread := hdigits []
  rw [List.append_nil] at hread
  obtain ⟨a, b, c, d, rfl⟩ : ∃ a b c d, digits = [a, b, c, d] := by
    match digits, hfour with
    | [a, b, c, d], _ => exact ⟨a, b, c, d, rfl⟩
  unfold hexQuad at hread
  simp only [List.take_succ_cons, List.take_nil, List.map_cons, List.map_nil, List.takeWhile_cons,
    List.takeWhile_nil] at hread
  cases ha : Text.hexDigit? a with
  | none => simp [ha] at hread
  | some i =>
  cases hb : Text.hexDigit? b with
  | none => simp [ha, hb] at hread
  | some j =>
  cases hc : Text.hexDigit? c with
  | none => simp [ha, hb, hc] at hread
  | some k =>
  cases hd : Text.hexDigit? d with
  | none => simp [ha, hb, hc, hd] at hread
  | some l =>
  simp only [ha, hb, hc, hd, Option.isSome_some, if_true, List.length_cons, List.length_nil,
    List.foldl_cons, List.foldl_nil, Option.getD_some] at hread
  refine ⟨a, b, c, d, i, j, k, l, rfl, isHex_of_hexDigit? ha, isHex_of_hexDigit? hb,
    isHex_of_hexDigit? hc, isHex_of_hexDigit? hd, ?_⟩
  rw [← Except.ok.inj hread]
  ring

/-! ## Code units -/

theorem isHighSurrogate_iff : isHighSurrogate unit = true ↔ 0xD800 ≤ unit ∧ unit < 0xDC00 := by
  simp [isHighSurrogate]

theorem isLowSurrogate_iff : isLowSurrogate unit = true ↔ 0xDC00 ≤ unit ∧ unit < 0xE000 := by
  simp [isLowSurrogate]

theorem toNat_valid (c : Char) : c.toNat < 0xD800 ∨ 0xDFFF < c.toNat ∧ c.toNat < 0x110000 := c.valid

theorem toNat_ofNat (h : unit < 0xD800 ∨ 0xDFFF < unit ∧ unit < 0x110000) : (Char.ofNat unit).toNat = unit :=
  (Char.toNat_ofNat unit).trans (if_pos h)

/-- The digits of a character are read as this character. -/
theorem unicodeEscape_spelled (h : SpelledUnits c digits) (more : List Char) :
    unicodeEscape (digits ++ more) = .ok (c, digits.length) := by
  have hvalid := toNat_valid c
  cases h with
  | one h =>
    have hhigh : ¬ isHighSurrogate c.toNat = true := by rw [isHighSurrogate_iff]; omega
    have hlow : ¬ isLowSurrogate c.toNat = true := by rw [isLowSurrogate_iff]; omega
    unfold unicodeEscape
    rw [hexQuad_spelled h]
    simp only [if_neg hhigh, if_neg hlow, h.length, Char.ofNat_toNat]
  | @pair high low hc hhigh hlow =>
    have hisHigh : isHighSurrogate (0xD800 + (c.toNat - 0x10000) / 0x400) = true := by
      rw [isHighSurrogate_iff]
      omega
    have hisLow : isLowSurrogate (0xDC00 + (c.toNat - 0x10000) % 0x400) = true := by
      rw [isLowSurrogate_iff]
      omega
    have hpair : pairChar (0xD800 + (c.toNat - 0x10000) / 0x400) (0xDC00 + (c.toNat - 0x10000) % 0x400) = c := by
      unfold pairChar
      rw [show 0x10000 + (0xD800 + (c.toNat - 0x10000) / 0x400 - 0xD800) * 1024 +
        (0xDC00 + (c.toNat - 0x10000) % 0x400 - 0xDC00) = c.toNat by omega, Char.ofNat_toNat]
    unfold unicodeEscape
    rw [List.append_assoc, hexQuad_spelled hhigh]
    simp only [hisHigh, if_true, List.drop_left' hhigh.length, List.cons_append, hexQuad_spelled hlow, hisLow,
      hpair, List.length_append, List.length_cons, hhigh.length, hlow.length]

/-- What is read as a character are its digits. -/
theorem unicodeEscape_reads (h : unicodeEscape cs = .ok (c, n)) :
    ∃ digits back, cs = digits ++ back ∧ n = digits.length ∧ SpelledUnits c digits := by
  unfold unicodeEscape at h
  split at h
  · cases h
  rename_i high hhigh
  obtain ⟨digits, back, rfl, hspells⟩ := hexQuad_reads hhigh
  rw [List.drop_left' hspells.length] at h
  split at h
  -- the first half of a pair
  · rename_i hsurrogate
    rw [isHighSurrogate_iff] at hsurrogate
    split at h
    · rename_i rest
      split at h
      · cases h
      rename_i low hlow
      obtain ⟨digits', back, rfl, hspells'⟩ := hexQuad_reads hlow
      split at h
      · rename_i hpair
        rw [isLowSurrogate_iff] at hpair
        obtain ⟨rfl, rfl⟩ := Prod.mk.inj (Except.ok.inj h)
        have hc : (pairChar high low).toNat = 0x10000 + (high - 0xD800) * 1024 + (low - 0xDC00) :=
          toNat_ofNat (by omega)
        refine ⟨digits ++ '\\' :: 'u' :: digits', back, by simp,
          by simp [hspells.length, hspells'.length], .pair (by omega) ?_ ?_⟩
        · rwa [hc, show 0xD800 + (0x10000 + (high - 0xD800) * 1024 + (low - 0xDC00) - 0x10000) / 0x400 = high
            by omega]
        · rwa [hc, show 0xDC00 + (0x10000 + (high - 0xD800) * 1024 + (low - 0xDC00) - 0x10000) % 0x400 = low
            by omega]
      · cases h
    · cases h
  · rename_i hhigh'
    split at h
    · cases h
    rename_i hlow'
    rw [isHighSurrogate_iff] at hhigh'
    rw [isLowSurrogate_iff] at hlow'
    obtain ⟨rfl, rfl⟩ := Prod.mk.inj (Except.ok.inj h)
    have hlt := hspells.lt
    have hc : (Char.ofNat high).toNat = high := toNat_ofNat (by omega)
    exact ⟨digits, back, rfl, hspells.length.symm, .one (hc.symm ▸ hspells)⟩

end Units

/-! ## Texts between quotes -/

section Quoted
variable {quote c : Char} {cs w body more value : List Char} {fuel length : Nat}

theorem shortEscape?_iff {letter : Char} : shortEscape? letter = some c ↔ (letter, c) ∈ shortEscapes := by
  constructor
  · intro h
    unfold shortEscape? at h
    split at h
    case h_11 => cases h
    all_goals
      obtain rfl := Option.some.inj h
      decide
  · intro h
    have htable : ∀ e ∈ shortEscapes, shortEscape? e.1 = some e.2 := by decide
    exact htable _ h

theorem Spelled.pos (h : Spelled quote c w) : 0 < w.length := by
  cases h <;> exact Nat.succ_pos _

/-- **One turn reads one character**, however it is spelled. -/
theorem quotedBody_step (hquote : quote ≠ '\\') (h : Spelled quote c w) (fuel : Nat) (more : List Char)
    (length : Nat) (value : List Char) : quotedBody quote (fuel + 1) (w ++ more) length value =
      quotedBody quote fuel more (length + w.length) (c :: value) := by
  cases h with
  | itself hc hescape =>
    rw [List.singleton_append]
    conv => lhs; unfold quotedBody
    rw [if_neg hc, if_neg hescape]
    rfl
  | @short letter hletter =>
    rw [List.cons_append, List.singleton_append]
    conv => lhs; unfold quotedBody
    rw [if_neg hquote.symm, if_pos rfl]
    have hne : letter ≠ 'u' := by
      rintro rfl
      exact absurd hletter (by simp [shortEscapes])
    split
    · rename_i heq
      cases heq
    · rename_i heq
      exact absurd (List.cons.inj heq).1 hne
    · rename_i heq
      obtain ⟨rfl, rfl⟩ := List.cons.inj heq
      rw [shortEscape?_iff.mpr hletter]
      rfl
  | @units digits hdigits =>
    have hlength : length + 2 + digits.length = length + ('\\' :: 'u' :: digits).length := by
      simp only [List.length_cons]
      omega
    rw [List.cons_append, List.cons_append]
    conv => lhs; unfold quotedBody
    rw [if_neg hquote.symm, if_pos rfl]
    simp only [unicodeEscape_spelled hdigits, List.drop_left, hlength]

/-- **A spelled text is read** whatever stands behind its last quote. -/
theorem quotedBody_spelled (hquote : quote ≠ '\\') (h : SpelledText quote cs body) (more : List Char) :
    ∀ fuel length value, body.length < fuel →
      quotedBody quote fuel (body ++ quote :: more) length value =
        .ok (value.reverse ++ cs, length + body.length + 1) := by
  induction h with
  | nil =>
    intro fuel length value hfuel
    obtain ⟨fuel, rfl⟩ : ∃ f, fuel = f + 1 := ⟨fuel - 1, by omega⟩
    rw [List.nil_append]
    unfold quotedBody
    rw [if_pos rfl, List.append_nil]
    rfl
  | @cons c w cs ws hc hcs ih =>
    intro fuel length value hfuel
    have hpos := hc.pos
    rw [List.length_append] at hfuel
    obtain ⟨fuel, rfl⟩ : ∃ f, fuel = f + 1 := ⟨fuel - 1, by omega⟩
    rw [List.append_assoc, quotedBody_step hquote hc, ih fuel _ _ (by omega), List.reverse_cons,
      List.append_assoc, List.singleton_append, List.length_append, ← Nat.add_assoc]

/-- **What has been read is spelled**, up to its last quote. -/
theorem quotedBody_reads {result : List Char × Nat}
    (h : quotedBody quote fuel cs length value = .ok result) : ∃ s body more, cs = body ++ quote :: more ∧
      SpelledText quote s body ∧ result = (value.reverse ++ s, length + body.length + 1) := by
  -- one spelled character in front of what the other turns read
  have turn : ∀ {c : Char} {w rest value : List Char} {length : Nat} {result : List Char × Nat},
      Spelled quote c w → (∃ s body more, rest = body ++ quote :: more ∧ SpelledText quote s body ∧
        result = ((c :: value).reverse ++ s, length + w.length + body.length + 1)) →
      ∃ s body more, w ++ rest = body ++ quote :: more ∧ SpelledText quote s body ∧
        result = (value.reverse ++ s, length + body.length + 1) := by
    rintro c w rest value length result hc ⟨s, body, more, rfl, hs, rfl⟩
    refine ⟨c :: s, w ++ body, more, (List.append_assoc ..).symm, .cons hc hs, ?_⟩
    rw [List.reverse_cons, List.append_assoc, List.singleton_append, List.length_append, Nat.add_assoc length]
  fun_induction quotedBody quote fuel cs length value with
  | case1 | case2 | case4 | case6 | case8 => cases h
  | case3 _ cs length value =>
    obtain rfl := Except.ok.inj h
    exact ⟨[], [], cs, rfl, .nil, by rw [List.append_nil]; rfl⟩
  -- an escape by its number
  | case5 _ length value rest d n hescape hquote ih =>
    obtain ⟨digits, back, rfl, rfl, hdigits⟩ := unicodeEscape_reads hescape
    rw [List.drop_left] at ih h
    have hread := ih h
    rw [show length + 2 + digits.length = length + ('\\' :: 'u' :: digits).length by
      simp only [List.length_cons]; omega] at hread
    exact turn (.units hdigits) hread
  -- an escape by a letter
  | case7 _ length value e rest hletter d hescape hquote ih =>
    exact turn (.short (shortEscape?_iff.mp hescape)) (ih h)
  | case9 _ c cs length value hquote hescape ih => exact turn (.itself hquote hescape) (ih h)

/-- Any other text has a wrong escape or no last quote. -/
theorem quotedBody_fails {failure : Failure} (h : quotedBody quote fuel cs length value = .error failure) :
    failure.fault.code = .invalidEscape ∨ failure.fault.code = .unterminatedString := by
  fun_induction quotedBody quote fuel cs length value with
  | case1 | case2 | case4 =>
    obtain rfl := Except.error.inj h
    exact .inr rfl
  | case6 | case8 =>
    obtain rfl := Except.error.inj h
    exact .inl rfl
  | case3 => cases h
  | case5 _ _ _ _ _ _ _ _ ih => exact ih h
  | case7 _ _ _ _ _ _ _ _ _ ih => exact ih h
  | case9 _ _ _ _ _ _ _ ih => exact ih h

end Quoted

/-! ## Raw texts -/

section Raw
variable {quote : Char} {cs more value : List Char} {length : Nat}

theorem doubled_cons_quote (quote : Char) (cs : List Char) :
    doubled quote (quote :: cs) = quote :: quote :: doubled quote cs := by
  simp [doubled]

theorem doubled_cons_other {c : Char} (h : c ≠ quote) (cs : List Char) :
    doubled quote (c :: cs) = c :: doubled quote cs := by
  simp [doubled, h]

/-- A character that is no quote is read as itself, in front of anything. -/
theorem rawBody_other {c : Char} (h : c ≠ quote) (hmore : more ≠ []) (length : Nat) (value : List Char) :
    rawBody quote (c :: more) length value = rawBody quote more (length + 1) (c :: value) := by
  obtain ⟨d, more, rfl⟩ := List.exists_cons_of_ne_nil hmore
  conv => lhs; unfold rawBody
  rw [if_neg h]

/-- **A text with its quotes doubled is read** if no other quote stands behind its last one. -/
theorem rawBody_doubled (hmore : ∀ c ∈ more.head?, c ≠ quote) (cs : List Char) : ∀ length value,
    rawBody quote (doubled quote cs ++ quote :: more) length value =
      .ok (value.reverse ++ cs, length + (doubled quote cs).length + 1) := by
  induction cs with
  | nil =>
    intro length value
    rw [List.append_nil]
    exact rawBody_quote length value hmore
  | cons c cs ih =>
    intro length value
    by_cases hc : c = quote
    · subst hc
      rw [doubled_cons_quote, List.cons_append, List.cons_append]
      unfold rawBody
      rw [if_pos rfl, if_pos rfl, ih]
      simp only [List.reverse_cons, List.append_assoc, List.singleton_append, List.length_cons]
      congr 2
      omega
    · rw [doubled_cons_other hc, List.cons_append, rawBody_other hc (by simp), ih]
      simp only [List.reverse_cons, List.append_assoc, List.singleton_append, List.length_cons]
      congr 2
      omega

/-- **What has been read has its quotes doubled**, up to the last one. -/
theorem rawBody_reads {result : List Char × Nat} (h : rawBody quote cs length value = .ok result) :
    ∃ s more, cs = doubled quote s ++ quote :: more ∧ (∀ c ∈ more.head?, c ≠ quote) ∧
      result = (value.reverse ++ s, length + (doubled quote s).length + 1) := by
  fun_induction rawBody quote cs length value with
  | case1 | case3 => cases h
  | case2 length value =>
    obtain rfl := Except.ok.inj h
    exact ⟨[], [], rfl, fun _ hc => (Option.not_mem_none _ hc).elim, by rw [List.append_nil]; rfl⟩
  | case4 rest length value ih =>
    obtain ⟨s, more, rfl, hmore, rfl⟩ := ih h
    refine ⟨quote :: s, more, by rw [doubled_cons_quote]; rfl, hmore, ?_⟩
    simp only [doubled_cons_quote, List.reverse_cons, List.append_assoc, List.singleton_append,
      List.length_cons]
    congr 1
    omega
  | case5 d rest length value hquote =>
    obtain rfl := Except.ok.inj h
    exact ⟨[], d :: rest, rfl, fun c hc => Option.some.inj hc ▸ hquote, by rw [List.append_nil]; rfl⟩
  | case6 c d rest length value hquote ih =>
    obtain ⟨s, more, hrest, hmore, rfl⟩ := ih h
    refine ⟨c :: s, more, by rw [doubled_cons_other hquote, hrest]; rfl, hmore, ?_⟩
    simp only [doubled_cons_other hquote, List.reverse_cons, List.append_assoc, List.singleton_append,
      List.length_cons]
    congr 1
    omega

theorem rawBody_fails {failure : Failure} (h : rawBody quote cs length value = .error failure) :
    failure.fault.code = .unterminatedString := by
  fun_induction rawBody quote cs length value with
  | case1 | case3 =>
    obtain rfl := Except.error.inj h
    rfl
  | case2 | case5 => cases h
  | case4 _ _ _ ih => exact ih h
  | case6 _ _ _ _ _ _ ih => exact ih h

end Raw

/-! ## Literals -/

section Literals
variable {ieee afterDot raw : Bool} {quote : Char} {s : String} {cs lit more : List Char} {found : Found}

/-- What must not stand behind a literal: another quote behind a raw one. -/
def Closed (raw : Bool) (quote : Char) (more : List Char) : Prop :=
  raw = true → ∀ c ∈ more.head?, c ≠ quote

theorem ne_of_isQuote (h : isQuote quote = true) : quote ≠ '\\' := by
  rintro rfl
  exact absurd h (by decide)

theorem isBlank_of_isQuote (hquote : isQuote quote = true) : Text.isBlank quote = false := by
  by_contra hblank
  rw [isQuote_of_isBlank (Bool.of_not_eq_false hblank)] at hquote
  cases hquote

theorem Spells.visible (hquote : isQuote quote = true) (h : Spells s raw quote lit) :
    ∃ c rest, lit = c :: rest ∧ Text.isBlank c = false := by
  cases h with
  | quoted => exact ⟨quote, _, rfl, isBlank_of_isQuote hquote⟩
  | raw => exact ⟨'r', _, rfl, rfl⟩

/-- The characters of a spelling are read behind its opening. -/
theorem literalBody_spells (hquote : isQuote quote = true) (h : Spells s raw quote lit)
    (hmore : Closed raw quote more) : ∃ rest, lit ++ more = opening raw quote ++ rest ∧
      literalBody raw quote rest = .ok (s.toList, lit.length) := by
  cases h with
  | @quoted _ body h =>
    refine ⟨body ++ quote :: more, by simp [opening], ?_⟩
    refine (quotedBody_spelled (ne_of_isQuote hquote) h more _ 1 [] ?_).trans ?_
    · rw [List.length_append]
      omega
    · simp only [List.reverse_nil, List.nil_append, List.length_cons, List.length_append, List.length_nil]
      congr 2
      omega
  | raw =>
    refine ⟨doubled quote s.toList ++ quote :: more, by simp [opening], ?_⟩
    refine (rawBody_doubled (hmore rfl) s.toList 2 []).trans ?_
    simp only [List.reverse_nil, List.nil_append, List.length_cons, List.length_append, List.length_nil]
    congr 2
    omega

/-- **Every spelling is read**, whatever stands behind it. -/
theorem token_spells (hquote : isQuote quote = true) (h : Spells s raw quote lit)
    (hmore : Closed raw quote more) : token ieee afterDot (lit ++ more) =
      .ok ⟨.string s, lit.length, quote == '\'', raw⟩ := by
  obtain ⟨rest, hsplit, hbody⟩ := literalBody_spells hquote h hmore
  rw [hsplit, token_opening afterDot hquote, literal_of_body hbody, String.ofList_toList]

/-- What is read as a literal is a spelling. -/
theorem literal_reads (h : literal raw quote cs = .ok found) : ∃ s lit more,
    opening raw quote ++ cs = lit ++ more ∧ Spells s raw quote lit ∧ Closed raw quote more ∧
      found = ⟨.string s, lit.length, quote == '\'', raw⟩ := by
  obtain ⟨value, length, hbody, rfl⟩ := of_literal h
  cases raw with
  | true =>
    obtain ⟨s, more, rfl, hmore, hresult⟩ := rawBody_reads hbody
    obtain ⟨rfl, rfl⟩ := Prod.mk.inj hresult
    refine ⟨String.ofList value, 'r' :: quote :: (doubled quote value ++ [quote]), more,
      by simp [opening], ?_, fun _ => hmore, ?_⟩
    · have hspells := Spells.raw (s := String.ofList value) quote
      rwa [String.toList_ofList] at hspells
    · simp only [List.length_cons, List.length_append, List.length_nil]
      congr 1
      omega
  | false =>
    obtain ⟨s, body, more, rfl, hs, hresult⟩ := quotedBody_reads hbody
    obtain ⟨rfl, rfl⟩ := Prod.mk.inj hresult
    refine ⟨String.ofList value, quote :: (body ++ [quote]), more, by simp [opening], ?_, nofun, ?_⟩
    · exact .quoted (by rwa [String.toList_ofList])
    · simp only [List.length_cons, List.length_append, List.length_nil]
      congr 1
      omega

theorem literal_fails {failure : Failure} (h : literal raw quote cs = .error failure) :
    failure.fault.code = .invalidEscape ∨ failure.fault.code = .unterminatedString := by
  rw [literal_eq] at h
  cases hbody : literalBody raw quote cs with
  | ok body =>
    rw [hbody] at h
    cases h
  | error failure' =>
    rw [hbody] at h
    obtain rfl := Except.error.inj h
    cases raw with
    | true => exact .inr (rawBody_fails hbody)
    | false => exact quotedBody_fails hbody

theorem wordKind_ne_string (w : String) : wordKind ieee w ≠ .string s := by
  unfold wordKind
  repeat' split
  all_goals exact nofun

/-- **Every text that is read is a spelling** of its value. -/
theorem token_string (h : token ieee afterDot cs = .ok found) (hs : found.kind = .string s) :
    ∃ quote lit more, isQuote quote = true ∧ cs = lit ++ more ∧ Spells s found.raw quote lit ∧
      found.length = lit.length ∧ found.singleQuoted = (quote == '\'') := by
  cases token_reading h with
  | symbol symbol _ hr =>
    obtain rfl := Except.ok.inj hr
    rcases symbolKind_kind symbol cs with ⟨_, hkind⟩ | ⟨_, hkind⟩ <;> cases hkind.symm.trans hs
  | eof _ hr =>
    obtain rfl := Except.ok.inj hr
    cases hs
  | text raw quote rest hquote hcs hr =>
    obtain ⟨s', lit, more, hsplit, hspells, -, rfl⟩ := literal_reads hr
    obtain rfl := TokenKind.string.inj hs
    exact ⟨quote, lit, more, hquote, hcs.trans hsplit, hspells, rfl, rfl⟩
  | number c rest _ _ hr =>
    obtain ⟨n, -, rfl⟩ := of_numberOf hr
    cases hs
  | name _ _ _ _ _ hr =>
    obtain rfl := Except.ok.inj hr
    exact absurd hs (wordKind_ne_string _)
  | stray _ _ _ hr => cases hr
  | invalid _ _ _ _ _ _ _ hr => cases hr

end Literals

end Scan

/-! ## Scanning literals -/

namespace Scanner
open Scan

variable {σ : Scanner} {before rest lit more : List Char} {s : String} {raw : Bool} {quote : Char}

theorem dropWhile_visible {c : Char} (h : Text.isBlank c = false) (rest : List Char) :
    (c :: rest).dropWhile Text.isBlank = c :: rest ∧ (c :: rest).takeWhile Text.isBlank = [] :=
  ⟨List.dropWhile_cons_of_neg (by rw [h]; exact Bool.false_ne_true),
    List.takeWhile_cons_of_neg (by rw [h]; exact Bool.false_ne_true)⟩

/-- The token of a literal. -/
def literalToken (s : String) (raw : Bool) (quote : Char) (lit : List Char) (position : Position) : Token :=
  ⟨.string s, String.ofList lit, position, quote == '\'', raw⟩

theorem next_spells (hσ : σ.halted = false) (hquote : isQuote quote = true) (h : Spells s raw quote lit)
    (hmore : Closed raw quote more) (hrest : σ.rest = lit ++ more) :
    σ.next = (.ok (literalToken s raw quote lit σ.position),
      ⟨more, σ.position.after lit, σ.ieee, false, false⟩) := by
  obtain ⟨c, cs, hlit, hblank⟩ := h.visible hquote
  obtain ⟨hdrop, htake⟩ := dropWhile_visible hblank (cs ++ more)
  rw [← List.cons_append, ← hlit, ← hrest] at hdrop htake
  have htoken : Scan.token σ.ieee σ.afterDot (σ.rest.dropWhile Text.isBlank) = _ :=
    (congrArg _ (hdrop.trans hrest)).trans (token_spells hquote h hmore)
  rw [next_found hσ htoken, htake, hdrop, hrest, List.take_left, List.drop_left]
  rfl

/-- The tokens of a running scanner are the one of its next call and those behind it. -/
theorem tokens_of_next {σ' : Scanner} {t : Token} (hσ : σ.Ready before) (hnext : σ.next = (.ok t, σ'))
    (ht : t.kind.isEof = false) : σ.tokens = (t :: σ'.tokens.1, σ'.tokens.2) := by
  obtain ⟨ps, last, hrun⟩ := hσ.run
  cases hrun with
  | stop hstop _ hstops =>
    obtain ⟨rfl, -⟩ := Prod.mk.inj (hnext.symm.trans hstop)
    cases hstops with
    | eof => cases ht
  | @piece _ _ s' p ps _ hpiece hstands hsplit hrun =>
    obtain ⟨htoken, rfl⟩ := Prod.mk.inj (hnext.symm.trans hpiece)
    obtain rfl := Except.ok.inj htoken
    rw [hrun.tokens, (Run.piece hnext hstands hsplit hrun).tokens, List.map_cons]

theorem tokens_of_error {σ' : Scanner} {d : Diagnostic} (hσ : σ.Ready before)
    (hnext : σ.next = (.error d, σ')) : σ.tokens = ([], ⟨d.position, some d⟩) := by
  obtain ⟨ps, last, hrun⟩ := hσ.run
  cases hrun with
  | stop hstop hdone hstops =>
    obtain ⟨rfl, -⟩ := Prod.mk.inj (hnext.symm.trans hstop)
    exact (Run.stop hstop hdone hstops).tokens
  | piece hpiece => cases (Prod.mk.inj (hnext.symm.trans hpiece)).1

/-- **The scan stops at a literal that is none.** -/
theorem next_opening (hσ : σ.halted = false) (hquote : isQuote quote = true)
    (hrest : σ.rest = opening raw quote ++ rest)
    (hnone : ¬ ∃ s lit more, Spells s raw quote lit ∧ Closed raw quote more ∧ σ.rest = lit ++ more) :
    ∃ d σ', σ.next = (.error d, σ') ∧ (d.code = .invalidEscape ∨ d.code = .unterminatedString) := by
  obtain ⟨c, cs, hcs, hblank⟩ : ∃ c cs, σ.rest = c :: cs ∧ Text.isBlank c = false := by
    cases raw with
    | true => exact ⟨'r', quote :: rest, hrest, rfl⟩
    | false => exact ⟨quote, rest, hrest, isBlank_of_isQuote hquote⟩
  obtain ⟨hdrop, -⟩ := dropWhile_visible hblank cs
  rw [← hcs] at hdrop
  have htoken : token σ.ieee σ.afterDot (opening raw quote ++ rest) = _ :=
    token_opening σ.afterDot hquote raw rest
  cases hread : literal raw quote rest with
  | ok found =>
    obtain ⟨s, lit, more, hsplit, hspells, hclosed, -⟩ := literal_reads hread
    exact absurd ⟨s, lit, more, hspells, hclosed, hrest.trans hsplit⟩ hnone
  | error failure =>
    rw [hread, ← hrest, ← hdrop] at htoken
    exact ⟨_, _, next_failure hσ htoken, literal_fails hread⟩

/-- The lexeme of every text among the tokens is a spelling of it. -/
theorem Run.spells {ps : List Piece} {last : Except Diagnostic Token} (h : Run before σ ps last) :
    ∀ p ∈ ps, ∀ s, p.token.kind = .string s → ∃ quote, isQuote quote = true ∧
      p.token.singleQuoted = (quote == '\'') ∧ Spells s p.token.raw quote p.token.lexeme.toList := by
  induction h with
  | stop => exact fun _ hp => absurd hp List.not_mem_nil
  | piece hnext hstands _ _ ih =>
    refine List.forall_mem_cons.mpr ⟨fun s hs => ?_, ih⟩
    obtain ⟨found, hfound, hkind, hlexeme, hquoted, hraw, -⟩ := next_token hnext hstands.inner
    obtain ⟨quote, lit, more, hquote, hrest, hspells, hlength, hsingle⟩ :=
      token_string hfound (hkind.symm.trans hs)
    refine ⟨quote, hquote, hquoted.trans hsingle, ?_⟩
    rw [hlexeme, hrest, hlength, List.take_left, hraw]
    exact hspells

/-- **Text literals decode every spelling, and only valid ones.**  A scanner that runs in front of a
spelling of a text gives one token with this text, and goes on behind it.  What it gives as a text is
always spelled by the lexeme.  And where a literal begins that spells nothing, the scan ends with a
wrong escape or a missing quote. -/
theorem literals_decoded :
    (∀ before (σ : Scanner) s raw quote lit more, σ.Ready before → isQuote quote = true →
      Spells s raw quote lit → Closed raw quote more → σ.rest = lit ++ more →
      ∃ behind : Scanner, σ.next = (.ok (literalToken s raw quote lit σ.position), behind) ∧
        behind.Ready (before ++ lit) ∧ behind.rest = more ∧ behind.ieee = σ.ieee ∧
        behind.afterDot = false ∧
        σ.tokens = (literalToken s raw quote lit σ.position :: behind.tokens.1, behind.tokens.2)) ∧
    (∀ before (σ : Scanner), σ.Ready before → ∀ t ∈ σ.tokens.1, ∀ s, t.kind = .string s → ∃ quote,
      isQuote quote = true ∧ t.singleQuoted = (quote == '\'') ∧ Spells s t.raw quote t.lexeme.toList) ∧
    ∀ before (σ : Scanner) raw quote rest, σ.Ready before → isQuote quote = true →
      σ.rest = opening raw quote ++ rest →
      (¬ ∃ s lit more, Spells s raw quote lit ∧ Closed raw quote more ∧ σ.rest = lit ++ more) →
      ∃ d, σ.tokens = ([], ⟨d.position, some d⟩) ∧
        (d.code = .invalidEscape ∨ d.code = .unterminatedString) := by
  refine ⟨fun before σ s raw quote lit more hσ hquote hspells hclosed hrest => ?_,
    fun before σ hσ t ht s hs => ?_, fun before σ raw quote rest hσ hquote hrest hnone => ?_⟩
  · have hnext := next_spells hσ.running hquote hspells hclosed hrest
    refine ⟨_, hnext, ⟨rfl, ?_⟩, rfl, rfl, rfl, tokens_of_next hσ hnext rfl⟩
    rw [hσ.place]
    exact Position.behind_after before lit
  · obtain ⟨ps, last, hrun⟩ := hσ.run
    rw [hrun.tokens] at ht
    obtain ⟨p, hp, rfl⟩ := List.mem_map.mp ht
    exact hrun.spells p hp s hs
  · obtain ⟨d, σ', hnext, hcode⟩ := next_opening hσ.running hquote hrest hnone
    exact ⟨d, tokens_of_error hσ hnext, hcode⟩

/-- A character outside the basic plane by the digits of its halves, in both cases, and the first half
alone. -/
theorem literals_decoded_surrogates :
    (∃ behind : Scanner, (ofSource "\"\\uD834\\udd1e\\n\"+1" false).tokens =
        (literalToken "𝄞\n" false '"' "\"\\uD834\\udd1e\\n\"".toList .start :: behind.tokens.1,
          behind.tokens.2) ∧ behind.rest = ['+', '1']) ∧
    (∀ t ∈ (ofSource "r'it''s'" false).tokens.1, ∀ s, t.kind = .string s → ∃ quote,
      isQuote quote = true ∧ t.singleQuoted = (quote == '\'') ∧ Spells s t.raw quote t.lexeme.toList) ∧
    ∃ d, (ofSource "'\\uD834'" false).tokens = ([], ⟨d.position, some d⟩) ∧
      (d.code = .invalidEscape ∨ d.code = .unterminatedString) := by
  have hready : ∀ source, (ofSource source false).Ready [] := fun _ => ⟨rfl, rfl⟩
  obtain ⟨hreads, hspelled, hfails⟩ := literals_decoded
  refine ⟨?_, hspelled [] _ (hready _), hfails [] _ false '\'' "\\uD834'".toList (hready _) rfl rfl ?_⟩
  · have hhigh : SpellsUnit ['D', '8', '3', '4'] (0xD800 + ('𝄞'.toNat - 0x10000) / 0x400) :=
      ⟨_, _, _, _, 13, 8, 3, 4, rfl, by decide, by decide, by decide, by decide, by decide⟩
    have hlow : SpellsUnit ['d', 'd', '1', 'e'] (0xDC00 + ('𝄞'.toNat - 0x10000) % 0x400) :=
      ⟨_, _, _, _, 13, 13, 1, 14, rfl, by decide, by decide, by decide, by decide, by decide⟩
    have hnewline : ('n', '\n') ∈ shortEscapes := by decide
    have hbody : SpelledText '"' "𝄞\n".toList "\\uD834\\udd1e\\n".toList :=
      .cons (w := "\\uD834\\udd1e".toList) (.units (.pair (by decide) hhigh hlow))
        (.cons (.short hnewline) .nil)
    have hspells : Spells "𝄞\n" false '"' "\"\\uD834\\udd1e\\n\"".toList := .quoted hbody
    obtain ⟨behind, -, -, hrest, -, -, htokens⟩ := hreads [] (ofSource "\"\\uD834\\udd1e\\n\"+1" false) _ _ _ _
      ['+', '1'] (hready _) rfl hspells nofun rfl
    exact ⟨behind, htokens, hrest⟩
  · rintro ⟨s, lit, more, hspells, hclosed, hrest⟩
    obtain ⟨behind, hnext, -⟩ := hreads [] _ s false '\'' lit more (hready _) rfl hspells hclosed hrest
    cases (Prod.mk.inj hnext).1

end Scanner

end PipeExpr
