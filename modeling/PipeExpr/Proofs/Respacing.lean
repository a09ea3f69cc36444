import Mathlib.Data.List.Find
import PipeExpr.Proofs.Scanning

/-!
# Spacing between tokens

The tokens of a source do not depend on the white space between them, as long as there is some
(`Scanner.tokenize_respaced`).

A token is recognised alone as it was next to its neighbours.  What is read at the front of a text depends
on the characters that are taken, and behind these on nothing but that no character of a token follows
(`Scan.token_kept`).  So a number does not find its fraction or exponent later on, two hyphens stay one
token or two, and the letter in front of a quote stays where it is.  The scanner then takes the same turns
over both texts (`Scanner.Run.respaced`).
-/

namespace PipeExpr

namespace Scan

/-- What separates tokens: white space, or the end. -/
inductive Parted : List Char → Prop where
  | nil : Parted []
  | blank {c : Char} (h : Text.isBlank c = true) (rest : List Char) : Parted (c :: rest)

theorem Parted.head {more : List Char} (h : Parted more) : ∀ c ∈ more.head?, Text.isBlank c = true := by
  cases h with
  | nil => exact fun c hc => absurd hc (Option.not_mem_none c)
  | blank h rest => exact fun _ hc => Option.some.inj hc ▸ h

/-! ## Characters -/

section Blanks
variable {c : Char} (h : Text.isBlank c = true)
include h

theorem ne_of_isBlank {d : Char} (hd : Text.isBlank d = false) : c ≠ d := by
  rintro rfl
  rw [h] at hd
  cases hd

theorem isDigit_of_isBlank : Text.isDigit c = false := by
  by_contra hdigit
  rw [isBlank_of_isDigit (Bool.of_not_eq_false hdigit)] at h
  cases h

theorem isAlphanumeric_of_isBlank : Text.isAlphanumeric c = false := by
  unfold Text.isAlphanumeric Text.isAlphabetic Text.isNumeric
  have hletter : Text.isAsciiLetter c = false := by
    by_contra hletter
    rw [isBlank_of_visible (by have := toNat_of_isAsciiLetter (Bool.of_not_eq_false hletter); omega)] at h
    cases h
  rw [h, hletter, isDigit_of_isBlank h]
  simp

theorem continuesName_of_isBlank : continuesName c = false := by
  unfold continuesName
  have hunderscore : c ≠ '_' := ne_of_isBlank h rfl
  rw [isAlphanumeric_of_isBlank h, beq_eq_false_iff_ne.mpr hunderscore,
    beq_eq_false_iff_ne.mpr (ne_of_isBlank h (show Text.isBlank '$' = false from rfl))]
  rfl

theorem startsOperand_of_isBlank : startsOperand c = false := by
  unfold startsOperand
  rw [isAlphanumeric_of_isBlank h, Bool.false_or, List.contains_eq_mem, decide_eq_false_iff_not]
  intro hmem
  have hvisible := List.all_eq_true.mp (by decide : List.all _ (fun d => !Text.isBlank d) = true) c hmem
  rw [h] at hvisible
  cases hvisible

theorem isQuote_of_isBlank : isQuote c = false := by
  unfold isQuote
  rw [beq_eq_false_iff_ne.mpr (ne_of_isBlank h (show Text.isBlank '"' = false from rfl)),
    beq_eq_false_iff_ne.mpr (ne_of_isBlank h (show Text.isBlank '\'' = false from rfl))]
  rfl

end Blanks

/-! ## Symbols -/

/-- No symbol goes on behind white space. -/
theorem isPrefixOf_parted {more : List Char} (hmore : Parted more) (symbol front : List Char)
    (hsymbol : ∀ c ∈ symbol, Text.isBlank c = false) :
    symbol.isPrefixOf (front ++ more) = symbol.isPrefixOf front := by
  induction symbol generalizing front with
  | nil => rw [List.isPrefixOf_nil_left, List.isPrefixOf_nil_left]
  | cons c symbol ih =>
    obtain ⟨hc, hsymbol⟩ := List.forall_mem_cons.mp hsymbol
    cases front with
    | cons d front =>
      rw [List.cons_append, List.isPrefixOf_cons_cons, List.isPrefixOf_cons_cons, ih front hsymbol]
    | nil =>
      cases hmore with
      | nil => rfl
      | blank h rest =>
        rw [List.nil_append, List.isPrefixOf_cons_cons, beq_eq_false_iff_ne.mpr (ne_of_isBlank h hc).symm]
        rfl

theorem longest?_parted {more : List Char} (hmore : Parted more) (front : List Char) :
    Symbol.longest? (front ++ more) = Symbol.longest? front := by
  have hvisible : ∀ s ∈ Symbol.punctuation, s.chars.all (fun c => !Text.isBlank c) = true := by decide
  refine List.find?_congr fun s hs => isPrefixOf_parted hmore s.chars front fun c hc => ?_
  exact (Bool.not_eq_true' _).mp (List.all_eq_true.mp (hvisible s hs) c hc)

theorem takeWhile_parted {p : Char → Bool} (hp : ∀ c, Text.isBlank c = true → p c = false) {more : List Char}
    (hmore : Parted more) : more.takeWhile p = [] := by
  cases hmore with
  | nil => rfl
  | blank h rest => exact List.takeWhile_cons_of_neg (by rw [hp _ h]; exact Bool.false_ne_true)

theorem barKind_parted {more : List Char} (hmore : Parted more) : barKind more = (.symbol .bar, 1) := by
  have hname : more.takeWhile Text.isAsciiLetter = [] := takeWhile_parted (fun c h => by
    by_contra hletter
    rw [isBlank_of_visible (by have := toNat_of_isAsciiLetter (Bool.of_not_eq_false hletter); omega)] at h
    cases h) hmore
  unfold barKind
  rw [hname]
  cases hmore with
  | nil => rfl
  | @blank c h rest =>
    have hcolon : c ≠ ':' := ne_of_isBlank h rfl
    simp [hcolon]

/-- **What is read at the front of a text is kept** if something else stands behind the characters that are
taken. -/
def Kept (read : List Char → Except Failure Found) (cs : List Char) : Prop :=
  ∀ found, read cs = .ok found → ∃ front back, cs = front ++ back ∧ front.length = found.length ∧
    ∀ more, Parted more → read (front ++ more) = .ok found

section Symbols
variable {ieee afterDot : Bool} {s : Symbol} {front more rest : List Char}

/-- A symbol that a text starts with if it is cut off. -/
theorem token_symbol (h : Symbol.longest? front = some s) (hmore : Parted more) :
    token ieee afterDot (front ++ more) =
      .ok { kind := (symbolKind s (front ++ more)).1, length := (symbolKind s (front ++ more)).2 } :=
  token_of_longest afterDot ((longest?_parted hmore front).trans h)

/-- Two hyphens are one token or two, as they were. -/
theorem minusMinus_kept (rest : List Char) : ∃ front back, '-' :: '-' :: rest = front ++ back ∧
    front.length = (symbolKind .minusMinus ('-' :: '-' :: rest)).2 ∧
    ∀ more, Parted more → token ieee afterDot (front ++ more) =
      .ok { kind := (symbolKind .minusMinus ('-' :: '-' :: rest)).1,
            length := (symbolKind .minusMinus ('-' :: '-' :: rest)).2 } := by
  rw [symbolKind_minusMinus]
  split
  · exact ⟨['-'], '-' :: rest, rfl, rfl, fun more hmore => token_symbol (s := .minus) rfl hmore⟩
  · refine ⟨['-', '-'], rest, rfl, rfl, fun more hmore => ?_⟩
    have hoperand : (more.head?.map startsOperand).getD false = false := by
      cases hmore with
      | nil => rfl
      | blank h rest => exact startsOperand_of_isBlank h
    have hself : symbolKind .minusMinus (['-', '-'] ++ more) = (.symbol .minusMinus, 2) :=
      (symbolKind_minusMinus more).trans (if_neg (by rw [hoperand]; exact Bool.false_ne_true))
    rw [token_symbol (s := .minusMinus) rfl hmore, hself]

/-- A bar is kept, and a marker up to its colon. -/
theorem bar_kept (rest : List Char) : ∃ front back, '|' :: rest = front ++ back ∧
    front.length = (barKind rest).2 ∧ ∀ more, Parted more → token ieee afterDot (front ++ more) =
      .ok { kind := (barKind rest).1, length := (barKind rest).2 } := by
  rcases barKind_cases rest with hbar | ⟨name, back, hname, rfl⟩
  · refine ⟨['|'], rest, rfl, by rw [hbar]; rfl, fun more hmore => ?_⟩
    have hself : symbolKind .bar (['|'] ++ more) = (.symbol .bar, 1) := barKind_parted hmore
    rw [token_symbol (s := .bar) rfl hmore, hself, hbar]
  · refine ⟨'|' :: (name ++ [':']), back, by simp, by rw [barKind_marker hname]; simp, fun more hmore => ?_⟩
    have hlongest : Symbol.longest? ('|' :: (name ++ [':'])) = some .bar := by
      cases name with
      | nil => rfl
      | cons c name =>
        refine longest?_bar ?_ _
        rintro rfl
        exact absurd (hname '|' (List.mem_cons_self ..)) (by decide)
    have hself : symbolKind .bar ('|' :: (name ++ [':']) ++ more) = barKind (name ++ ':' :: more) := by
      rw [List.cons_append, symbolKind_bar, List.append_assoc]
      rfl
    rw [token_symbol hlongest hmore, hself, barKind_marker hname, barKind_marker hname]

/-- Symbols are kept, also where what follows decides which symbol it is. -/
theorem symbol_kept {cs : List Char} (h : Symbol.longest? cs = some s) : Kept (token ieee afterDot) cs := by
  intro found hfound
  obtain ⟨rest, rfl⟩ := Symbol.starts_of_longest? h
  obtain rfl := Except.ok.inj ((token_of_longest afterDot h).symm.trans hfound)
  by_cases hminus : s = .minusMinus
  · subst hminus
    exact minusMinus_kept rest
  by_cases hbar : s = .bar
  · subst hbar
    exact bar_kept rest
  have hself : ∀ s ∈ Symbol.punctuation, Symbol.longest? s.chars = some s := by decide
  have hchars := hself s (List.mem_of_find?_eq_some h)
  rw [symbolKind_of_ne hminus hbar]
  refine ⟨s.chars, rest, rfl, rfl, fun more hmore => ?_⟩
  rw [token_symbol hchars hmore, symbolKind_of_ne hminus hbar]

end Symbols

/-! ## Texts -/

/-- Four hexadecimal digits are read whatever stands behind them. -/
theorem hexQuad_kept {cs : List Char} {n : Nat} (h : hexQuad cs = .ok n) :
    ∃ front back, cs = front ++ back ∧ front.length = 4 ∧ ∀ more, hexQuad (front ++ more) = .ok n := by
  have hlength : 4 ≤ cs.length := by
    unfold hexQuad at h
    dsimp only at h
    split at h
    · rename_i hvalid
      have hle := (List.takeWhile_prefix (l := (cs.take 4).map Text.hexDigit?) Option.isSome).length_le
      rw [hvalid, List.length_map, List.length_take] at hle
      omega
    · cases h
  have hfour : (cs.take 4).length = 4 := by rw [List.length_take]; omega
  refine ⟨cs.take 4, cs.drop 4, (List.take_append_drop 4 cs).symm, hfour, fun more => ?_⟩
  have htake : (cs.take 4 ++ more).take 4 = cs.take 4 := List.take_left' hfour
  unfold hexQuad at h ⊢
  rw [htake]
  exact h

/-- The digits of an escape are read whatever stands behind them. -/
theorem unicodeEscape_kept {cs : List Char} {c : Char} {n : Nat} (h : unicodeEscape cs = .ok (c, n)) :
    ∃ front back, cs = front ++ back ∧ front.length = n ∧
      ∀ more, unicodeEscape (front ++ more) = .ok (c, n) := by
  unfold unicodeEscape at h
  split at h
  · cases h
  rename_i high hhigh
  obtain ⟨digits, back, rfl, hfour, hdigits⟩ := hexQuad_kept hhigh
  have hdrop : ∀ more, (digits ++ more).drop 4 = more := fun more => List.drop_left' hfour
  rw [hdrop] at h
  split at h
  -- the first half of a pair
  · rename_i hsurrogate
    split at h
    · rename_i rest
      split at h
      · cases h
      rename_i low hlow
      obtain ⟨digits', back, rfl, hfour', hdigits'⟩ := hexQuad_kept hlow
      split at h
      · rename_i hpair
        obtain ⟨rfl, rfl⟩ := Prod.mk.inj (Except.ok.inj h)
        refine ⟨digits ++ '\\' :: 'u' :: digits', back, by simp, by simp [hfour, hfour'], fun more => ?_⟩
        unfold unicodeEscape
        rw [List.append_assoc, hdigits, hdrop]
        simp only [List.cons_append, hsurrogate, if_true, hdigits', hpair]
      · cases h
    · cases h
  · rename_i hsurrogate
    split at h
    · cases h
    rename_i hlow
    obtain ⟨rfl, rfl⟩ := Prod.mk.inj (Except.ok.inj h)
    refine ⟨digits, back, rfl, hfour, fun more => ?_⟩
    unfold unicodeEscape
    rw [hdigits]
    dsimp only
    rw [if_neg hsurrogate, if_neg hlow]

/-- A text that is read at the front of `cs`, behind `length` characters, as it is with anything else behind
the characters that it takes, and with as many turns as there are of these. -/
def BodyKept (quote : Char) (cs : List Char) (length : Nat) (value : List Char)
    (result : List Char × Nat) : Prop :=
  ∃ front back, cs = front ++ back ∧ result.2 = length + front.length ∧
    ∀ more fuel, front.length ≤ fuel → quotedBody quote fuel (front ++ more) length value = .ok result

/-- One turn takes some characters in front of those that the other turns take. -/
theorem BodyKept.turn {quote : Char} {rest value value' : List Char} {length : Nat} {result : List Char × Nat}
    (taken : List Char) (h : BodyKept quote rest (length + taken.length) value' result) (htaken : taken ≠ [])
    (hturn : ∀ fuel more, quotedBody quote (fuel + 1) (taken ++ more) length value =
      quotedBody quote fuel more (length + taken.length) value') :
    BodyKept quote (taken ++ rest) length value result := by
  obtain ⟨front, back, rfl, hlength, hkept⟩ := h
  refine ⟨taken ++ front, back, (List.append_assoc ..).symm, ?_, fun more fuel hfuel => ?_⟩
  · rw [hlength, List.length_append, Nat.add_assoc]
  · have hpos := List.length_pos_of_ne_nil htaken
    rw [List.length_append] at hfuel
    obtain ⟨fuel, rfl⟩ : ∃ f, fuel = f + 1 := ⟨fuel - 1, by omega⟩
    rw [List.append_assoc, hturn, hkept more fuel (by omega)]

/-- A text between quotes is kept. -/
theorem quotedBody_kept {quote : Char} {fuel : Nat} {cs : List Char} {length : Nat} {value : List Char}
    {result : List Char × Nat} (h : quotedBody quote fuel cs length value = .ok result) :
    BodyKept quote cs length value result := by
  fun_induction quotedBody quote fuel cs length value with
  | case1 | case2 | case4 | case6 | case8 => cases h
  | case3 _ cs =>
    cases h
    refine ⟨[quote], cs, rfl, rfl, fun more fuel hfuel => ?_⟩
    obtain ⟨fuel, rfl⟩ : ∃ f, fuel = f + 1 := ⟨fuel - 1, by rw [List.length_singleton] at hfuel; omega⟩
    rw [List.singleton_append]
    unfold quotedBody
    rw [if_pos rfl]
  -- an escape by its number
  | case5 _ length value rest d n hescape hquote ih =>
    obtain ⟨digits, back, rfl, rfl, hdigits⟩ := unicodeEscape_kept hescape
    have hdrop : ∀ more, (digits ++ more).drop digits.length = more := fun _ => List.drop_left
    have hlength : length + 2 + digits.length = length + ('\\' :: 'u' :: digits).length := by
      simp only [List.length_cons]
      omega
    rw [hdrop, hlength] at ih h
    refine (ih h).turn ('\\' :: 'u' :: digits) (List.cons_ne_nil _ _) fun fuel more => ?_
    rw [List.cons_append, List.cons_append]
    conv => lhs; unfold quotedBody
    rw [if_neg hquote, if_pos rfl]
    simp only [hdigits, hdrop, hlength]
  -- an escape by a letter
  | case7 _ length value e rest hletter d hescape hquote ih =>
    refine (ih h).turn ['\\', e] (List.cons_ne_nil _ _) fun fuel more => ?_
    rw [List.cons_append, List.singleton_append]
    conv => lhs; unfold quotedBody
    rw [if_neg hquote, if_pos rfl]
    split
    · rename_i heq
      cases heq
    · rename_i heq
      exact (hletter (List.cons.inj heq).1).elim
    · rename_i heq
      obtain ⟨rfl, rfl⟩ := List.cons.inj heq
      rw [hescape]
      rfl
  | case9 _ c cs length value hquote hescape ih =>
    refine (ih h).turn [c] (List.cons_ne_nil _ _) fun fuel more => ?_
    rw [List.singleton_append]
    conv => lhs; unfold quotedBody
    rw [if_neg hquote, if_neg hescape]
    rfl

/-- A raw text is over with a quote that no other one stands behind. -/
theorem rawBody_quote {quote : Char} (length : Nat) (value : List Char) {more : List Char}
    (hmore : ∀ c ∈ more.head?, c ≠ quote) :
    rawBody quote (quote :: more) length value = .ok (value.reverse, length + 1) := by
  cases more with
  | nil =>
    unfold rawBody
    rw [if_pos rfl]
  | cons c more =>
    unfold rawBody
    rw [if_pos rfl, if_neg (hmore c rfl)]

/-- A raw text is kept, if no other quote stands behind its last one. -/
theorem rawBody_kept {quote : Char} {cs : List Char} {length : Nat} {value : List Char}
    {result : List Char × Nat} (h : rawBody quote cs length value = .ok result) :
    ∃ front back, cs = front ++ back ∧ result.2 = length + front.length ∧
      ∀ more, (∀ c ∈ more.head?, c ≠ quote) → rawBody quote (front ++ more) length value = .ok result := by
  fun_induction rawBody quote cs length value with
  | case1 | case3 => cases h
  | case2 =>
    cases h
    exact ⟨[quote], [], rfl, rfl, fun _ => rawBody_quote _ _⟩
  | case4 rest length value ih =>
    obtain ⟨front, back, rfl, hlength, hkept⟩ := ih h
    refine ⟨quote :: quote :: front, back, rfl, ?_, fun more hmore => ?_⟩
    · rw [hlength]
      simp only [List.length_cons]
      omega
    · rw [List.cons_append, List.cons_append]
      unfold rawBody
      rw [if_pos rfl, if_pos rfl, hkept more hmore]
  | case5 d rest =>
    cases h
    exact ⟨[quote], d :: rest, rfl, rfl, fun _ => rawBody_quote _ _⟩
  | case6 c d rest length value hquote ih =>
    obtain ⟨front, back, hsplit, hlength, hkept⟩ := ih h
    have hlonger : length + 1 < result.2 := by
      have hgives := rawBody_gives quote (d :: rest) (length + 1) (c :: value)
      rw [h] at hgives
      exact hgives
    -- the text is not over with the first character
    cases front with
    | nil =>
      rw [hlength, List.length_nil] at hlonger
      exact (Nat.lt_irrefl _ hlonger).elim
    | cons e front =>
      refine ⟨c :: e :: front, back, by rw [hsplit]; rfl, ?_, fun more hmore => ?_⟩
      · rw [hlength]
        simp only [List.length_cons]
        omega
      · rw [List.cons_append, List.cons_append]
        unfold rawBody
        rw [if_neg hquote, ← List.cons_append, hkept more hmore]

/-- A text is kept with its quotes, raw or not. -/
theorem literal_kept {raw : Bool} {quote : Char} {rest : List Char} {found : Found}
    (hquote : isQuote quote = true) (h : literal raw quote rest = .ok found) :
    ∃ front back, rest = front ++ back ∧ found.length = front.length + (if raw then 2 else 1) ∧
      ∀ more, Parted more → literal raw quote (front ++ more) = .ok found := by
  obtain ⟨value, length, hbody, rfl⟩ := of_literal h
  cases raw with
  | true =>
    obtain ⟨front, back, rfl, hlength, hkept⟩ := rawBody_kept hbody
    refine ⟨front, back, rfl, hlength.trans (Nat.add_comm _ _), fun more hmore => literal_of_body (hkept more ?_)⟩
    rintro c hc rfl
    rw [isQuote_of_isBlank (hmore.head c hc)] at hquote
    cases hquote
  | false =>
    obtain ⟨front, back, rfl, hlength, hkept⟩ := quotedBody_kept hbody
    refine ⟨front, back, rfl, hlength.trans (Nat.add_comm _ _), fun more _ => literal_of_body (hkept more _ ?_)⟩
    rw [List.length_append]
    omega

/-! ## Numbers -/

/-- An exponent that is found again in front of white space; it starts with its marker. -/
def ExponentKept (cs : List Char) : Prop := ∃ front back, cs = front ++ back ∧
  exponentLength cs = front.length ∧ (∀ c ∈ front.head?, c = 'e' ∨ c = 'E') ∧
  ∀ more, Parted more → exponentLength (front ++ more) = front.length

/-- No exponent is found where there was none. -/
theorem exponentKept_none {cs : List Char} (h : exponentLength cs = 0) : ExponentKept cs := by
  refine ⟨[], cs, rfl, h, fun c hc => absurd hc (Option.not_mem_none c), fun more hmore => ?_⟩
  refine exponentLength_of_ne fun c hc => ⟨?_, ?_⟩
  · exact ne_of_isBlank (hmore.head c hc) rfl
  · exact ne_of_isBlank (hmore.head c hc) rfl

/-- **An exponent is kept**, and none is found where there was none. -/
theorem exponentLength_kept (cs : List Char) : ExponentKept cs := by
  cases cs with
  | nil => exact exponentKept_none rfl
  | cons marker rest =>
    by_cases hmarker : marker = 'e' ∨ marker = 'E'
    · obtain ⟨sign, negative, body, rfl, hsign⟩ := exists_signed rest
      obtain ⟨digits, tail, rfl, hall, htail⟩ : ∃ digits tail, body = digits ++ tail ∧
          (∀ c ∈ digits, Text.isDigit c = true) ∧ ∀ c ∈ tail.head?, Text.isDigit c = false :=
        ⟨body.takeWhile Text.isDigit, body.dropWhile Text.isDigit, List.takeWhile_append_dropWhile.symm,
          fun _ hc => List.mem_takeWhile_imp hc, fun _ hc => head?_dropWhile hc⟩
      have hdigits : ∀ more, (∀ c ∈ more.head?, Text.isDigit c = false) →
          (digits ++ more).takeWhile Text.isDigit = digits := fun more => takeWhile_append_eq hall
      have hcs := exponentLength_marker hmarker hsign
      rw [hdigits tail htail] at hcs
      cases digits with
      | nil => exact exponentKept_none hcs
      | cons d ds =>
        have hlength : (marker :: (sign ++ d :: ds)).length = 1 + sign.length + (d :: ds).length := by
          simp
          omega
        refine ⟨marker :: (sign ++ d :: ds), tail, by simp, hcs.trans hlength.symm, ?_, fun more hmore => ?_⟩
        · rintro c hc
          obtain rfl := Option.some.inj hc
          exact hmarker
        · have hsame := exponentLength_marker hmarker (hsign.digits more)
          rw [hdigits more fun c hc => isDigit_of_isBlank (hmore.head c hc)] at hsame
          rw [List.cons_append, List.append_assoc, hlength]
          exact hsame
    · exact exponentKept_none (if_neg hmarker)

theorem head?_append_imp {P : Char → Prop} {front more : List Char} (hfront : ∀ c ∈ front.head?, P c)
    (hmore : ∀ c ∈ more.head?, P c) : ∀ c ∈ (front ++ more).head?, P c := by
  cases front with
  | nil => exact hmore
  | cons d front => exact hfront

/-- A fraction is kept in front of an exponent or white space, and none is found where there was none. -/
theorem fraction_kept (afterDot : Bool) (cs : List Char) : ∃ front back, cs = front ++ back ∧
    fractionTaken afterDot cs = front.length ∧ (∀ c ∈ front.head?, c = '.') ∧
    ∀ more, (∀ c ∈ more.head?, c ≠ '.' ∧ Text.isDigit c = false) →
      fractionTaken afterDot (front ++ more) = front.length := by
  by_cases hnone : fractionTaken afterDot cs = 0
  · exact ⟨[], cs, rfl, hnone, fun c hc => absurd hc (Option.not_mem_none c),
      fun more hmore => fractionTaken_of_ne afterDot fun c hc => (hmore c hc).1⟩
  have hdot : afterDot = false ∧ ∃ rest, cs = '.' :: rest := by
    unfold fractionTaken fractionLength at hnone
    grind
  obtain ⟨rfl, rest, rfl⟩ := hdot
  have hsome : ¬ (rest.takeWhile Text.isDigit).isEmpty = true := fun hempty => hnone (if_pos hempty)
  refine ⟨'.' :: rest.takeWhile Text.isDigit, rest.dropWhile Text.isDigit, ?_, if_neg hsome, ?_,
    fun more hmore => ?_⟩
  · rw [List.cons_append, List.takeWhile_append_dropWhile]
  · exact fun c hc => (Option.some.inj hc).symm
  · have hdigits : (rest.takeWhile Text.isDigit ++ more).takeWhile Text.isDigit = rest.takeWhile Text.isDigit :=
      takeWhile_append_eq (fun _ hc => List.mem_takeWhile_imp hc) fun c hc => (hmore c hc).2
    rw [List.cons_append, fractionTaken, if_neg Bool.false_ne_true, fractionLength_dot, hdigits]
    exact if_neg hsome

/-- **A number is kept**: no other digit, fraction or exponent is found behind it. -/
theorem numberLength_kept (afterDot : Bool) (cs : List Char) : ∃ front back, cs = front ++ back ∧
    numberLength afterDot cs = front.length ∧
    ∀ more, Parted more → numberLength afterDot (front ++ more) = front.length := by
  obtain ⟨whole, rest, rfl, hwhole, hbehind⟩ : ∃ whole rest, cs = whole ++ rest ∧
      (∀ c ∈ whole, Text.isDigit c = true) ∧ ∀ c ∈ rest.head?, Text.isDigit c = false :=
    ⟨cs.takeWhile Text.isDigit, cs.dropWhile Text.isDigit, List.takeWhile_append_dropWhile.symm,
      fun _ hc => List.mem_takeWhile_imp hc, fun c hc => head?_dropWhile hc⟩
  obtain ⟨fraction, rest, rfl, hlength, hdot, hfraction⟩ := fraction_kept afterDot rest
  obtain ⟨exponent, back, rfl, htaken, hmarker, hexponent⟩ := exponentLength_kept rest
  have hfront : (whole ++ (fraction ++ exponent)).length = whole.length + fraction.length + exponent.length := by
    simp [Nat.add_assoc]
  refine ⟨whole ++ (fraction ++ exponent), back, by simp, ?_, fun more hmore => ?_⟩
  · rw [numberLength_parts hwhole hbehind hlength, htaken, hfront]
  have hhead : ∀ c ∈ (exponent ++ more).head?, c ≠ '.' ∧ Text.isDigit c = false := by
    refine head?_append_imp (fun c hc => ?_) fun c hc => ?_
    · rcases hmarker c hc with rfl | rfl <;> decide
    · exact ⟨ne_of_isBlank (hmore.head c hc) rfl, isDigit_of_isBlank (hmore.head c hc)⟩
  have hbehind' : ∀ c ∈ (fraction ++ (exponent ++ more)).head?, Text.isDigit c = false := by
    refine head?_append_imp (fun c hc => ?_) fun c hc => (hhead c hc).2
    rw [hdot c hc]
    rfl
  rw [List.append_assoc, List.append_assoc, numberLength_parts hwhole hbehind' (hfraction _ hhead),
    hexponent more hmore, hfront]

/-! ## Tokens -/

section Tokens
variable {ieee afterDot : Bool}

/-- A number depends on the characters that it takes. -/
theorem number_of_length {front back : List Char} (h : numberLength afterDot (front ++ back) = front.length) :
    number afterDot (front ++ back) = numberOf front := by
  unfold number
  rw [h, List.take_left]

theorem number_kept (cs : List Char) : Kept (number afterDot) cs := by
  intro found h
  obtain ⟨front, back, rfl, hlength, hkept⟩ := numberLength_kept afterDot cs
  rw [number_of_length hlength] at h
  obtain ⟨n, -, rfl⟩ := of_numberOf h
  refine ⟨front, back, rfl, rfl, fun more hmore => ?_⟩
  rw [number_of_length (hkept more hmore), h]

theorem name_kept (cs : List Char) : Kept (fun cs => .ok (name ieee cs)) cs := by
  rintro _ ⟨⟩
  refine ⟨cs.takeWhile continuesName, cs.dropWhile continuesName, List.takeWhile_append_dropWhile.symm, rfl,
    fun more hmore => ?_⟩
  dsimp only [name]
  rw [takeWhile_append_eq (fun _ hc => List.mem_takeWhile_imp hc)
    fun c hc => continuesName_of_isBlank (hmore.head c hc)]

/-- What is kept starts as it did. -/
theorem Kept.cons {read : List Char → Except Failure Found} {c : Char} {rest : List Char} {found : Found}
    (hread : Kept read (c :: rest)) (h : read (c :: rest) = .ok found) (hpos : 0 < found.length) :
    ∃ front back, rest = front ++ back ∧ front.length + 1 = found.length ∧
      ∀ more, Parted more → read (c :: (front ++ more)) = .ok found := by
  obtain ⟨front, back, hsplit, hlength, hkept⟩ := hread found h
  cases front with
  | nil =>
    rw [← hlength] at hpos
    exact (Nat.lt_irrefl 0 hpos).elim
  | cons d front =>
    obtain ⟨rfl, rfl⟩ := List.cons.inj hsplit
    exact ⟨front, back, rfl, hlength, hkept⟩

/-- **A token is recognised alone as it was next to its neighbours.** -/
theorem token_kept {cs : List Char} (hcs : cs ≠ []) : Kept (token ieee afterDot) cs := by
  intro found h
  have hpos : 0 < found.length := by
    have htakes := token_takes ieee afterDot hcs
    rw [h] at htakes
    exact htakes.pos
  cases token_reading h with
  | symbol s hlongest => exact symbol_kept hlongest found h
  | eof hnil => exact absurd hnil hcs
  | text raw quote rest hquote hsplit hr =>
    obtain ⟨front, back, rfl, hlength, hkept⟩ := literal_kept hquote hr
    refine ⟨opening raw quote ++ front, back, by rw [hsplit, List.append_assoc], ?_, fun more hmore => ?_⟩
    · rw [hlength, List.length_append, Nat.add_comm]
      cases raw <;> rfl
    · rw [List.append_assoc, token_opening afterDot hquote, hkept more hmore]
  | number c rest hc hsplit hr =>
    subst hsplit
    obtain ⟨front, back, rfl, hlength, hkept⟩ := (number_kept (c :: rest)).cons hr hpos
    exact ⟨c :: front, back, rfl, hlength, fun more hmore => (token_digit afterDot hc _).trans (hkept more hmore)⟩
  | name c rest hc hraw hsplit hr =>
    subst hsplit
    obtain ⟨front, back, rfl, hlength, hkept⟩ := (name_kept (c :: rest)).cons hr.symm hpos
    refine ⟨c :: front, back, rfl, hlength, fun more hmore => (token_name afterDot hc ?_).trans (hkept more hmore)⟩
    -- no quote gets behind the letter of raw texts
    intro hletter d hd
    cases front with
    | nil => exact isQuote_of_isBlank (hmore.head d hd)
    | cons e front => exact hraw hletter d hd
  | stray _ _ _ hr => cases hr
  | invalid _ _ _ _ _ _ _ hr => cases hr

end Tokens

end Scan

/-- A token without its place. -/
def Token.unplaced (t : Token) : Token := { t with position := .start }

namespace Piece

/-- **Pieces that are held apart**: there is white space in front of each but the first, and nothing else. -/
structure Apart (ps : List Piece) (tail : List Char) : Prop where
  blank : ∀ p ∈ ps, ∀ c ∈ p.gap, Text.isBlank c = true
  apart : ∀ p ∈ ps.tail, p.gap ≠ []
  tail : ∀ c ∈ tail, Text.isBlank c = true

theorem parted_append {gap : List Char} (hgap : ∀ c ∈ gap, Text.isBlank c = true) {rest : List Char}
    (h : gap = [] → Scan.Parted rest) : Scan.Parted (gap ++ rest) := by
  cases gap with
  | nil => exact h rfl
  | cons c gap => exact .blank (hgap c (List.mem_cons_self ..)) _

/-- Behind the first piece stands white space, or nothing. -/
theorem Apart.parted {p : Piece} {ps : List Piece} {tail : List Char} (h : Apart (p :: ps) tail) :
    Scan.Parted (row ps ++ tail) := by
  cases ps with
  | nil =>
    have hparted : Scan.Parted (tail ++ []) := parted_append h.tail fun _ => .nil
    rwa [List.append_nil] at hparted
  | cons q ps =>
    rw [row_cons, text, List.append_assoc, List.append_assoc]
    exact parted_append (h.blank q (by simp)) fun hnil => absurd hnil (h.apart q (List.mem_cons_self ..))

theorem Apart.behind {p : Piece} {ps : List Piece} {tail : List Char} (h : Apart (p :: ps) tail) :
    Apart ps tail :=
  ⟨fun q hq => h.blank q (List.mem_cons_of_mem p hq), fun q hq => h.apart q (List.mem_of_mem_tail hq), h.tail⟩

end Piece

namespace Scanner

/-- Two scanners that read the same token at the front of a text. -/
structure Alike (s u : Scanner) : Prop where
  ieee : u.ieee = s.ieee
  afterDot : u.afterDot = s.afterDot
  running : u.halted = false

variable {s s' u : Scanner}

theorem dropWhile_gap {gap rest : List Char} (hgap : ∀ c ∈ gap, Text.isBlank c = true)
    (hrest : ∀ c ∈ rest.head?, Text.isBlank c = false) : (gap ++ rest).dropWhile Text.isBlank = rest := by
  rw [List.dropWhile_append_of_pos hgap]
  cases rest with
  | nil => rfl
  | cons c rest => exact List.dropWhile_cons_of_neg (by rw [hrest c rfl]; exact Bool.false_ne_true)

/-- **A scanner finds a token again** that another one has found, if the same characters stand between white
space, and both scanners are alike afterwards. -/
theorem next_respaced {t : Token} (h : s.next = (.ok t, s')) (ht : t.kind.isEof = false) (hu : Alike s u)
    {gap more : List Char} (hgap : ∀ c ∈ gap, Text.isBlank c = true)
    (hrest : u.rest = gap ++ t.lexeme.toList ++ more) (hmore : Scan.Parted more) :
    ∃ t' u', u.next = (.ok t', u') ∧ t'.unplaced = t.unplaced ∧ Alike s' u' ∧ u'.rest = more := by
  obtain ⟨found, hfound, hkind, hlexeme, hquoted, hraw, hieee, hdot⟩ := next_token h ht
  have hne : s.rest.dropWhile Text.isBlank ≠ [] := by
    intro hnil
    rw [hnil, Scan.token_nil] at hfound
    rw [hkind, ← Except.ok.inj hfound] at ht
    cases ht
  obtain ⟨front, back, hsplit, hlength, hkept⟩ := Scan.token_kept hne found hfound
  rw [hsplit, List.take_left' hlength] at hlexeme
  have hpos : front ≠ [] := by
    have htakes := Scan.token_takes s.ieee s.afterDot hne
    rw [hfound] at htakes
    exact List.ne_nil_of_length_pos (hlength ▸ htakes.pos)
  have hhere : u.rest.dropWhile Text.isBlank = front ++ more := by
    have hvisible : ∀ c ∈ (s.rest.dropWhile Text.isBlank).head?, Text.isBlank c = false :=
      fun _ hc => head?_dropWhile hc
    rw [hsplit, List.head?_append_of_ne_nil _ hpos] at hvisible
    rw [hrest, hlexeme, List.append_assoc]
    exact dropWhile_gap hgap (by rwa [List.head?_append_of_ne_nil _ hpos])
  have hnext := next_found hu.running (by
    rw [hhere, hu.ieee, hu.afterDot]
    exact hkept more hmore)
  rw [hhere, List.take_left' hlength, List.drop_left' hlength] at hnext
  refine ⟨_, _, hnext, ?_, ⟨hu.ieee.trans hieee.symm, hdot.symm, rfl⟩, rfl⟩
  have hsame : String.ofList front = t.lexeme := by rw [← hlexeme, String.ofList_toList]
  unfold Token.unplaced
  rw [hkind, hquoted, hraw, hsame]

/-- **Two scanners take the same turns**, one of them over the tokens of the other with white space between
them, and it comes to the end. -/
theorem Run.respaced {before before' : List Char} {ps ps' qs : List Piece}
    {last last' : Except Diagnostic Token} {tail : List Char} (h : Run before s ps last)
    (h' : Run before' u ps' last') (hu : Alike s u) (hrest : u.rest = Piece.row qs ++ tail)
    (hqs : Piece.Apart qs tail) (htokens : qs.map Piece.token = ps.map Piece.token) :
    ps'.map (Token.unplaced ∘ Piece.token) = ps.map (Token.unplaced ∘ Piece.token) ∧ ∃ t, last' = .ok t := by
  induction h generalizing before' u ps' qs with
  | stop =>
    obtain rfl := List.map_eq_nil_iff.mp htokens
    have hblank : u.rest.dropWhile Text.isBlank = [] := by
      rw [hrest, Piece.row, List.flatMap_nil, List.nil_append, List.dropWhile_eq_nil_iff]
      exact hqs.tail
    obtain ⟨position, u', hnext⟩ := next_end hu.running hblank
    cases h' with
    | stop hnext' =>
      obtain ⟨rfl, _⟩ := Prod.mk.inj (hnext.symm.trans hnext')
      exact ⟨rfl, _, rfl⟩
    | piece hnext' hstands =>
      obtain ⟨htoken, _⟩ := Prod.mk.inj (hnext.symm.trans hnext')
      have hinner := hstands.inner
      rw [← Except.ok.inj htoken] at hinner
      cases hinner
  | @piece before s s' p ps last hnext hstands hsplit hrun ih =>
    obtain ⟨q, qs, rfl, hq, htokens⟩ := List.map_eq_cons_iff.mp htokens
    rw [Piece.row_cons, Piece.text, hq, List.append_assoc] at hrest
    obtain ⟨t, u', hread, hsame, hu', hmore⟩ :=
      next_respaced hnext hstands.inner hu (hqs.blank q (List.mem_cons_self ..)) hrest hqs.parted
    have hkind := congrArg (TokenKind.isEof ∘ Token.kind) hsame
    have hinner : t.kind.isEof = false := hkind.trans hstands.inner
    cases h' with
    | stop hnext' hdone hstops =>
      obtain ⟨rfl, _⟩ := Prod.mk.inj (hread.symm.trans hnext')
      cases hstops with
      | eof => cases hinner
    | @piece _ _ _ p' ps' _ hnext' hstands' hsplit' hrun' =>
      obtain ⟨htoken, rfl⟩ := Prod.mk.inj (hread.symm.trans hnext')
      obtain ⟨htail, hend⟩ := ih hrun' hu' hmore hqs.behind htokens
      refine ⟨?_, hend⟩
      rw [List.map_cons, List.map_cons, htail, Function.comp_apply, Function.comp_apply, ← hsame,
        Except.ok.inj htoken]

/-- The tokens of a run, without the end. -/
theorem Run.filter_tokens {before : List Char} {ps : List Piece} {last : Except Diagnostic Token}
    (h : Run before s ps last) {position : Position} :
    (ps.map Piece.token ++ [Token.eof position]).filter (fun t => !t.kind.isEof) = ps.map Piece.token := by
  rw [List.filter_append, List.filter_eq_self.mpr]
  · exact List.append_nil _
  · refine List.forall_mem_map.mpr fun p hp => ?_
    obtain ⟨front, back, rfl⟩ := List.append_of_mem hp
    rw [(h.stands rfl).inner]
    rfl

/-- **Scanning does not depend on the white space between tokens.**  If a source is read to its end, so is
every text that is made of the same tokens with white space between them, and any or none in front and
behind.  The tokens of this text are those of the source: they have the same kinds and source texts, and the
same notes on quotes.  Only the places are others. -/
theorem tokenize_respaced {source : String} {ieee : Bool} {tokens : List Token} {ps : List Piece}
    {tail : List Char} (h : (ofSource source ieee).tokenize = .ok tokens) (hapart : Piece.Apart ps tail)
    (hps : ps.map Piece.token = tokens.filter fun t => !t.kind.isEof) :
    ∃ tokens', (ofSource (String.ofList (Piece.row ps ++ tail)) ieee).tokenize = .ok tokens' ∧
      tokens'.map Token.unplaced = tokens.map Token.unplaced := by
  obtain ⟨pieces, last, hrun⟩ := run_ofSource source ieee
  obtain ⟨pieces', last', hrun'⟩ := run_ofSource (String.ofList (Piece.row ps ++ tail)) ieee
  rw [hrun.tokenize] at h
  cases last with
  | error d => cases h
  | ok t =>
    obtain rfl := Except.ok.inj h
    rw [hrun.filter_tokens] at hps
    obtain ⟨hsame, t', rfl⟩ := hrun.respaced hrun' ⟨rfl, rfl, rfl⟩ String.toList_ofList hapart hps
    refine ⟨_, hrun'.tokenize, ?_⟩
    rw [List.map_append, List.map_append, List.map_map, List.map_map, hsame]
    rfl

/-- Two hyphens in front of a name, a marker and a raw text. -/
theorem tokenize_respaced_hyphens : ∃ tokens tokens',
    (ofSource "a--b|sort:r'x'" false).tokenize = .ok tokens ∧
    (ofSource " a - - b |sort: r'x'\n" false).tokenize = .ok tokens' ∧
    tokens.map Token.lexeme = ["a", "-", "-", "b", "|sort:", "r'x'", ""] ∧
    tokens'.map Token.unplaced = tokens.map Token.unplaced := by
  have hread : (ofSource "a--b|sort:r'x'" false).tokenize = .ok [
      ⟨.identifier "a", "a", ⟨1, 1⟩, false, false⟩, ⟨.symbol .minus, "-", ⟨1, 2⟩, false, false⟩,
      ⟨.symbol .minus, "-", ⟨1, 3⟩, false, false⟩, ⟨.identifier "b", "b", ⟨1, 4⟩, false, false⟩,
      ⟨.pipe (some "sort"), "|sort:", ⟨1, 5⟩, false, false⟩, ⟨.string "x", "r'x'", ⟨1, 11⟩, true, true⟩,
      .eof ⟨1, 15⟩] := rfl
  have hapart : Piece.Apart ([
      ⟨.identifier "a", "a", ⟨1, 1⟩, false, false⟩, ⟨.symbol .minus, "-", ⟨1, 2⟩, false, false⟩,
      ⟨.symbol .minus, "-", ⟨1, 3⟩, false, false⟩, ⟨.identifier "b", "b", ⟨1, 4⟩, false, false⟩,
      ⟨.pipe (some "sort"), "|sort:", ⟨1, 5⟩, false, false⟩,
      ⟨.string "x", "r'x'", ⟨1, 11⟩, true, true⟩].map (Piece.mk [' '])) ['\n'] :=
    ⟨by simp [Text.isBlank], by simp, by simp [Text.isBlank]⟩
  obtain ⟨tokens', hagain, hsame⟩ := tokenize_respaced hread hapart rfl
  exact ⟨_, tokens', hread, hagain, rfl, hsame⟩

end Scanner

end PipeExpr
