import Mathlib.Data.List.TakeWhile
import PipeExpr.Source.Scanner

/-!
# What stands at the front of a text

A token is looked for in a fixed order: the longest symbol, a raw text, a text, a number, a name.  What is found
is one of these, and the front of the text says which (`Scan.token_reading`).  The other way round, what starts
as one of them is read as such, whatever stands behind it: a symbol (`Scan.token_of_longest`), a text behind its
opening (`Scan.token_opening`), a number from its first digit on (`Scan.token_digit`), a name from its first
letter on (`Scan.token_name`).

No symbol starts as a text, a number or a name does (`longest?_eq_none`).  So the order matters only for the
letter in front of the quote of a raw text, which is also one that a name may start with.  What starts as
nothing of all this is an error, and a single equals sign is one of its own.
-/

namespace PipeExpr

/-! ## Characters -/

/-- A symbol starts neither as a word nor as a number or a string. -/
theorem head_of_punctuation : ∀ s ∈ Symbol.punctuation,
    (s.chars.head?.any fun c => Scan.startsName c || Text.isDigit c || Scan.isQuote c) = false := by
  decide

theorem longest?_eq_none {c : Char}
    (h : Scan.startsName c = true ∨ Text.isDigit c = true ∨ Scan.isQuote c = true) (cs : List Char) :
    Symbol.longest? (c :: cs) = none := by
  refine List.find?_eq_none.mpr fun s hs hstarts => ?_
  have hhead : s.chars.head? = some c := by
    cases hchars : s.chars with
    | nil => cases s <;> cases hchars
    | cons d ds =>
      rw [hchars, List.isPrefixOf_cons_cons, Bool.and_eq_true] at hstarts
      rw [eq_of_beq hstarts.1]
      rfl
  have hfirst := head_of_punctuation s hs
  rw [hhead] at hfirst
  simp only [Option.any_some, Bool.or_eq_false_iff] at hfirst
  obtain ⟨⟨hname, hdigit⟩, hquote⟩ := hfirst
  rw [hname, hdigit, hquote] at h
  simp only [Bool.false_eq_true, false_or] at h

theorem toNat_of_isDigit {c : Char} (h : Text.isDigit c = true) : 48 ≤ c.toNat ∧ c.toNat ≤ 57 := by
  simp only [Text.isDigit, Bool.and_eq_true, decide_eq_true_eq, Char.le_def, UInt32.le_iff_toNat_le] at h
  exact h

theorem toNat_of_isAsciiLetter {c : Char} (h : Text.isAsciiLetter c = true) :
    65 ≤ c.toNat ∧ c.toNat ≤ 122 := by
  simp only [Text.isAsciiLetter, Bool.or_eq_true, Bool.and_eq_true, decide_eq_true_eq, Char.le_def,
    UInt32.le_iff_toNat_le] at h
  change (97 ≤ c.toNat ∧ c.toNat ≤ 122) ∨ (65 ≤ c.toNat ∧ c.toNat ≤ 90) at h
  omega

theorem isBlank_of_visible {c : Char} (h : 33 ≤ c.toNat ∧ c.toNat ≤ 126) : Text.isBlank c = false := by
  simp only [Text.isBlank, Bool.or_eq_false_iff, Bool.and_eq_false_iff, decide_eq_false_iff_not,
    beq_eq_false_iff_ne]
  omega

theorem isBlank_of_isDigit {c : Char} (h : Text.isDigit c = true) : Text.isBlank c = false :=
  isBlank_of_visible (by have := toNat_of_isDigit h; omega)

theorem isBlank_of_startsName {c : Char} (h : Scan.startsName c = true) : Text.isBlank c = false := by
  simp only [Scan.startsName, Bool.or_eq_true, beq_iff_eq] at h
  rcases h with (h | rfl) | rfl
  · unfold Text.isAlphabetic at h
    split at h
    · exact isBlank_of_visible (by have := toNat_of_isAsciiLetter h; omega)
    · exact (Bool.not_eq_true' _).mp (Bool.and_eq_true_iff.mp h).1
  · rfl
  · rfl

theorem startsName_of_isDigit {c : Char} (h : Text.isDigit c = true) : Scan.startsName c = false := by
  have hbounds := toNat_of_isDigit h
  have hascii : Text.isAscii c = true := decide_eq_true (by omega)
  have hletter : Text.isAsciiLetter c = false := by
    by_contra hletter
    have := toNat_of_isAsciiLetter (Bool.of_not_eq_false hletter)
    omega
  have hne : ∀ d : Char, 57 < d.toNat ∨ d.toNat < 48 → (c == d) = false := by
    rintro d hd
    refine beq_eq_false_iff_ne.mpr ?_
    rintro rfl
    omega
  unfold Scan.startsName Text.isAlphabetic
  rw [hascii, if_pos rfl, hletter, hne '_' (by decide), hne '$' (by decide)]
  rfl

theorem continuesName_of_isDigit {c : Char} (h : Text.isDigit c = true) : Scan.continuesName c = true := by
  have hbounds := toNat_of_isDigit h
  have hascii : Text.isAscii c = true := decide_eq_true (by omega)
  simp [Scan.continuesName, Text.isAlphanumeric, Text.isNumeric, hascii, h]

theorem Scan.continuesName_of_startsName {c : Char} (h : startsName c = true) : continuesName c = true := by
  simp only [startsName, continuesName, Text.isAlphanumeric, Bool.or_eq_true] at h ⊢
  rcases h with (h | h) | h
  · exact .inl (.inl (.inl h))
  · exact .inl (.inr h)
  · exact .inr h

theorem isQuote_of_continuesName {c : Char} (h : Scan.continuesName c = true) : Scan.isQuote c = false := by
  by_contra hquote
  rcases Bool.or_eq_true_iff.mp (Bool.of_not_eq_false hquote) with hquote | hquote
  all_goals
    obtain rfl := eq_of_beq hquote
    exact absurd h (by decide)

/-- What is found as the longest symbol stands at the front. -/
theorem Symbol.starts_of_longest? {s : Symbol} {cs : List Char} (h : longest? cs = some s) :
    ∃ rest, cs = s.chars ++ rest := by
  have hstarts := List.find?_some h
  obtain ⟨rest, hrest⟩ := List.isPrefixOf_iff_prefix.mp hstarts
  exact ⟨rest, hrest.symm⟩

namespace Scan

/-! ## Parts of tokens -/

/-- The token of a symbol is a symbol or a pipe marker. -/
theorem symbolKind_kind (s : Symbol) (cs : List Char) :
    (∃ s', (symbolKind s cs).1 = .symbol s') ∨ ∃ name, (symbolKind s cs).1 = .pipe name := by
  unfold symbolKind barKind
  split
  · split <;> exact .inl ⟨_, rfl⟩
  · dsimp only
    split
    · exact .inr ⟨_, rfl⟩
    · exact .inl ⟨_, rfl⟩
  · exact .inl ⟨_, rfl⟩

theorem symbolKind_of_ne {s : Symbol} (hminus : s ≠ .minusMinus) (hbar : s ≠ .bar) (cs : List Char) :
    symbolKind s cs = (.symbol s, s.chars.length) := by
  cases s <;> first | rfl | contradiction

/-- Two hyphens are one token or two. -/
theorem symbolKind_minusMinus (rest : List Char) : symbolKind .minusMinus ('-' :: '-' :: rest) =
    if (rest.head?.map startsOperand).getD false then (.symbol .minus, 1) else (.symbol .minusMinus, 2) := rfl

theorem symbolKind_bar (rest : List Char) : symbolKind .bar ('|' :: rest) = barKind rest := rfl

/-- What a literal begins with. -/
def opening (raw : Bool) (quote : Char) : List Char := if raw then ['r', quote] else [quote]

/-- The characters of a literal, with their number and that of the characters around them. -/
def literalBody (raw : Bool) (quote : Char) (rest : List Char) : Except Failure (List Char × Nat) :=
  if raw then rawBody quote rest 2 [] else quotedBody quote (rest.length + 1) rest 1 []

/-- The token of a literal is made of its characters, and there is none only if these are not read. -/
theorem literal_eq (raw : Bool) (quote : Char) (rest : List Char) : literal raw quote rest =
    (literalBody raw quote rest).map fun body => ⟨.string (String.ofList body.1), body.2, quote == '\'', raw⟩ := by
  unfold literal literalBody
  cases (if raw then rawBody quote rest 2 [] else quotedBody quote (rest.length + 1) rest 1 []) <;> rfl

theorem literal_of_body {raw : Bool} {quote : Char} {rest value : List Char} {length : Nat}
    (h : literalBody raw quote rest = .ok (value, length)) :
    literal raw quote rest = .ok ⟨.string (String.ofList value), length, quote == '\'', raw⟩ := by
  rw [literal_eq, h]
  rfl

theorem of_literal {raw : Bool} {quote : Char} {rest : List Char} {found : Found}
    (h : literal raw quote rest = .ok found) : ∃ value length, literalBody raw quote rest = .ok (value, length) ∧
      found = ⟨.string (String.ofList value), length, quote == '\'', raw⟩ := by
  rw [literal_eq] at h
  cases hbody : literalBody raw quote rest with
  | error failure =>
    rw [hbody] at h
    cases h
  | ok body =>
    rw [hbody] at h
    exact ⟨body.1, body.2, rfl, (Except.ok.inj h).symm⟩

section Tokens
variable {ieee : Bool} (afterDot : Bool)

/-! ## Starts of tokens -/

theorem token_nil : token ieee afterDot [] = .ok { kind := .eof, length := 0 } := rfl

/-- The longest symbol comes first. -/
theorem token_of_longest {s : Symbol} {cs : List Char} (h : Symbol.longest? cs = some s) :
    token ieee afterDot cs = .ok { kind := (symbolKind s cs).1, length := (symbolKind s cs).2 } := by
  unfold token
  rw [h]

/-- A raw text comes before a name that starts with its letter. -/
theorem token_raw {quote : Char} (hquote : isQuote quote = true) (rest : List Char) :
    token ieee afterDot ('r' :: quote :: rest) = literal true quote rest := by
  unfold token
  rw [longest?_eq_none (.inl rfl)]
  rcases Bool.or_eq_true_iff.mp hquote with h | h
  all_goals
    obtain rfl := eq_of_beq h
    rfl

/-- What starts with no symbol is a word, a number or a string, unless it is a raw string. -/
theorem token_word {c : Char} {cs : List Char} (h : Symbol.longest? (c :: cs) = none)
    (hraw : c = 'r' → ∀ d ∈ cs.head?, isQuote d = false) :
    token ieee afterDot (c :: cs) = word ieee afterDot c cs := by
  unfold token
  rw [h]
  dsimp only
  split
  · rename_i heq
    cases heq
  · rename_i heq
    obtain ⟨rfl, rfl⟩ := List.cons.inj heq
    exact absurd (hraw rfl _ rfl) (by decide)
  · rename_i heq
    obtain ⟨rfl, rfl⟩ := List.cons.inj heq
    exact absurd (hraw rfl _ rfl) (by decide)
  · rename_i heq
    obtain ⟨rfl, rfl⟩ := List.cons.inj heq
    rfl

/-- No symbol starts as a literal does. -/
theorem longest?_opening {quote : Char} (hquote : isQuote quote = true) (raw : Bool) (rest : List Char) :
    Symbol.longest? (opening raw quote ++ rest) = none := by
  cases raw with
  | true => exact longest?_eq_none (.inl rfl) _
  | false => exact longest?_eq_none (.inr (.inr hquote)) _

/-- Behind its opening a literal is read as one. -/
theorem token_opening {quote : Char} (hquote : isQuote quote = true) (raw : Bool) (rest : List Char) :
    token ieee afterDot (opening raw quote ++ rest) = literal raw quote rest := by
  cases raw with
  | true => exact token_raw afterDot hquote rest
  | false =>
    have hne : quote ≠ 'r' := by
      rintro rfl
      exact absurd hquote (by decide)
    have hequals : quote ≠ '=' := by
      rintro rfl
      exact absurd hquote (by decide)
    refine (token_word afterDot (longest?_opening hquote false rest) fun h => absurd h hne).trans ?_
    unfold word
    rw [if_neg hequals, if_pos hquote]
    rfl

/-- A digit starts a number. -/
theorem token_digit {c : Char} (hc : Text.isDigit c = true) (cs : List Char) :
    token ieee afterDot (c :: cs) = number afterDot (c :: cs) := by
  have hequals : c ≠ '=' := by
    rintro rfl
    exact absurd hc (by decide)
  rw [token_word afterDot (longest?_eq_none (.inr (.inl hc)) cs)]
  · unfold word
    rw [if_neg hequals, isQuote_of_continuesName (continuesName_of_isDigit hc), hc]
    rfl
  · rintro rfl
    exact absurd hc (by decide)

/-- The longest name at the front of a text, or what it means as a word. -/
def name (ieee : Bool) (cs : List Char) : Found :=
  { kind := wordKind ieee (String.ofList (cs.takeWhile continuesName)),
    length := (cs.takeWhile continuesName).length }

/-- A letter starts a name. -/
theorem token_name {c : Char} {cs : List Char} (hc : startsName c = true)
    (hraw : c = 'r' → ∀ d ∈ cs.head?, isQuote d = false) :
    token ieee afterDot (c :: cs) = .ok (name ieee (c :: cs)) := by
  have hequals : c ≠ '=' := by
    rintro rfl
    exact absurd hc (by decide)
  have hdigit : Text.isDigit c = false := by
    by_contra hdigit
    rw [startsName_of_isDigit (Bool.of_not_eq_false hdigit)] at hc
    cases hc
  rw [token_word afterDot (longest?_eq_none (.inl hc) cs) hraw]
  unfold word
  rw [if_neg hequals, isQuote_of_continuesName (continuesName_of_startsName hc), hdigit, hc]
  rfl

/-! ## What is found -/

/-- **What reading the front of a text gives**, by what it starts with. -/
inductive Reading (ieee afterDot : Bool) (cs : List Char) (r : Except Failure Found) : Prop where
  | symbol (s : Symbol) (hlongest : Symbol.longest? cs = some s)
    (hr : r = .ok { kind := (symbolKind s cs).1, length := (symbolKind s cs).2 })
  | eof (hcs : cs = []) (hr : r = .ok { kind := .eof, length := 0 })
  | text (raw : Bool) (quote : Char) (rest : List Char) (hquote : isQuote quote = true)
    (hcs : cs = opening raw quote ++ rest) (hr : literal raw quote rest = r)
  | number (c : Char) (rest : List Char) (hc : Text.isDigit c = true) (hcs : cs = c :: rest)
    (hr : number afterDot cs = r)
  | name (c : Char) (rest : List Char) (hc : startsName c = true)
    (hraw : c = 'r' → ∀ d ∈ rest.head?, isQuote d = false) (hcs : cs = c :: rest) (hr : r = .ok (name ieee cs))
  | stray (rest : List Char) (hlongest : Symbol.longest? cs = none) (hcs : cs = '=' :: rest)
    (hr : r = .error ⟨.strayEquals, 0, 0⟩)
  | invalid (c : Char) (rest : List Char) (hlongest : Symbol.longest? cs = none) (hquote : isQuote c = false)
    (hdigit : Text.isDigit c = false) (hname : startsName c = false) (hcs : cs = c :: rest)
    (hr : r = .error ⟨.invalidCharacter c, 0, 0⟩)

variable {afterDot}

/-- **A token is read as what it starts with.** -/
theorem token_reading {cs : List Char} {r : Except Failure Found} (h : token ieee afterDot cs = r) :
    Reading ieee afterDot cs r := by
  subst h
  cases hlongest : Symbol.longest? cs with
  | some s => exact .symbol s hlongest (token_of_longest afterDot hlongest)
  | none =>
    by_cases hraw : ∃ quote rest, isQuote quote = true ∧ cs = 'r' :: quote :: rest
    · obtain ⟨quote, rest, hquote, rfl⟩ := hraw
      exact .text true quote rest hquote rfl (token_raw afterDot hquote rest).symm
    cases cs with
    | nil => exact .eof rfl rfl
    | cons c rest =>
      have hname : c = 'r' → ∀ d ∈ rest.head?, isQuote d = false := by
        rintro rfl d hd
        by_contra hquote
        obtain ⟨tail, rfl⟩ := List.head?_eq_some_iff.mp hd
        exact hraw ⟨d, tail, Bool.of_not_eq_false hquote, rfl⟩
      by_cases hquote : isQuote c = true
      · exact .text false c rest hquote rfl (token_opening afterDot hquote false rest).symm
      by_cases hdigit : Text.isDigit c = true
      · exact .number c rest hdigit rfl (token_digit afterDot hdigit rest).symm
      by_cases hletter : startsName c = true
      · exact .name c rest hletter hname rfl (token_name afterDot hletter hname)
      have hword : token ieee afterDot (c :: rest) = _ := token_word afterDot hlongest hname
      unfold word at hword
      by_cases hequals : c = '='
      · subst hequals
        exact .stray rest hlongest rfl hword
      · rw [if_neg hequals, if_neg hquote, if_neg hdigit, if_neg hletter] at hword
        exact .invalid c rest hlongest (Bool.eq_false_iff.mpr hquote) (Bool.eq_false_iff.mpr hdigit)
          (Bool.eq_false_iff.mpr hletter) rfl hword

end Tokens

end Scan

end PipeExpr
