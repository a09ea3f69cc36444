import PipeExpr.Proofs.Literals
import PipeExpr.Proofs.Replays

/-!
# Scanning joined texts

The tokens of two texts that are joined are those of the first one and those of the second one at other
places, if no token runs across the seam (`Scanner.tokens_joined`).

A token is found by what stands behind it only as far as this goes on with it.  The characters that open a
step of access, those that close a bracket and white space go on with no token that ends an operand, except
that a number takes a dot for the one of its fraction (`Scan.token_append`).  So this is all that has to be
known of the first text: what its last token is, and that it does not end in a bare number if the second one
starts with a dot (`Scanner.endsBare`).
-/

namespace PipeExpr

/-- The last one of some tokens ends an operand, whichever stand in front of it. -/
theorem Parse.Rounded.tail {t : Token} {ts : List Token} (h : Rounded (t :: ts)) :
    Rounded ts ∧ (ts = [] → closes t.kind = true) := by
  rcases h with hnil | ⟨front, t', hsplit, hcloses⟩
  · cases hnil
  cases front with
  | nil =>
    obtain ⟨rfl, rfl⟩ := List.cons.inj hsplit
    exact ⟨.inl rfl, fun _ => hcloses⟩
  | cons _ front =>
    obtain ⟨rfl, rfl⟩ := List.cons.inj hsplit
    exact ⟨.inr ⟨front, t', rfl, hcloses⟩, fun hnil => absurd hnil (by simp)⟩

/-! ## Places -/

namespace Position

/-- A place in a text that stands behind another text. -/
def beyond (front : List Char) (p : Position) : Position :=
  if p.line = 1 then ⟨(behind front).line, (behind front).column + (p.column - 1)⟩
  else ⟨(behind front).line + (p.line - 1), p.column⟩

theorem beyond_step (front : List Char) {p : Position} (hline : 1 ≤ p.line) (hcolumn : 1 ≤ p.column)
    (c : Char) : (p.step c).beyond front = (p.beyond front).step c := by
  obtain ⟨line, column⟩ := p
  dsimp only at hline hcolumn
  unfold beyond step
  by_cases hc : c = '\n'
  · simp only [hc, if_true]
    rw [if_neg (by omega)]
    split
    · simp only [mk.injEq, and_true]
      omega
    · simp only [mk.injEq, and_true]
      omega
  · simp only [hc, if_false]
    split
    · simp only [mk.injEq, true_and]
      omega
    · rfl

/-- Places behind a text are counted on from its end. -/
theorem beyond_behind (front cs : List Char) : (behind cs).beyond front = behind (front ++ cs) := by
  induction cs using List.reverseRecOn with
  | nil =>
    rw [List.append_nil]
    rfl
  | append_singleton cs c ih =>
    rw [behind_concat, beyond_step front (Nat.le_add_right 1 _) (Nat.le_add_right 1 _), ih, ← behind_concat,
      List.append_assoc]

end Position

namespace Scan

/-! ## Characters behind a token -/

/-- Characters that go on with no token that can end an operand, but for the dot behind digits. -/
def parts (c : Char) : Bool := Text.isBlank c || [')', ']', '\x7d', '.', '[', '?'].contains c

section Parts
variable {c : Char} (h : parts c = true)
include h

theorem of_parts {P : Char → Prop} (hblank : ∀ c, Text.isBlank c = true → P c)
    (hclose : P ')' ∧ P ']' ∧ P '\x7d') (hopen : P '.' ∧ P '[' ∧ P '?') : P c := by
  unfold parts at h
  simp only [Bool.or_eq_true, List.contains_eq_mem, List.mem_cons, List.not_mem_nil, or_false,
    decide_eq_true_eq] at h
  rcases h with h | rfl | rfl | rfl | rfl | rfl | rfl
  · exact hblank c h
  · exact hclose.1
  · exact hclose.2.1
  · exact hclose.2.2
  · exact hopen.1
  · exact hopen.2.1
  · exact hopen.2.2

theorem continuesName_of_parts : continuesName c = false :=
  of_parts (P := fun c => continuesName c = false) h (fun _ => continuesName_of_isBlank) (by decide)
    (by decide)

theorem isAsciiLetter_of_parts : Text.isAsciiLetter c = false := by
  by_contra hletter
  have hname := continuesName_of_parts h
  unfold continuesName Text.isAlphanumeric Text.isAlphabetic Text.isAscii at hname
  have hascii : c.toNat < 128 := by
    have := toNat_of_isAsciiLetter (Bool.of_not_eq_false hletter)
    omega
  simp [hascii, hletter] at hname

theorem isQuote_of_parts : isQuote c = false :=
  of_parts (P := fun c => isQuote c = false) h (fun _ => isQuote_of_isBlank) ⟨rfl, rfl, rfl⟩ ⟨rfl, rfl, rfl⟩

theorem ne_of_parts {d : Char} (hd : parts d = false) : c ≠ d := by
  rintro rfl
  rw [h] at hd
  cases hd

end Parts

/-- Characters that go on with no number and no name, but for the dot behind digits. -/
def breaks (c : Char) : Bool := !continuesName c && !isQuote c && c != '+' && c != '-'

section Breaks
variable {c : Char} (h : breaks c = true)
include h

theorem continuesName_of_breaks : continuesName c = false := by
  unfold breaks at h
  simp only [Bool.and_eq_true, Bool.not_eq_true'] at h
  exact h.1.1.1

theorem isQuote_of_breaks : isQuote c = false := by
  unfold breaks at h
  simp only [Bool.and_eq_true, Bool.not_eq_true'] at h
  exact h.1.1.2

theorem ne_of_breaks {d : Char} (hd : breaks d = false) : c ≠ d := by
  rintro rfl
  rw [h] at hd
  cases hd

theorem isDigit_of_breaks : Text.isDigit c = false := by
  by_contra hdigit
  have hname := continuesName_of_isDigit (Bool.of_not_eq_false hdigit)
  rw [continuesName_of_breaks h] at hname
  cases hname

end Breaks

theorem breaks_of_parts {c : Char} (h : parts c = true) : breaks c = true := by
  have hplus : c ≠ '+' := ne_of_parts h rfl
  have hminus : c ≠ '-' := ne_of_parts h rfl
  simp only [breaks, continuesName_of_parts h, isQuote_of_parts h, bne_iff_ne.mpr hplus, bne_iff_ne.mpr hminus]
  rfl

/-- A text that starts as a number that may have a fraction. -/
def bare (afterDot : Bool) (cs : List Char) : Bool := !afterDot && cs.head?.any Text.isDigit

/-! ## Tokens in front of more text -/

theorem takeWhile_append_stop {p : Char → Bool} {more : List Char} (hmore : ∀ d ∈ more.head?, p d = false)
    (cs : List Char) : (cs ++ more).takeWhile p = cs.takeWhile p := by
  induction cs with
  | nil =>
    rw [List.nil_append]
    cases more with
    | nil => rfl
    | cons d more => exact List.takeWhile_cons_of_neg (by rw [hmore d rfl]; exact Bool.false_ne_true)
  | cons c cs ih => rw [List.cons_append, List.takeWhile_cons, List.takeWhile_cons, ih]

/-! ### Numbers and names -/

/-- Digits alone are a number without a fraction and an exponent. -/
theorem numberLength_digits (afterDot : Bool) {cs : List Char} (h : ∀ c ∈ cs, Text.isDigit c = true) :
    numberLength afterDot cs = cs.length := by
  have hparts := @numberLength_parts afterDot cs [] [] h nofun (fractionTaken_of_ne afterDot nofun)
  rwa [List.append_nil, List.append_nil] at hparts

section Words
variable {cs more : List Char} (hmore : ∀ d ∈ more.head?, breaks d = true)
include hmore

theorem exponentLength_append (cs : List Char) : exponentLength (cs ++ more) = exponentLength cs := by
  have hdigits := takeWhile_append_stop fun d hd => isDigit_of_breaks (hmore d hd)
  cases cs with
  | nil =>
    exact exponentLength_of_ne fun c hc => ⟨ne_of_breaks (hmore c hc) rfl, ne_of_breaks (hmore c hc) rfl⟩
  | cons marker rest =>
    by_cases hmarker : marker = 'e' ∨ marker = 'E'
    · obtain ⟨sign, negative, body, rfl, hsign⟩ := exists_signed rest
      have hsign' : Signed sign negative (body ++ more) := by
        cases hsign with
        | minus => exact .minus _
        | plus => exact .plus _
        | none h =>
          refine .none (head?_append_imp h fun c hc => ⟨?_, ?_⟩)
          · exact ne_of_breaks (hmore c hc) rfl
          · exact ne_of_breaks (hmore c hc) rfl
      rw [List.cons_append, List.append_assoc, exponentLength_marker hmarker hsign,
        exponentLength_marker hmarker hsign', hdigits]
    · exact (if_neg hmarker).trans (if_neg hmarker).symm

/-- A number is the same in front of more text, unless this has the dot of its fraction. -/
theorem numberLength_append {afterDot : Bool} (hdot : (∀ c ∈ cs, Text.isDigit c = true) → afterDot = false →
      ∀ d ∈ more.head?, d ≠ '.') :
    numberLength afterDot (cs ++ more) = numberLength afterDot cs ∧ numberLength afterDot cs ≤ cs.length := by
  obtain ⟨whole, rest, rfl, hwhole, hbehind⟩ : ∃ whole rest, cs = whole ++ rest ∧
      (∀ c ∈ whole, Text.isDigit c = true) ∧ ∀ c ∈ rest.head?, Text.isDigit c = false :=
    ⟨cs.takeWhile Text.isDigit, cs.dropWhile Text.isDigit, List.takeWhile_append_dropWhile.symm,
      fun _ hc => List.mem_takeWhile_imp hc, fun c hc => head?_dropWhile hc⟩
  have hdigits := takeWhile_append_stop fun d hd => isDigit_of_breaks (hmore d hd)
  have hsame : fractionTaken afterDot (rest ++ more) = fractionTaken afterDot rest := by
    cases afterDot with
    | true => rfl
    | false =>
      cases rest with
      | nil => exact fractionTaken_of_ne false (hdot (by rwa [List.append_nil]) rfl)
      | cons c rest =>
        by_cases hc : c = '.'
        · subst hc
          show fractionLength ('.' :: (rest ++ more)) = fractionLength ('.' :: rest)
          rw [fractionLength_dot, fractionLength_dot, hdigits]
        · have hnone : ∀ rest, fractionTaken false (c :: rest) = 0 := fun rest =>
            fractionTaken_of_ne false fun d hd => Option.some.inj hd ▸ hc
          rw [List.cons_append, hnone, hnone]
  obtain ⟨fraction, hfraction, htaken⟩ := longest_fraction afterDot rest
  obtain ⟨rest, rfl⟩ := hfraction.starts
  obtain ⟨exponent, hexponent, hlength⟩ := longest_exponent rest
  have hbehind' : ∀ c ∈ (fraction ++ (rest ++ more)).head?, Text.isDigit c = false := by
    rw [← List.append_assoc]
    exact head?_append_imp hbehind fun c hc => isDigit_of_breaks (hmore c hc)
  rw [List.append_assoc] at hsame
  rw [List.append_assoc, List.append_assoc, numberLength_parts hwhole hbehind' (hsame.trans htaken),
    numberLength_parts hwhole hbehind htaken, exponentLength_append hmore]
  refine ⟨rfl, ?_⟩
  have hle := hexponent.starts.length_le
  simp only [List.length_append]
  omega

theorem number_append {afterDot : Bool} {found : Found} (hne : cs ≠ []) (h : number afterDot cs = .ok found)
    (hdot : found.length = cs.length → bare afterDot cs = true → ∀ d ∈ more.head?, d ≠ '.') :
    number afterDot (cs ++ more) = .ok found := by
  obtain ⟨hsame, hle⟩ : numberLength afterDot (cs ++ more) = numberLength afterDot cs ∧
      numberLength afterDot cs ≤ cs.length := by
    refine numberLength_append hmore fun hall hafter d hd => ?_
    refine hdot ?_ ?_ d hd
    · obtain ⟨n, -, rfl⟩ := of_numberOf h
      exact congrArg List.length (by rw [numberLength_digits afterDot hall, List.take_length])
    · obtain ⟨c, cs, rfl⟩ := List.exists_cons_of_ne_nil hne
      unfold bare
      rw [hafter]
      exact hall c (List.mem_cons_self ..)
  unfold number
  rw [hsame, List.take_append_of_le_length hle]
  exact h

theorem name_append (ieee : Bool) (cs : List Char) : name ieee (cs ++ more) = name ieee cs := by
  unfold name
  rw [takeWhile_append_stop fun d hd => continuesName_of_breaks (hmore d hd)]

end Words

/-! ### Any token -/

section Append
variable {cs more : List Char} (hmore : ∀ d ∈ more.head?, parts d = true)
include hmore

/-- A symbol is as long as it was, unless it is a question mark. -/
theorem longest?_append (hne : cs ≠ []) (hcs : cs ≠ ['?']) :
    Symbol.longest? (cs ++ more) = Symbol.longest? cs := by
  have hlengths : ∀ s ∈ Symbol.punctuation, s.chars.length = 1 ∨ ∃ a b, s.chars = [a, b] ∧
      (parts b = true → a = '?') := by
    have htable : ∀ s ∈ Symbol.punctuation, s.chars.length = 1 ∨ s.chars.length = 2 ∧
        ((s.chars.getLastD ' ' |> parts) = true → s.chars.headD ' ' = '?') := by decide
    intro s hs
    refine (htable s hs).imp_right fun ⟨htwo, hmark⟩ => ?_
    obtain ⟨a, b, hchars⟩ := List.length_eq_two.mp htwo
    rw [hchars] at hmark ⊢
    exact ⟨a, b, rfl, hmark⟩
  refine List.find?_congr fun s hs => ?_
  obtain ⟨c, cs, rfl⟩ := List.exists_cons_of_ne_nil hne
  rcases hlengths s hs with hone | ⟨a, b, hchars, hmark⟩
  · obtain ⟨a, hchars⟩ := List.length_eq_one_iff.mp hone
    rw [hchars]
    rfl
  rw [hchars]
  cases cs with
  | cons d cs => rfl
  | nil =>
    cases more with
    | nil => rfl
    | cons d more =>
      show (a == c && (b == d && true)) = (a == c && false)
      rw [Bool.and_true, Bool.and_false, Bool.and_eq_false_iff]
      by_contra hboth
      simp only [not_or, Bool.not_eq_false, beq_iff_eq] at hboth
      obtain ⟨rfl, rfl⟩ := hboth
      exact hcs (by rw [hmark (hmore b rfl)])

theorem barKind_append (cs : List Char) : barKind (cs ++ more) = barKind cs := by
  unfold barKind
  dsimp only
  rw [takeWhile_append_stop fun d hd => isAsciiLetter_of_parts (hmore d hd),
    List.drop_append_of_le_length (List.takeWhile_prefix _).length_le]
  cases cs.drop (cs.takeWhile Text.isAsciiLetter).length with
  | cons c rest =>
    by_cases hcolon : c = ':'
    · subst hcolon
      rfl
    · simp [hcolon]
  | nil =>
    cases more with
    | nil => rfl
    | cons d more =>
      have hcolon : d ≠ ':' := ne_of_parts (hmore d rfl) rfl
      simp [hcolon]

/-- Texts are the same in front of more text. -/
theorem literal_append {ieee afterDot raw : Bool} {quote : Char} {rest : List Char} {found : Found}
    (hquote : isQuote quote = true) (h : literal raw quote rest = .ok found) :
    token ieee afterDot (opening raw quote ++ (rest ++ more)) = .ok found := by
  obtain ⟨s, lit, back, hsplit, hspells, hclosed, rfl⟩ := literal_reads h
  rw [← List.append_assoc, hsplit, List.append_assoc]
  refine token_spells hquote hspells fun hraw => head?_append_imp (hclosed hraw) fun c hc => ?_
  rintro rfl
  rw [isQuote_of_parts (hmore c hc)] at hquote
  cases hquote

/-- A symbol is the same, unless what follows decides which one it is. -/
theorem symbolKind_append {s : Symbol} (hs : Symbol.longest? cs = some s)
    (hseam : (symbolKind s cs).2 = cs.length → Parse.closes (symbolKind s cs).1 = true) :
    symbolKind s (cs ++ more) = symbolKind s cs := by
  obtain ⟨rest, rfl⟩ := Symbol.starts_of_longest? hs
  by_cases hminus : s = .minusMinus
  · subst hminus
    cases rest with
    | nil => cases hseam rfl
    | cons => rfl
  by_cases hbar : s = .bar
  · subst hbar
    exact barKind_append hmore rest
  rw [symbolKind_of_ne hminus hbar, symbolKind_of_ne hminus hbar]

/-- **A token is the same in front of more text** with a character that parts tokens, if it does not reach up
to it, or if it can end an operand and is no number that a dot would go on with. -/
theorem token_append {ieee afterDot : Bool} {found : Found} (hne : cs ≠ [])
    (h : token ieee afterDot cs = .ok found)
    (hseam : found.length = cs.length → Parse.closes found.kind = true)
    (hdot : found.length = cs.length → bare afterDot cs = true → ∀ d ∈ more.head?, d ≠ '.') :
    token ieee afterDot (cs ++ more) = .ok found := by
  have hmark : cs ≠ ['?'] := by
    rintro rfl
    obtain rfl := Except.ok.inj h
    cases hseam rfl
  have hbreaks : ∀ d ∈ more.head?, breaks d = true := fun d hd => breaks_of_parts (hmore d hd)
  cases token_reading h with
  | symbol s hs hr =>
    obtain rfl := Except.ok.inj hr
    rw [token_of_longest afterDot ((longest?_append hmore hne hmark).trans hs), symbolKind_append hmore hs hseam]
  | eof hnil => exact absurd hnil hne
  | text raw quote rest hquote hcs hr =>
    rw [hcs, List.append_assoc]
    exact literal_append hmore hquote hr
  | number c rest hc hcs hr =>
    subst hcs
    exact (token_digit afterDot hc (rest ++ more)).trans (number_append hbreaks hne hr hdot)
  | name c rest hc hraw hcs hr =>
    subst hcs
    have hletter : c = 'r' → ∀ d ∈ (rest ++ more).head?, isQuote d = false := fun hletter =>
      head?_append_imp (hraw hletter) fun d hd => isQuote_of_parts (hmore d hd)
    rw [hr, ← name_append hbreaks, List.cons_append, token_name afterDot hc hletter]
  | stray _ _ _ hr => cases hr
  | invalid _ _ _ _ _ _ _ hr => cases hr

end Append

end Scan

namespace Scanner
open Scan

/-! ## Scanners -/

/-- Whether the last one of some tokens starts as a number that may have a fraction.  `afterDot` says whether
a dot stands in front of them. -/
def endsBare : (afterDot : Bool) → List Token → Bool
  | _, [] => false
  | afterDot, [t] => bare afterDot t.lexeme.toList
  | _, t :: t' :: ts => endsBare (isDot t.kind) (t' :: ts)

theorem endsBare_cons (afterDot : Bool) (t : Token) (ts : List Token) : endsBare afterDot (t :: ts) =
    if ts = [] then bare afterDot t.lexeme.toList else endsBare (isDot t.kind) ts := by
  cases ts with
  | nil => rfl
  | cons t' ts => exact (if_neg (List.cons_ne_nil t' ts)).symm

theorem isDot_of_closes {k : TokenKind} (h : Parse.closes k = true) : isDot k = false := by
  cases k with
  | symbol s => cases s <;> first | rfl | cases h
  | _ => rfl

variable {s u s' : Scanner} {before before' : List Char}

theorem ready_ofSource (source : String) (ieee : Bool) : (ofSource source ieee).Ready [] := ⟨rfl, rfl⟩

theorem tokens_of_end {position : Position} (hs : s.Ready before)
    (hnext : s.next = (.ok (.eof position), s')) : s.tokens = ([], ⟨position, none⟩) := by
  obtain ⟨ps, last, hrun⟩ := hs.run
  cases hrun with
  | stop hstop hdone hstops =>
    obtain ⟨rfl, -⟩ := Prod.mk.inj (hnext.symm.trans hstop)
    exact (Run.stop hstop hdone hstops).tokens
  | piece hpiece hstands =>
    have hinner := hstands.inner
    rw [← Except.ok.inj (Prod.mk.inj (hnext.symm.trans hpiece)).1] at hinner
    cases hinner

/-- Scanners with the same next call have the same tokens. -/
theorem tokens_of_next_eq (hs : s.Ready before) (hu : u.Ready before') (h : s.next = u.next) :
    s.tokens = u.tokens := by
  rcases next_cases hs with ⟨last, s', hnext, -, hstops⟩ | ⟨p, s', hnext, hstands, -, -⟩
  · cases hstops with
    | eof => rw [tokens_of_end hs hnext, tokens_of_end hu (h.symm.trans hnext)]
    | error => rw [tokens_of_error hs hnext, tokens_of_error hu (h.symm.trans hnext)]
  · rw [tokens_of_next hs hnext hstands.inner, tokens_of_next hu (h.symm.trans hnext) hstands.inner]

/-- White space is passed over. -/
theorem tokens_of_blanks (hs : s.Ready before) {gap more : List Char}
    (hgap : ∀ c ∈ gap, Text.isBlank c = true) (hrest : s.rest = gap ++ more) :
    s.tokens = (⟨more, Position.behind (before ++ gap), s.ieee, s.afterDot, false⟩ : Scanner).tokens := by
  refine @tokens_of_next_eq _ _ _ (before ++ gap) hs ⟨rfl, rfl⟩ ?_
  obtain ⟨rest, position, ieee, afterDot, halted⟩ := s
  obtain ⟨hrunning, hplace⟩ := hs
  dsimp only at hrunning hplace hrest
  subst hrunning hplace hrest
  unfold next skipBlanks
  simp only [Bool.false_eq_true, if_false, List.dropWhile_append_of_pos hgap,
    List.takeWhile_append_of_pos hgap, Position.behind_after, List.append_assoc]

/-- A running scanner reads what it finds behind white space. -/
theorem next_at (hs : s.Ready before) {gap lexeme back : List Char} {found : Found}
    (hgap : ∀ c ∈ gap, Text.isBlank c = true) (hvisible : ∀ c ∈ lexeme.head?, Text.isBlank c = false)
    (hne : lexeme ≠ []) (hrest : s.rest = gap ++ (lexeme ++ back))
    (hfound : token s.ieee s.afterDot (lexeme ++ back) = .ok found) (hlength : lexeme.length = found.length) :
    s.next = (.ok ⟨found.kind, String.ofList lexeme, Position.behind (before ++ gap), found.singleQuoted,
        found.raw⟩,
      ⟨back, Position.behind (before ++ (gap ++ lexeme)), s.ieee, isDot found.kind, false⟩) := by
  obtain ⟨c, lexeme, rfl⟩ := List.exists_cons_of_ne_nil hne
  obtain ⟨hdrop, htake⟩ := dropWhile_visible (hvisible c rfl) (lexeme ++ back)
  rw [← List.cons_append] at hdrop htake
  have hhere : s.rest.dropWhile Text.isBlank = c :: lexeme ++ back := by
    rw [hrest, List.dropWhile_append_of_pos hgap, hdrop]
  have hnext := next_found hs.running (hhere ▸ hfound)
  rw [hhere, hrest, List.takeWhile_append_of_pos hgap, htake, List.append_nil, List.take_left' hlength,
    List.drop_left' hlength, hs.place, Position.behind_after, Position.behind_after,
    List.append_assoc] at hnext
  exact hnext

/-- What a running scanner has read, it has found behind white space. -/
theorem next_reads (hs : s.Ready before) {t : Token} (hnext : s.next = (.ok t, s'))
    (ht : t.kind.isEof = false) : ∃ gap lexeme back found, (∀ c ∈ gap, Text.isBlank c = true) ∧
      (∀ c ∈ lexeme.head?, Text.isBlank c = false) ∧ lexeme ≠ [] ∧ s.rest = gap ++ (lexeme ++ back) ∧
      token s.ieee s.afterDot (lexeme ++ back) = .ok found ∧ lexeme.length = found.length := by
  obtain ⟨found, hfound, -⟩ := next_token hnext ht
  have hne : s.rest.dropWhile Text.isBlank ≠ [] := by
    intro hnil
    have hread := next_found hs.running hfound
    rw [hnil, token_nil] at hfound
    obtain rfl := Except.ok.inj hfound
    rw [Except.ok.inj (Prod.mk.inj (hnext.symm.trans hread)).1] at ht
    cases ht
  have hpos : 0 < found.length := by
    have htakes := token_takes s.ieee s.afterDot hne
    rw [hfound] at htakes
    exact htakes.pos
  obtain ⟨lexeme, back, hsplit, hlength, -⟩ := token_kept hne found hfound
  have hlexeme : lexeme ≠ [] := List.ne_nil_of_length_pos (hlength ▸ hpos)
  refine ⟨s.rest.takeWhile Text.isBlank, lexeme, back, found, fun _ hc => List.mem_takeWhile_imp hc, ?_,
    hlexeme, ?_, hsplit ▸ hfound, hlength⟩
  · have hvisible : ∀ c ∈ (s.rest.dropWhile Text.isBlank).head?, Text.isBlank c = false :=
      fun _ hc => head?_dropWhile hc
    rwa [hsplit, List.head?_append_of_ne_nil _ hlexeme] at hvisible
  · rw [← hsplit, List.takeWhile_append_dropWhile]

/-- A scanner `s`, and another one that reads the same text behind `front` and in front of `more`. -/
structure Joins (front before more : List Char) (s u : Scanner) : Prop where
  ready : s.Ready before
  joined : u.Ready (front ++ before)
  rest : u.rest = s.rest ++ more
  ieee : u.ieee = s.ieee
  afterDot : u.afterDot = s.afterDot

section Joined
variable {front more : List Char} (hmore : ∀ d ∈ more.head?, parts d = true)
include hmore

/-- **Both scanners find the same token**, if it is not the last one, or if nothing of what stands behind it
goes on with it. -/
theorem Joins.next (h : Joins front before more s u) {t : Token} (hnext : s.next = (.ok t, s'))
    (ht : t.kind.isEof = false) (hcloses : s'.rest = [] → Parse.closes t.kind = true)
    (hbare : s'.rest = [] → bare s.afterDot t.lexeme.toList = true → ∀ d ∈ more.head?, d ≠ '.') :
    ∃ before' u', u.next = (.ok (t.relocate (Position.beyond front)), u') ∧ Joins front before' more s' u' ∧
      before' ++ s'.rest = before ++ s.rest ∧ s'.rest.length < s.rest.length ∧ s'.ieee = s.ieee ∧
      s'.afterDot = isDot t.kind := by
  obtain ⟨gap, lexeme, back, found, hgap, hvisible, hne, hrest, hfound, hlength⟩ :=
    next_reads h.ready hnext ht
  obtain ⟨htoken, rfl⟩ := Prod.mk.inj
    (hnext.symm.trans (next_at h.ready hgap hvisible hne hrest hfound hlength))
  obtain rfl := Except.ok.inj htoken
  have hwhole : found.length = (lexeme ++ back).length → back = [] := fun hlong => by
    rw [List.length_append] at hlong
    exact List.eq_nil_of_length_eq_zero (by omega)
  have hagain : token u.ieee u.afterDot (lexeme ++ (back ++ more)) = .ok found := by
    rw [h.ieee, h.afterDot, ← List.append_assoc]
    refine token_append hmore (List.append_ne_nil_of_left_ne_nil hne _) hfound
      (fun hlong => hcloses (hwhole hlong)) fun hlong hstarts => hbare (hwhole hlong) ?_
    rwa [hwhole hlong, List.append_nil, ← String.toList_ofList (l := lexeme)] at hstarts
  have hthere : u.rest = gap ++ (lexeme ++ (back ++ more)) := by
    rw [h.rest, hrest]
    simp only [List.append_assoc]
  refine ⟨before ++ (gap ++ lexeme), ⟨back ++ more, Position.behind (front ++ (before ++ (gap ++ lexeme))),
    u.ieee, isDot found.kind, false⟩, ?_, ⟨⟨rfl, rfl⟩, ⟨rfl, rfl⟩, rfl, h.ieee, rfl⟩, ?_, ?_, rfl, rfl⟩
  · rw [next_at h.joined hgap hvisible hne hthere hagain hlength]
    unfold Token.relocate
    rw [Position.beyond_behind, List.append_assoc, List.append_assoc]
  · dsimp only
    rw [hrest]
    simp only [List.append_assoc]
  · have hpos := List.length_pos_of_ne_nil hne
    rw [hrest, List.length_append, List.length_append]
    dsimp only
    omega

/-- **The tokens of two texts that are joined** are those of the first one and those of the second one.  The
first text is read up to its end, and ends an operand. -/
theorem tokens_joined {ts : List Token} {ending : Position} (h : Joins front before more s u)
    (htokens : s.tokens = (ts, ⟨ending, none⟩)) (hrounded : Parse.Rounded ts)
    (hopen : ts = [] → s.afterDot = false)
    (hbare : endsBare s.afterDot ts = true → ∀ d ∈ more.head?, d ≠ '.') {w : Scanner}
    (hw : w = ⟨more, Position.behind (front ++ (before ++ s.rest)), s.ieee, false, false⟩) :
    u.tokens = (ts.map (Token.relocate (Position.beyond front)) ++ w.tokens.1, w.tokens.2) := by
  induction hn : s.rest.length using Nat.strong_induction_on generalizing s u before ts with
  | _ n ih =>
  rcases next_cases h.ready with ⟨last, s', hnext, -, hstops⟩ | ⟨p, s', hnext, hstands, hready, -⟩
  · cases hstops with
    | error =>
      rw [tokens_of_error h.ready hnext] at htokens
      cases htokens
    | eof hblank =>
      obtain ⟨rfl, -⟩ := Prod.mk.inj ((tokens_of_end h.ready hnext).symm.trans htokens)
      rw [tokens_of_blanks h.joined hblank h.rest, h.ieee, h.afterDot, hopen rfl, List.append_assoc, hw]
      rfl
  -- one token, and those behind it
  · have hall := tokens_of_next h.ready hnext hstands.inner
    obtain ⟨rfl, hending⟩ := Prod.mk.inj (hall.symm.trans htokens)
    have hlast : s'.rest = [] → s'.tokens.1 = [] := fun hnil => by
      obtain ⟨position, s'', hend⟩ := next_end hready.running (by rw [hnil]; rfl)
      rw [tokens_of_end hready hend]
    obtain ⟨hrounded, hcloses⟩ := hrounded.tail
    rw [endsBare_cons] at hbare
    obtain ⟨before', u', hnext', hjoins, hplace, hshorter, hieee, hafter⟩ :=
      h.next hmore hnext hstands.inner (hcloses ∘ hlast) fun hnil => by rwa [if_pos (hlast hnil)] at hbare
    have htokens' : s'.tokens = (s'.tokens.1, ⟨ending, none⟩) := Prod.ext rfl hending
    have hrest := ih s'.rest.length (hn ▸ hshorter) hjoins htokens' hrounded
      (fun hnil => hafter.trans (isDot_of_closes (hcloses hnil)))
      (by
        rw [hafter]
        split at hbare
        · rename_i hnil
          rw [hnil]
          exact nofun
        · exact hbare)
      (by rw [hw, hplace, hieee]) rfl
    rw [tokens_of_next h.joined hnext' hstands.inner, hrest]
    rfl

end Joined

/-- **The tokens of a text behind another one** are the same at other places. -/
theorem tokens_moved {front : List Char} {ts : List Token} {ending : Position}
    (htokens : s.tokens = (ts, ⟨ending, none⟩)) (hclosed : Parse.Closed ts) (h : Joins front before [] s u) :
    ∃ place, u.tokens = (ts.map (Token.relocate (Position.beyond front)), ⟨place, none⟩) := by
  have hnone : ∀ {P : Char → Prop}, ∀ d ∈ ([] : List Char).head?, P d :=
    fun d hd => absurd hd (Option.not_mem_none d)
  have hjoined := tokens_joined hnone h htokens (.inr hclosed) (fun hnil => absurd hnil hclosed.ne_nil)
    (fun _ => hnone) rfl
  obtain ⟨place, w', hend⟩ := next_end
    (s := ⟨[], Position.behind (front ++ (before ++ s.rest)), s.ieee, false, false⟩) rfl rfl
  have hready : (⟨[], Position.behind (front ++ (before ++ s.rest)), s.ieee, false, false⟩ : Scanner).Ready
      (front ++ (before ++ s.rest)) := ⟨rfl, rfl⟩
  rw [tokens_of_end hready hend, List.append_nil] at hjoined
  exact ⟨place, hjoined⟩

/-! ## Texts put together -/

/-- What a scanner reads of a text behind another one, up to its end and without an error. -/
def Lexes (front text : List Char) (ieee afterDot : Bool) (ts : List Token) : Prop :=
  ∃ place, (⟨text, Position.behind front, ieee, afterDot, false⟩ : Scanner).tokens = (ts, ⟨place, none⟩)

section Lexes
variable {front back : List Char} {ieee afterDot : Bool} {ts : List Token}

theorem lexes_end (front : List Char) (ieee afterDot : Bool) : Lexes front [] ieee afterDot [] := by
  obtain ⟨place, s', hend⟩ := next_end (s := ⟨[], Position.behind front, ieee, afterDot, false⟩) rfl rfl
  exact ⟨place, tokens_of_end (show Ready front _ from ⟨rfl, rfl⟩) hend⟩

/-- A token, with white space in front of it. -/
theorem Lexes.token (gap : List Char) {lexeme : List Char} {found : Found} (hgap : ∀ c ∈ gap, Text.isBlank c = true)
    (hvisible : ∀ c ∈ lexeme.head?, Text.isBlank c = false) (hne : lexeme ≠ [])
    (hfound : Scan.token ieee afterDot (lexeme ++ back) = .ok found) (hlength : lexeme.length = found.length)
    (heof : found.kind.isEof = false) (h : Lexes (front ++ (gap ++ lexeme)) back ieee (isDot found.kind) ts) :
    Lexes front (gap ++ (lexeme ++ back)) ieee afterDot
      (⟨found.kind, String.ofList lexeme, Position.behind (front ++ gap), found.singleQuoted, found.raw⟩ ::
        ts) := by
  have hready : (⟨gap ++ (lexeme ++ back), Position.behind front, ieee, afterDot, false⟩ : Scanner).Ready
      front := ⟨rfl, rfl⟩
  obtain ⟨place, hrest⟩ := h
  refine ⟨place, ?_⟩
  rw [tokens_of_next hready (next_at hready hgap hvisible hne rfl hfound hlength) heof, hrest]

/-- A source of its own, with more text behind it. -/
theorem Lexes.source {t : String} {tokens : List Token} {position : Position}
    (hscan : (ofSource t ieee).tokens = (tokens, ⟨position, none⟩)) (hclosed : Parse.Closed tokens)
    (hmore : ∀ d ∈ back.head?, parts d = true)
    (hbare : endsBare false tokens = true → ∀ d ∈ back.head?, d ≠ '.')
    (h : Lexes (front ++ t.toList) back ieee false ts) :
    Lexes front (t.toList ++ back) ieee false
      (tokens.map (Token.relocate (Position.beyond front)) ++ ts) := by
  obtain ⟨place, hrest⟩ := h
  have hjoins : Joins front [] back (ofSource t ieee)
      ⟨t.toList ++ back, Position.behind front, ieee, false, false⟩ :=
    ⟨⟨rfl, rfl⟩, ⟨rfl, by rw [List.append_nil]⟩, rfl, rfl, rfl⟩
  have hjoined := tokens_joined hmore hjoins hscan (.inr hclosed) (fun _ => rfl) hbare
    (w := ⟨back, Position.behind (front ++ t.toList), ieee, false, false⟩) rfl
  rw [hrest] at hjoined
  exact ⟨place, hjoined⟩

/-- A source of its own, at the end of a text. -/
theorem lexes_moved {t : String} {tokens : List Token} {position : Position}
    (hscan : (ofSource t ieee).tokens = (tokens, ⟨position, none⟩)) (hclosed : Parse.Closed tokens)
    (front : List Char) : Lexes front t.toList ieee false (tokens.map (Token.relocate (Position.beyond front))) := by
  have hlexes : Lexes front (t.toList ++ []) ieee false _ :=
    Lexes.source hscan hclosed nofun (fun _ => nofun) (lexes_end ..)
  rwa [List.append_nil, List.append_nil] at hlexes

end Lexes

end Scanner

end PipeExpr
