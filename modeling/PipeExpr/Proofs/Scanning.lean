import PipeExpr.Proofs.NumberSyntax
import PipeExpr.Proofs.Tiling

/-!
# Scanning printed texts

The tokens of a printed text are those that were printed (`Expr.Printable.tokens`).

Each lexeme is scanned to its end, whatever stands behind the space that follows (`Lexeme.Scans`).  A
number takes its fraction only if there is no dot in front of it, so names and positions behind a dot are
kept together with the dot (`Spaced`).  The scanner then takes one turn for each lexeme
(`Spaced.collect`).
-/

namespace PipeExpr

/-- What stands behind a token of a printed text: a space or the end. -/
inductive Separated : List Char → Prop where
  | nil : Separated []
  | space (rest : List Char) : Separated (' ' :: rest)

theorem Separated.head {more : List Char} (h : Separated more) : ∀ c ∈ more.head?, c = ' ' := by
  cases h with
  | nil => exact fun c hc => absurd hc (Option.not_mem_none c)
  | space rest => exact fun _ hc => (Option.some.inj hc).symm

/-- A lexeme that does not start with white space. -/
def Lexeme.Visible (l : Lexeme) : Prop := ∃ c cs, l.text = c :: cs ∧ Text.isBlank c = false

/-- **A lexeme that is scanned as it was printed**, behind a dot or not. -/
structure Lexeme.Scans (afterDot : Bool) (l : Lexeme) : Prop where
  visible : l.Visible
  kind : l.kind.isEof = false
  scans : ∀ more, Separated more → ∃ found, Scan.token true afterDot (l.text ++ more) = .ok found ∧
    found.kind = l.kind ∧ found.length = l.text.length

/-! ## Symbols and markers -/

section Lexemes
variable (afterDot : Bool)

theorem scans_symbol {s : Symbol} (h : s ≠ .as) : (Lexeme.symbol s).Scans afterDot := by
  refine ⟨?_, rfl, fun more hmore => ?_⟩
  · cases s <;> exact ⟨_, _, rfl, rfl⟩
  · cases hmore with
    | nil => cases s <;> first | exact absurd rfl h | exact ⟨_, rfl, rfl, rfl⟩
    | space rest => cases s <;> first | exact absurd rfl h | exact ⟨_, rfl, rfl, rfl⟩

theorem longest?_bar {c : Char} (h : c ≠ '|') (cs : List Char) :
    Symbol.longest? ('|' :: c :: cs) = some .bar := by
  have hne : ['|'].isPrefixOf (c :: cs) = false := by
    rw [List.isPrefixOf_cons_cons, beq_eq_false_iff_ne.mpr h.symm]
    rfl
  simp [Symbol.longest?, Symbol.punctuation, Symbol.chars, hne]

theorem scans_marker {handler : String} (hne : handler ≠ "")
    (hletters : ∀ c ∈ handler.toList, Text.isAsciiLetter c = true) :
    (Lexeme.marker handler).Scans afterDot := by
  unfold Lexeme.marker
  split
  · refine ⟨⟨_, _, rfl, rfl⟩, rfl, fun more hmore => ?_⟩
    cases hmore <;> exact ⟨_, rfl, rfl, rfl⟩
  · obtain ⟨c, cs, hcs⟩ := List.exists_cons_of_ne_nil (mt String.toList_eq_nil_iff.mp hne)
    refine ⟨⟨_, _, rfl, rfl⟩, rfl, fun more hmore => ?_⟩
    have hlongest : Symbol.longest? ('|' :: (handler.toList ++ ':' :: more)) = some .bar := by
      rw [hcs]
      refine longest?_bar ?_ _
      rintro rfl
      exact absurd (hletters '|' (hcs ▸ List.mem_cons_self ..)) (by decide)
    have hkind : Scan.symbolKind .bar ('|' :: (handler.toList ++ ':' :: more)) =
        (.pipe (some handler), handler.toList.length + 2) := by
      have hsome : handler.toList.isEmpty = false := by rw [hcs]; rfl
      refine (Scan.barKind_marker hletters more).trans ?_
      rw [hsome, String.ofList_toList]
      rfl
    refine ⟨{ kind := .pipe (some handler), length := handler.toList.length + 2 }, ?_, rfl, by simp⟩
    have htext : '|' :: (handler.toList ++ [':']) ++ more = '|' :: (handler.toList ++ ':' :: more) := by
      simp
    rw [htext, Scan.token_of_longest afterDot hlongest, hkind]

/-! ## Words -/

/-- A word is cut off in front of what it does not go on with. -/
theorem token_isWord {ieee : Bool} {w : String} (h : IsWord w) {more : List Char}
    (hmore : ∀ d ∈ more.head?, Scan.continuesName d = false ∧ Scan.isQuote d = false) :
    Scan.token ieee afterDot (w.toList ++ more) =
      .ok { kind := Scan.wordKind ieee w, length := w.toList.length } := by
  obtain ⟨c, cs, hw, hc, hcs⟩ := h
  have hall : ∀ d ∈ c :: cs, Scan.continuesName d = true :=
    List.forall_mem_cons.mpr ⟨Scan.continuesName_of_startsName hc, hcs⟩
  have hname : (c :: (cs ++ more)).takeWhile Scan.continuesName = w.toList := by
    rw [hw, ← List.cons_append]
    exact takeWhile_append_eq hall fun d hd => (hmore d hd).1
  have htext : w.toList ++ more = c :: (cs ++ more) := congrArg (· ++ more) hw
  rw [htext, Scan.token_name afterDot hc, Scan.name, hname, String.ofList_toList]
  -- the letter of raw strings is not followed by a quote
  intro _ d hd
  cases cs with
  | nil => exact (hmore d hd).2
  | cons e cs =>
    obtain rfl : e = d := Option.some.inj hd
    exact isQuote_of_continuesName (hcs e (List.mem_cons_self ..))

theorem isEof_wordKind (ieee : Bool) (w : String) : (Scan.wordKind ieee w).isEof = false := by
  unfold Scan.wordKind
  grind [TokenKind.isEof]

theorem scans_word {w : String} (h : IsWord w) : (Lexeme.word w).Scans afterDot := by
  obtain ⟨c, cs, hw, hc, -⟩ := id h
  refine ⟨⟨c, cs, hw, isBlank_of_startsName hc⟩, isEof_wordKind true w, fun more hmore => ?_⟩
  refine ⟨{ kind := Scan.wordKind true w, length := w.toList.length }, ?_, rfl, rfl⟩
  exact token_isWord afterDot h fun d hd => by
    rw [hmore.head d hd]
    decide

/-! ## Strings -/

theorem quotedBody_escaped (more : List Char) (cs : List Char) :
    ∀ (fuel length : Nat) (value : List Char), (Lexeme.escaped cs).length < fuel →
      Scan.quotedBody '"' fuel (Lexeme.escaped cs ++ '"' :: more) length value =
        .ok (value.reverse ++ cs, length + (Lexeme.escaped cs).length + 1) := by
  induction cs with
  | nil =>
    intro fuel length value hfuel
    obtain ⟨fuel, rfl⟩ : ∃ f, fuel = f + 1 := ⟨fuel - 1, by omega⟩
    rw [List.append_nil]
    rfl
  | cons c cs ih =>
    intro fuel length value hfuel
    obtain ⟨fuel, rfl⟩ : ∃ f, fuel = f + 1 := ⟨fuel - 1, by omega⟩
    have hvalue : (c :: value).reverse ++ cs = value.reverse ++ c :: cs := by simp
    unfold Lexeme.escaped at hfuel ⊢
    by_cases hc : c = '"' ∨ c = '\\'
    -- an escape
    · rw [if_pos hc] at hfuel ⊢
      rw [List.length_cons, List.length_cons] at hfuel ⊢
      have hstep :
          Scan.quotedBody '"' (fuel + 1) ('\\' :: c :: (Lexeme.escaped cs ++ '"' :: more)) length value =
            Scan.quotedBody '"' fuel (Lexeme.escaped cs ++ '"' :: more) (length + 2) (c :: value) := by
        rcases hc with rfl | rfl <;> rfl
      rw [List.cons_append, List.cons_append, hstep, ih fuel _ _ (by omega), hvalue]
      congr 2
      omega
    -- any other character
    · rw [if_neg hc] at hfuel ⊢
      rw [List.length_cons] at hfuel ⊢
      obtain ⟨hquote, hescape⟩ := not_or.mp hc
      rw [List.cons_append]
      unfold Scan.quotedBody
      rw [if_neg hquote, if_neg hescape, ih fuel _ _ (by omega), hvalue]
      congr 2
      omega

theorem scans_string (s : String) : (Lexeme.string s).Scans afterDot := by
  refine ⟨⟨_, _, rfl, rfl⟩, rfl, fun more hmore => ?_⟩
  have htext : (Lexeme.string s).text ++ more =
      '"' :: (Lexeme.escaped s.toList ++ '"' :: more) := by
    simp [Lexeme.string]
  have hbody : Scan.literalBody false '"' (Lexeme.escaped s.toList ++ '"' :: more) =
      .ok (s.toList, 1 + (Lexeme.escaped s.toList).length + 1) :=
    quotedBody_escaped more s.toList _ 1 [] (by rw [List.length_append]; omega)
  refine ⟨⟨.string s, 1 + (Lexeme.escaped s.toList).length + 1, false, false⟩, ?_, rfl, ?_⟩
  · rw [htext]
    refine (Scan.token_opening afterDot rfl false (Lexeme.escaped s.toList ++ '"' :: more)).trans ?_
    rw [Scan.literal_of_body hbody, String.ofList_toList]
    rfl
  · simp only [Lexeme.string, List.length_cons, List.length_append, List.length_nil]
    omega

/-! ## Numbers -/

theorem toDigits_cons (n : Nat) : ∃ d ds, Nat.toDigits 10 n = d :: ds ∧ Text.isDigit d = true := by
  obtain ⟨d, ds, h⟩ := List.exists_cons_of_ne_nil (Nat.toDigits_ne_nil (n := n) (b := 10))
  exact ⟨d, ds, h, isDigit_of_mem_toDigits (h ▸ List.mem_cons_self ..)⟩

theorem digits_toDigits (n : Nat) : Scan.Digits (Nat.toDigits 10 n) :=
  ⟨Nat.toDigits_ne_nil, fun _ hc => isDigit_of_mem_toDigits hc⟩

/-- The sign of an exponent as it is written. -/
theorem signed_toDigits (i : Int) (more : List Char) :
    Scan.Signed (if i < 0 then ['-'] else []) (decide (i < 0)) (Nat.toDigits 10 i.natAbs ++ more) := by
  by_cases hneg : i < 0
  · rw [if_pos hneg, decide_eq_true hneg]
    exact .minus _
  · rw [if_neg hneg, decide_eq_false hneg]
    obtain ⟨d, ds, hds, hd⟩ := toDigits_cons i.natAbs
    rw [hds]
    -- the first digit is not a sign
    refine .none fun c hc => ?_
    obtain rfl := Option.some.inj hc
    constructor <;>
      · rintro rfl
        exact absurd hd (by decide)

theorem exponentLength_text (i : Int) {more : List Char} (h : Separated more) :
    Scan.exponentLength (Numeral.exponentText i ++ more) = (Numeral.exponentText i).length := by
  unfold Numeral.exponentText
  by_cases hi : i = 0
  · subst hi
    cases h <;> rfl
  have hdigits : (Nat.toDigits 10 i.natAbs ++ more).takeWhile Text.isDigit = Nat.toDigits 10 i.natAbs := by
    refine takeWhile_append_eq (fun c hc => isDigit_of_mem_toDigits hc) fun c hc => ?_
    rw [h.head c hc]
    decide
  have hsome : ¬ (Nat.toDigits 10 i.natAbs).isEmpty = true := mt List.isEmpty_iff.mp Nat.toDigits_ne_nil
  rw [if_neg hi, List.cons_append, List.append_assoc,
    Scan.exponentLength_marker (.inl rfl) (signed_toDigits i more), hdigits, if_neg hsome, List.length_cons,
    List.length_append]
  omega

/-- An exponent is read as it was written. -/
theorem exponentValue?_text (i : Int) : Numeral.exponentValue? (Numeral.exponentText i) = some i := by
  unfold Numeral.exponentText
  by_cases hi : i = 0
  · rw [if_pos hi, hi]
    rfl
  · have hsigned := signed_toDigits i []
    rw [List.append_nil] at hsigned
    rw [if_neg hi]
    refine (Numeral.exponentOf?_digits hsigned (digits_toDigits _)).trans (congrArg some ?_)
    rw [digitsValue_toDigits]
    split <;> simp only [decide_eq_true_eq] at * <;> omega

theorem exponent_head (i : Int) {more : List Char} (h : Separated more) :
    ∀ c ∈ (Numeral.exponentText i ++ more).head?, c = 'e' ∨ c = ' ' := by
  unfold Numeral.exponentText
  split
  · exact fun c hc => .inr (h.head c hc)
  · exact fun c hc => .inl (Option.some.inj hc).symm

theorem fraction_head (fraction : List Char) (i : Int) {more : List Char} (h : Separated more) :
    ∀ c ∈ (Numeral.fractionText fraction ++ (Numeral.exponentText i ++ more)).head?,
      Text.isDigit c = false := by
  intro c hc
  unfold Numeral.fractionText at hc
  split at hc
  · rcases exponent_head i h c hc with rfl | rfl <;> decide
  · obtain rfl : '.' = c := Option.some.inj hc
    decide

theorem fractionLength_text {fraction : List Char}
    (hfraction : ∀ c ∈ fraction, Text.isDigit c = true) (i : Int) {more : List Char}
    (h : Separated more) :
    Scan.fractionLength (Numeral.fractionText fraction ++ (Numeral.exponentText i ++ more)) =
      (Numeral.fractionText fraction).length := by
  have hhead := exponent_head i h
  unfold Numeral.fractionText
  split
  · subst fraction
    rw [List.nil_append]
    refine Scan.fractionTaken_of_ne false fun c hc => ?_
    rcases hhead c hc with rfl | rfl <;> decide
  · rename_i hne
    have hdigits : (fraction ++ (Numeral.exponentText i ++ more)).takeWhile Text.isDigit = fraction := by
      refine takeWhile_append_eq hfraction fun c hc => ?_
      rcases hhead c hc with rfl | rfl <;> decide
    rw [List.cons_append, Scan.fractionLength_dot, hdigits]
    exact if_neg (mt List.isEmpty_iff.mp hne)

theorem numberLength_text {n : Numeral} (hn : n.Written) (hdot : afterDot = true → n.fraction = [])
    {more : List Char} (h : Separated more) :
    Scan.numberLength afterDot (n.text ++ more) = n.text.length := by
  have htext : n.text ++ more =
      n.whole ++ (Numeral.fractionText n.fraction ++ (Numeral.exponentText n.exponent ++ more)) := by
    simp [Numeral.text]
  have hfraction : Scan.fractionTaken afterDot
      (Numeral.fractionText n.fraction ++ (Numeral.exponentText n.exponent ++ more)) =
        (Numeral.fractionText n.fraction).length := by
    cases afterDot with
    | false => exact fractionLength_text hn.fraction n.exponent h
    | true =>
      rw [hdot rfl]
      rfl
  rw [htext, Scan.numberLength_parts hn.whole (fraction_head n.fraction n.exponent h) hfraction,
    exponentLength_text n.exponent h]
  simp [Numeral.text, Nat.add_assoc]

/-- A numeral is read as it was written. -/
theorem ofChars?_text {n : Numeral} (hn : n.Written) : Numeral.ofChars? n.text = some n := by
  have hhead : ∀ c ∈ (Numeral.exponentText n.exponent).head?, c = 'e' ∨ c = 'E' := by
    unfold Numeral.exponentText
    split
    · exact fun c hc => absurd hc (Option.not_mem_none c)
    · exact fun c hc => .inl (Option.some.inj hc).symm
  unfold Numeral.text
  rw [Numeral.ofChars?_parts ⟨hn.ne_nil, hn.whole⟩ hn.fraction hhead, exponentValue?_text]
  rfl

/-- A numeral of a finite double. -/
theorem scans_numeral {n : Numeral} (hn : n.Written) (hdot : afterDot = true → n.fraction = [])
    (hfinite : Double.isFinite n.toDouble = true) :
    (Lexeme.mk (.number n.toDouble) n.text).Scans afterDot := by
  obtain ⟨c, cs, hcs⟩ := List.exists_cons_of_ne_nil hn.ne_nil
  have hc : Text.isDigit c = true := hn.whole c (hcs ▸ List.mem_cons_self ..)
  obtain ⟨ds, hds⟩ : ∃ ds, n.text = c :: ds := by
    unfold Numeral.text
    rw [hcs]
    exact ⟨_, rfl⟩
  refine ⟨⟨c, ds, hds, isBlank_of_isDigit hc⟩, rfl, fun more hmore => ?_⟩
  have hnumber : Scan.number afterDot (n.text ++ more) =
      .ok { kind := .number n.toDouble, length := n.text.length } := by
    unfold Scan.number Scan.numberOf
    rw [numberLength_text afterDot hn hdot hmore, List.take_left, ofChars?_text hn]
    exact if_pos hfinite
  refine ⟨{ kind := .number n.toDouble, length := n.text.length }, ?_, rfl, rfl⟩
  show Scan.token true afterDot (n.text ++ more) = _
  rw [← hnumber, hds]
  exact Scan.token_digit afterDot hc (ds ++ more)

theorem scans_property {p : Property} (h : p.Printable) : p.lexeme.Scans afterDot := by
  cases p with
  | name w => exact scans_word afterDot h.1
  | position i =>
    obtain ⟨x, hx, hfinite, _⟩ := ExactPosition.reads h
    have hvalue : Numeral.toDouble ⟨Nat.toDigits 10 i.toNat, [], 0⟩ = x := TokenKind.number.inj hx
    have hwritten : Numeral.Written ⟨Nat.toDigits 10 i.toNat, [], 0⟩ :=
      ⟨Nat.toDigits_ne_nil, fun _ hc => isDigit_of_mem_toDigits hc, fun _ hc => absurd hc List.not_mem_nil⟩
    have htext : Numeral.text ⟨Nat.toDigits 10 i.toNat, [], 0⟩ = Nat.toDigits 10 i.toNat :=
      List.append_nil _
    have hscans := scans_numeral afterDot hwritten (fun _ => rfl) (by rw [hvalue]; exact hfinite)
    rw [htext] at hscans
    exact hscans

end Lexemes

theorem scans_number (σ : Spelling) {x : Float} (h : Double.Unsigned x) : (σ.lexeme x).Scans false := by
  have hfinite : Double.isFinite x = true := by
    obtain ⟨b, hb, _⟩ := h
    exact Double.isFinite_of_classify hb
  have hscans := scans_numeral false (σ.written x h) (fun hdot => absurd hdot Bool.false_ne_true)
    (by rw [σ.toDouble x h]; exact hfinite)
  rw [σ.toDouble x h] at hscans
  exact hscans

/-! ## Rows of lexemes -/

/-- **Lexemes that are scanned one by one.**  What stands behind a dot is scanned as such, and no dot is the
last lexeme. -/
inductive Spaced : List Lexeme → Prop where
  | nil : Spaced []
  | cons {l : Lexeme} {ls : List Lexeme} (h : l.Scans false) (hdot : Scanner.isDot l.kind = false)
    (hs : Spaced ls) : Spaced (l :: ls)
  | dotted (optional : Bool) {l : Lexeme} {ls : List Lexeme} (h : l.Scans true)
    (hdot : Scanner.isDot l.kind = false) (hs : Spaced ls) : Spaced (.dot optional :: l :: ls)

namespace Spaced
variable {ls ls' : List Lexeme}

theorem append (h : Spaced ls) (h' : Spaced ls') : Spaced (ls ++ ls') := by
  induction h with
  | nil => exact h'
  | cons hl hdot _ ih => exact .cons hl hdot ih
  | dotted optional hl hdot _ ih => exact .dotted optional hl hdot ih

theorem symbol {s : Symbol} (hs : s ≠ .as ∧ Scanner.isDot (.symbol s) = false) (h : Spaced ls) :
    Spaced (.symbol s :: ls) :=
  .cons (scans_symbol false hs.1) hs.2 h

theorem isDot_wordKind (w : String) : Scanner.isDot (Scan.wordKind true w) = false := by
  unfold Scan.wordKind
  grind [Scanner.isDot]

theorem word {w : String} (hw : IsWord w) (h : Spaced ls) : Spaced (.word w :: ls) :=
  .cons (scans_word false hw) (isDot_wordKind w) h

theorem enclose {e : Expr} (limit : Nat) (h : Spaced ls) : Spaced (e.enclose limit ls) := by
  unfold Expr.enclose
  split
  · exact h
  · exact symbol (by decide) (h.append (symbol (by decide) nil))

theorem commas {rows : List (List Lexeme)} (h : ∀ ls ∈ rows, Spaced ls) : Spaced (commas rows) := by
  induction rows with
  | nil => exact nil
  | cons ls rest ih =>
    obtain ⟨hls, hrest⟩ := List.forall_mem_cons.mp h
    cases rest with
    | nil => exact hls
    | cons ls' rest => exact hls.append (symbol (by decide) (ih hrest))

theorem bound (σ : Spelling) {front : List Lexeme} {bound : Option Expr} (hfront : Spaced front)
    (h : ∀ e ∈ bound, Spaced (e.lexemes σ)) : Spaced (Expr.lexemesBound σ front bound) := by
  cases bound with
  | none => exact nil
  | some e => exact hfront.append (h e rfl)

end Spaced

/-! ## Expressions -/

theorem isDot_property (p : Property) : Scanner.isDot p.lexeme.kind = false := by
  cases p with
  | name w => exact Spaced.isDot_wordKind w
  | position i => rfl

theorem IsAlias.isWord {w : String} (h : IsAlias w) : IsWord w := by
  obtain ⟨c, cs, hw, hcs⟩ := h
  exact ⟨'$', c :: cs, hw, by decide, hcs⟩

theorem operator_of_ofSymbol? {s : Symbol} {op : BinaryOp} (h : BinaryOp.ofSymbol? s = some op) :
    s ≠ .as ∧ Scanner.isDot (.symbol s) = false := by
  cases s <;> cases h <;> exact ⟨by decide, rfl⟩

section Expressions
variable (σ : Spelling)

theorem Expr.Plain.spaced {e : Expr} (h : e.Plain) : Spaced (e.lexemes σ) := by
  induction h with
  | number pos hx => exact .cons (scans_number σ hx) rfl .nil
  | string pos s style => exact .cons (scans_string false s) rfl .nil
  | boolean pos b =>
    cases b with
    | true => exact .word (isWord_of_chars rfl rfl) .nil
    | false => exact .word (isWord_of_chars rfl rfl) .nil
  | null pos => exact .word (isWord_of_chars rfl rfl) .nil
  | reference pos optional hname =>
    cases optional with
    | false => exact .word hname.1 .nil
    | true => exact .dotted true (scans_word true hname.1) (Spaced.isDot_wordKind _) .nil
  | unary pos op _ ih => exact .symbol (by cases op <;> decide) (ih.enclose 2)
  | binary pos op _ _ ihl ihr =>
    exact (ihl.enclose _).append (.symbol (operator_of_ofSymbol? (σ.ofSymbol? op)) (ihr.enclose _))
  | conditional pos _ _ _ ihc iht ihf =>
    exact (ihc.enclose 14).append (.symbol (by decide) (iht.append (.symbol (by decide) ihf)))
  | array pos _ ih =>
    unfold Expr.lexemes
    rw [Expr.lexemesItems_eq_map]
    exact .symbol (by decide) ((Spaced.commas (List.forall_mem_map.mpr ih)).append
      (.symbol (by decide) .nil))
  | object pos _ ih =>
    unfold Expr.lexemes
    rw [Expr.lexemesEntries_eq_map]
    refine .symbol (by decide) ((Spaced.commas (List.forall_mem_map.mpr fun x hx => ?_)).append
      (.symbol (by decide) .nil))
    exact .cons (scans_string false x.1) rfl (.symbol (by decide) (ih x hx))
  | call pos _ _ _ ihcallee ih =>
    unfold Expr.lexemes
    rw [Expr.lexemesItems_eq_map]
    exact (ihcallee.enclose 1).append (.symbol (by decide)
      ((Spaced.commas (List.forall_mem_map.mpr ih)).append (.symbol (by decide) .nil)))
  | member pos optional _ hp ih =>
    exact (ih.enclose 1).append (.dotted optional (scans_property true hp) (isDot_property _) .nil)
  | index pos optional _ _ ih ihk =>
    exact (ih.enclose 1).append (.symbol (by cases optional <;> decide)
      (ihk.append (.symbol (by decide) .nil)))
  | slice pos optional _ _ _ _ ih ihstart ihstop ihstep =>
    exact (ih.enclose 1).append (.symbol (by cases optional <;> decide)
      ((Spaced.bound σ .nil ihstart).append (.symbol (by decide) ((Spaced.bound σ .nil ihstop).append
        ((Spaced.bound σ (.symbol (by decide) .nil) ihstep).append (.symbol (by decide) .nil))))))

theorem spaced_aliasLexemes {name? : Option String} (h : ∀ name ∈ name?, IsAlias name) :
    Spaced (aliasLexemes name?) := by
  cases name? with
  | none => exact .nil
  | some name =>
    have has : IsWord "as" := isWord_of_chars rfl rfl
    exact .cons (scans_word false has) rfl (.word (h name rfl).isWord .nil)

theorem spaced_lexemesStages {stages : List (Stage Expr)}
    (hhandlers : ∀ stage ∈ stages, stage.handler ≠ "" ∧
      ∀ c ∈ stage.handler.toList, Text.isAsciiLetter c = true)
    (haliases : ∀ stage ∈ stages, ∀ name ∈ stage.boundAs, IsAlias name)
    (hbodies : ∀ stage ∈ stages, stage.body.Plain) : Spaced (Expr.lexemesStages σ stages) := by
  induction stages with
  | nil => exact .nil
  | cons stage rest ih =>
    obtain ⟨handler, boundAs, position, body⟩ := stage
    obtain ⟨⟨hne, hletters⟩, hhandlers⟩ := List.forall_mem_cons.mp hhandlers
    obtain ⟨halias, haliases⟩ := List.forall_mem_cons.mp haliases
    obtain ⟨hbody, hbodies⟩ := List.forall_mem_cons.mp hbodies
    refine .cons (scans_marker false hne hletters) ?_ ((hbody.spaced σ).append
      ((spaced_aliasLexemes halias).append (ih hhandlers haliases hbodies)))
    unfold Lexeme.marker
    split <;> rfl

/-- The tokens of a printed program are scanned one by one. -/
theorem Expr.Printable.spaced {e : Expr} (h : e.Printable) : Spaced (e.lexemes σ) := by
  cases e with
  | pipe pos stages =>
    obtain ⟨_, _, hhandlers, haliases, hbodies⟩ := h
    cases stages with
    | nil => exact .nil
    | cons first rest =>
      obtain ⟨handler, boundAs, position, body⟩ := first
      obtain ⟨halias, haliases⟩ := List.forall_mem_cons.mp haliases
      obtain ⟨hbody, hbodies⟩ := List.forall_mem_cons.mp hbodies
      exact (hbody.spaced σ).append ((spaced_aliasLexemes halias).append
        (spaced_lexemesStages σ hhandlers haliases hbodies))
  | _ => exact Expr.Plain.spaced σ h

end Expressions

/-! ## Texts -/

/-- The text of lexemes, each behind a space. -/
def textBehind : List Lexeme → List Char
  | [] => []
  | l :: ls => ' ' :: (l.text ++ textBehind ls)

theorem intercalate_text (ls : List Lexeme) :
    [' '].intercalate (ls.map Lexeme.text) = (textBehind ls).tail := by
  induction ls with
  | nil => rfl
  | cons l ls ih =>
    cases ls with
    | nil => simp [textBehind]
    | cons l' ls =>
      rw [textBehind, List.tail_cons] at ih ⊢
      rw [textBehind, ← ih]
      simp [List.intercalate]

theorem separated_textBehind (ls : List Lexeme) : Separated (textBehind ls) := by
  cases ls with
  | nil => exact .nil
  | cons l ls => exact .space _

theorem dropWhile_textBehind {ls : List Lexeme} (h : ∀ l ∈ ls.head?, l.Visible) :
    (textBehind ls).dropWhile Text.isBlank = (textBehind ls).tail := by
  cases ls with
  | nil => rfl
  | cons l ls =>
    obtain ⟨c, cs, hl, hc⟩ := h l rfl
    unfold textBehind
    rw [hl, List.tail_cons, List.dropWhile_cons_of_pos (by decide), List.cons_append,
      List.dropWhile_cons_of_neg (by rw [hc]; exact Bool.false_ne_true)]

/-- A scanner in front of lexemes, or of the space in front of them. -/
structure Before (s : Scanner) (afterDot : Bool) (ls : List Lexeme) : Prop where
  halted : s.halted = false
  ieee : s.ieee = true
  afterDot : s.afterDot = afterDot
  rest : s.rest.dropWhile Text.isBlank = (textBehind ls).tail

section Steps
variable {s : Scanner} {a : Bool} {l : Lexeme} {ls : List Lexeme}

/-- The scanner reads a lexeme as it was printed. -/
theorem Before.next (hs : Before s a (l :: ls)) (hl : l.Scans a)
    (hfirst : ∀ l ∈ ls.head?, l.Visible) :
    ∃ t s', s.next = (.ok t, s') ∧ t.written = l ∧ Before s' (Scanner.isDot l.kind) ls := by
  obtain ⟨hhalted, hieee, hdot, hrest⟩ := hs
  obtain ⟨found, hfound, hkind, hlength⟩ := hl.scans _ (separated_textBehind ls)
  rw [textBehind, List.tail_cons] at hrest
  rw [Scanner.next_found hhalted (by rw [hieee, hdot, hrest]; exact hfound)]
  simp only [hieee, hrest, hlength, List.take_left, List.drop_left, hkind]
  refine ⟨_, _, rfl, ?_, rfl, rfl, rfl, dropWhile_textBehind hfirst⟩
  exact congrArg (Lexeme.mk l.kind) String.toList_ofList

theorem Before.next_end (hs : Before s a []) :
    ∃ position s', s.next = (.ok (.eof position), s') :=
  Scanner.next_end hs.halted hs.rest

theorem Spaced.visible (h : Spaced ls) : ∀ l ∈ ls.head?, l.Visible := by
  intro l hl
  cases h with
  | nil => cases hl
  | cons hl' _ _ =>
    obtain rfl := Option.some.inj hl
    exact hl'.visible
  | dotted optional _ _ _ =>
    obtain rfl := Option.some.inj hl
    cases optional <;> exact ⟨_, _, rfl, rfl⟩

/-- A lexeme takes one turn. -/
theorem Before.collect (hs : Before s a (l :: ls)) (hl : l.Scans a)
    (hfirst : ∀ l ∈ ls.head?, l.Visible) :
    ∃ t s', t.written = l ∧ Before s' (Scanner.isDot l.kind) ls ∧
      ∀ fuel before, s.collect (fuel + 1) before = s'.collect fuel (t :: before) := by
  obtain ⟨t, s', hnext, ht, hs'⟩ := hs.next hl hfirst
  refine ⟨t, s', ht, hs', fun fuel before => ?_⟩
  have hkind : t.kind.isEof = false := by
    rw [show t.kind = l.kind from congrArg Lexeme.kind ht]
    exact hl.kind
  conv => lhs; unfold Scanner.collect
  rw [hnext]
  simp only [hkind, Bool.false_eq_true, if_false]

/-- **The scanner reads printed lexemes to their end.** -/
theorem Spaced.collect (h : Spaced ls) : ∀ (s : Scanner) (fuel : Nat) (before : List Token),
    Before s false ls → ls.length < fuel → ∃ ts position,
      s.collect fuel before = (before.reverse ++ ts, ⟨position, none⟩) ∧ ts.map Token.written = ls := by
  induction h with
  | nil =>
    intro s fuel before hs hfuel
    obtain ⟨fuel, rfl⟩ : ∃ f, fuel = f + 1 := ⟨fuel - 1, by omega⟩
    obtain ⟨position, s', hnext⟩ := hs.next_end
    refine ⟨[], position, ?_, rfl⟩
    unfold Scanner.collect
    rw [hnext, List.append_nil]
    rfl
  | cons hl hdot hls ih =>
    intro s fuel before hs hfuel
    rw [List.length_cons] at hfuel
    obtain ⟨fuel, rfl⟩ : ∃ f, fuel = f + 1 := ⟨fuel - 1, by omega⟩
    obtain ⟨t, s', ht, hs', hstep⟩ := hs.collect hl hls.visible
    rw [hdot] at hs'
    obtain ⟨ts, position, hcollect, hts⟩ := ih s' fuel (t :: before) hs' (by omega)
    refine ⟨t :: ts, position, ?_, by rw [List.map_cons, ht, hts]⟩
    rw [hstep, hcollect, List.reverse_cons, List.append_assoc]
    rfl
  | dotted optional hl hdot hls ih =>
    intro s fuel before hs hfuel
    rw [List.length_cons, List.length_cons] at hfuel
    obtain ⟨fuel, rfl⟩ : ∃ f, fuel = f + 2 := ⟨fuel - 2, by omega⟩
    obtain ⟨t, s', ht, hs', hstep⟩ := hs.collect (scans_symbol false (by cases optional <;> decide))
      fun l' hl' => Option.some.inj hl' ▸ hl.visible
    rw [show Scanner.isDot _ = true by cases optional <;> rfl] at hs'
    obtain ⟨t', s'', ht', hs'', hstep'⟩ := hs'.collect hl hls.visible
    rw [hdot] at hs''
    obtain ⟨ts, position, hcollect, hts⟩ := ih s'' fuel (t' :: t :: before) hs'' (by omega)
    refine ⟨t :: t' :: ts, position, ?_, by rw [List.map_cons, List.map_cons, ht, ht', hts]⟩
    rw [hstep, hstep', hcollect, List.reverse_cons, List.reverse_cons, List.append_assoc, List.append_assoc]
    rfl

/-- Each lexeme has a character and a space. -/
theorem Spaced.length_le (h : Spaced ls) : 2 * ls.length ≤ (textBehind ls).length := by
  have hcons : ∀ (l : Lexeme) (ls : List Lexeme), l.Visible →
      2 * ls.length ≤ (textBehind ls).length → 2 * (l :: ls).length ≤ (textBehind (l :: ls)).length := by
    rintro l ls ⟨c, cs, hl, _⟩ hle
    simp only [textBehind, hl, List.length_cons, List.length_append]
    omega
  induction h with
  | nil => exact Nat.le_refl 0
  | cons hl _ _ ih => exact hcons _ _ hl.visible ih
  | dotted optional hl _ _ ih =>
    exact hcons _ _ (by cases optional <;> exact ⟨_, _, rfl, rfl⟩) (hcons _ _ hl.visible ih)

end Steps

/-- **The tokens of a printed program** are the ones that were printed. -/
theorem Expr.Printable.tokens (σ : Spelling) {e : Expr} (h : e.Printable) :
    ∃ ts position, (Scanner.ofSource (e.print σ) true).tokens = (ts, ⟨position, none⟩) ∧
      ts.map Token.written = e.lexemes σ := by
  have hspaced := h.spaced σ
  have hrest : (Scanner.ofSource (e.print σ) true).rest = (textBehind (e.lexemes σ)).tail := by
    show (Expr.print σ e).toList = _
    unfold Expr.print
    rw [String.toList_ofList, intercalate_text]
  have hbefore : Before (Scanner.ofSource (e.print σ) true) false (e.lexemes σ) := by
    refine ⟨rfl, rfl, rfl, ?_⟩
    rw [hrest, ← dropWhile_textBehind hspaced.visible, List.dropWhile_idempotent]
  have hlength := hspaced.length_le
  have hfuel : (e.lexemes σ).length < (Scanner.ofSource (e.print σ) true).rest.length + 1 := by
    rw [hrest, List.length_tail]
    omega
  obtain ⟨ts, position, hcollect, hts⟩ := hspaced.collect _ _ [] hbefore hfuel
  exact ⟨ts, position, hcollect, hts⟩

end PipeExpr
