import PipeExpr.Proofs.Entries
import PipeExpr.Proofs.Keys
import PipeExpr.Proofs.Synonyms

/-!
# Spellings of an access

A key is spelled as a word or digits behind a dot, as a literal in brackets, or as any expression in parentheses
or brackets.  Whichever way it is, the sources have trees with the same program
(`spellings_interchangeable`).  They are read with the same target and the same key, and a name or a position has
the code of the literal that spells it.

Trees are compared by the code of their nodes (`Compile.SameCode`), so what holds for an access holds where it is
the left side of `??`, which softens both spellings (`Spans.interchangeable`).

Where the nesting is bounded, a literal in brackets takes one level that a word does not.  An object with a value
takes one level, and one place on the stack, that the value does not, and to compile the access to it takes two
levels, two constants and three bytes (`Expr.Crowded`).  Apart from such limits (`spellings_limited`) the
spellings are as good as each other.
-/

namespace PipeExpr

open Parse Scanner
open Compile (SameCode SpellsKey)

/-! ## Sources that compile alike -/

/-- **Two sources that compile alike**: each of them is read if there is room for a number of levels, and the
trees have the same program. -/
def Interchangeable (o : Options) (a b : String) (room room' : Nat) : Prop :=
  ∃ e e', ReadAs o a room e ∧ ReadAs o b room' e' ∧ e.SameProgram e'

theorem Interchangeable.parse_within {o : Options} {a b : String} {room room' limit : Nat}
    (h : Interchangeable o a b room room') (hroom : room ≤ limit) (hroom' : room' ≤ limit) :
    ∃ e e', parse a (o.within limit) = .ok e ∧ parse b (o.within limit) = .ok e' ∧ e.SameProgram e' := by
  obtain ⟨e, e', hread, hread', hsame⟩ := h
  exact ⟨e, e', (hread limit).1 hroom, (hread' limit).1 hroom', hsame⟩

/-- What may stand behind an operand: nothing, or the right side of a `??`. -/
inductive Trailer (o : Options) : String → Prop where
  | alone : Trailer o ""
  | coalesced {gap r : String} {er : Expr} (hnullish : o.nullish = true)
    (hgap : ∀ c ∈ gap.toList, Text.isBlank c = true) (hr : Fragment o 13 r er) :
    Trailer o (gap ++ "??" ++ r)

section Operands
variable {o : Options} {a b : String} {ea eb : Expr} {as bs : List Token} {pa pb : Position} {ha hb : Nat}

/-- **Operands with the same code compile alike**, alone and as the left side of `??`. -/
theorem Spans.interchangeable (h : Spans o 1 a ea as pa ha) (h' : Spans o 1 b eb bs pb hb) (hsame : SameCode ea eb)
    (hroot : ea.isPipe = false) (hroot' : eb.isPipe = false) {tail : String} (htail : Trailer o tail) :
    ∃ k, 1 + k ≤ max 1 o.maxDepth ∧ Interchangeable o (a ++ tail) (b ++ tail) (1 + max ha k) (1 + max hb k) := by
  cases htail with
  | alone =>
    refine ⟨0, Nat.le_max_left .., ea, eb, ?_, ?_, hsame.sameProgram hroot hroot'⟩
    · rw [String.append_empty, Nat.max_zero]
      exact h.readAs (Nat.le_refl 1) (by decide)
    · rw [String.append_empty, Nat.max_zero]
      exact h'.readAs (Nat.le_refl 1) (by decide)
  | @coalesced gap r er hnullish hgap hr =>
    obtain ⟨rs, pr, k, hroom, hright⟩ := hr.spans (by decide)
    obtain ⟨g, _, _, hwhole⟩ := h.coalesced hright hnullish hgap
    obtain ⟨g', _, _, hwhole'⟩ := h'.coalesced hright hnullish hgap
    have htext : ∀ a : String, a ++ (gap ++ "??" ++ r) = a ++ gap ++ "??" ++ r := by
      intro a
      simp only [String.append_assoc]
    have hleft := ((Expr.sameCode_relocate (Position.beyond []) ea).trans hsame).trans
      (Expr.sameCode_relocate (Position.beyond []) eb).symm
    have hright := (Expr.sameCode_relocate g er).trans (Expr.sameCode_relocate g' er).symm
    have hread := hwhole.readAs (by decide) (by decide)
    have hread' := hwhole'.readAs (by decide) (by decide)
    rw [← htext] at hread hread'
    exact ⟨k, Nat.le_trans hroom (Nat.le_max_right ..), _, _, hread, hread',
      (hleft.binary hright _ _ .nullCoalesce).sameProgram rfl rfl⟩

end Operands

/-! ## Accesses -/

/-- A literal with the value of a property has it at other places too. -/
theorem Compile.SpellsKey.relocate {property : Property} {key : Expr} (h : SpellsKey property key)
    (f : Position → Position) : SpellsKey property (key.relocate f) := by
  cases h with
  | name p s style => exact .name _ s style
  | position p h => exact .position _ h

section Accesses
variable {o : Options} {t : String} {e : Expr} {tokens : List Token} {position : Position} {height : Nat}
  (h : Extends o t e tokens position height) (hroom : 1 + height ≤ o.maxDepth)
  (hbare : endsBare false tokens = false) {optional : Bool} (hchaining : optional = true → o.chaining = true)
  {tail : String} (htail : Trailer o tail)
include h hroom hbare hchaining htail

/-- A word or digits behind a dot, and the literal that spells it in brackets. -/
theorem Extends.spelled {w lit : String} {k : TokenKind} {property : Property} {key : Expr} {ks : List Token}
    {pk : Position} (hvisible : ∀ c ∈ w.toList.head?, Text.isBlank c = false) (hne : w.toList ≠ [])
    (htoken : Scan.token o.ieee true w.toList = .ok { kind := k, length := w.toList.length })
    (hproperty : ∀ t : Token, t.kind = k → t.lexeme = w → property? t = some property)
    (hlit : Extends o lit key ks pk 0) (hkey : SpellsKey property key) : ∃ room ≤ o.maxDepth,
      Interchangeable o (dotted optional t w ++ tail) (bracketed optional t lit ++ tail) room (max room 2) := by
  obtain ⟨_, _, hnamed⟩ := h.named hbare hchaining hvisible hne htoken hproperty
  obtain ⟨g, _, _, hindexed⟩ := h.indexed hbare hchaining
    (hlit.toSpans.loosen (Nat.le_refl 1) (by decide) (Nat.le_refl 15))
  have hsame := Compile.sameCode_access (SameCode.refl (e.relocate (Position.beyond []))) (hkey.relocate g)
    (Position.beyond [] e.position) (Position.beyond [] e.position) optional
  obtain ⟨n, hn, hboth⟩ := hnamed.interchangeable hindexed hsame rfl rfl htail
  refine ⟨1 + max height n, by omega, ?_⟩
  have hlevel : 1 + max (max height (0 + 1)) n = max (1 + max height n) 2 := by omega
  rwa [hlevel] at hboth

theorem Extends.spelled_word {w : String} (hw : IsWord w) (hnumber : ∀ x, Scan.wordKind o.ieee w ≠ .number x) :
    ∃ room ≤ o.maxDepth, Interchangeable o (dotted optional t w ++ tail)
      (bracketed optional t ("\"" ++ w ++ "\"") ++ tail) room (max room 2) := by
  obtain ⟨_, place, _, hlit⟩ := extends_quoted (o := o) hw
  exact h.spelled hroom hbare hchaining htail hw.visible hw.ne_nil (hw.token o.ieee true)
    (fun _ hkind hlexeme => property?_word hnumber hkind hlexeme) hlit (.name place w _)

theorem Extends.spelled_digits {d : String} (hne : d.toList ≠ []) (hd : ∀ c ∈ d.toList, Text.isDigit c = true)
    (hvalue : digitsValue d.toList ≤ 2 ^ 63) : ∃ room ≤ o.maxDepth,
      Interchangeable o (dotted optional t d ++ tail) (bracketed optional t d ++ tail) room (max room 2) := by
  have hvisible : ∀ c ∈ d.toList.head?, Text.isBlank c = false :=
    fun c hc => isBlank_of_isDigit (hd c (List.mem_of_mem_head? hc))
  obtain ⟨_, place, _, hlit⟩ := extends_number hvisible hne (token_digits hne hd hvalue o.ieee false)
  exact h.spelled hroom hbare hchaining htail hvisible hne (token_digits hne hd hvalue o.ieee true)
    (fun _ hkind hlexeme => property?_digits hd hvalue hkind (congrArg String.toList hlexeme)) hlit
    (.position place (Numeral.position_of_digits hvalue).2.2)

/-- A key in parentheses behind a dot, and in brackets. -/
theorem Extends.spelled_key {k : String} {ek : Expr} (hk : Fragment o 15 k ek) : ∃ room ≤ o.maxDepth + 1,
    Interchangeable o (dotted optional t ("(" ++ k ++ ")") ++ tail) (bracketed optional t k ++ tail)
      room room := by
  obtain ⟨ks, pk, deep, hdeep, hkey⟩ := hk.spans (by decide)
  obtain ⟨g, _, _, hkeyed⟩ := h.keyed hbare hchaining hkey
  obtain ⟨g', _, _, hindexed⟩ := h.indexed hbare hchaining hkey
  have hsame := Compile.code_similar _ _ (.index (Position.beyond [] e.position) (Position.beyond [] e.position)
    (Expr.relocate_similar (Position.beyond []) (Position.beyond []) e) (Expr.relocate_similar g g' ek) optional)
  obtain ⟨n, hn, hboth⟩ := hkeyed.interchangeable hindexed hsame rfl rfl htail
  exact ⟨_, by omega, hboth⟩

end Accesses

/-- A variable with and without a dot in front. -/
theorem spelled_variable {o : Options} {name tail : String} (hw : IsWord name)
    (hname : Scan.wordKind o.ieee name = .identifier name) (htail : Trailer o tail) :
    ∃ room ≤ max 1 o.maxDepth, Interchangeable o ("." ++ name ++ tail) (name ++ tail) room room := by
  obtain ⟨_, place, _, hdotted⟩ := extends_dotted_variable hw hname
  obtain ⟨_, place', _, hplain⟩ := extends_variable hw hname
  have hsame := Compile.code_similar _ _ (.reference place place' name false)
  obtain ⟨n, hn, hboth⟩ := hdotted.toSpans.interchangeable hplain.toSpans hsame rfl rfl htail
  exact ⟨_, by omega, hboth⟩

/-- A target of an access: a postfix expression that does not end in a bare number, which would take the dot for
its own. -/
structure Target (o : Options) (t : String) : Prop where
  reads : ∃ e, Fragment o 1 t e
  bare : endsBare false (Scanner.ofSource t o.ieee).tokens.1 = false

theorem Target.extends {o : Options} {t : String} (h : Target o t) : ∃ e tokens position height,
    1 + height ≤ o.maxDepth ∧ endsBare false tokens = false ∧ Extends o t e tokens position height := by
  obtain ⟨⟨e, hread⟩, hbare⟩ := h
  obtain ⟨tokens, position, height, hroom, hextends⟩ := hread.extends
  rw [hextends.scans] at hbare
  exact ⟨e, tokens, position, height, hroom, hbare, hextends⟩

/-- **Spellings of one access compile alike**, alone and on the left of `??`: a word behind a dot and the string
in brackets, digits behind a dot and the number in brackets, a key in parentheses and in brackets, and a variable
with and without a dot.  An access by a numeral finds the entry that has it as its key. -/
theorem spellings_interchangeable (o : Options) :
    (∀ (t : String) (optional : Bool) (tail : String), Target o t → (optional = true → o.chaining = true) →
      Trailer o tail →
      (∀ w, IsWord w → (∀ x, Scan.wordKind o.ieee w ≠ .number x) → ∃ room ≤ o.maxDepth,
        Interchangeable o (dotted optional t w ++ tail) (bracketed optional t ("\"" ++ w ++ "\"") ++ tail)
          room (max room 2)) ∧
      (∀ d : String, d.toList ≠ [] → (∀ c ∈ d.toList, Text.isDigit c = true) → digitsValue d.toList ≤ 2 ^ 63 →
        ∃ room ≤ o.maxDepth,
          Interchangeable o (dotted optional t d ++ tail) (bracketed optional t d ++ tail) room (max room 2)) ∧
      ∀ k ek, Fragment o 15 k ek → ∃ room ≤ o.maxDepth + 1,
        Interchangeable o (dotted optional t ("(" ++ k ++ ")") ++ tail) (bracketed optional t k ++ tail)
          room room) ∧
    (∀ name tail : String, IsWord name → Scan.wordKind o.ieee name = .identifier name → Trailer o tail →
      ∃ room ≤ max 1 o.maxDepth, Interchangeable o ("." ++ name ++ tail) (name ++ tail) room room) ∧
    ∀ (n v : String) (x : Float) (ev : Expr),
      Scan.token o.ieee false n.toList = .ok { kind := .number x, length := n.toList.length } →
      Fragment o 15 v ev →
      (∃ room ≤ o.maxDepth + 1, ∃ e, ReadAs o (bracketed false (entryText n v) n) room e ∧ e.Selects ev) ∧
      ((∀ c ∈ n.toList, Text.isDigit c = true) → digitsValue n.toList ≤ 2 ^ 63 →
        ∃ room ≤ o.maxDepth + 1, ∃ e, ReadAs o (dotted false (entryText n v) n) room e ∧ e.Selects ev) := by
  refine ⟨fun t optional tail ht hchaining htail => ?_, fun name tail => spelled_variable,
    fun n v x ev hn hv => ⟨entry_selected hn hv, entry_selected_digits hn hv⟩⟩
  obtain ⟨e, tokens, position, height, hroom, hbare, hextends⟩ := ht.extends
  refine ⟨fun w hw hnumber => ?_, fun d hne hd hvalue => ?_, fun k ek hk => ?_⟩
  · exact hextends.spelled_word hroom hbare hchaining htail hw hnumber
  · exact hextends.spelled_digits hroom hbare hchaining htail hne hd hvalue
  · exact hextends.spelled_key hroom hbare hchaining htail hk

/-- Accesses to `a` on the left of `??`, and an entry whose key has leading zeros, which is found both ways. -/
theorem spellings_coalesced :
    (∃ e e', parse "a?.b ?? c" {} = .ok e ∧ parse "a?[\"b\"] ?? c" {} = .ok e' ∧ e.SameProgram e') ∧
    (∃ e e', parse "a?.007 ?? c" {} = .ok e ∧ parse "a?[007] ?? c" {} = .ok e' ∧ e.SameProgram e') ∧
    (∃ e e', parse "a?.(-k) ?? c" (Options.within {} 33) = .ok e ∧
      parse "a?[-k] ?? c" (Options.within {} 33) = .ok e' ∧ e.SameProgram e') ∧
    (∃ e e', parse ".a ?? c" {} = .ok e ∧ parse "a ?? c" {} = .ok e' ∧ e.SameProgram e') ∧
    (∃ e p, parse "\x7b007:true\x7d[007]" (Options.within {} 33) = .ok e ∧
      e.Selects (.boolean ⟨1, 1⟩ true) ∧ e.compile = .ok p ∧
      p.run .standard defaultStackSize [] = .ok (.boolean true)) ∧
    ∃ e p, parse "\x7b007:true\x7d.007" (Options.within {} 33) = .ok e ∧
      e.Selects (.boolean ⟨1, 1⟩ true) ∧ e.compile = .ok p ∧
      p.run .standard defaultStackSize [] = .ok (.boolean true) := by
  obtain ⟨haccesses, hvariables, hentries⟩ := spellings_interchangeable {}
  have htarget : Target {} "a" := ⟨⟨.reference ⟨1, 1⟩ "a" false, by decide,
    [⟨.identifier "a", "a", ⟨1, 1⟩, false, false⟩], ⟨1, 2⟩, rfl, rfl⟩, rfl⟩
  have htail : Trailer {} " ?? c" := @Trailer.coalesced {} " " " c" (.reference ⟨1, 2⟩ "c" false) rfl
    (List.all_eq_true.mp rfl)
    ⟨by decide, [⟨.identifier "c", "c", ⟨1, 2⟩, false, false⟩], ⟨1, 3⟩, rfl, rfl⟩
  have hkey : Fragment {} 15 "-k" (.unary ⟨1, 1⟩ .negate (.reference ⟨1, 2⟩ "k" false)) :=
    ⟨by decide, [⟨.symbol .minus, "-", ⟨1, 1⟩, false, false⟩, ⟨.identifier "k", "k", ⟨1, 2⟩, false, false⟩],
      ⟨1, 3⟩, rfl, rfl⟩
  have hvalue : Fragment {} 15 "true" (.boolean ⟨1, 1⟩ true) :=
    ⟨by decide, [⟨.boolean true, "true", ⟨1, 1⟩, false, false⟩], ⟨1, 5⟩, rfl, rfl⟩
  obtain ⟨hwords, hdigits, hkeys⟩ := haccesses "a" true " ?? c" htarget (fun _ => rfl) htail
  obtain ⟨room, hroom, hword⟩ := hwords "b" (isWord_of_chars rfl rfl) nofun
  obtain ⟨room₁, hroom₁, hdigit⟩ := hdigits "007" (by decide) (List.all_eq_true.mp rfl) (by decide)
  obtain ⟨room₂, hroom₂, hkeyed⟩ := hkeys "-k" _ hkey
  obtain ⟨room₃, hroom₃, hvariable⟩ := hvariables "a" " ?? c" (isWord_of_chars rfl rfl) rfl htail
  obtain ⟨⟨room₄, hroom₄, e, hread, hselects⟩, hposition⟩ :=
    hentries "007" "true" (Numeral.toDouble ⟨['0', '0', '7'], [], 0⟩) _ rfl hvalue
  obtain ⟨room₅, hroom₅, e', hread', hselects'⟩ := hposition (List.all_eq_true.mp rfl) (by decide)
  have hmargin : (Expr.boolean ⟨1, 1⟩ true).HasMargin := ⟨by decide, by decide, by decide⟩
  have htrue : (Site.start []).Gives (.boolean ⟨1, 1⟩ true) (.ok (.boolean true)) := ⟨_, rfl, rfl⟩
  obtain ⟨p, hp, hrun⟩ := hselects.gives hmargin (by decide) htrue
  obtain ⟨p', hp', hrun'⟩ := hselects'.gives hmargin (by decide) htrue
  exact ⟨hword.parse_within hroom (Nat.max_le.mpr ⟨hroom, by decide⟩),
    hdigit.parse_within hroom₁ (Nat.max_le.mpr ⟨hroom₁, by decide⟩), hkeyed.parse_within hroom₂ hroom₂,
    hvariable.parse_within hroom₃ hroom₃, ⟨e, p, (hread _).1 hroom₄, hselects, hp, hrun⟩, e', p',
    (hread' _).1 hroom₅, hselects', hp', hrun'⟩

/-- Where there is no room for the longer spelling: a string in brackets is nested deeper than a word, and an
entry takes one more level and one more place on the stack than its value. -/
theorem spellings_limited :
    (parse "a.b" (Options.within {} 1) = .ok (.member ⟨1, 1⟩ (.reference ⟨1, 1⟩ "a" false) (.name "b") false) ∧
      ∃ d, parse "a[\"b\"]" (Options.within {} 1) = .error [d] ∧ d.code = .maxDepthExceeded) ∧
    (parse "true" (Options.within {} 1) = .ok (.boolean ⟨1, 1⟩ true) ∧
      ∃ d, parse "\x7b1:true\x7d[1]" (Options.within {} 1) = .error [d] ∧ d.code = .maxDepthExceeded) ∧
    (∃ p, (Expr.boolean ⟨1, 1⟩ true).compile = .ok p ∧ p.run .standard 1 [] = .ok (.boolean true)) ∧
    ∃ e p, parse "\x7b1:true\x7d[1]" {} = .ok e ∧ e.compile = .ok p ∧
      p.run .standard 1 [] = .error (.error (.stackOverflow 1)) := by
  refine ⟨⟨rfl, _, rfl, rfl⟩, ⟨rfl, _, rfl, rfl⟩, ⟨_, rfl, rfl⟩, ?_⟩
  have hparse : parse "\x7b1:true\x7d[1]" {} = .ok (.index ⟨1, 1⟩
    (.object ⟨1, 1⟩ [(Double.text (Numeral.toDouble ⟨['1'], [], 0⟩), .boolean ⟨1, 4⟩ true)])
    (.number ⟨1, 10⟩ (Numeral.toDouble ⟨['1'], [], 0⟩)) false) := rfl
  generalize Double.text (Numeral.toDouble ⟨['1'], [], 0⟩) = n at hparse
  generalize Numeral.toDouble ⟨['1'], [], 0⟩ = x at hparse
  have hsorted : ∀ write : Compile.Writer, Compile.sortEntries [(n, write)] = [(n, write)] :=
    fun _ => List.mergeSort_singleton _
  obtain ⟨p, hp⟩ : ∃ p, (Expr.index ⟨1, 1⟩ (.object ⟨1, 1⟩ [(n, .boolean ⟨1, 4⟩ true)]) (.number ⟨1, 10⟩ x)
      false).compile = .ok p := by
    simp only [Expr.compile, Compile.streams, Compile.code, Compile.entryWriters, hsorted]
    exact ⟨_, rfl⟩
  refine ⟨_, p, hparse, hp, ?_⟩
  have houtcome : p.run .standard 1 [] = _ := Site.outcome_eq_value (m := ⟨.standard, 1, [], .initial⟩) rfl hp
  have hnames : byName [(n, Expr.boolean ⟨1, 4⟩ true)] = [(n, .boolean ⟨1, 4⟩ true)] := List.mergeSort_singleton _
  rw [houtcome, Site.value, Expr.plan, Expr.plan_object, hnames]
  rfl

end PipeExpr
