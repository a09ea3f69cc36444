import PipeExpr.Proofs.Literals
import PipeExpr.Proofs.NumberSyntax
import PipeExpr.Proofs.Overflow

/-!
# Tokens of numbers

Where a digit starts a token, the token is the longest number that stands there, and it fails only if the
number overflows (`Scanner.numbers_munched`).  What a number is depends on one thing besides its characters:
behind a dot it has no fraction.  The scanner keeps a flag for this, and the flag is read off the calls before
(`Ready.behindCalls`).

No characters are cut off as a number that are none: what the scanner takes has the syntax of a number, and
this is all that reading a numeral asks for.  So every error about a number is about its size.
-/

namespace PipeExpr

open Double (overflow)

namespace Scan

/-- **The number at the front of a text** is the longest one, and it is read unless it overflows. -/
theorem number_cases (afterDot : Bool) {c : Char} (hc : Text.isDigit c = true) (cs : List Char) :
    ∃ lexeme back n, Longest (IsNumber (afterDot = true)) (c :: cs) lexeme ∧ c :: cs = lexeme ++ back ∧
      Numeral.ofChars? lexeme = some n ∧
      (n.value < overflow ∧
          number afterDot (c :: cs) = .ok { kind := .number n.toDouble, length := lexeme.length } ∨
        overflow ≤ n.value ∧ Double.classify n.toDouble = .infinite false ∧
          number afterDot (c :: cs) =
            .error ⟨.numberOutOfRange (String.ofList lexeme), 0, lexeme.length⟩) := by
  obtain ⟨lexeme, hlongest, hlength⟩ := numberLength_longest afterDot hc cs
  obtain ⟨back, hback⟩ := hlongest.starts
  obtain ⟨n, hread⟩ := hlongest.holds.reads
  have hnumber : number afterDot (c :: cs) = numberOf lexeme := by
    rw [number, hlength, ← hback, List.take_left]
  have hsaturates := n.toDouble_saturates
  refine ⟨lexeme, back, n, hlongest, hback.symm, hread, ?_⟩
  rw [hnumber]
  rcases numberOf_cases lexeme with ⟨m, hm, hfinite, hok⟩ | ⟨m, hm, hfinite, herror⟩ | ⟨hnone, -⟩
  · obtain rfl := Option.some.inj (hread.symm.trans hm)
    exact .inl ⟨hsaturates.isFinite_iff.mp hfinite, hok⟩
  · obtain rfl := Option.some.inj (hread.symm.trans hm)
    have hover : overflow ≤ n.value :=
      not_lt.mp fun hlt => Bool.eq_false_iff.mp hfinite (hsaturates.isFinite_iff.mpr hlt)
    exact .inr ⟨hover, hsaturates.infinite hover, herror⟩
  · rw [hread] at hnone
    cases hnone

/-- An error about a number comes from where a digit stands. -/
theorem token_invalidNumber {ieee afterDot : Bool} {cs : List Char} {failure : Failure}
    (h : token ieee afterDot cs = .error failure) (hcode : failure.fault.code = .invalidNumber) :
    ∃ c rest, cs = c :: rest ∧ Text.isDigit c = true := by
  have hliteral : ∀ {raw quote rest}, literal raw quote rest ≠ .error failure := by
    intro raw quote rest hfails
    rcases literal_fails hfails with hescape | hquote
    · cases hescape.symm.trans hcode
    · cases hquote.symm.trans hcode
  cases token_reading h with
  | symbol _ _ hr => cases hr
  | eof _ hr => cases hr
  | text raw quote rest _ _ hr => exact absurd hr hliteral
  | number c rest hc hcs _ => exact ⟨c, rest, hcs, hc⟩
  | name _ _ _ _ _ hr => cases hr
  | stray _ _ _ hr =>
    obtain rfl := Except.error.inj hr
    cases hcode
  | invalid _ _ _ _ _ _ _ hr =>
    obtain rfl := Except.error.inj hr
    cases hcode

end Scan

/-- The wordings of the two errors about numbers differ from the first letter on. -/
theorem Fault.report_ne_malformed {text text' : String} {place place' : Position} :
    (numberOutOfRange text).report place ≠ (malformedNumber text').report place' := by
  have hrange : ("number literal '" ++ text ++ "' is out of range").toList.head? = some 'n' := by
    rw [String.toList_append, String.toList_append]
    rfl
  have hmalformed : ("invalid number literal '" ++ text' ++ "'").toList.head? = some 'i' := by
    rw [String.toList_append, String.toList_append]
    rfl
  intro h
  injection h with _ hmessage
  have hfirst : some 'n' = some 'i' := by
    rw [← hrange, ← hmalformed]
    exact congrArg (fun w => w.toList.head?) hmessage
  exact absurd hfirst (by decide)

namespace Scanner
open Scan

variable {s : Scanner} {before : List Char}

/-- The scanner behind its first calls. -/
def behindCalls : Nat → Scanner → Scanner
  | 0, s => s
  | n + 1, s => behindCalls n s.next.2

/-- Whether the call before gave a dot, with a question mark or without. -/
def BehindDot (s : Scanner) (n : Nat) : Prop :=
  ∃ m t, n = m + 1 ∧ s.call m = .ok t ∧ (t.kind = .symbol .dot ∨ t.kind = .symbol .questionDot)

theorem call_eq (n : Nat) (s : Scanner) : s.call n = (s.behindCalls n).next.1 := by
  induction n generalizing s with
  | zero => rfl
  | succ n ih => exact ih s.next.2

theorem behindCalls_succ (n : Nat) (s : Scanner) : s.behindCalls (n + 1) = (s.behindCalls n).next.2 := by
  induction n generalizing s with
  | zero => rfl
  | succ n ih => exact ih s.next.2

theorem isDot_iff {k : TokenKind} : isDot k = true ↔ k = .symbol .dot ∨ k = .symbol .questionDot := by
  unfold isDot
  split <;> simp_all

/-- **One call of a scanner that runs on** takes its token from the front of the text, and keeps in mind whether
it was a dot. -/
theorem Ready.next (hs : s.Ready before) (h : s.next.2.halted = false) :
    ∃ read t, s.rest = read ++ s.next.2.rest ∧ s.next.2.Ready (before ++ read) ∧ s.next.1 = .ok t ∧
      s.next.2.afterDot = isDot t.kind := by
  have hsplit : s.rest = s.rest.takeWhile Text.isBlank ++ s.rest.dropWhile Text.isBlank :=
    List.takeWhile_append_dropWhile.symm
  cases htoken : Scan.token s.ieee s.afterDot (s.rest.dropWhile Text.isBlank) with
  | ok found =>
    have hnext := next_found hs.running htoken
    rw [hnext]
    refine ⟨s.rest.takeWhile Text.isBlank ++ (s.rest.dropWhile Text.isBlank).take found.length, _, ?_,
      ⟨rfl, ?_⟩, rfl, rfl⟩
    · rw [List.append_assoc, List.take_append_drop, ← hsplit]
    · rw [hs.place, Position.behind_after, Position.behind_after, List.append_assoc]
  | error failure =>
    rw [next_failure hs.running htoken] at h
    cases h

/-- A scanner that runs behind some calls has run through them. -/
theorem running_behindCalls {n : Nat} (h : (s.behindCalls (n + 1)).halted = false) :
    (s.behindCalls n).halted = false := by
  rw [behindCalls_succ] at h
  by_contra hhalted
  rw [done_of_halted (Bool.of_not_eq_false hhalted)] at h
  exact hhalted h

/-- **A scanner that runs behind some calls** has read the text in front of it, and knows whether the last
token was a dot. -/
theorem Ready.behindCalls (hs : s.Ready before) (hdot : s.afterDot = false) (n : Nat)
    (h : (s.behindCalls n).halted = false) : ∃ read, s.rest = read ++ (s.behindCalls n).rest ∧
      (s.behindCalls n).Ready (before ++ read) ∧ ((s.behindCalls n).afterDot = true ↔ BehindDot s n) := by
  induction n with
  | zero =>
    refine ⟨[], rfl, (List.append_nil before).symm ▸ hs, iff_of_false (by simp [Scanner.behindCalls, hdot]) ?_⟩
    rintro ⟨m, t, hm, -⟩
    omega
  | succ n ih =>
    obtain ⟨read, hread, hready, -⟩ := ih (running_behindCalls h)
    rw [behindCalls_succ] at h ⊢
    obtain ⟨more, t, hmore, hready', hcall, hafter⟩ := hready.next h
    refine ⟨read ++ more, ?_, (List.append_assoc before read more) ▸ hready', ?_⟩
    · rw [hread, hmore, List.append_assoc]
    · rw [hafter, isDot_iff]
      constructor
      · exact fun hkind => ⟨n, t, rfl, (call_eq n s).trans hcall, hkind⟩
      · rintro ⟨m, t', hm, ht', hkind⟩
        obtain rfl : n = m := by omega
        rw [call_eq, hcall] at ht'
        exact Except.ok.inj ht' ▸ hkind

/-- **What a number takes** of the text where it starts, and what it leaves. -/
structure Munches (afterDot : Prop) (text lexeme back : List Char) : Prop where
  split : text = lexeme ++ back
  longest : Longest (IsNumber afterDot) text lexeme
  /-- A dot is left if no digit follows it, and behind another dot. -/
  dot : ∀ whole more, text = whole ++ '.' :: more → Digits whole →
    (afterDot ∨ ∀ c ∈ more.head?, Text.isDigit c = false) → lexeme = whole ∧ back = '.' :: more
  /-- A marker is left if no digits follow it, with a sign or without. -/
  marker : ∀ mantissa marker more, text = mantissa ++ marker :: more → IsMantissa afterDot mantissa →
    marker = 'e' ∨ marker = 'E' → (∀ sign ds, IsSign sign → Digits ds → ¬ sign ++ ds <+: more) →
    lexeme = mantissa ∧ back = marker :: more

theorem munches_of_longest {afterDot : Prop} {text lexeme back : List Char}
    (hlongest : Longest (IsNumber afterDot) text lexeme) (hsplit : text = lexeme ++ back) :
    Munches afterDot text lexeme back := by
  have hleft : ∀ {front rest}, text = front ++ rest → Longest (IsNumber afterDot) text front →
      lexeme = front ∧ back = rest := by
    intro front rest htext hfront
    obtain rfl := hlongest.unique hfront
    exact ⟨rfl, List.append_cancel_left (hsplit.symm.trans htext)⟩
  refine ⟨hsplit, hlongest, fun whole more htext hwhole h => hleft htext ?_,
    fun mantissa marker more htext hmantissa hmarker h => hleft htext ?_⟩
  · exact htext ▸ longest_number_dot hwhole h
  · exact htext ▸ longest_number_marker hmantissa hmarker h

/-- What a call gives for the lexeme of a number: the number, or the error that it overflows. -/
def ReadsNumber (lexeme : List Char) (place : Position) (result : Except Diagnostic Token) : Prop :=
  ∃ n, Numeral.ofChars? lexeme = some n ∧
    (n.value < overflow ∧ result = .ok ⟨.number n.toDouble, String.ofList lexeme, place, false, false⟩ ∨
      overflow ≤ n.value ∧ Double.classify n.toDouble = .infinite false ∧
        result = .error ((Fault.numberOutOfRange (String.ofList lexeme)).report place))

/-- **A call in front of a digit** takes the longest number there, and leaves the rest. -/
theorem Ready.next_number (hs : s.Ready before) {c : Char} {cs : List Char}
    (hrest : s.rest.dropWhile Text.isBlank = c :: cs) (hc : Text.isDigit c = true) :
    ∃ front lexeme back, before ++ s.rest = front ++ c :: cs ∧
      Munches (s.afterDot = true) (c :: cs) lexeme back ∧ s.next.2.rest = back ∧
      ReadsNumber lexeme (Position.behind front) s.next.1 := by
  have hsplit : s.rest = s.rest.takeWhile Text.isBlank ++ s.rest.dropWhile Text.isBlank :=
    List.takeWhile_append_dropWhile.symm
  have hplace : s.position.after (s.rest.takeWhile Text.isBlank) =
      Position.behind (before ++ s.rest.takeWhile Text.isBlank) := by
    rw [hs.place, Position.behind_after]
  obtain ⟨lexeme, back, n, hlongest, hback, hread, houtcome⟩ := number_cases s.afterDot hc cs
  have htoken : token s.ieee s.afterDot (c :: cs) = _ := token_digit s.afterDot hc cs
  rw [← hrest] at htoken
  refine ⟨before ++ s.rest.takeWhile Text.isBlank, lexeme, back, ?_, munches_of_longest hlongest hback, ?_⟩
  · rw [← hrest, List.append_assoc, ← hsplit]
  rcases houtcome with ⟨hvalue, hnumber⟩ | ⟨hvalue, hinfinite, hnumber⟩
  · have hnext := next_found hs.running (htoken.trans (hrest ▸ hnumber))
    rw [hrest, hback, hplace] at hnext
    simp only [List.take_left, List.drop_left] at hnext
    rw [hnext]
    exact ⟨rfl, n, hread, .inl ⟨hvalue, rfl⟩⟩
  · have hnext := next_failure hs.running (htoken.trans (hrest ▸ hnumber))
    rw [hrest, hback, hplace] at hnext
    simp only [List.drop_left] at hnext
    rw [hnext]
    exact ⟨rfl, n, hread, .inr ⟨hvalue, hinfinite, rfl⟩⟩

/-- A call that fails finds its error in front of a running scanner. -/
theorem error_of_call {n : Nat} {d : Diagnostic} (h : s.call n = .error d) :
    (s.behindCalls n).halted = false ∧ ∃ failure position, d = failure.fault.report position ∧
      Scan.token (s.behindCalls n).ieee (s.behindCalls n).afterDot
        ((s.behindCalls n).rest.dropWhile Text.isBlank) = .error failure := by
  rw [call_eq] at h
  have hrunning : (s.behindCalls n).halted = false := by
    by_contra hhalted
    rw [done_of_halted (Bool.of_not_eq_false hhalted)] at h
    cases h
  refine ⟨hrunning, ?_⟩
  cases htoken : Scan.token (s.behindCalls n).ieee (s.behindCalls n).afterDot
      ((s.behindCalls n).rest.dropWhile Text.isBlank) with
  | ok found =>
    rw [next_found hrunning htoken] at h
    cases h
  | error failure =>
    rw [next_failure hrunning htoken] at h
    exact ⟨failure, _, (Except.error.inj h).symm, rfl⟩

/-- **Every number among the calls** is the longest one, from where its digit stands in the source. -/
theorem call_number (hs : s.Ready []) (hdot : s.afterDot = false) {n : Nat} {c : Char} {cs : List Char}
    (hrunning : (s.behindCalls n).halted = false)
    (hrest : (s.behindCalls n).rest.dropWhile Text.isBlank = c :: cs) (hc : Text.isDigit c = true) :
    ∃ front lexeme back, s.rest = front ++ c :: cs ∧ Munches (BehindDot s n) (c :: cs) lexeme back ∧
      (s.behindCalls (n + 1)).rest = back ∧ ReadsNumber lexeme (Position.behind front) (s.call n) := by
  obtain ⟨read, hread, hready, hafter⟩ := hs.behindCalls hdot n hrunning
  obtain ⟨front, lexeme, back, hfront, hmunches, hback, houtcome⟩ := hready.next_number hrest hc
  rw [propext hafter] at hmunches
  rw [List.nil_append, ← hread] at hfront
  rw [behindCalls_succ, call_eq]
  exact ⟨front, lexeme, back, hfront, hmunches, hback, houtcome⟩

/-- **Every error about a number** among the calls is that a number overflows. -/
theorem call_invalidNumber (hs : s.Ready []) (hdot : s.afterDot = false) {n : Nat} {d : Diagnostic}
    (h : s.call n = .error d) (hcode : d.code = .invalidNumber) : ∃ front lexeme back numeral,
      s.rest = front ++ (lexeme ++ back) ∧ IsNumber (BehindDot s n) lexeme ∧
      Numeral.ofChars? lexeme = some numeral ∧ overflow ≤ numeral.value ∧
      d = (Fault.numberOutOfRange (String.ofList lexeme)).report (Position.behind front) := by
  obtain ⟨hrunning, failure, position, rfl, hfailure⟩ := error_of_call h
  obtain ⟨c, cs, hrest, hc⟩ := token_invalidNumber hfailure hcode
  obtain ⟨front, lexeme, back, hfront, hmunches, -, numeral, hread, houtcome⟩ :=
    call_number hs hdot hrunning hrest hc
  rw [hmunches.split] at hfront
  rw [h] at houtcome
  rcases houtcome with ⟨-, hok⟩ | ⟨hvalue, -, herror⟩
  · cases hok
  · exact ⟨front, lexeme, back, numeral, hfront, hmunches.longest.holds, hread, hvalue, Except.error.inj herror⟩

/-- **Numbers are the longest there are, and never malformed.**  Wherever a digit starts a token, whatever the
calls before were, the lexeme is the longest number at the front of the text, without a fraction behind a dot.
All that is behind it is left for the next token, also a dot or a marker without its digits.  The lexeme spells
a numeral, and this is the token, unless it is not below the overflow: then it is read as infinity, and the
error is that it is out of range.  There is no other error about numbers, so none that one is malformed. -/
theorem numbers_munched (source : String) (ieee : Bool) :
    (∀ n c cs, ((ofSource source ieee).behindCalls n).halted = false →
      ((ofSource source ieee).behindCalls n).rest.dropWhile Text.isBlank = c :: cs → Text.isDigit c = true →
      ∃ front lexeme back, source.toList = front ++ c :: cs ∧
        Munches (BehindDot (ofSource source ieee) n) (c :: cs) lexeme back ∧
        ((ofSource source ieee).behindCalls (n + 1)).rest = back ∧
        ReadsNumber lexeme (Position.behind front) ((ofSource source ieee).call n)) ∧
    (∀ n d, (ofSource source ieee).call n = .error d → d.code = .invalidNumber →
      ∃ front lexeme back numeral, source.toList = front ++ (lexeme ++ back) ∧
        IsNumber (BehindDot (ofSource source ieee) n) lexeme ∧ Numeral.ofChars? lexeme = some numeral ∧
        overflow ≤ numeral.value ∧
        d = (Fault.numberOutOfRange (String.ofList lexeme)).report (Position.behind front)) ∧
    ∀ n d text place, (ofSource source ieee).call n = .error d →
      d ≠ (Fault.malformedNumber text).report place := by
  have hstart : (ofSource source ieee).Ready [] := ⟨rfl, rfl⟩
  refine ⟨fun n c cs => call_number hstart rfl, fun n d => call_invalidNumber hstart rfl, ?_⟩
  rintro n _ text place h rfl
  obtain ⟨_, _, _, _, -, -, -, -, hreport⟩ := call_invalidNumber hstart rfl h rfl
  exact Fault.report_ne_malformed hreport.symm

/-- Digits between two dots, an exponent without its digits, and a number that is too large. -/
theorem numbers_munched_dots :
    ((ofSource "a.1.5e3" false).behindCalls 3).rest = ".5e3".toList ∧
      ((ofSource "1e+" false).behindCalls 1).rest = "e+".toList ∧
      (∃ front lexeme back numeral, "1e999".toList = front ++ (lexeme ++ back) ∧
        Numeral.ofChars? lexeme = some numeral ∧ overflow ≤ numeral.value) ∧
      (Fault.numberOutOfRange "1e999").report .start ≠ (Fault.malformedNumber "1e999").report .start := by
  have hcall : (ofSource "1e999" false).call 0 =
      .error ((Fault.numberOutOfRange "1e999").report .start) := rfl
  have hdigits : Digits ['1'] := ⟨List.cons_ne_nil _ _, List.forall_mem_singleton.mpr rfl⟩
  refine ⟨?_, ?_, ?_, (numbers_munched "1e999" false).2.2 0 _ "1e999" .start hcall⟩
  · obtain ⟨_, _, back, -, hmunches, hback, -⟩ :=
      (numbers_munched "a.1.5e3" false).1 2 '1' ".5e3".toList (by decide) (by decide) (by decide)
    have hdot : BehindDot (ofSource "a.1.5e3" false) 2 := ⟨1, _, rfl, rfl, .inl rfl⟩
    rw [hback]
    exact (hmunches.dot ['1'] "5e3".toList rfl hdigits (.inl hdot)).2
  · obtain ⟨_, _, back, -, hmunches, hback, -⟩ :=
      (numbers_munched "1e+" false).1 0 '1' "e+".toList (by decide) (by decide) (by decide)
    have hmantissa : IsMantissa (BehindDot (ofSource "1e+" false) 0) ['1'] := ⟨['1'], [], rfl, hdigits, .none⟩
    rw [hback]
    refine (hmunches.marker ['1'] 'e' ['+'] rfl hmantissa (.inl rfl) fun sign ds hsign hds hstarts => ?_).2
    obtain ⟨d, hd⟩ := List.exists_mem_of_ne_nil ds hds.ne_nil
    obtain rfl : d = '+' := List.mem_singleton.mp (hstarts.subset (List.mem_append_right sign hd))
    exact absurd (hds.all _ hd) (by decide)
  · obtain ⟨front, lexeme, back, numeral, hsource, -, hread, hvalue, -⟩ :=
      (numbers_munched "1e999" false).2.1 0 _ hcall rfl
    exact ⟨front, lexeme, back, numeral, hsource, hread, hvalue⟩

end Scanner

end PipeExpr
