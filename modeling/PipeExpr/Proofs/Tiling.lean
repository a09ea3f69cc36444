import PipeExpr.Proofs.Lexing

/-!
# Tokens tile their source

A source is the row of its tokens with white space between them, and every token stands at the place of its
first character (`Scanner.tokens_tile`).

What the scanner reports has to be what it takes.  At the front of a text this is `Scan.Takes`: a token takes
at least one character, and a token whose kind has a spelling takes just that spelling, so the two hyphens in
front of an operand and the letters in front of a colon are not miscounted.  One call then either cuts off a
piece of the source or stops for good (`Scanner.next_cases`), and the calls up to the stop are a `Run`, from
which the text, the places and the number of calls are read by induction.
-/

namespace PipeExpr

/-! ## Places -/

/-- The place behind a text, counted from the text alone. -/
def Position.behind (cs : List Char) : Position :=
  ⟨1 + cs.count '\n', 1 + (cs.reverse.takeWhile (· != '\n')).length⟩

theorem Position.behind_concat (cs : List Char) (c : Char) : behind (cs ++ [c]) = (behind cs).step c := by
  unfold behind step
  rw [List.reverse_append, List.reverse_singleton, List.singleton_append, List.count_append,
    List.takeWhile_cons]
  by_cases h : c = '\n'
  · subst h
    rfl
  · simp [h, Nat.add_assoc]

/-- Stepping over characters keeps the count of lines and columns. -/
theorem Position.behind_after (before cs : List Char) : (behind before).after cs = behind (before ++ cs) := by
  induction cs generalizing before with
  | nil => rw [List.append_nil, after_nil]
  | cons c cs ih => rw [after_cons, ← behind_concat, ih, List.append_assoc, List.singleton_append]

/-- The text of a token, for the kinds that fix it. -/
def TokenKind.spelling? : TokenKind → Option String
  | .symbol s => some s.spelling
  | .boolean b => some (if b then "true" else "false")
  | .null => some "null"
  | .identifier name => some name
  | .pipe name => some ("|" ++ name.getD "" ++ ":")
  | .number _ | .string _ | .eof => none

/-! ## The front of a text -/

namespace Scan

/-- What reading the front of a text gives: a result with a property, or a lexical failure. -/
def Gives {α : Type} (P : α → Prop) : Except Failure α → Prop
  | .ok x => P x
  | .error failure => failure.fault.code.isLexical = true

/-- **A token takes what it reports** from the front of a text. -/
structure Takes (cs : List Char) (found : Found) : Prop where
  inner : found.kind.isEof = false
  pos : 0 < found.length
  spelled : ∀ w ∈ found.kind.spelling?, String.ofList (cs.take found.length) = w

theorem Gives.imp {α : Type} {P Q : α → Prop} {r : Except Failure α} (h : Gives P r)
    (hPQ : ∀ x, P x → Q x) : Gives Q r := by
  cases r with
  | ok x => exact hPQ x h
  | error failure => exact h

/-! ### Strings -/

/-- A quoted text goes beyond what was read of it. -/
theorem quotedBody_gives (quote : Char) (fuel : Nat) (cs : List Char) (length : Nat) (value : List Char) :
    Gives (fun r => length < r.2) (quotedBody quote fuel cs length value) := by
  fun_induction quotedBody quote fuel cs length value with
  | case3 => exact Nat.lt_succ_self _
  | case5 _ _ _ _ _ _ _ _ ih => exact ih.imp fun _ h => by omega
  | case7 _ _ _ _ _ _ _ _ _ ih => exact ih.imp fun _ h => by omega
  | case9 _ _ _ _ _ _ _ ih => exact ih.imp fun _ h => by omega
  | _ => rfl

theorem rawBody_gives (quote : Char) (cs : List Char) (length : Nat) (value : List Char) :
    Gives (fun r => length < r.2) (rawBody quote cs length value) := by
  fun_induction rawBody quote cs length value with
  | case2 => exact Nat.lt_succ_self _
  | case4 _ _ _ ih => exact ih.imp fun _ h => by omega
  | case5 => exact Nat.lt_succ_self _
  | case6 _ _ _ _ _ _ ih => exact ih.imp fun _ h => by omega
  | _ => rfl

theorem literal_takes (raw : Bool) (quote : Char) (rest cs : List Char) :
    Gives (Takes cs) (literal raw quote rest) := by
  have hbody : Gives (fun r => 0 < r.2) (literalBody raw quote rest) := by
    unfold literalBody
    split
    · exact (rawBody_gives quote rest 2 []).imp fun _ h => by omega
    · exact (quotedBody_gives quote _ rest 1 []).imp fun _ h => by omega
  rw [literal_eq]
  cases hread : literalBody raw quote rest with
  | ok body =>
    rw [hread] at hbody
    exact ⟨rfl, hbody, fun _ hw => nomatch hw⟩
  | error failure =>
    rw [hread] at hbody
    exact hbody

/-! ### Numbers and words -/

/-- The characters of a number are read as a finite double, or there is an error with their text. -/
theorem numberOf_cases (lexeme : List Char) :
    (∃ n, Numeral.ofChars? lexeme = some n ∧ Double.isFinite n.toDouble = true ∧
      numberOf lexeme = .ok { kind := .number n.toDouble, length := lexeme.length }) ∨
    (∃ n, Numeral.ofChars? lexeme = some n ∧ Double.isFinite n.toDouble = false ∧
      numberOf lexeme = .error ⟨.numberOutOfRange (String.ofList lexeme), 0, lexeme.length⟩) ∨
    (Numeral.ofChars? lexeme = none ∧
      numberOf lexeme = .error ⟨.malformedNumber (String.ofList lexeme), 0, lexeme.length⟩) := by
  unfold numberOf
  cases hread : Numeral.ofChars? lexeme with
  | none => exact .inr (.inr ⟨rfl, rfl⟩)
  | some n =>
    cases hfinite : Double.isFinite n.toDouble with
    | true => exact .inl ⟨n, rfl, hfinite, if_pos hfinite⟩
    | false => exact .inr (.inl ⟨n, rfl, hfinite, if_neg (Bool.eq_false_iff.mp hfinite)⟩)

theorem of_numberOf {lexeme : List Char} {found : Found} (h : numberOf lexeme = .ok found) :
    ∃ n, Numeral.ofChars? lexeme = some n ∧ found = { kind := .number n.toDouble, length := lexeme.length } := by
  rcases numberOf_cases lexeme with ⟨n, hread, -, hnumber⟩ | ⟨n, -, -, hnumber⟩ | ⟨-, hnumber⟩
  · exact ⟨n, hread, Except.ok.inj (h.symm.trans hnumber)⟩
  · cases h.symm.trans hnumber
  · cases h.symm.trans hnumber

theorem number_takes (afterDot : Bool) {c : Char} (hc : Text.isDigit c = true) (cs : List Char) :
    Gives (Takes (c :: cs)) (number afterDot (c :: cs)) := by
  have hlength : 0 < ((c :: cs).take (numberLength afterDot (c :: cs))).length := by
    unfold numberLength
    rw [List.takeWhile_cons_of_pos hc]
    simp only [List.length_take, List.length_cons]
    omega
  unfold number
  rcases numberOf_cases ((c :: cs).take (numberLength afterDot (c :: cs)))
    with ⟨n, -, -, hnumber⟩ | ⟨n, -, -, hnumber⟩ | ⟨-, hnumber⟩
  · rw [hnumber]
    exact ⟨rfl, hlength, fun _ hw => nomatch hw⟩
  · rw [hnumber]
    rfl
  · rw [hnumber]
    rfl

/-- The token of a word is no end, and spelled like the word. -/
theorem wordKind_spelled (ieee : Bool) (word : String) :
    (wordKind ieee word).isEof = false ∧ ∀ w ∈ (wordKind ieee word).spelling?, word = w := by
  unfold wordKind
  repeat' split
  all_goals
    refine ⟨rfl, fun w hw => ?_⟩
    cases hw <;> first | rfl | assumption

theorem name_takes (ieee : Bool) {c : Char} (hc : startsName c = true) (rest : List Char) :
    Takes (c :: rest) (name ieee (c :: rest)) := by
  obtain ⟨hinner, hspelled⟩ := wordKind_spelled ieee (String.ofList ((c :: rest).takeWhile continuesName))
  refine ⟨hinner, ?_, fun w hw => ?_⟩
  · unfold name
    rw [List.takeWhile_cons_of_pos (continuesName_of_startsName hc)]
    exact Nat.succ_pos _
  · rw [← hspelled w hw, name, ← List.prefix_iff_eq_take.mp (List.takeWhile_prefix _)]

/-! ### Punctuation -/

/-- A marker takes the letters up to its colon. -/
theorem take_marker (name more : List Char) :
    String.ofList (('|' :: (name ++ ':' :: more)).take (name.length + 2)) =
      "|" ++ String.ofList name ++ ":" := by
  have htake : ('|' :: (name ++ ':' :: more)).take (name.length + 2) = '|' :: (name ++ [':']) := by
    rw [List.take_succ_cons, List.take_length_add_append]
    rfl
  rw [htake]
  apply String.toList_injective
  simp

theorem barKind_marker {name : List Char} (hname : ∀ c ∈ name, Text.isAsciiLetter c = true)
    (more : List Char) : barKind (name ++ ':' :: more) =
      (.pipe (if name.isEmpty then none else some (String.ofList name)), name.length + 2) := by
  have hletters : (name ++ ':' :: more).takeWhile Text.isAsciiLetter = name := by
    rw [List.takeWhile_append_of_pos hname]
    exact List.append_nil _
  unfold barKind
  simp only [hletters, List.drop_left]

/-- A bar is one of its own, unless there are letters and a colon behind it. -/
theorem barKind_cases (rest : List Char) : barKind rest = (.symbol .bar, 1) ∨
    ∃ name more, (∀ c ∈ name, Text.isAsciiLetter c = true) ∧ rest = name ++ ':' :: more := by
  have htake := List.prefix_iff_eq_take.mp (List.takeWhile_prefix (l := rest) Text.isAsciiLetter)
  unfold barKind
  dsimp only
  split
  · rename_i more hcolon
    refine .inr ⟨rest.takeWhile Text.isAsciiLetter, more, fun _ hc => List.mem_takeWhile_imp hc, ?_⟩
    rw [← hcolon]
    conv => rhs; lhs; rw [htake]
    exact (List.take_append_drop _ rest).symm
  · exact .inl rfl

theorem barKind_takes (rest : List Char) :
    Takes ('|' :: rest) { kind := (barKind rest).1, length := (barKind rest).2 } := by
  rcases barKind_cases rest with hbar | ⟨name, more, hname, rfl⟩
  · rw [hbar]
    exact ⟨rfl, Nat.one_pos, fun w hw => by cases hw; rfl⟩
  · rw [barKind_marker hname]
    refine ⟨rfl, Nat.succ_pos _, fun w hw => ?_⟩
    cases hw
    dsimp only
    rw [take_marker]
    cases name <;> rfl

/-- **A symbol takes its spelling**, also where what follows decides which symbol it is. -/
theorem symbolKind_takes (s : Symbol) (rest : List Char) : Takes (s.chars ++ rest)
    { kind := (symbolKind s (s.chars ++ rest)).1, length := (symbolKind s (s.chars ++ rest)).2 } := by
  have hpos : 0 < s.chars.length := by cases s <;> exact Nat.succ_pos _
  unfold symbolKind
  split
  · split
    · exact ⟨rfl, Nat.one_pos, fun w hw => by cases hw; rfl⟩
    · exact ⟨rfl, Nat.two_pos, fun w hw => by cases hw; rfl⟩
  · exact barKind_takes rest
  · refine ⟨rfl, hpos, fun w hw => ?_⟩
    cases hw
    dsimp only
    rw [List.take_left]
    rfl

/-- **Reading a token takes what it reports**, or fails with a lexical error. -/
theorem token_takes (ieee afterDot : Bool) {cs : List Char} (h : cs ≠ []) :
    Gives (Takes cs) (token ieee afterDot cs) := by
  cases token_reading (Eq.refl (token ieee afterDot cs)) with
  | symbol s hlongest hr =>
    obtain ⟨rest, rfl⟩ := Symbol.starts_of_longest? hlongest
    rw [hr]
    exact symbolKind_takes s rest
  | eof hcs => exact absurd hcs h
  | text raw quote rest _ _ hr =>
    rw [← hr]
    exact literal_takes raw quote rest cs
  | number c rest hc hcs hr =>
    subst hcs
    rw [← hr]
    exact number_takes afterDot hc rest
  | name c rest hc _ hcs hr =>
    subst hcs
    rw [hr]
    exact name_takes ieee hc rest
  | stray _ _ _ hr => rw [hr]; rfl
  | invalid _ _ _ _ _ _ _ hr => rw [hr]; rfl

end Scan

/-! ## Pieces of a source -/

/-- A token with the white space in front of it. -/
structure Piece where
  gap : List Char
  token : Token

namespace Piece

/-- The characters of a piece. -/
def text (p : Piece) : List Char := p.gap ++ p.token.lexeme.toList

/-- The characters of pieces in a row. -/
def row (ps : List Piece) : List Char := ps.flatMap text

theorem row_cons (p : Piece) (ps : List Piece) : row (p :: ps) = p.text ++ row ps := List.flatMap_cons

/-- **A piece in its place**, with the text `before` in front of it. -/
structure Stands (before : List Char) (p : Piece) : Prop where
  blank : ∀ c ∈ p.gap, Text.isBlank c = true
  inner : p.token.kind.isEof = false
  visible : p.token.lexeme ≠ ""
  spelled : ∀ w ∈ p.token.kind.spelling?, p.token.lexeme = w
  place : p.token.position = Position.behind (before ++ p.gap)

theorem Stands.length_pos {before : List Char} {p : Piece} (h : p.Stands before) : 0 < p.text.length := by
  have hvisible : p.token.lexeme.toList.length ≠ 0 := fun hzero =>
    h.visible (String.toList_eq_nil_iff.mp (List.eq_nil_of_length_eq_zero hzero))
  rw [text, List.length_append]
  omega

/-- **Tokens that tile a text**: those of the pieces and the end, where the text is that of the pieces with
only white space behind them. -/
structure Tiles (text : List Char) (tokens : List Token) (ps : List Piece) (tail : List Char) : Prop where
  tokens : tokens = ps.map token ++ [.eof (Position.behind text)]
  text : text = row ps ++ tail
  blank : ∀ c ∈ tail, Text.isBlank c = true
  stands : ∀ front p back, ps = front ++ p :: back → p.Stands (row front)

end Piece

namespace Scanner

/-- How a scan stops that has `rest` in front of it and `before` behind it: at the end, with white space
only to pass over, or with an error in the text that is left. -/
inductive Stops (before rest : List Char) : Except Diagnostic Token → Prop where
  | eof (blank : ∀ c ∈ rest, Text.isBlank c = true) :
    Stops before rest (.ok (.eof (Position.behind (before ++ rest))))
  | error {d : Diagnostic} (read unread : List Char) (split : rest = read ++ unread)
    (place : d.position = Position.behind (before ++ read)) (lexical : d.code.isLexical = true) :
    Stops before rest (.error d)

/-- A scanner that has stopped gives the end again and again. -/
def Done (s : Scanner) : Prop := s.next = (.ok (.eof s.position), s)

/-- A scanner that reads on behind a text. -/
structure Ready (before : List Char) (s : Scanner) : Prop where
  running : s.halted = false
  place : s.position = Position.behind before

theorem done_of_halted {s : Scanner} (h : s.halted = true) : s.Done := by
  unfold Done next
  rw [if_pos h]

theorem done_of_nil {s : Scanner} (hs : s.halted = false) (hrest : s.rest = []) (hdot : s.afterDot = false) :
    s.Done := by
  obtain ⟨rest, position, ieee, afterDot, halted⟩ := s
  subst hs hrest hdot
  rfl

/-- A call that gives a token has found it behind white space. -/
theorem next_token {s s' : Scanner} {t : Token} (h : s.next = (.ok t, s')) (ht : t.kind.isEof = false) :
    ∃ found, Scan.token s.ieee s.afterDot (s.rest.dropWhile Text.isBlank) = .ok found ∧ t.kind = found.kind ∧
      t.lexeme.toList = (s.rest.dropWhile Text.isBlank).take found.length ∧
      t.singleQuoted = found.singleQuoted ∧ t.raw = found.raw ∧
      s'.ieee = s.ieee ∧ s'.afterDot = isDot found.kind := by
  unfold next at h
  split at h
  · obtain ⟨ht', _⟩ := Prod.mk.inj h
    obtain rfl := Except.ok.inj ht'
    cases ht
  · unfold skipBlanks at h
    dsimp only at h
    split at h
    · rename_i found hfound
      obtain ⟨ht', rfl⟩ := Prod.mk.inj h
      obtain rfl := Except.ok.inj ht'
      exact ⟨found, hfound, rfl, String.toList_ofList, rfl, rfl, rfl, rfl⟩
    · obtain ⟨ht', _⟩ := Prod.mk.inj h
      cases ht'

/-- A running scanner cuts off the token that it finds behind white space. -/
theorem next_found {s : Scanner} (hs : s.halted = false) {found : Scan.Found}
    (h : Scan.token s.ieee s.afterDot (s.rest.dropWhile Text.isBlank) = .ok found) :
    s.next = (.ok ⟨found.kind, String.ofList ((s.rest.dropWhile Text.isBlank).take found.length),
        s.position.after (s.rest.takeWhile Text.isBlank), found.singleQuoted, found.raw⟩,
      ⟨(s.rest.dropWhile Text.isBlank).drop found.length,
        (s.position.after (s.rest.takeWhile Text.isBlank)).after
          ((s.rest.dropWhile Text.isBlank).take found.length), s.ieee, isDot found.kind, false⟩) := by
  unfold next skipBlanks
  rw [hs, if_neg Bool.false_ne_true]
  dsimp only
  rw [h]

/-- A running scanner halts where it finds no token. -/
theorem next_failure {s : Scanner} (hs : s.halted = false) {failure : Scan.Failure}
    (h : Scan.token s.ieee s.afterDot (s.rest.dropWhile Text.isBlank) = .error failure) :
    s.next = (.error (failure.fault.report ((s.position.after (s.rest.takeWhile Text.isBlank)).after
        ((s.rest.dropWhile Text.isBlank).take failure.before))),
      ⟨(s.rest.dropWhile Text.isBlank).drop failure.stopped,
        (s.position.after (s.rest.takeWhile Text.isBlank)).after
          ((s.rest.dropWhile Text.isBlank).take failure.stopped), s.ieee, s.afterDot, true⟩) := by
  unfold next skipBlanks
  rw [hs, if_neg Bool.false_ne_true]
  dsimp only
  rw [h]

/-- A running scanner in front of white space only gives the end. -/
theorem next_end {s : Scanner} (hs : s.halted = false) (hrest : s.rest.dropWhile Text.isBlank = []) :
    ∃ position s', s.next = (.ok (.eof position), s') := by
  rw [next_found hs (by rw [hrest]; exact Scan.token_nil _), hrest]
  exact ⟨_, _, rfl⟩

/-- **One call of a running scanner** stops for good, or cuts a piece off. -/
theorem next_cases {before : List Char} {s : Scanner} (hs : s.Ready before) :
    (∃ last s', s.next = (last, s') ∧ s'.Done ∧ Stops before s.rest last) ∨
    (∃ (p : Piece) (s' : Scanner), s.next = (.ok p.token, s') ∧ p.Stands before ∧
      s'.Ready (before ++ p.text) ∧ s.rest = p.text ++ s'.rest) := by
  obtain ⟨rest, position, ieee, afterDot, halted⟩ := s
  obtain ⟨hhalted, hplace⟩ := hs
  dsimp only at hhalted hplace
  subst hhalted hplace
  have hsplit : rest = rest.takeWhile Text.isBlank ++ rest.dropWhile Text.isBlank :=
    List.takeWhile_append_dropWhile.symm
  have hblank : ∀ c ∈ rest.takeWhile Text.isBlank, Text.isBlank c = true :=
    fun _ hc => List.mem_takeWhile_imp hc
  unfold next skipBlanks
  rw [if_neg Bool.false_ne_true]
  dsimp only
  generalize rest.takeWhile Text.isBlank = gap at hsplit hblank ⊢
  generalize rest.dropWhile Text.isBlank = text at hsplit ⊢
  subst hsplit
  rw [Position.behind_after]
  by_cases htext : text = []
  -- the end
  · subst htext
    rw [Scan.token_nil]
    rw [← List.append_nil gap] at hblank
    have hstops : Stops before (gap ++ []) (.ok (.eof (Position.behind (before ++ (gap ++ []))))) :=
      .eof hblank
    rw [List.append_nil] at hstops ⊢
    exact .inl ⟨_, _, rfl, done_of_nil rfl rfl rfl, hstops⟩
  have hgives := Scan.token_takes ieee afterDot htext
  cases htoken : Scan.token ieee afterDot text with
  | ok found =>
    rw [htoken] at hgives
    obtain ⟨hinner, hpos, hspelled⟩ := hgives
    refine .inr ⟨⟨gap, found.kind, String.ofList (text.take found.length), _, found.singleQuoted, found.raw⟩,
      _, rfl, ⟨hblank, hinner, ?_, hspelled, rfl⟩, ⟨rfl, ?_⟩, ?_⟩
    · intro hempty
      have hnil := congrArg String.toList hempty
      rw [String.toList_ofList, String.toList_empty, List.take_eq_nil_iff] at hnil
      exact hnil.elim (fun hzero => Nat.ne_of_gt hpos hzero) htext
    · rw [Piece.text, String.toList_ofList, ← List.append_assoc]
      exact Position.behind_after _ _
    · rw [Piece.text, String.toList_ofList, List.append_assoc, List.take_append_drop]
  | error failure =>
    rw [htoken] at hgives
    refine .inl ⟨_, _, rfl, done_of_halted rfl,
      .error (gap ++ text.take failure.before) (text.drop failure.before) ?_ ?_ hgives⟩
    · rw [List.append_assoc, List.take_append_drop]
    · rw [← List.append_assoc]
      exact Position.behind_after _ _

/-! ## Runs -/

/-- What a scanner gives when it is called for the time `n`, counted from zero. -/
def call : Nat → Scanner → Except Diagnostic Token
  | 0, s => s.next.1
  | n + 1, s => call n s.next.2

/-- The calls of a scanner up to the one that stops it. -/
inductive Run : List Char → Scanner → List Piece → Except Diagnostic Token → Prop where
  | stop {before : List Char} {s s' : Scanner} {last : Except Diagnostic Token} (next : s.next = (last, s'))
    (done : s'.Done) (stops : Stops before s.rest last) : Run before s [] last
  | piece {before : List Char} {s s' : Scanner} {p : Piece} {ps : List Piece} {last : Except Diagnostic Token}
    (next : s.next = (.ok p.token, s')) (stands : p.Stands before) (split : s.rest = p.text ++ s'.rest)
    (run : Run (before ++ p.text) s' ps last) : Run before s (p :: ps) last

/-- **Every running scanner stops**, since each piece takes a character. -/
theorem Ready.run {before : List Char} {s : Scanner} (hs : s.Ready before) :
    ∃ ps last, Run before s ps last := by
  rcases next_cases hs with ⟨last, s', hnext, hdone, hstops⟩ | ⟨p, s', hnext, hstands, hready, hsplit⟩
  · exact ⟨[], last, .stop hnext hdone hstops⟩
  · have hshorter : s'.rest.length < s.rest.length := by
      have hpos := hstands.length_pos
      rw [hsplit, List.length_append]
      omega
    obtain ⟨ps, last, hrun⟩ := hready.run
    exact ⟨p :: ps, last, .piece hnext hstands hsplit hrun⟩
termination_by s.rest.length

theorem Done.call {s : Scanner} (h : s.Done) (n : Nat) : s.call n = .ok (.eof s.position) := by
  induction n with
  | zero => rw [Scanner.call, h]
  | succ n ih =>
    rw [Scanner.call, h]
    exact ih

/-- The ending that the loop over the calls reports. -/
def endingOf : Except Diagnostic Token → Ending
  | .ok t => ⟨t.position, none⟩
  | .error d => ⟨d.position, some d⟩

namespace Run
variable {before : List Char} {s : Scanner} {ps : List Piece} {last : Except Diagnostic Token}

/-- The calls of a run give its tokens, one by one. -/
theorem call_piece (h : Run before s ps last) : ∀ {i : Nat} {p : Piece}, ps[i]? = some p →
    s.call i = .ok p.token := by
  induction h with
  | stop => exact fun h => nomatch h
  | piece next _ _ _ ih =>
    intro i p hp
    cases i with
    | zero =>
      obtain rfl := Option.some.inj hp
      rw [call, next]
    | succ i =>
      rw [call, next]
      exact ih hp

/-- The call behind them stops. -/
theorem call_last (h : Run before s ps last) : s.call ps.length = last := by
  induction h with
  | stop next => rw [List.length_nil, call, next]
  | piece next _ _ _ ih =>
    rw [List.length_cons, call, next]
    exact ih

/-- All later calls give the end. -/
theorem call_done (h : Run before s ps last) :
    ∃ position, ∀ n, ps.length < n → s.call n = .ok (.eof position) := by
  induction h with
  | @stop _ _ s' _ next done _ =>
    refine ⟨s'.position, fun n hn => ?_⟩
    obtain ⟨n, rfl⟩ : ∃ m, n = m + 1 := ⟨n - 1, by omega⟩
    rw [call, next]
    exact done.call n
  | piece next _ _ _ ih =>
    obtain ⟨position, ih⟩ := ih
    refine ⟨position, fun n hn => ?_⟩
    rw [List.length_cons] at hn
    obtain ⟨n, rfl⟩ : ∃ m, n = m + 1 := ⟨n - 1, by omega⟩
    rw [call, next]
    exact ih n (by omega)

/-- Only the last call of a run can fail. -/
theorem eq_last_of_error (h : Run before s ps last) {n : Nat} {d : Diagnostic} (hn : s.call n = .error d) :
    n = ps.length ∧ last = .error d := by
  obtain ⟨position, hdone⟩ := h.call_done
  rcases Nat.lt_trichotomy n ps.length with hlt | rfl | hgt
  · rw [h.call_piece (List.getElem?_eq_getElem hlt)] at hn
    cases hn
  · exact ⟨rfl, h.call_last.symm.trans hn⟩
  · rw [hdone n hgt] at hn
    cases hn

/-- Each piece stands behind those in front of it. -/
theorem stands (h : Run before s ps last) : ∀ {front back : List Piece} {p : Piece},
    ps = front ++ p :: back → p.Stands (before ++ Piece.row front) := by
  induction h with
  | stop => exact fun h => absurd h (by simp)
  | piece _ stands _ _ ih =>
    intro front back p hps
    cases front with
    | nil =>
      obtain ⟨rfl, rfl⟩ := List.cons.inj hps
      rw [Piece.row, List.flatMap_nil, List.append_nil]
      exact stands
    | cons q front =>
      obtain ⟨rfl, rfl⟩ := List.cons.inj hps
      rw [Piece.row_cons, ← List.append_assoc]
      exact ih rfl

/-- The pieces are the text up to where the run stops. -/
theorem stops (h : Run before s ps last) : ∃ rest, s.rest = Piece.row ps ++ rest ∧
    Stops (before ++ Piece.row ps) rest last := by
  induction h with
  | stop _ _ stops => exact ⟨_, rfl, by rwa [Piece.row, List.flatMap_nil, List.append_nil]⟩
  | piece _ _ split _ ih =>
    obtain ⟨rest, hrest, hstops⟩ := ih
    refine ⟨rest, ?_, ?_⟩
    · rw [split, hrest, Piece.row_cons, List.append_assoc]
    · rwa [Piece.row_cons, ← List.append_assoc]

theorem length_le (h : Run before s ps last) : ps.length ≤ s.rest.length := by
  induction h with
  | stop => exact Nat.zero_le _
  | piece _ stands split _ ih =>
    have hpos := stands.length_pos
    rw [split, List.length_append, List.length_cons]
    omega

/-- **The loop over the calls** collects the tokens of a run, and ends as the run does. -/
theorem collect (h : Run before s ps last) : ∀ (fuel : Nat) (ts : List Token), ps.length < fuel →
    s.collect fuel ts = (ts.reverse ++ ps.map Piece.token, endingOf last) := by
  induction h with
  | stop next _ stops =>
    intro fuel ts hfuel
    obtain ⟨fuel, rfl⟩ : ∃ f, fuel = f + 1 := ⟨fuel - 1, by omega⟩
    rw [Scanner.collect, next, List.map_nil, List.append_nil]
    cases stops with
    | eof => rfl
    | error => rfl
  | piece next stands _ _ ih =>
    intro fuel ts hfuel
    rw [List.length_cons] at hfuel
    obtain ⟨fuel, rfl⟩ : ∃ f, fuel = f + 1 := ⟨fuel - 1, by omega⟩
    rw [Scanner.collect, next]
    dsimp only
    rw [stands.inner, if_neg Bool.false_ne_true, ih fuel _ (by omega), List.reverse_cons, List.append_assoc,
      List.map_cons]
    rfl

theorem tokens (h : Run before s ps last) : s.tokens = (ps.map Piece.token, endingOf last) :=
  h.collect _ [] (Nat.lt_succ_of_le h.length_le)

theorem tokenize (h : Run before s ps last) :
    s.tokenize = last.map fun t => ps.map Piece.token ++ [.eof t.position] := by
  rw [Scanner.tokenize, h.tokens]
  cases last <;> rfl

end Run

/-- The run over a whole source. -/
theorem run_ofSource (source : String) (ieee : Bool) :
    ∃ ps last, Run [] (ofSource source ieee) ps last :=
  Ready.run ⟨rfl, rfl⟩

/-- A run that ends with its source tiles it. -/
theorem Run.tiles {source : String} {ieee : Bool} {ps : List Piece} {last : Except Diagnostic Token}
    (h : Run [] (ofSource source ieee) ps last) {tokens : List Token}
    (htokens : (ofSource source ieee).tokenize = .ok tokens) : ∃ tail,
      Piece.Tiles source.toList tokens ps tail ∧ last = .ok (.eof (Position.behind source.toList)) := by
  obtain ⟨rest, hrest, hstops⟩ := h.stops
  have hsource : source.toList = Piece.row ps ++ rest := hrest
  rw [h.tokenize] at htokens
  cases hstops with
  | eof blank =>
    obtain rfl := Except.ok.inj htokens
    rw [List.nil_append, ← hsource]
    exact ⟨rest, ⟨rfl, hsource, blank, fun _ _ _ hps => h.stands hps⟩, rfl⟩
  | error => cases htokens

/-- The tokens of a source are what the calls give, with the end as the last one. -/
theorem Run.call_token {source : String} {ieee : Bool} {ps : List Piece} {last : Except Diagnostic Token}
    (h : Run [] (ofSource source ieee) ps last) {tokens : List Token}
    (htokens : (ofSource source ieee).tokenize = .ok tokens) {i : Nat} {t : Token}
    (ht : tokens[i]? = some t) : (ofSource source ieee).call i = .ok t := by
  obtain ⟨tail, htiles, hlast⟩ := h.tiles htokens
  rw [htiles.tokens] at ht
  rcases Nat.lt_or_ge i (ps.map Piece.token).length with hi | hi
  · rw [List.getElem?_append_left hi, List.getElem?_map] at ht
    obtain ⟨p, hp, rfl⟩ := Option.map_eq_some_iff.mp ht
    exact h.call_piece hp
  · rw [List.getElem?_append_right hi] at ht
    obtain ⟨hlt, rfl⟩ := List.getElem?_eq_some_iff.mp ht
    obtain rfl : i = ps.length := by
      rw [List.length_map] at hi hlt
      rw [List.length_singleton] at hlt
      omega
    rw [h.call_last, hlast, List.getElem_singleton]

/-- **Tokens tile their source.**  If a source is read to its end, its characters are those of its tokens with
white space between them.  Every token but the last, the end, has at least one character, and stands at the
line and column counted from the characters in front of it.

The scanner stops after at most one call more than there are characters, with the end or with an error.  The
place of an error is in the source, and every call after an error gives the end. -/
theorem tokens_tile (source : String) (ieee : Bool) :
    (∀ tokens, (ofSource source ieee).tokenize = .ok tokens →
      (∃ ps tail, Piece.Tiles source.toList tokens ps tail) ∧
      ∀ i t, tokens[i]? = some t → (ofSource source ieee).call i = .ok t) ∧
    (∃ n ≤ source.length,
      (∀ i < n, ∃ t, (ofSource source ieee).call i = .ok t ∧ t.kind.isEof = false) ∧
      (((ofSource source ieee).call n = .ok (.eof (Position.behind source.toList)) ∧
          ∃ tokens, (ofSource source ieee).tokenize = .ok tokens) ∨
        ∃ d, (ofSource source ieee).call n = .error d ∧ (ofSource source ieee).tokenize = .error d)) ∧
    (∀ n d, (ofSource source ieee).call n = .error d →
      (∃ before, before <+: source.toList ∧ d.position = Position.behind before) ∧
      ∃ position, ∀ m, n < m → (ofSource source ieee).call m = .ok (.eof position)) := by
  obtain ⟨ps, last, hrun⟩ := run_ofSource source ieee
  refine ⟨fun tokens htokens => ?_, ⟨ps.length, ?_, fun i hi => ?_, ?_⟩, fun n d hn => ?_⟩
  · obtain ⟨tail, htiles, _⟩ := hrun.tiles htokens
    exact ⟨⟨ps, tail, htiles⟩, fun _ _ => hrun.call_token htokens⟩
  · exact hrun.length_le.trans_eq String.length_toList
  · obtain ⟨front, back, hps⟩ := List.append_of_mem (List.getElem_mem hi)
    exact ⟨_, hrun.call_piece (List.getElem?_eq_getElem hi), (hrun.stands hps).inner⟩
  · cases hlast : last with
    | ok t =>
      have htokens := hrun.tokenize
      rw [hlast] at htokens
      obtain ⟨tail, htiles, hend⟩ := hrun.tiles htokens
      exact .inl ⟨hrun.call_last.trans hend, _, htokens⟩
    | error d => exact .inr ⟨d, hrun.call_last.trans hlast, by rw [hrun.tokenize, hlast]; rfl⟩
  · obtain ⟨rfl, rfl⟩ := hrun.eq_last_of_error hn
    obtain ⟨rest, hrest, hstops⟩ := hrun.stops
    refine ⟨?_, hrun.call_done⟩
    cases hstops with
    | error read unread split place lexical =>
      refine ⟨Piece.row ps ++ read, ⟨unread, ?_⟩, place⟩
      rw [List.append_assoc, ← split]
      exact hrest.symm

/-- A line feed in a gap, and a scan that an equals sign cuts short behind one. -/
theorem tokens_tile_lines :
    (∃ tokens, (ofSource "a +\n  bc" false).tokenize = .ok tokens ∧
      (∃ ps tail, Piece.Tiles "a +\n  bc".toList tokens ps tail) ∧
      (tokens.map fun t => (t.lexeme, t.position)) =
        [("a", ⟨1, 1⟩), ("+", ⟨1, 3⟩), ("bc", ⟨2, 3⟩), ("", ⟨2, 5⟩)]) ∧
    ∃ d, (ofSource "a\n =b" true).call 1 = .error d ∧ d.position = ⟨2, 2⟩ ∧
      ∃ position, ∀ m, 1 < m → (ofSource "a\n =b" true).call m = .ok (.eof position) := by
  have herror : (ofSource "a\n =b" true).call 1 = .error (Fault.strayEquals.report ⟨2, 2⟩) := rfl
  exact ⟨⟨_, rfl, ((tokens_tile "a +\n  bc" false).1 _ rfl).1, rfl⟩,
    _, herror, rfl, ((tokens_tile "a\n =b" true).2.2 1 _ herror).2⟩

end Scanner

end PipeExpr
