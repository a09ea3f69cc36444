import PipeExpr.Expr.Parser

/-!
# States of a reader

A reader changes its state in two ways: it passes tokens, and it keeps errors.  Passing one token and passing a
segment are the same step with another rest (`State.moveTo`), and neither step touches what the other one is about
(`State.moveTo_fields`, `State.record_fields`), but for one thing.  Where the scan has failed, its error is kept
when the last token is passed, and no error of syntax after it.  So in front of a source that was scanned to its
end the steps have no other effect than their own (`State.moveTo_of_scanned`, `State.record_of_scanned`).
-/

namespace PipeExpr

namespace Parse

namespace State
variable {s t : State}

/-! ## The next token -/

theorem current_of_cons {token : Token} {rest : List Token} (h : s.rest = token :: rest) : s.current = token := by
  unfold current
  rw [h]

theorem current_of_nil (h : s.rest = []) : s.current = .eof s.ending.position := by
  unfold current
  rw [h]

/-- The next token is told by the tokens and the place of their end. -/
theorem current_congr (hrest : s.rest = t.rest) (hposition : s.ending.position = t.ending.position) :
    s.current = t.current := by
  unfold current
  rw [hrest, hposition]

/-! ## Passing tokens -/

theorem noteEnding_cases (s : State) : s.noteEnding = s ∨
    ∃ d, s.ending.fault = some d ∧ s.noteEnding = { s with errors := s.errors.push d } := by
  unfold noteEnding
  split
  · exact .inr ⟨_, ‹_›, rfl⟩
  · exact .inl rfl

/-- The state in front of other tokens, with the error of the scan if there are none. -/
def moveTo (s : State) (rest : List Token) : State := noteEnding { s with rest }

theorem moveTo_of_ne_nil (s : State) {rest : List Token} (h : rest ≠ []) : s.moveTo rest = { s with rest } := by
  obtain ⟨token, rest, rfl⟩ := List.exists_cons_of_ne_nil h
  rfl

theorem moveTo_of_scanned (h : s.ending.fault = none) (rest : List Token) : s.moveTo rest = { s with rest } := by
  rcases noteEnding_cases { s with rest } with heq | ⟨d, hd, -⟩
  · exact heq
  · cases hd.symm.trans h

theorem moveTo_nil {d : Diagnostic} (h : s.ending.fault = some d) :
    s.moveTo [] = { s with rest := [], errors := s.errors.push d } := by
  unfold moveTo noteEnding
  simp only [h]

theorem moveTo_fields (s : State) (rest : List Token) : (s.moveTo rest).rest = rest ∧
    (s.moveTo rest).ending = s.ending ∧ (s.moveTo rest).depth = s.depth := by
  unfold moveTo
  rcases noteEnding_cases { s with rest } with h | ⟨d, -, h⟩ <;> rw [h] <;> exact ⟨rfl, rfl, rfl⟩

theorem advance_eq (s : State) : s.advance = if s.rest = [] then s else s.moveTo s.rest.tail := by
  unfold advance
  cases s.rest <;> rfl

theorem skipToPipe_eq (s : State) : s.skipToPipe =
    if s.rest = [] then s else s.moveTo (s.rest.dropWhile fun t => !t.kind.isPipe) := by
  unfold skipToPipe
  cases s.rest <;> rfl

theorem skipToPipe_of_scanned (h : s.ending.fault = none) :
    s.skipToPipe = { s with rest := s.rest.dropWhile fun t => !t.kind.isPipe } := by
  rw [skipToPipe_eq]
  split
  · rename_i hnil
    rw [hnil, List.dropWhile_nil, ← hnil]
  · exact moveTo_of_scanned h _

/-- In front of tokens that were scanned to their end there is nothing to note. -/
theorem ofTokens_of_scanned (tokens : List Token) {ending : Scanner.Ending} (h : ending.fault = none) :
    ofTokens tokens ending = ⟨tokens, ending, #[], 0⟩ :=
  moveTo_of_scanned (s := ⟨[], ending, #[], 0⟩) h tokens

/-! ## Keeping errors -/

theorem lexerFailed_of_scanned (h : s.ending.fault = none) : s.lexerFailed = false := by
  unfold lexerFailed
  rw [h, Option.isSome_none, Bool.and_false]

theorem lexerFailed_of_ne_nil (h : s.rest ≠ []) : s.lexerFailed = false := by
  unfold lexerFailed
  rw [List.isEmpty_eq_false_iff.mpr h, Bool.false_and]

theorem record_of_running (h : s.lexerFailed = false) (d : Diagnostic) :
    s.record d = { s with errors := s.errors.push d } := by
  unfold record
  rw [h]
  rfl

theorem record_of_scanned (h : s.ending.fault = none) (d : Diagnostic) :
    s.record d = { s with errors := s.errors.push d } := record_of_running (lexerFailed_of_scanned h) d

theorem record_cases (s : State) (d : Diagnostic) :
    s.record d = s ∨ s.record d = { s with errors := s.errors.push d } := by
  unfold record
  split
  · exact .inl rfl
  · exact .inr rfl

theorem record_fields (s : State) (d : Diagnostic) :
    (s.record d).rest = s.rest ∧ (s.record d).ending = s.ending ∧ (s.record d).depth = s.depth := by
  rcases s.record_cases d with h | h <;> rw [h] <;> exact ⟨rfl, rfl, rfl⟩

end State

end Parse

/-- The tokens of a source that is scanned to its end are all that a reader of it starts with. -/
theorem Reader.ofSource_of_tokens {o : Options} {source : String} {tokens : List Token} {position : Position}
    (hscan : (Scanner.ofSource source o.ieee).tokens = (tokens, ⟨position, none⟩)) :
    Reader.ofSource source o = ⟨o, ⟨tokens, ⟨position, none⟩, #[], 0⟩⟩ := by
  unfold Reader.ofSource Reader.ofScanner
  rw [hscan]
  exact congrArg (Reader.mk o) (Parse.State.ofTokens_of_scanned tokens rfl)

end PipeExpr
