import PipeExpr.Proofs.Cutoff
import PipeExpr.Proofs.Segments
import PipeExpr.Proofs.Tiling

/-!
# Lexical errors come last

A source whose scan fails gives that one lexical error, behind the errors of syntax that the reader has found
in front of the failure (`parse_lexical`).

The segments of a chain are read to the end of the tokens, however the scan ended: a reader does not see the
difference, and for a scan that comes to its end this is known (`segments_end`).  What is recorded on the way
is known for blind readers.  Errors in front of the lexical one do not come from the cut-off, as a source that
goes on behind the same tokens gives them too (`reported_of_prefix`).
-/

namespace PipeExpr

open Parse

/-- The errors that reading a source gives. -/
def reported : Except Diagnostics Expr → Diagnostics
  | .ok _ => []
  | .error errors => errors

theorem reported_unless (errors : Diagnostics) (e : Expr) :
    reported (if errors.isEmpty then .ok e else .error errors) = errors := by
  cases errors <;> rfl

namespace Parse

section Segments
variable (o : Options) {tokens : List Token} (ending : Scanner.Ending) (position : Position)

theorem chain_steady {n m : Nat} (hle : n ≤ m) :
    Steady (segments o (expression o n n) n sourceStage position [])
      (segments o (expression o m m) m sourceStage position []) :=
  (segments_built (expression_built o hle hle) o _ _ trivial hle).steady

/-- **A chain is read to the end of its tokens**, however the scan ended. -/
theorem segments_end (hinner : ∀ t ∈ tokens, t.kind.isEof = false) {n : Nat} (hn : tokens.length < n) :
    ∃ stages s, segments o (expression o n n) n sourceStage position [] ⟨tokens, ending, #[], 0⟩ =
        (.ok stages, s) ∧ s.rest = [] ∧ Keeps ⟨tokens, ending, #[], 0⟩ s := by
  have hblind := (chain_steady o position (Nat.le_refl n)).blind
  have hnone : (Scanner.Ending.mk ending.position none).fault = none := rfl
  have hclean := segments_eq o hnone n sourceStage position [] tokens #[] hinner hn hn
  have hkeeps := hblind.keeps ⟨tokens, ending, #[], 0⟩
  have hsame : Twin ⟨tokens, ⟨ending.position, none⟩, #[], 0⟩ ⟨tokens, ending, #[], 0⟩ := ⟨rfl, rfl, rfl⟩
  have htwin := hblind.twin hsame
  rw [hclean] at htwin
  rcases hrun : segments o (expression o n n) n sourceStage position [] ⟨tokens, ending, #[], 0⟩
    with ⟨result, s⟩
  rw [hrun] at htwin hkeeps
  obtain ⟨hresult, hs⟩ := htwin
  exact ⟨_, s, Prod.ext hresult.symm rfl, hs.rest.symm, hkeeps⟩

/-- A chain in front of a cut-off records what a chain with more behind the same tokens records first. -/
theorem segments_apart (hinner : ∀ t ∈ tokens, t.kind.isEof = false) (hne : tokens ≠ [])
    {d : Diagnostic} (hd : ending.fault = some d) (more : List Token) (ending' : Scanner.Ending) {n m : Nat}
    (hn : tokens.length < n) (hle : n ≤ m) :
    Apart (segments o (expression o m m) m sourceStage position [] ⟨tokens ++ more, ending', #[], 0⟩).2
      (segments o (expression o n n) n sourceStage position [] ⟨tokens, ending, #[], 0⟩).2 := by
  obtain ⟨stages, t, hrun, hrest, _⟩ := segments_end o ending position hinner hn
  have hturns := (chain_steady o position hle).turns ⟨tokens, ending, #[], 0⟩
  rw [hrun] at hturns
  have hrun' : segments o (expression o m m) m sourceStage position [] ⟨tokens, ending, #[], 0⟩ =
      (.ok stages, t) := (hturns.resolve_left nofun).symm
  have hstart : InStep more ⟨tokens ++ more, ending', #[], 0⟩ ⟨tokens, ending, #[], 0⟩ :=
    ⟨rfl, hne, rfl, rfl, Option.isSome_iff_exists.mpr ⟨d, hd⟩⟩
  have hstep := (chain_steady o position (Nat.le_refl m)).blind.step hstart
  rw [hrun'] at hstep
  rw [hrun]
  -- the cut-off has been reached
  exact hstep.resolve_left fun h => h.2.inner hrest

end Segments

end Parse

section Sources
variable {o : Options} {tokens : List Token} {ending : Scanner.Ending}

/-- What a program reports is what its chain has recorded. -/
theorem program_of_segments {first : Token} {rest : List Token} (hinner : first.kind.isEof = false)
    {stages : List (Stage Expr)} {s : State}
    (hrun : segments o (Parse.expression o ((first :: rest).length + 1) ((first :: rest).length + 1))
      ((first :: rest).length + 1) sourceStage first.position [] ⟨first :: rest, ending, #[], 0⟩ =
        (.ok stages, s)) :
    reported (Reader.mk o (.ofTokens (first :: rest) ending)).program.1 = s.errors.toList ∧
      (Reader.mk o (.ofTokens (first :: rest) ending)).program.2.state.rest = s.rest := by
  have hstate : State.ofTokens (first :: rest) ending = ⟨first :: rest, ending, #[], 0⟩ := rfl
  rw [hstate]
  unfold Reader.program
  simp only [State.current, hinner, Bool.false_eq_true, if_false, Reader.fuel, hrun, Reader.takeErrors,
    and_true]
  exact reported_unless _ _

/-- **What is reported** are errors of syntax, with the error of the scan behind them.  A program without
errors is read to the end of its tokens. -/
theorem program_logged (o : Options) (ending : Scanner.Ending) (hinner : ∀ t ∈ tokens, t.kind.isEof = false) :
    (∃ early : List Diagnostic, (∀ e ∈ early, e.code.isLexical = false) ∧
      reported (Reader.mk o (.ofTokens tokens ending)).program.1 = early ++ ending.fault.toList) ∧
    (Reader.mk o (.ofTokens tokens ending)).program.2.state.rest = [] := by
  cases tokens with
  | nil =>
    obtain ⟨position, fault⟩ := ending
    cases fault with
    | some d => exact ⟨⟨[], fun _ he => absurd he List.not_mem_nil, rfl⟩, rfl⟩
    | none =>
      refine ⟨⟨[Fault.emptyExpression.report position], fun e he => ?_, rfl⟩, rfl⟩
      rw [List.mem_singleton.mp he]
      rfl
  | cons first rest =>
    obtain ⟨stages, s, hrun, hrest, hkeeps⟩ :=
      segments_end o ending first.position hinner (Nat.lt_succ_self _)
    obtain ⟨hreported, hleft⟩ := program_of_segments (hinner first (List.mem_cons_self ..)) hrun
    refine ⟨?_, hleft.trans hrest⟩
    rw [hreported]
    have hfailed : s.lexerFailed = ending.fault.isSome := by
      rw [State.lexerFailed, hrest, hkeeps.ending]
      rfl
    cases hkeeps.logged with
    | silent failed => cases failed
    | running _ runs' early syntactic errors =>
      have hnone : ending.fault = none :=
        Option.isNone_iff_eq_none.mp (Option.isSome_eq_false_iff.mp (hfailed.symm.trans runs'))
      refine ⟨early.toList, fun e he => syntactic e (Array.mem_toList_iff.mp he), ?_⟩
      rw [errors, hnone]
      simp
    | fails _ _ early syntactic d fault errors =>
      have hsome : ending.fault = some d := fault
      refine ⟨early.toList, fun e he => syntactic e (Array.mem_toList_iff.mp he), ?_⟩
      rw [errors, hsome]
      simp

/-- **Errors in front of the lexical one do not come from the cut-off**: with anything else behind the same
tokens they are the first errors, too. -/
theorem reported_of_prefix (hinner : ∀ t ∈ tokens, t.kind.isEof = false) {d : Diagnostic}
    (hd : ending.fault = some d) {early : List Diagnostic}
    (hearly : reported (Reader.mk o (.ofTokens tokens ending)).program.1 = early ++ [d])
    {more : List Token} (hmore : ∀ t ∈ tokens ++ more, t.kind.isEof = false) (ending' : Scanner.Ending) :
    early <+: reported (Reader.mk o (.ofTokens (tokens ++ more) ending')).program.1 := by
  cases tokens with
  | nil =>
    obtain ⟨position, fault⟩ := ending
    obtain rfl : fault = some d := hd
    have hnil : [] = early := List.append_cancel_right (show [] ++ [d] = early ++ [d] from hearly)
    rw [← hnil]
    exact List.nil_prefix
  | cons first rest =>
    obtain ⟨stages, t, hrun, _⟩ := segments_end o ending first.position hinner (Nat.lt_succ_self _)
    obtain ⟨stages', s, hrun', _⟩ := segments_end o ending' first.position hmore (Nat.lt_succ_self _)
    have hfirst := hinner first (List.mem_cons_self ..)
    rw [(program_of_segments hfirst hrun).1] at hearly
    have hreported : reported (Reader.mk o (.ofTokens (first :: rest ++ more) ending')).program.1 =
        s.errors.toList := (program_of_segments hfirst hrun').1
    rw [hreported]
    obtain ⟨_, early', late, d', herrors, hlate⟩ := segments_apart o ending first.position hinner
      (List.cons_ne_nil first rest) hd more ending' (Nat.lt_succ_self _)
      (Nat.succ_le_succ (List.length_append ▸ Nat.le_add_right _ _))
    rw [hrun] at herrors
    rw [hrun'] at hlate
    have hsame : early'.toList ++ [d'] = early ++ [d] := by
      rw [← hearly, ← Array.toList_push, ← herrors]
    rw [← (List.append_inj' hsame rfl).1, hlate, Array.toList_append]
    exact List.prefix_append _ _

end Sources

/-! ## Sources -/

theorem tokenize_eq_error {s : Scanner} {d : Diagnostic} :
    s.tokenize = .error d ↔ s.tokens.2.fault = some d := by
  unfold Scanner.tokenize
  rcases s.tokens with ⟨tokens, position, fault⟩
  cases fault with
  | none => exact ⟨nofun, nofun⟩
  | some d' =>
    exact ⟨fun h => congrArg some (Except.error.inj h), fun h => congrArg Except.error (Option.some.inj h)⟩

theorem tokenize_lexical {source : String} {ieee : Bool} {d : Diagnostic}
    (h : (Scanner.ofSource source ieee).tokenize = .error d) : d.code.isLexical = true := by
  obtain ⟨ps, last, hrun⟩ := Scanner.run_ofSource source ieee
  obtain ⟨_, _, hstops⟩ := hrun.stops
  rw [hrun.tokenize] at h
  cases hstops with
  | eof => cases h
  | error read unread split place lexical =>
    obtain rfl := Except.error.inj h
    exact lexical

/-- **A lexical error is reported once, as the last error, and just if the scan fails.**  The errors in front
of it are errors of syntax, which a source that goes on behind the same tokens gives as its first errors.  A
source without errors is scanned and read to its end. -/
theorem parse_lexical (source : String) (o : Options) :
    (∀ d, (Scanner.ofSource source o.ieee).tokenize = .error d → ∃ early,
      parse source o = .error (early ++ [d]) ∧ d.code.isLexical = true ∧
      (∀ e ∈ early, e.code.isLexical = false) ∧
      ∀ source', (Scanner.ofSource source o.ieee).tokens.1 <+: (Scanner.ofSource source' o.ieee).tokens.1 →
        early <+: reported (parse source' o)) ∧
    ((∃ e ∈ reported (parse source o), e.code.isLexical = true) ↔
      ∃ d, (Scanner.ofSource source o.ieee).tokenize = .error d) ∧
    (∀ e, parse source o = .ok e → (∃ tokens, (Scanner.ofSource source o.ieee).tokenize = .ok tokens) ∧
      (Reader.ofSource source o).program.2.state.rest = []) := by
  have hinner : ∀ source', ∀ t ∈ (Scanner.ofSource source' o.ieee).tokens.1, t.kind.isEof = false :=
    fun source' => tokens_inner (show (Scanner.ofSource source' o.ieee).tokens =
      (_, (Scanner.ofSource source' o.ieee).tokens.2) from rfl)
  obtain ⟨⟨early, hsyntactic, hearly⟩, hend⟩ :=
    program_logged o (Scanner.ofSource source o.ieee).tokens.2 (hinner source)
  have hreported : reported (parse source o) =
    early ++ (Scanner.ofSource source o.ieee).tokens.2.fault.toList := hearly
  have hfailed : ∀ d, (Scanner.ofSource source o.ieee).tokenize = .error d →
      parse source o = .error (early ++ [d]) := by
    intro d hd
    rw [tokenize_eq_error.mp hd, Option.toList_some] at hreported
    cases hparse : parse source o with
    | ok e =>
      rw [hparse] at hreported
      exact absurd hreported.symm (List.append_ne_nil_of_right_ne_nil _ (List.cons_ne_nil d []))
    | error errors =>
      rw [hparse] at hreported
      exact congrArg Except.error hreported
  refine ⟨fun d hd => ⟨early, hfailed d hd, tokenize_lexical hd, hsyntactic, fun source' hprefix => ?_⟩,
    ⟨?_, ?_⟩, fun e he => ⟨?_, hend⟩⟩
  · obtain ⟨more, hmore⟩ := hprefix
    have hboth := hinner source'
    rw [← hmore] at hboth
    have hfirst := reported_of_prefix (hinner source) (tokenize_eq_error.mp hd)
      (congrArg reported (hfailed d hd)) hboth (Scanner.ofSource source' o.ieee).tokens.2
    rw [hmore] at hfirst
    exact hfirst
  · rintro ⟨e, he, hlexical⟩
    rw [hreported] at he
    rcases List.mem_append.mp he with he | he
    · rw [hsyntactic e he] at hlexical
      cases hlexical
    · exact ⟨e, tokenize_eq_error.mpr (Option.mem_toList.mp he)⟩
  · rintro ⟨d, hd⟩
    refine ⟨d, ?_, tokenize_lexical hd⟩
    rw [hfailed d hd]
    exact List.mem_append_right early (List.mem_singleton_self d)
  · cases htokens : (Scanner.ofSource source o.ieee).tokenize with
    | ok tokens => exact ⟨tokens, rfl⟩
    | error d =>
      rw [hfailed d htokens] at he
      cases he

/-- An empty element is reported in front of a lexical error, as it is with the list closed instead; the
list that the error leaves open is not. -/
theorem parse_lexical_list :
    parse "[[,] =" {} = .error [Fault.emptyElement.report ⟨1, 3⟩, Fault.strayEquals.report ⟨1, 6⟩] ∧
      [Fault.emptyElement.report ⟨1, 3⟩] <+: reported (parse "[[,]]" {}) := by
  have hscan : (Scanner.ofSource "[[,] =" (Options.mk true true true true 32).ieee).tokenize =
      .error (Fault.strayEquals.report ⟨1, 6⟩) := rfl
  have hparse : parse "[[,] =" {} =
      .error ([Fault.emptyElement.report ⟨1, 3⟩] ++ [Fault.strayEquals.report ⟨1, 6⟩]) := rfl
  obtain ⟨early, hearly, _, _, hmore⟩ := (parse_lexical "[[,] =" {}).1 _ hscan
  have hsame := Except.error.inj (hparse.symm.trans hearly)
  rw [← List.append_cancel_right hsame] at hmore
  exact ⟨hparse, hmore "[[,]]" ⟨[⟨.symbol .rightBracket, "]", ⟨1, 5⟩, false, false⟩], rfl⟩⟩

end PipeExpr
