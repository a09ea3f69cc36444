import PipeExpr.Proofs.Grammar
import PipeExpr.Proofs.Scanning
import PipeExpr.Proofs.Segments

/-!
# Reading printed programs

**The reader inverts printing** (`parse_printed`): the text of a tree is read as this tree, up to the places
of its nodes and the styles of its literals, which are not in the text.

The text scans to the lexemes that were printed, and these are read row by row of the table of precedence;
what is left are the segments of a chain with their markers and aliases.
-/

namespace PipeExpr

namespace Parse

/-! ## Aliases -/

section Segments
variable {d : Nat}

theorem reads_aliasName {name : String} (h : IsAlias name) (k : TokenKind) :
    Reads aliasName d [.word name] k (· = name) := by
  obtain ⟨c, cs, hname, _⟩ := h
  have hne : ∀ w : String, w.toList.head? ≠ some '$' → name ≠ w := by
    rintro w hw rfl
    exact hw (by rw [hname]; rfl)
  have hkind : Scan.wordKind true name = .identifier name := by
    unfold Scan.wordKind
    rw [if_neg (hne _ (by decide)), if_neg (hne _ (by decide)), if_neg (hne _ (by decide)),
      if_neg (hne _ (by decide))]
    simp [hne "NaN" (by decide), hne "Inf" (by decide)]
  have hlocal : isLocalName name = true := by
    unfold isLocalName
    rw [hname]
    rfl
  have hlength : name.length > 1 := by
    rw [← String.length_toList, hname]
    exact Nat.succ_lt_succ (Nat.succ_pos _)
  unfold aliasName
  refine .currentKind ?_
  rw [headKind_cons, show (Lexeme.word name).kind = .identifier name from hkind]
  simp only [hlocal, hlength, decide_true, Bool.and_self, if_true]
  exact .advance (.pure rfl)

theorem reads_optionalAlias {name? : Option String} (h : ∀ name ∈ name?, IsAlias name) {k : TokenKind}
    (hk : k.isSymbol .as = false) : Reads optionalAlias d (aliasLexemes name?) k (· = name?) := by
  unfold optionalAlias
  refine .looksAt ?_
  cases name? with
  | none =>
    rw [show aliasLexemes none = [] from rfl, headKind_nil, hk, if_neg Bool.false_ne_true]
    exact .pure rfl
  | some name =>
    rw [show aliasLexemes (some name) = [.symbol .as, .word name] from rfl, headKind_symbol, isSymbol_self,
      if_pos rfl]
    refine .advance (.bind_last (reads_aliasName (h name rfl) k) fun v hv => .looksAt ?_)
    rw [headKind_nil, hk, if_neg Bool.false_ne_true]
    exact .pure (congrArg some hv)

/-! ## Segments -/

/-- What a printed segment is read as. -/
structure SameStage (stage v : Stage Expr) : Prop where
  handler : v.handler = stage.handler
  boundAs : v.boundAs = stage.boundAs
  body : Same stage.body v.body

theorem SameStage.stages {stages vs : List (Stage Expr)} (h : List.Forall₂ SameStage stages vs) :
    Expr.bareStages vs = Expr.bareStages stages := by
  induction h with
  | nil => rfl
  | @cons stage v stages vs hv _ ih =>
    obtain ⟨hhandler, hboundAs, hbody⟩ := hv
    unfold Expr.bareStages
    rw [hhandler, hboundAs, show v.body.bare = stage.body.bare from hbody, ih]

variable {o : Options} {expr : Parse Expr} {σ : Spelling}

theorem reads_stage {stage : Stage Expr} (position : Position)
    (hbody : Inside expr d (stage.body.lexemes σ) stage.body)
    (halias : ∀ name ∈ stage.boundAs, IsAlias name) {k : TokenKind}
    (hk : k.isEof = true ∨ k.isPipe = true) :
    Reads (Parse.stage expr stage.handler position) d
      (stage.body.lexemes σ ++ aliasLexemes stage.boundAs) k (SameStage stage) := by
  have hends : k.isSymbol .as = false ∧ Stops 15 k := by
    cases k with
    | eof => exact ⟨rfl, by decide⟩
    | pipe name => exact ⟨rfl, show 15 < 16 by decide⟩
    | _ => exact (hk.elim Bool.false_ne_true Bool.false_ne_true).elim
  have hstops : Stops 15 (headKind (aliasLexemes stage.boundAs) k) := by
    cases stage.boundAs with
    | none => exact hends.2
    | some name => exact show Stops 15 (.symbol .as) by decide
  have hrest : Reads (do
      let body ← expr
      let boundAs ← optionalAlias
      return (⟨stage.handler, boundAs, position, body⟩ : Stage Expr)) d
      (stage.body.lexemes σ ++ aliasLexemes stage.boundAs) k (SameStage stage) :=
    .bind (hbody.reads _ hstops) fun v hv =>
      .bind_last (reads_optionalAlias halias hends.1) fun name? hname =>
        .pure ⟨rfl, hname, hv⟩
  have hstarts := hbody.begins.headKind (aliasLexemes stage.boundAs) k
  unfold Parse.stage
  split
  · refine .currentKind ?_
    -- the segment is not empty
    split
    · rename_i heof
      rw [heof] at hstarts
      cases hstarts
    · rename_i hpipe
      rw [hpipe] at hstarts
      cases hstarts
    · rename_i has
      rw [has] at hstarts
      cases hstarts
    · exact hrest
  · exact hrest

theorem reads_segment {ls : List Lexeme} {V : Stage Expr → Prop} {handler : String} {position : Position}
    {k : TokenKind} (h : Reads (Parse.stage expr handler position) d ls k V)
    (hk : k.isEof = true ∨ k.isPipe = true) :
    Reads (segment expr handler position) d ls k fun r => ∃ v, r = some v ∧ V v := by
  intro ts more ending errors hending hts hcurrent
  obtain ⟨v, hv, hrun⟩ := h ts more ending errors hending hts hcurrent
  refine ⟨some v, ⟨v, rfl, hv⟩, ?_⟩
  unfold segment
  simp only [hrun, hcurrent]
  rw [if_pos (Bool.or_eq_true_iff.mpr hk)]

theorem kind_marker (handler : String) : ∃ name : Option String,
    (Lexeme.marker handler).kind = .pipe name ∧ name.getD defaultPipe = handler := by
  unfold Lexeme.marker
  split
  · exact ⟨none, rfl, Eq.symm ‹_›⟩
  · exact ⟨some handler, rfl, rfl⟩

/-- **The segments of a printed chain**, up to the end of the source. -/
theorem reads_segments (hpipes : o.pipes = true) : ∀ (rest : List (Stage Expr)) (first : Stage Expr)
    (turns : Nat) (position : Position) (before : List (Stage Expr)),
    (∀ stage ∈ first :: rest, Inside expr d (stage.body.lexemes σ) stage.body) →
    (∀ stage ∈ first :: rest, ∀ name ∈ stage.boundAs, IsAlias name) → rest.length < turns →
    Reads (segments o expr turns first.handler position before) d
      (first.body.lexemes σ ++ (aliasLexemes first.boundAs ++ Expr.lexemesStages σ rest)) .eof
      fun vs => ∃ after, vs = before.reverse ++ after ∧ List.Forall₂ SameStage (first :: rest) after := by
  intro rest
  induction rest with
  | nil =>
    intro first turns position before hbodies haliases hturns
    obtain ⟨turns, rfl⟩ : ∃ t, turns = t + 1 := ⟨turns - 1, by omega⟩
    have hsegment := reads_segment (reads_stage position (hbodies first (List.mem_cons_self ..))
      (haliases first (List.mem_cons_self ..)) (.inl (show TokenKind.eof.isEof = true from rfl))) (.inl rfl)
    rw [Expr.lexemesStages, List.append_nil]
    unfold segments
    refine .bind_last hsegment ?_
    rintro _ ⟨v, rfl, hv⟩
    refine .current_behind fun t ht => ?_
    simp only [ht]
    exact .pure ⟨[v], by simp, .cons hv .nil⟩
  | cons second rest ih =>
    intro first turns position before hbodies haliases hturns
    obtain ⟨turns, rfl⟩ : ∃ t, turns = t + 1 := ⟨turns - 1, by omega⟩
    rw [List.length_cons] at hturns
    obtain ⟨handler, boundAs, place, body⟩ := second
    obtain ⟨name, hname, hhandler⟩ := kind_marker handler
    have hsegment := reads_segment (reads_stage position (hbodies first (List.mem_cons_self ..))
      (haliases first (List.mem_cons_self ..)) (.inr (show (TokenKind.pipe name).isPipe = true from rfl)))
      (.inr rfl)
    rw [Expr.lexemesStages, ← List.append_assoc]
    unfold segments
    refine .bind (by rw [headKind_cons, hname]; exact hsegment) ?_
    rintro _ ⟨v, rfl, hv⟩
    refine .current fun t ht => ?_
    have hkind : t.kind = .pipe name := (congrArg Lexeme.kind ht).trans hname
    simp only [hkind, hpipes, Bool.not_true, Bool.false_eq_true, if_false]
    rw [hhandler]
    have hrest := ih ⟨handler, boundAs, place, body⟩ turns t.position (v :: before)
      (fun stage hstage => hbodies stage (List.mem_cons_of_mem _ hstage))
      (fun stage hstage => haliases stage (List.mem_cons_of_mem _ hstage)) (by omega)
    refine .advance (hrest.mono ?_)
    rintro vs ⟨after, rfl, hafter⟩
    exact ⟨v :: after, by simp, .cons hv hafter⟩

theorem length_lexemesStages {stages : List (Stage Expr)} {stage : Stage Expr} (h : stage ∈ stages) :
    (stage.body.lexemes σ).length ≤ (Expr.lexemesStages σ stages).length := by
  induction stages with
  | nil => exact absurd h List.not_mem_nil
  | cons first rest ih =>
    obtain ⟨handler, boundAs, position, body⟩ := first
    rw [Expr.lexemesStages, List.length_cons, List.length_append, List.length_append]
    rcases List.mem_cons.mp h with rfl | h
    · exact Nat.le_succ_of_le (Nat.le_add_right _ _)
    · have hle := ih h
      omega

theorem length_le_lexemesStages (stages : List (Stage Expr)) :
    stages.length ≤ (Expr.lexemesStages σ stages).length := by
  induction stages with
  | nil => exact Nat.le_refl 0
  | cons first rest ih =>
    obtain ⟨handler, boundAs, position, body⟩ := first
    simp only [Expr.lexemesStages, List.length_cons, List.length_append]
    omega

/-- A source that scans to the tokens of printed segments. -/
theorem parse_tokens (hpipes : o.pipes = true) {source : String} {ts : List Token} {final : Position}
    (hscan : (Scanner.ofSource source o.ieee).tokens = (ts, ⟨final, none⟩)) (first : Stage Expr)
    (rest : List (Stage Expr)) (hts : ts.map Token.written =
      first.body.lexemes σ ++ (aliasLexemes first.boundAs ++ Expr.lexemesStages σ rest))
    (hhandler : first.handler = sourceStage) (hdepth : ts.length ≤ o.maxDepth)
    (hbodies : ∀ stage ∈ first :: rest, Printed o (stage.body.lexemes σ) stage.body)
    (haliases : ∀ stage ∈ first :: rest, ∀ name ∈ stage.boundAs, IsAlias name) :
    ∃ start stages, parse source o = .ok (programOf start stages) ∧
      List.Forall₂ SameStage (first :: rest) stages := by
  have hlength := congrArg List.length hts
  simp only [List.length_map, List.length_append] at hlength
  have hinside : ∀ stage ∈ first :: rest, Inside (expression o (ts.length + 1) (ts.length + 1)) 0
      (stage.body.lexemes σ) stage.body := by
    intro stage hstage
    have hle : (stage.body.lexemes σ).length ≤ ts.length := by
      rcases List.mem_cons.mp hstage with rfl | hstage
      · omega
      · have hle := length_lexemesStages (σ := σ) hstage
        omega
    exact ⟨(hbodies stage hstage).begins, fun k =>
      (hbodies stage hstage).whole 0 _ _ k (by omega) (by omega) (by omega)⟩
  have hturns := length_le_lexemesStages (σ := σ) rest
  have hreads := reads_segments hpipes rest first (ts.length + 1)
    (State.mk ts ⟨final, none⟩ #[] 0).current.position [] hinside haliases (by omega)
  obtain ⟨stages, ⟨after, hafter, hstages⟩, hrun⟩ := hreads ts [] ⟨final, none⟩ #[] rfl hts rfl
  obtain rfl : stages = after := hafter
  refine ⟨(State.mk ts ⟨final, none⟩ #[] 0).current.position, stages, ?_, hstages⟩
  have hreader := Reader.ofSource_of_tokens hscan
  have hstart : (State.mk ts ⟨final, none⟩ #[] 0).current.kind.isEof = false := by
    obtain ⟨l, ls, hls, hl⟩ := (hbodies first (List.mem_cons_self ..)).begins
    rw [hls] at hts
    obtain ⟨t, ts, rfl, ht, _⟩ := List.map_eq_cons_iff.mp hts
    rw [← ht] at hl
    exact isEof_of_starts hl
  rw [List.append_nil] at hrun
  unfold parse Reader.program
  simp only [hreader, hstart, Bool.false_eq_true, if_false, Reader.fuel, ← hhandler, hrun,
    Reader.takeErrors]
  rfl

end Segments

end Parse

/-! ## Programs -/

/-- The segments that make up a chain, and not only its expression. -/
theorem programOf_chain (start : Position) {stages : List (Stage Expr)}
    (h : 2 ≤ stages.length ∨ ∃ stage name, stages = [stage] ∧ stage.boundAs = some name) :
    Parse.programOf start stages = .pipe start stages := by
  rcases h with h | ⟨⟨handler, boundAs, position, body⟩, name, rfl, rfl⟩
  · exact programOf_of_length h
  · rfl

section Programs
variable {o : Options} {σ : Spelling} {source : String} {ts : List Token} {final : Position}

theorem parse_plain (hnullish : o.nullish = true) (hchaining : o.chaining = true) (hpipes : o.pipes = true)
    (hscan : (Scanner.ofSource source o.ieee).tokens = (ts, ⟨final, none⟩)) {e : Expr} (h : e.Plain)
    (hts : ts.map Token.written = e.lexemes σ) (hdepth : ts.length ≤ o.maxDepth) :
    ∃ e', parse source o = .ok e' ∧ e'.bare = e.bare := by
  have hrow : ts.map Token.written = e.lexemes σ ++ (aliasLexemes none ++ Expr.lexemesStages σ []) :=
    hts.trans (List.append_nil _).symm
  obtain ⟨start, stages, hparse, hstages⟩ := Parse.parse_tokens hpipes hscan
    ⟨sourceStage, none, .start, e⟩ [] hrow rfl hdepth
    (List.forall_mem_singleton.mpr (Parse.printed σ hnullish hchaining h))
    (List.forall_mem_singleton.mpr fun _ hname => absurd hname (Option.not_mem_none _))
  cases hstages with
  | @cons _ v _ vs hv hvs =>
    cases hvs
    obtain ⟨handler, boundAs, position, body⟩ := v
    obtain ⟨_, hboundAs, hbody⟩ := hv
    obtain rfl : boundAs = none := hboundAs
    exact ⟨body, hparse, hbody⟩

theorem parse_chain (hnullish : o.nullish = true) (hchaining : o.chaining = true) (hpipes : o.pipes = true)
    (hscan : (Scanner.ofSource source o.ieee).tokens = (ts, ⟨final, none⟩)) {pos : Position}
    {stages : List (Stage Expr)} (h : PlainChain stages)
    (hts : ts.map Token.written = (Expr.pipe pos stages).lexemes σ) (hdepth : ts.length ≤ o.maxDepth) :
    ∃ e', parse source o = .ok e' ∧ e'.bare = (Expr.pipe pos stages).bare := by
  obtain ⟨hlength, hhead, _, haliases, hbodies⟩ := h
  cases stages with
  | nil => rcases hlength with hlength | ⟨_, _, hnil, _⟩ <;> contradiction
  | cons first rest =>
    have hrow : ts.map Token.written =
        first.body.lexemes σ ++ (aliasLexemes first.boundAs ++ Expr.lexemesStages σ rest) := hts
    obtain ⟨start, vs, hparse, hvs⟩ := Parse.parse_tokens hpipes hscan first rest hrow (hhead first rfl) hdepth
      (fun stage hstage => Parse.printed σ hnullish hchaining (hbodies stage hstage)) haliases
    have hchain : 2 ≤ vs.length ∨ ∃ stage name, vs = [stage] ∧ stage.boundAs = some name := by
      rcases hlength with hlength | ⟨stage, name, hstage, hname⟩
      · exact .inl (hvs.length_eq ▸ hlength)
      · rw [hstage] at hvs
        cases hvs with
        | @cons _ v _ vs hv hvs =>
          cases hvs
          exact .inr ⟨v, name, rfl, hv.boundAs.trans hname⟩
    refine ⟨.pipe start vs, by rw [hparse, programOf_chain start hchain], ?_⟩
    exact congrArg (Expr.pipe .start) (Parse.SameStage.stages hvs)

end Programs

/-- **The reader inverts printing.**  With all features switched on, and room for as many levels as there
are tokens, the text of a tree is read as this tree, up to the places of its nodes and the styles of its
literals. -/
theorem parse_printed (σ : Spelling) {o : Options} (hnullish : o.nullish = true)
    (hchaining : o.chaining = true) (hpipes : o.pipes = true) (hieee : o.ieee = true) {e : Expr}
    (h : e.Printable) (hdepth : (e.lexemes σ).length ≤ o.maxDepth) :
    ∃ e', parse (e.print σ) o = .ok e' ∧ e'.bare = e.bare := by
  obtain ⟨ts, final, hscan, hts⟩ := h.tokens σ
  rw [← hieee] at hscan
  have hlength : ts.length ≤ o.maxDepth := by
    rw [← List.length_map Token.written, hts]
    exact hdepth
  cases e with
  | pipe pos stages => exact parse_chain hnullish hchaining hpipes hscan h hts hlength
  | _ => exact parse_plain hnullish hchaining hpipes hscan h hts hlength

/-- A chain of two segments, with a sum under a product. -/
def tripled : Expr :=
  .pipe .start
    [⟨sourceStage, none, .start, .reference .start "items" false⟩,
     ⟨"map", none, .start, .binary .start .multiply (.reference .start "$item" false)
        (.binary .start .add (.number .start 1) (.number .start 2))⟩]

theorem tripled_printable : tripled.Printable := by
  have hone : Double.Unsigned 1 := ⟨⟨false, 2 ^ 52, -52⟩, by decide +kernel, rfl⟩
  have htwo : Double.Unsigned 2 := ⟨⟨false, 2 ^ 52, -51⟩, by decide +kernel, rfl⟩
  have hitems : IsName "items" := ⟨isWord_of_chars rfl rfl, by decide, by decide⟩
  have hitem : IsName "$item" := ⟨isWord_of_chars rfl rfl, by decide, by decide⟩
  refine ⟨.inl (Nat.le_refl 2), fun _ h => Option.some.inj h ▸ rfl, ?_, by simp, ?_⟩
  · exact List.forall_mem_singleton.mpr ⟨by decide, List.all_eq_true.mp rfl⟩
  · simp only [List.forall_mem_cons]
    exact ⟨.reference _ _ hitems, .binary _ _ (.reference _ _ hitem)
      (.binary _ _ (.number _ hone) (.number _ htwo)), fun _ h => absurd h List.not_mem_nil⟩

theorem parse_printed_tripled : tripled.print .exact = "items |map: $item * ( 1 + 2 )" ∧
    ∃ e', parse (tripled.print .exact) {} = .ok e' ∧ e'.bare = tripled.bare :=
  ⟨by decide +kernel, parse_printed .exact rfl rfl rfl rfl tripled_printable (by decide +kernel)⟩

end PipeExpr
