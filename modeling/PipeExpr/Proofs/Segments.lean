import Mathlib.Data.List.Forall2
import PipeExpr.Proofs.Readers

/-!
# Segments of a source

A source that scans without an error is read segment by segment, and what is found in one segment does
not depend on the other ones (`parse_segments`).  A segment ends with a pipe marker or with the source
(`Segments.cut`); read alone, with nothing behind that end, it gives the same stage and the same errors
as it does in its place (`Segment.read`).

No reader gets past a marker (`Parse.expression_alike`), and wherever it gives up inside of a segment, the
rest of the segment is dropped (`Parse.segment_acts`).  What is left is an induction on the segments
(`Parse.segments_eq`).
-/

namespace PipeExpr

namespace Parse

/-! ## Stages -/

section Stages
variable {stop : Token} (hstop : ¬ Inner stop) {r : List Token}
include hstop

theorem aliasName_alike : Alike stop r (fun _ _ => True) aliasName aliasName := by
  refine .currentKind ?_
  cases hk : (front stop r).kind with
  | identifier name =>
    obtain ⟨t, rest, rfl⟩ := front_cons hstop hk rfl rfl
    dsimp only
    split
    · exact .read (.pure _ trivial)
    · exact .fail _
  | _ => exact .unexpected _

theorem optionalAlias_alike : Alike stop r (fun _ _ => True) optionalAlias optionalAlias := by
  refine .looksAt ?_
  by_cases has : (front stop r).kind.isSymbol .as = true
  · obtain ⟨t, rest, rfl⟩ := front_symbol hstop has
    rw [if_pos has]
    refine .read (.bind (aliasName_alike hstop) fun name r' _ _ => .looksAt ?_)
    split
    · exact .fail _
    · exact .pure _ trivial
  · rw [if_neg has]
    exact .pure _ trivial

theorem stage_alike {expr expr' : Parse Expr} (hexpr : Alike stop r (Advances r) expr expr')
    (handler : String) (position : Position) :
    Alike stop r (fun read _ => read.handler = handler ∧ read.position = position)
      (stage expr handler position) (stage expr' handler position) := by
  have hbody : Alike stop r (fun read _ => read.handler = handler ∧ read.position = position)
      (do let body ← expr; let boundAs ← optionalAlias; return Stage.mk handler boundAs position body)
      (do let body ← expr'; let boundAs ← optionalAlias; return Stage.mk handler boundAs position body) :=
    .bind hexpr fun body r₁ _ _ => .bind (optionalAlias_alike hstop) fun boundAs r₂ _ _ =>
      .pure _ ⟨rfl, rfl⟩
  have hfail : ∀ f : Fault, Alike stop r (fun _ _ => False) (failAt position f : Parse PUnit)
      (failAt position f) := fun f => .failAt position f
  unfold stage
  by_cases hhead : handler ≠ sourceStage
  · rw [if_pos hhead, if_pos hhead]
    refine .currentKind ?_
    split
    · exact .bind (hfail _) fun _ _ _ h => h.elim
    · exact .bind (hfail _) fun _ _ _ h => h.elim
    · exact .bind (hfail _) fun _ _ _ h => h.elim
    · exact hbody
  · rw [if_neg hhead, if_neg hhead]
    exact hbody

omit hstop in
/-- What is left of a segment is dropped. -/
theorem Ends.skipToPipe {tail : List Token} {ending : Scanner.Ending} (h : Ends stop tail ending)
    (hr : ∀ t ∈ r, Inner t) (errors : Array Diagnostic) (depth : Nat) :
    (State.mk (r ++ tail) ending errors depth).skipToPipe = ⟨tail, ending, errors, depth⟩ := by
  have hskip : (r ++ tail).dropWhile (fun t => !t.kind.isPipe) = tail := by
    rw [List.dropWhile_append_of_pos fun t ht => by simp [(hr t ht).1]]
    cases h with
    | marker h => simp [h]
    | source => rfl
  have hnote := h.noteEnding [] errors depth
  rw [List.nil_append] at hnote
  unfold State.skipToPipe
  simp only [hskip]
  split
  · rename_i hempty
    obtain ⟨rfl, rfl⟩ := List.append_eq_nil_iff.mp (List.isEmpty_iff.mp hempty)
    rfl
  · exact hnote

omit hstop in
/-- A reader of segments that gives what a stage gives, and goes to the end of the segment. -/
theorem segment_of_stage {expr : Parse Expr} {r' : List Token} {d : Nat} {errors : List Diagnostic}
    {handler : String} {position : Position} (hr' : ∀ t ∈ r', Inner t) :
    (∀ read, Acts stop (stage expr handler position) r d (.ok read) r' errors →
      Acts stop (segment expr handler position) r d (.ok (some read)) [] (errors ++
        if r' = [] then [] else
          [(Fault.unexpected (front stop r') "end of input or a pipe").report (front stop r').position])) ∧
    ∀ diagnostic, Acts stop (stage expr handler position) r d (.error (.fault diagnostic)) r' errors →
      Acts stop (segment expr handler position) r d (.ok none) [] (errors ++ [diagnostic]) := by
  constructor
  · intro read hstage before tail ending hends
    unfold segment
    simp only [hstage before tail ending hends, hends.current]
    cases r' with
    | nil =>
      have houter : ((front stop []).kind.isEof || (front stop []).kind.isPipe) = true := by
        cases hends with
        | marker h => simp [front, h]
        | source _ _ h => simp [front, h, Token.eof, TokenKind.isEof]
      rw [if_pos houter]
      simp
    | cons t r' =>
      have hinner : ¬ ((front stop (t :: r')).kind.isEof || (front stop (t :: r')).kind.isPipe) = true := by
        obtain ⟨hpipe, heof⟩ := hr' t (List.mem_cons_self ..)
        simp [front, hpipe, heof]
      rw [if_neg hinner, if_neg (List.cons_ne_nil t r'), hends.record, hends.skipToPipe hr']
      simp
  · intro diagnostic hstage before tail ending hends
    unfold segment
    simp only [hstage before tail ending hends, hends.record, hends.skipToPipe hr']
    simp

/-- **A segment is read to its end**, with the stage or the errors that it gives in any surroundings.  If
there is no stage, there is an error. -/
theorem segment_acts {expr expr' : Parse Expr} (hexpr : Alike stop r (Advances r) expr expr')
    (hr : ∀ t ∈ r, Inner t) (handler : String) (position : Position) (d : Nat) :
    ∃ read errors, Acts stop (segment expr handler position) r d (.ok read) [] errors ∧
      Acts stop (segment expr' handler position) r d (.ok read) [] errors ∧
      (read = none → errors ≠ []) ∧
      ∀ stage ∈ read, stage.handler = handler ∧ stage.position = position := by
  obtain ⟨result, r', errors, hsuffix, hfair, hp, hq⟩ := stage_alike hstop hexpr handler position d
  have hr' : ∀ t ∈ r', Inner t := fun t ht => hr t (hsuffix.subset ht)
  cases result with
  | error failure =>
    cases failure with
    | exhausted => exact absurd hfair id
    | fault diagnostic =>
      refine ⟨none, _, (segment_of_stage hr').2 diagnostic hp, (segment_of_stage hr').2 diagnostic hq,
        fun _ => by simp, fun _ h => nomatch h⟩
  | ok read =>
    refine ⟨some read, _, (segment_of_stage hr').1 read hp, (segment_of_stage hr').1 read hq, nofun, ?_⟩
    rintro _ ⟨⟩
    exact hfair

end Stages

/-! ## Segments -/

/-- A segment of a source, between two markers. -/
structure Segment where
  /-- The handler that the marker in front names. -/
  handler : String
  /-- The place of this marker, or of the first token for the head of a chain. -/
  position : Position
  tokens : List Token
  /-- The marker behind it, or the end of the source. -/
  stop : Token

/-- The segments of a row of tokens behind the marker of a handler; `final` is the end of the source. -/
def cut (final : Token) (handler : String) (position : Position) : List Token → List Segment
  | [] => [⟨handler, position, [], final⟩]
  | t :: rest =>
    match t.kind with
    | .pipe name => ⟨handler, position, [], t⟩ :: cut final (name.getD defaultPipe) t.position rest
    | _ => (cut final handler position rest).modifyHead fun s => { s with tokens := t :: s.tokens }

namespace Segment

/-- The tokens of a segment with the marker behind it, if there is one. -/
def source (s : Segment) : List Token :=
  if s.stop.kind.isPipe then s.tokens ++ [s.stop] else s.tokens

/-- What a segment gives if it is read alone: a stage if there is one, and all errors. -/
def read (o : Options) (s : Segment) : Option (Stage Expr) × List Diagnostic :=
  let bound := s.source.length + 1
  match segment (expression o bound bound) s.handler s.position
      (.ofTokens s.source ⟨s.stop.position, none⟩) with
  | (.ok read, state) => (read, state.errors.toList)
  | (.error _, state) => (none, state.errors.toList)

/-- The error that a marker is, if there are to be none. -/
def markerErrors (o : Options) (s : Segment) : List Diagnostic :=
  if s.stop.kind.isPipe && !o.pipes then
    [(Fault.featureDisabled .pipes s.stop.lexeme).report s.stop.position]
  else []

/-- The errors of a segment, and of the marker behind it. -/
def errors (o : Options) (s : Segment) : List Diagnostic := (s.read o).2 ++ s.markerErrors o

end Segment

section Cut
variable {final : Token} {handler : String} {position : Position}

theorem cut_ne_nil (final : Token) (handler : String) (position : Position) (tokens : List Token) :
    cut final handler position tokens ≠ [] := by
  induction tokens generalizing handler position with
  | nil => exact List.cons_ne_nil _ _
  | cons t rest ih =>
    rw [cut]
    split
    · exact List.cons_ne_nil _ _
    · obtain ⟨s, ss, hcut⟩ := List.exists_cons_of_ne_nil (ih handler position)
      rw [hcut]
      exact List.cons_ne_nil _ _

theorem exists_pipe {k : TokenKind} (h : k.isPipe = true) : ∃ name, k = .pipe name := by
  cases k with
  | pipe name => exact ⟨name, rfl⟩
  | _ => cases h

/-- A row of tokens is a single segment, or a segment with a marker and other segments behind it. -/
theorem cut_cases (final : Token) (handler : String) (position : Position) {tokens : List Token}
    (htokens : ∀ t ∈ tokens, t.kind.isEof = false) : ∃ r : List Token, (∀ t ∈ r, Inner t) ∧
      ((tokens = r ∧ cut final handler position tokens = [⟨handler, position, r, final⟩]) ∨
        ∃ marker name rest, marker.kind = .pipe name ∧ tokens = r ++ marker :: rest ∧
          cut final handler position tokens = ⟨handler, position, r, marker⟩ ::
            cut final (name.getD defaultPipe) marker.position rest) := by
  induction tokens with
  | nil => exact ⟨[], (fun _ h => nomatch h), .inl ⟨rfl, rfl⟩⟩
  | cons t rest ih =>
    obtain ⟨heof, hrest⟩ := List.forall_mem_cons.mp htokens
    cases hpipe : t.kind.isPipe with
    | true =>
      obtain ⟨name, hname⟩ := exists_pipe hpipe
      refine ⟨[], (fun _ h => nomatch h), .inr ⟨t, name, rest, hname, rfl, ?_⟩⟩
      simp only [cut, hname]
    | false =>
      have hcut : cut final handler position (t :: rest) =
          (cut final handler position rest).modifyHead fun s => { s with tokens := t :: s.tokens } := by
        rw [cut]
        split
        · rename_i hname
          rw [hname] at hpipe
          cases hpipe
        · rfl
      obtain ⟨r, hr, hcases⟩ := ih hrest
      refine ⟨t :: r, List.forall_mem_cons.mpr ⟨⟨hpipe, heof⟩, hr⟩, ?_⟩
      rw [hcut]
      rcases hcases with ⟨rfl, hone⟩ | ⟨marker, name, rest', hname, rfl, hmore⟩
      · exact .inl ⟨rfl, by rw [hone]; rfl⟩
      · exact .inr ⟨marker, name, rest', hname, rfl, by rw [hmore]; rfl⟩

end Cut

/-- What every segment of a source looks like. -/
structure Segment.WellFormed (s : Segment) : Prop where
  tokens : ∀ t ∈ s.tokens, Inner t
  stop : s.stop.kind.isPipe = true ∨ ∃ p, s.stop = .eof p

/-- The segments of a source are well formed, and only the last one ends with the source. -/
theorem cut_wellFormed (final : Position) (handler : String) (position : Position)
    {tokens : List Token} (htokens : ∀ t ∈ tokens, t.kind.isEof = false) :
    (∀ s ∈ cut (.eof final) handler position tokens, s.WellFormed) ∧
      ((∀ s ∈ cut (.eof final) handler position tokens, s.stop.kind.isPipe = false) ↔
        (cut (.eof final) handler position tokens).length = 1) := by
  induction hn : tokens.length using Nat.strongRecOn generalizing handler position tokens with
  | ind n ih =>
    obtain ⟨r, hr, ⟨rfl, hcut⟩ | ⟨marker, name, rest, hname, rfl, hcut⟩⟩ :=
      cut_cases (.eof final) handler position htokens
    · rw [hcut]
      refine ⟨List.forall_mem_singleton.mpr ⟨hr, .inr ⟨final, rfl⟩⟩, ?_⟩
      simp [Token.eof, TokenKind.isPipe]
    · have hpipe : marker.kind.isPipe = true := by
        rw [hname]
        rfl
      have hrest : rest.length < n := by
        rw [List.length_append, List.length_cons] at hn
        omega
      obtain ⟨hformed, _⟩ := ih rest.length hrest (name.getD defaultPipe) marker.position
        (fun t ht => htokens t (by simp [ht])) rfl
      have hne : cut (.eof final) (name.getD defaultPipe) marker.position rest ≠ [] :=
        cut_ne_nil _ _ _ _
      rw [hcut]
      refine ⟨List.forall_mem_cons.mpr ⟨⟨hr, .inl hpipe⟩, hformed⟩, ?_⟩
      simp [hpipe, hne]

/-- A segment gives what it gives alone, in any surroundings. -/
theorem Segment.acts (o : Options) {s : Segment} {bound : Nat} (hs : ∀ t ∈ s.tokens, Inner t)
    (hstop : s.stop.kind.isPipe = true ∨ ∃ p, s.stop = .eof p) (hbound : s.tokens.length < bound) :
    Acts s.stop (segment (expression o bound bound) s.handler s.position) s.tokens 0
        (.ok (s.read o).1) [] (s.read o).2 ∧
      ((s.read o).1 = none → (s.read o).2 ≠ []) ∧
      ∀ stage ∈ (s.read o).1, stage.handler = s.handler ∧ stage.position = s.position := by
  -- the state of the segment alone
  obtain ⟨tail, hsource, hends⟩ : ∃ tail, s.source = s.tokens ++ tail ∧
      Ends s.stop tail ⟨s.stop.position, none⟩ := by
    unfold Segment.source
    rcases hstop with hpipe | ⟨p, hp⟩
    · exact ⟨[s.stop], if_pos hpipe, .marker hpipe [] _⟩
    · refine ⟨[], ?_, .source _ rfl (by rw [hp]; rfl)⟩
      rw [hp, List.append_nil]
      rfl
  have hlength : s.tokens.length < s.source.length + 1 := by
    rw [hsource, List.length_append]
    omega
  have hexpr := expression_alike hends.stop_outer o bound (s.source.length + 1) s.tokens hbound hlength
    hbound hlength
  obtain ⟨read, errors, hplace, halone, hnone, hstage⟩ :=
    segment_acts hends.stop_outer hexpr hs s.handler s.position 0
  have hread : s.read o = (read, errors) := by
    have hrun := halone #[] tail _ hends
    have hstart : State.ofTokens s.source ⟨s.stop.position, none⟩ =
        ⟨s.tokens ++ tail, ⟨s.stop.position, none⟩, #[], 0⟩ := by
      rw [State.ofTokens, hsource]
      exact hends.noteEnding s.tokens #[] 0
    unfold Segment.read
    simp only [hstart, hrun]
    simp
  rw [hread]
  exact ⟨hplace, hnone, hstage⟩

/-- A marker is passed over, and is an error if there are to be none. -/
theorem pass_marker {α : Type} (o : Options) {s : Segment} (hpipe : s.stop.kind.isPipe = true)
    {ending : Scanner.Ending} (hending : ending.fault = none) (rest : List Token)
    (before : Array Diagnostic) (k : Parse α) :
    (if (!o.pipes) = true then do
        recordAt s.stop.position (.featureDisabled .pipes s.stop.lexeme)
        advance
        k
      else do
        advance
        k) ⟨s.stop :: rest, ending, before, 0⟩ =
      k ⟨rest, ending, before ++ (s.markerErrors o).toArray, 0⟩ := by
  have hadvance : ∀ before : Array Diagnostic, advance ⟨s.stop :: rest, ending, before, 0⟩ =
      (.ok (), ⟨rest, ending, before, 0⟩) :=
    fun before => congrArg (Prod.mk (Except.ok ()))
      (State.moveTo_of_scanned (s := ⟨s.stop :: rest, ending, before, 0⟩) hending rest)
  have hrecord : recordAt s.stop.position (.featureDisabled .pipes s.stop.lexeme)
      ⟨s.stop :: rest, ending, before, 0⟩ = (.ok (), ⟨s.stop :: rest, ending, before.push
        ((Fault.featureDisabled .pipes s.stop.lexeme).report s.stop.position), 0⟩) := rfl
  cases hpipes : o.pipes with
  | true =>
    have hnone : s.markerErrors o = [] := by simp [Segment.markerErrors, hpipes]
    rw [hnone, Bool.not_true, if_neg Bool.false_ne_true, run_bind, hadvance]
    simp
  | false =>
    have hone : s.markerErrors o =
        [(Fault.featureDisabled .pipes s.stop.lexeme).report s.stop.position] := by
      simp [Segment.markerErrors, hpipes, hpipe]
    rw [hone, Bool.not_false, if_pos rfl, run_bind, hrecord]
    simp only [run_bind, hadvance]
    simp

/-- **A source is read segment by segment.** -/
theorem segments_eq (o : Options) {ending : Scanner.Ending} (hending : ending.fault = none)
    {bound : Nat} : ∀ (fuel : Nat) (handler : String) (position : Position) (stages : List (Stage Expr))
    (tokens : List Token) (before : Array Diagnostic), (∀ t ∈ tokens, t.kind.isEof = false) →
    tokens.length < fuel → tokens.length < bound →
    segments o (expression o bound bound) fuel handler position stages ⟨tokens, ending, before, 0⟩ =
      (.ok (stages.reverse ++ (cut (.eof ending.position) handler position tokens).filterMap
        fun s => (s.read o).1), ⟨[], ending, before ++ ((cut (.eof ending.position) handler position
          tokens).flatMap (Segment.errors o)).toArray, 0⟩) := by
  intro fuel
  induction fuel with
  | zero => intro _ _ _ tokens _ _ hfuel; omega
  | succ fuel ih =>
    intro handler position stages tokens before htokens hfuel hbound
    obtain ⟨r, hr, hcases⟩ := cut_cases (.eof ending.position) handler position htokens
    rw [segments, run_bind]
    rcases hcases with ⟨rfl, hcut⟩ | ⟨marker, name, rest, hname, rfl, hcut⟩
    -- the last segment
    · have hacts := (Segment.acts o (s := ⟨handler, position, tokens, .eof ending.position⟩) hr
        (.inr ⟨_, rfl⟩) hbound).1
      have hrun := hacts before [] ending (.source ending hending rfl)
      rw [List.append_nil] at hrun
      have herrors : (Segment.mk handler position tokens (.eof ending.position)).errors o =
          ((Segment.mk handler position tokens (.eof ending.position)).read o).2 := List.append_nil _
      simp only [hrun, hcut, List.flatMap_cons, List.flatMap_nil, List.append_nil, herrors,
        List.filterMap_cons, List.filterMap_nil]
      rcases (Segment.mk handler position tokens (.eof ending.position)).read o with ⟨_ | stage, errors⟩
      · rw [List.append_nil]
        rfl
      · rw [← List.reverse_cons]
        rfl
    -- a segment in front of a marker
    · rw [List.length_append, List.length_cons] at hfuel hbound
      have hpipe : marker.kind.isPipe = true := by
        rw [hname]
        rfl
      have hacts := (Segment.acts o (s := ⟨handler, position, r, marker⟩) hr (.inl hpipe)
        (show r.length < bound by omega)).1
      have hrun := hacts before (marker :: rest) ending (.marker hpipe rest ending)
      have hnext := fun stages before => ih (name.getD defaultPipe) marker.position stages rest before
        (fun t ht => htokens t (by simp [ht])) (by omega) (by omega)
      have hmarker : ∀ before : Array Diagnostic, current ⟨[] ++ marker :: rest, ending, before, 0⟩ =
          (.ok marker, ⟨marker :: rest, ending, before, 0⟩) := fun _ => rfl
      have hpass := fun before stages => @pass_marker _ o ⟨handler, position, r, marker⟩ hpipe ending
        hending rest before
        (segments o (expression o bound bound) fuel (name.getD defaultPipe) marker.position stages)
      simp only [hrun, hcut, List.flatMap_cons, List.filterMap_cons, run_bind _ _ (State.mk _ _ _ _),
        hmarker, hname, hpass, hnext, Segment.errors]
      rcases (Segment.mk handler position r marker).read o with ⟨_ | stage, errors⟩ <;> simp

end Parse

/-! ## Sources -/

/-- The end of a source is none of its tokens. -/
theorem Scanner.collect_inner (fuel : Nat) (s : Scanner) (tokens : List Token)
    (h : ∀ t ∈ tokens, t.kind.isEof = false) :
    ∀ t ∈ (collect fuel s tokens).1, t.kind.isEof = false := by
  induction fuel generalizing s tokens with
  | zero => exact fun t ht => h t (List.mem_reverse.mp ht)
  | succ fuel ih =>
    rw [collect]
    split
    · rename_i t s' _
      cases heof : t.kind.isEof with
      | true => exact fun t ht => h t (List.mem_reverse.mp ht)
      | false => exact ih s' (t :: tokens) (List.forall_mem_cons.mpr ⟨heof, h⟩)
    · exact fun t ht => h t (List.mem_reverse.mp ht)

open Parse

section Sources
variable {source : String} {o : Options} {first : Token} {rest : List Token} {final : Position}

/-- The segments of a source that scans to the tokens given, with the end of the source behind them. -/
def segmentsOf (first : Token) (rest : List Token) (final : Position) : List Segment :=
  cut (.eof final) sourceStage first.position (first :: rest)

theorem tokenize_ok {s : Scanner} {tokens : List Token}
    (h : s.tokenize = .ok (tokens ++ [.eof final])) : s.tokens = (tokens, ⟨final, none⟩) := by
  unfold Scanner.tokenize at h
  split at h
  · rename_i tokens' position hscan
    obtain ⟨rfl, hfinal⟩ := List.append_inj' (Except.ok.inj h) rfl
    have hposition : position = final := congrArg Token.position (List.singleton_inj.mp hfinal)
    rw [hscan, hposition]
  · cases h

theorem tokens_inner {s : Scanner} {tokens : List Token} {ending : Scanner.Ending}
    (h : s.tokens = (tokens, ending)) : ∀ t ∈ tokens, t.kind.isEof = false := by
  have hcollect := Scanner.collect_inner (s.rest.length + 1) s [] fun t ht => nomatch ht
  have hrows : (Scanner.collect (s.rest.length + 1) s []).1 = tokens := congrArg Prod.fst h
  rwa [hrows] at hcollect

theorem programOf_of_length {position : Position} {stages : List (Stage Expr)}
    (h : 1 < stages.length) : programOf position stages = .pipe position stages := by
  match stages, h with
  | ⟨_, boundAs, _, _⟩ :: _ :: _, _ => cases boundAs <;> rfl

/-- A source without a lexical error gives the stages of its segments, unless there are errors. -/
theorem parse_eq (h : (Scanner.ofSource source o.ieee).tokenize =
    .ok (first :: rest ++ [.eof final])) :
    parse source o =
      if ((segmentsOf first rest final).flatMap (Segment.errors o)).isEmpty then
        .ok (programOf first.position
          ((segmentsOf first rest final).filterMap fun s => (s.read o).1))
      else .error ((segmentsOf first rest final).flatMap (Segment.errors o)) := by
  have hscan := tokenize_ok h
  have hinner := tokens_inner hscan
  have hreader : Reader.ofSource source o = ⟨o, ⟨first :: rest, ⟨final, none⟩, #[], 0⟩⟩ := by
    unfold Reader.ofSource Reader.ofScanner
    rw [hscan]
    rfl
  have hending : (Scanner.Ending.mk final none).fault = none := rfl
  have hrun := segments_eq o hending ((first :: rest).length + 1) sourceStage first.position []
    (first :: rest) #[] hinner (Nat.lt_succ_self _) (Nat.lt_succ_self _)
  have hfirst : first.kind.isEof = false := hinner first (List.mem_cons_self ..)
  rw [parse, hreader]
  unfold Reader.program
  simp only [State.current, hfirst, Bool.false_eq_true, if_false, Reader.fuel, hrun, Reader.takeErrors]
  simp only [List.reverse_nil, List.nil_append, Array.empty_append, segmentsOf]
  rfl

/-- A segment without errors has a stage. -/
theorem Segment.read_of_errors {s : Segment} (hs : s.WellFormed) (h : (s.read o).2 = []) :
    ∃ stage, s.read o = (some stage, []) := by
  obtain ⟨_, hnone, _⟩ := Segment.acts o hs.tokens hs.stop (Nat.lt_succ_self _)
  rcases hread : s.read o with ⟨_ | stage, errors⟩
  · rw [hread] at hnone h
    exact absurd h (hnone rfl)
  · rw [hread] at h
    exact ⟨stage, congrArg (some stage, ·) h⟩

/-- A source is read without an error if and only if each of its segments is. -/
theorem errors_eq_nil (htokens : ∀ t ∈ first :: rest, t.kind.isEof = false) :
    (segmentsOf first rest final).flatMap (Segment.errors o) = [] ↔
      ((segmentsOf first rest final).length = 1 ∨ o.pipes = true) ∧
        ∀ s ∈ segmentsOf first rest final, ∃ stage, s.read o = (some stage, []) := by
  obtain ⟨hformed, hlength⟩ := cut_wellFormed final sourceStage first.position htokens
  rw [List.flatMap_eq_nil_iff]
  have hmarkers : (∀ s ∈ segmentsOf first rest final, s.markerErrors o = []) ↔
      (segmentsOf first rest final).length = 1 ∨ o.pipes = true := by
    cases hpipes : o.pipes with
    | true => simp [Segment.markerErrors, hpipes]
    | false =>
      unfold segmentsOf
      rw [← hlength]
      simp [Segment.markerErrors, hpipes]
  rw [← hmarkers]
  constructor
  · intro h
    refine ⟨fun s hs => ?_, fun s hs => ?_⟩
    · exact (List.append_eq_nil_iff.mp (h s hs)).2
    · exact Segment.read_of_errors (hformed s hs) (List.append_eq_nil_iff.mp (h s hs)).1
  · rintro ⟨hmarker, hread⟩ s hs
    obtain ⟨stage, hstage⟩ := hread s hs
    rw [Segment.errors, hstage, hmarker s hs]
    rfl

/-- The stages of segments without errors are theirs, with the handlers and places of their markers. -/
theorem stages_of_segments {segments : List Segment} (hformed : ∀ s ∈ segments, s.WellFormed)
    (h : ∀ s ∈ segments, ∃ stage, s.read o = (some stage, [])) :
    List.Forall₂ (fun s stage => s.read o = (some stage, []) ∧ stage.handler = s.handler ∧
      stage.position = s.position) segments (segments.filterMap fun s => (s.read o).1) := by
  induction segments with
  | nil => exact .nil
  | cons s segments ih =>
    obtain ⟨hs, hrest⟩ := List.forall_mem_cons.mp h
    obtain ⟨hformed, hformeds⟩ := List.forall_mem_cons.mp hformed
    obtain ⟨stage, hstage⟩ := hs
    obtain ⟨_, _, hplace⟩ := Segment.acts o hformed.tokens hformed.stop (Nat.lt_succ_self _)
    rw [hstage] at hplace
    rw [List.filterMap_cons, hstage]
    exact .cons ⟨hstage, hplace stage rfl⟩ (ih hformeds hrest)

/-- **A source is read segment by segment.**  It has a tree if and only if there is a single segment or
pipes are allowed, and each segment alone gives a stage and no errors.  The tree then consists of these
stages, in order, each with the handler and the place of the marker in front.  Otherwise the errors are
those of the segments alone, in order, with an error for each marker in its place if pipes are not
allowed. -/
theorem parse_segments (h : (Scanner.ofSource source o.ieee).tokenize =
    .ok (first :: rest ++ [.eof final])) :
    ((∃ e, parse source o = .ok e) ↔
      ((segmentsOf first rest final).length = 1 ∨ o.pipes = true) ∧
        ∀ s ∈ segmentsOf first rest final, ∃ stage, s.read o = (some stage, [])) ∧
    (∀ e, parse source o = .ok e → ∃ stages,
      List.Forall₂ (fun s stage => s.read o = (some stage, []) ∧ stage.handler = s.handler ∧
        stage.position = s.position) (segmentsOf first rest final) stages ∧
      e = programOf first.position stages ∧
      (1 < (segmentsOf first rest final).length → e = .pipe first.position stages)) ∧
    ∀ errors, parse source o = .error errors →
      errors = (segmentsOf first rest final).flatMap (Segment.errors o) := by
  have hinner : ∀ t ∈ first :: rest, t.kind.isEof = false := tokens_inner (tokenize_ok h)
  have hnil := @errors_eq_nil o first rest final hinner
  rw [parse_eq h]
  cases herrors : (segmentsOf first rest final).flatMap (Segment.errors o) with
  | nil =>
    obtain ⟨hpipes, hread⟩ := hnil.mp herrors
    have hformed : ∀ s ∈ segmentsOf first rest final, s.WellFormed :=
      (cut_wellFormed final sourceStage first.position hinner).1
    have hstages := stages_of_segments hformed hread
    refine ⟨⟨fun _ => ⟨hpipes, hread⟩, fun _ => ⟨_, rfl⟩⟩, fun e he => ?_, fun _ he => nomatch he⟩
    obtain rfl := Except.ok.inj he
    refine ⟨_, hstages, rfl, fun hmore => programOf_of_length ?_⟩
    rwa [← hstages.length_eq]
  | cons d errors =>
    refine ⟨⟨fun ⟨_, he⟩ => (nomatch he), fun hok => ?_⟩, fun _ he => (nomatch he), fun _ he => ?_⟩
    · rw [hnil.mpr hok] at herrors
      cases herrors
    · exact (Except.error.inj he).symm

end Sources

/-- A source with two segments, both of which are read to their end without an error. -/
theorem lists_segments : ∃ (first : Token) (rest : List Token) (final : Position),
    (Scanner.ofSource "[] |map: []" true).tokenize = .ok (first :: rest ++ [.eof final]) ∧
    (segmentsOf first rest final).length = 2 ∧ ∃ e, parse "[] |map: []" {} = .ok e := by
  have hscan : (Scanner.ofSource "[] |map: []" (Options.mk true true true true 32).ieee).tokenize =
      .ok (⟨.symbol .leftBracket, "[", ⟨1, 1⟩, false, false⟩ ::
        [⟨.symbol .rightBracket, "]", ⟨1, 2⟩, false, false⟩,
         ⟨.pipe (some "map"), "|map:", ⟨1, 4⟩, false, false⟩,
         ⟨.symbol .leftBracket, "[", ⟨1, 10⟩, false, false⟩,
         ⟨.symbol .rightBracket, "]", ⟨1, 11⟩, false, false⟩] ++ [.eof ⟨1, 12⟩]) := by rfl
  refine ⟨_, _, _, hscan, rfl, (parse_segments hscan).1.mpr ⟨.inr rfl, ?_⟩⟩
  exact List.forall_mem_cons.mpr ⟨⟨_, rfl⟩, List.forall_mem_singleton.mpr ⟨_, rfl⟩⟩

end PipeExpr
