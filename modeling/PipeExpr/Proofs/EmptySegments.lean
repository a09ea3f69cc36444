import PipeExpr.Proofs.Fragments

/-!
# Empty segments

A marker with nothing behind it, or with nothing but an alias, is an error at the place of the marker: the
segment is given up before anything of it is read, and its error is the only one that it has
(`Segment.read_lacks`).  Segments do not depend on each other, so every empty one in a source is reported, in
its place among the errors of the others (`parse_empty_segment`).

The head of a chain has no marker, and an expression has to stand there as anywhere else.  A segment is taken
for the head if its handler has the name of the head.  So a marker that spells this name makes a segment whose
emptiness is not noticed: what is missing is an expression, at the token behind the marker.
-/

namespace PipeExpr

namespace Parse

/-! ## Segments of a source -/

section Cut
variable {final marker : Token} {handler : String} {position : Position} {name : Option String}

/-- What stands in front of a marker is cut as if the source ended there. -/
theorem cut_append (hname : marker.kind = .pipe name) (before after : List Token) :
    cut final handler position (before ++ marker :: after) =
      cut marker handler position before ++ cut final (name.getD defaultPipe) marker.position after := by
  induction before generalizing handler position with
  | nil => simp only [List.nil_append, cut, hname, List.singleton_append]
  | cons t before ih =>
    cases hkind : t.kind with
    | pipe other => simp only [List.cons_append, cut, hkind, ih]
    | _ =>
      obtain ⟨s, rest, hcut⟩ := List.exists_cons_of_ne_nil (cut_ne_nil marker handler position before)
      simp only [List.cons_append, cut, hkind, ih, hcut, List.modifyHead_cons]

/-- The first segment starts with the first token, if there is any. -/
theorem cut_front {tokens : List Token} (htokens : ∀ t ∈ tokens, t.kind.isEof = false) : ∃ s rest,
    cut final handler position tokens = s :: rest ∧ s.handler = handler ∧ s.position = position ∧
      front s.stop s.tokens = front final tokens := by
  obtain ⟨r, hr, ⟨rfl, hcut⟩ | ⟨marker, name, rest, hname, rfl, hcut⟩⟩ :=
    cut_cases final handler position htokens
  · exact ⟨_, [], hcut, rfl, rfl, rfl⟩
  · refine ⟨_, _, hcut, rfl, rfl, ?_⟩
    cases r <;> rfl

end Cut

/-! ## Reading nothing -/

/-- What is wrong with the segment of a handler if a token of this kind stands at its start: that there is no
expression in it. -/
inductive Lacks (handler : String) : TokenKind → Fault → Prop where
  | atEnd : Lacks handler .eof (.emptyPipe handler)
  | atMarker (name : Option String) : Lacks handler (.pipe name) (.emptyPipe handler)
  | atAlias : Lacks handler (.symbol .as) (.emptyPipeWithAlias handler)

theorem Lacks.leads {handler : String} {kind : TokenKind} {f : Fault} (h : Lacks handler kind f) :
    leads 15 kind = false := by
  cases h <;> rfl

/-- The error where an expression should start, if nested expressions are at a depth. -/
def noExpression (o : Options) (depth : Nat) (next : Token) : Diagnostic :=
  if depth < o.maxDepth then (Fault.unexpected next "an expression").report next.position
  else (Fault.maxDepthExceeded o.maxDepth).report next.position

/-- A reader that gives up where it stands. -/
theorem Acts.of_error {α : Type} {p : Parse α} {stop : Token} {r : List Token} {d : Nat} {failure : Failure}
    (h : ∀ s : State, s.current = front stop r → s.depth = d → p s = (.error failure, s)) :
    Acts stop p r d (.error failure) r [] := by
  intro before tail ending hends
  rw [h _ (hends.current r before d) rfl, Array.append_empty]

section Reading
variable {o : Options} {stop : Token} {r : List Token} {handler : String} {f : Fault}

/-- A segment behind a marker is given up at the marker. -/
theorem stage_lacks (h : Lacks handler (front stop r).kind f) (expr : Parse Expr)
    (hhandler : handler ≠ sourceStage) (position : Position) (d : Nat) :
    Acts stop (stage expr handler position) r d (.error (.fault (f.report position))) r [] := by
  refine .of_error fun s hcurrent _ => ?_
  have hkind : currentKind s = (.ok (front stop r).kind, s) := by rw [← hcurrent]; rfl
  unfold stage
  rw [if_pos hhandler, run_bind, hkind]
  generalize (front stop r).kind = kind at h
  cases h <;> rfl

/-- An expression is given up at the token where it should start. -/
theorem expression_lacks (h : Lacks handler (front stop r).kind f) (n d : Nat) :
    Acts stop (expression o (n + 1) (n + 1)) r d (.error (.fault (noExpression o d (front stop r)))) r [] := by
  refine .of_error fun s hcurrent hdepth => ?_
  rw [← hcurrent] at h
  show (if s.depth ≥ o.maxDepth then Parse.fail (.maxDepthExceeded o.maxDepth)
    else deeper (rowReader o n 15) : Parse Expr) s = _
  rw [noExpression, ← hdepth, ← hcurrent]
  by_cases hroom : s.depth < o.maxDepth
  · have hreader := @rowReader_of_not_leads o n { s with depth := s.depth + 1 } 15 (by decide)
      (Nat.le_refl 15) h.leads
    rw [if_pos hroom, if_neg (Nat.not_le.mpr hroom), deeper, hreader]
    rfl
  · rw [if_neg hroom, if_pos (Nat.not_lt.mp hroom)]
    rfl

/-- The head of a chain gives up where its expression does. -/
theorem stage_head {expr : Parse Expr} {position : Position} {d : Nat} {failure : Failure}
    (hexpr : Acts stop expr r d (.error failure) r []) :
    Acts stop (stage expr sourceStage position) r d (.error failure) r [] := by
  intro before tail ending hends
  unfold stage
  rw [if_neg (not_not_intro rfl)]
  simp only [run_bind, hexpr before tail ending hends]

/-- What a reader does in front of the tokens of a segment is all that it does there. -/
theorem Segment.WellFormed.acts_unique {α : Type} {s : Segment} (hs : s.WellFormed) {p : Parse α} {d : Nat}
    {x y : Except Failure α} {r r' : List Token} {ds ds' : List Diagnostic}
    (hx : Acts s.stop p s.tokens d x r ds) (hy : Acts s.stop p s.tokens d y r' ds') : x = y ∧ ds = ds' := by
  obtain ⟨tail, hends⟩ : ∃ tail, Ends s.stop tail ⟨s.stop.position, none⟩ := by
    rcases hs.stop with hpipe | ⟨position, hstop⟩
    · exact ⟨_, .marker hpipe [] _⟩
    · exact ⟨[], .source _ rfl (by rw [hstop]; rfl)⟩
  obtain ⟨hresult, hstate⟩ := Prod.mk.inj ((hx #[] tail _ hends).symm.trans (hy #[] tail _ hends))
  have herrors := congrArg State.errors hstate
  exact ⟨hresult, by simpa using herrors⟩

/-- **An empty segment has one error**, wherever it stands.  It is that of an empty segment, unless the handler
has the name of the head of a chain. -/
theorem Segment.read_lacks {s : Segment} (hs : s.WellFormed)
    (h : Lacks s.handler (front s.stop s.tokens).kind f) :
    s.read o = (none, [if s.handler = sourceStage then noExpression o 0 (front s.stop s.tokens)
      else f.report s.position]) := by
  let bound := s.tokens.length + 1
  have hread := (Segment.acts o hs.tokens hs.stop (Nat.lt_succ_self s.tokens.length)).1
  have hstage : Acts s.stop (stage (expression o bound bound) s.handler s.position) s.tokens 0
      (.error (.fault (if s.handler = sourceStage then noExpression o 0 (front s.stop s.tokens)
        else f.report s.position))) s.tokens [] := by
    by_cases hhead : s.handler = sourceStage
    · rw [if_pos hhead, hhead]
      exact stage_head (expression_lacks h _ 0)
    · rw [if_neg hhead]
      exact stage_lacks h _ hhead s.position 0
  have hsegment := (segment_of_stage hs.tokens).2 _ hstage
  obtain ⟨hnone, herrors⟩ := hs.acts_unique hread hsegment
  exact Prod.ext (Except.ok.inj hnone) herrors

end Reading

end Parse

open Parse

/-- **Every empty segment of a source is reported.**  Let a marker of a source without a lexical error have
nothing behind it but another marker, the end, or an alias.  Then the source is not read.  Its segments are
those in front of the marker, the one that is empty, and those behind it; the empty one gives a single error
if it is read alone, and in the errors of the source it stands in its place among those of the others.  It says
that the segment is empty, at the place of the marker, unless the marker spells the name of the head of a
chain: there the error is that of an expression that is missing, at the token behind the marker. -/
theorem parse_empty_segment {source : String} {o : Options} {first : Token} {rest : List Token} {final : Position}
    (h : (Scanner.ofSource source o.ieee).tokenize = .ok (first :: rest ++ [.eof final]))
    {before after : List Token} {marker : Token} {name : Option String}
    (hsource : first :: rest = before ++ marker :: after) (hmarker : marker.kind = .pipe name) {f : Fault}
    (hempty : Lacks (name.getD defaultPipe) (front (.eof final) after).kind f) :
    ∃ s back d, segmentsOf first rest final = cut marker sourceStage first.position before ++ s :: back ∧
      s.handler = name.getD defaultPipe ∧ s.position = marker.position ∧ s.read o = (none, [d]) ∧
      parse source o = .error ((cut marker sourceStage first.position before).flatMap (Segment.errors o) ++
        (d :: s.markerErrors o ++ back.flatMap (Segment.errors o))) ∧
      d = if name.getD defaultPipe = sourceStage then noExpression o 0 (front (.eof final) after)
        else f.report marker.position := by
  have hinner := tokens_inner (tokenize_ok h)
  rw [hsource] at hinner
  obtain ⟨s, back, hcut, hhandler, hposition, hfront⟩ := @cut_front (.eof final) (name.getD defaultPipe)
    marker.position after fun t ht => hinner t (by simp [ht])
  have hsegments : segmentsOf first rest final =
      cut marker sourceStage first.position before ++ s :: back := by
    rw [segmentsOf, hsource, cut_append hmarker, hcut]
  have hformed : s.WellFormed := by
    have hall := (cut_wellFormed final sourceStage first.position (hsource ▸ hinner)).1
    refine hall s ?_
    rw [← segmentsOf, hsegments]
    simp
  rw [← hhandler, ← hfront] at hempty
  have hread := @Segment.read_lacks o f s hformed hempty
  rw [hhandler, hposition, hfront] at hread
  refine ⟨s, back, _, hsegments, hhandler, hposition, hread, ?_, rfl⟩
  rw [parse_eq h, hsegments, List.flatMap_append, List.flatMap_cons, Segment.errors, hread, if_neg (by simp)]
  rfl

/-- An empty segment with an alias between two other empty ones. -/
theorem parse_three_empty : ∃ first rest final before marker after,
    (Scanner.ofSource "[] |map: |filter: as $x |:" true).tokenize = .ok (first :: rest ++ [.eof final]) ∧
    first :: rest = before ++ marker :: after ∧ marker.kind = .pipe (some "filter") ∧
    Lacks "filter" (front (.eof final) after).kind (.emptyPipeWithAlias "filter") ∧
    ∃ errors, parse "[] |map: |filter: as $x |:" {} = .error errors ∧
      (Fault.emptyPipeWithAlias "filter").report ⟨1, 10⟩ ∈ errors := by
  let before : List Token := [⟨.symbol .leftBracket, "[", ⟨1, 1⟩, false, false⟩,
    ⟨.symbol .rightBracket, "]", ⟨1, 2⟩, false, false⟩, ⟨.pipe (some "map"), "|map:", ⟨1, 4⟩, false, false⟩]
  let marker : Token := ⟨.pipe (some "filter"), "|filter:", ⟨1, 10⟩, false, false⟩
  let after : List Token := [⟨.symbol .as, "as", ⟨1, 19⟩, false, false⟩,
    ⟨.identifier "$x", "$x", ⟨1, 22⟩, false, false⟩, ⟨.pipe none, "|:", ⟨1, 25⟩, false, false⟩]
  have hscan : (Scanner.ofSource "[] |map: |filter: as $x |:" (Options.mk true true true true 32).ieee).tokenize =
      .ok (⟨.symbol .leftBracket, "[", ⟨1, 1⟩, false, false⟩ :: (before.tail ++ marker :: after) ++
        [.eof ⟨1, 27⟩]) := rfl
  have hlacks : Lacks "filter" (front (.eof ⟨1, 27⟩) after).kind (.emptyPipeWithAlias "filter") := .atAlias
  obtain ⟨s, back, d, _, _, _, _, hparse, hd⟩ :=
    @parse_empty_segment _ _ _ _ _ hscan before after marker _ rfl rfl _ hlacks
  refine ⟨_, _, _, before, marker, after, hscan, rfl, rfl, hlacks, _, hparse, ?_⟩
  rw [if_neg (by decide)] at hd
  rw [hd]
  simp [marker]

/-- A marker that spells the name of the head of a chain: its empty segment is not reported as one. -/
theorem parse_empty_source : parse "[] |map:" {} = .error [(Fault.emptyPipe "map").report ⟨1, 4⟩] ∧
    ∃ d, parse "[] |source:" {} = .error [d] ∧ d.code = .unexpectedEof ∧ d.position = ⟨1, 12⟩ :=
  ⟨rfl, _, rfl, rfl, rfl⟩

end PipeExpr
