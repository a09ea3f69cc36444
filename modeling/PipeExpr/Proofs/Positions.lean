import PipeExpr.Proofs.Balance
import PipeExpr.Proofs.CompileFailures
import PipeExpr.Proofs.EmptySegments
import PipeExpr.Proofs.ErrorPlaces
import PipeExpr.Proofs.Traces

/-!
# Positions in trees and in errors

The tokens of a source stand in increasing places (`tokens_increase`), and the segments of a chain cut the row of
tokens into stretches (`Parse.cut_source`).  So what is known of the places in what a row of tokens leaves holds of
the tree of a source (`parse_placed`).  A source without a tree has errors, and these have their places from its
tokens or from its end, so they are in the source (`parse_located`).
-/

namespace PipeExpr

/-! ## Tokens in order -/

theorem Position.Before.trans {p q r : Position} (h : p.Before q) (h' : q.Before r) : p.Before r := by
  unfold Before at *
  omega

theorem Position.before_step (p : Position) (c : Char) : p.Before (p.step c) := by
  unfold Before step
  split
  · exact .inl (Nat.lt_succ_self _)
  · exact .inr ⟨rfl, Nat.lt_succ_self _⟩

/-- What is further back in a text stands at a later place. -/
theorem Position.behind_before (cs : List Char) {more : List Char} (h : more ≠ []) :
    (behind cs).Before (behind (cs ++ more)) := by
  induction more generalizing cs with
  | nil => exact absurd rfl h
  | cons c more ih =>
    have hstep : (behind cs).Before (behind (cs ++ [c])) := by
      rw [behind_concat]
      exact before_step _ c
    rcases eq_or_ne more [] with rfl | hmore
    · exact hstep
    · rw [List.append_cons]
      exact hstep.trans (ih (cs ++ [c]) hmore)

/-- The pieces of a run stand in increasing places, each of them behind a part of the text. -/
theorem Scanner.Run.increase {before : List Char} {s : Scanner} {ps : List Piece} {last : Except Diagnostic Token}
    (h : Run before s ps last) :
    (∀ p ∈ ps, ∃ mid, mid <+: s.rest ∧ p.token.position = Position.behind (before ++ mid)) ∧
      ps.Pairwise fun p q => p.token.position.Before q.token.position := by
  induction h with
  | stop => exact ⟨fun _ h => absurd h List.not_mem_nil, .nil⟩
  | @piece before s s' p ps last _ stands split _ ih =>
    obtain ⟨hplaces, hpairwise⟩ := ih
    have hlater : ∀ q ∈ ps, ∃ mid, mid <+: s'.rest ∧ q.token.position = Position.behind (before ++ (p.text ++ mid)) :=
      fun q hq => by
        obtain ⟨mid, hmid, hplace⟩ := hplaces q hq
        exact ⟨mid, hmid, by rw [hplace, List.append_assoc]⟩
    refine ⟨List.forall_mem_cons.mpr ⟨⟨p.gap, ?_, stands.place⟩, fun q hq => ?_⟩,
      List.pairwise_cons.mpr ⟨fun q hq => ?_, hpairwise⟩⟩
    · rw [split, Piece.text, List.append_assoc]
      exact List.prefix_append _ _
    · obtain ⟨mid, hmid, hplace⟩ := hlater q hq
      exact ⟨p.text ++ mid, split ▸ (List.prefix_append_right_inj _).mpr hmid, hplace⟩
    · obtain ⟨mid, _, hplace⟩ := hlater q hq
      rw [stands.place, hplace, Piece.text, List.append_assoc, ← List.append_assoc]
      refine Position.behind_before _ (List.append_ne_nil_of_left_ne_nil (fun hnil => stands.visible ?_) _)
      exact String.toList_eq_nil_iff.mp hnil

/-- **The tokens of a source stand in increasing places.** -/
theorem tokens_increase (source : String) (ieee : Bool) :
    (Scanner.ofSource source ieee).tokens.1.Pairwise fun t u => t.position.Before u.position := by
  obtain ⟨ps, last, hrun⟩ := Scanner.run_ofSource source ieee
  rw [hrun.tokens, List.pairwise_map]
  exact hrun.increase.2

namespace Parse

/-! ## Segments in order -/

/-- The stretches of the segments are the row of tokens. -/
theorem cut_source (final : Position) (handler : String) (position : Position) (tokens : List Token) :
    (cut (.eof final) handler position tokens).flatMap Segment.source = tokens := by
  induction tokens generalizing handler position with
  | nil => rfl
  | cons t rest ih =>
    cases hkind : t.kind with
    | pipe name =>
      simp only [cut, hkind, List.flatMap_cons, ih, Segment.source, TokenKind.isPipe, if_true, List.nil_append,
        List.singleton_append]
    | _ =>
      obtain ⟨s, others, hcut⟩ := List.exists_cons_of_ne_nil (cut_ne_nil (.eof final) handler position rest)
      have hrest := ih handler position
      rw [hcut, List.flatMap_cons] at hrest
      have hsource : Segment.source { s with tokens := t :: s.tokens } = t :: s.source := by
        unfold Segment.source
        dsimp only
        split <;> rfl
      simp only [cut, hkind, hcut, List.modifyHead_cons, List.flatMap_cons, hsource, List.cons_append, hrest]

/-- The first segment has the place that the row is cut for, and the others those of their markers. -/
theorem cut_position (final : Token) (handler : String) (position : Position) (tokens : List Token) :
    (cut final handler position tokens).map Segment.position =
      position :: (tokens.filter fun t => t.kind.isPipe).map Token.position := by
  induction tokens generalizing handler position with
  | nil => rfl
  | cons t rest ih =>
    cases hkind : t.kind with
    | pipe name =>
      simp only [cut, hkind, List.map_cons, ih, List.filter_cons, TokenKind.isPipe, if_true]
    | _ =>
      obtain ⟨s, others, hcut⟩ := List.exists_cons_of_ne_nil (cut_ne_nil final handler position rest)
      have hrest := ih handler position
      rw [hcut, List.map_cons] at hrest
      simp only [cut, hkind, hcut, List.modifyHead_cons, List.map_cons, hrest, List.filter_cons,
        TokenKind.isPipe, Bool.false_eq_true, if_false]

/-- What is read of a segment is what its stretch leaves. -/
theorem Segment.read_leaves {o : Options} {s : Segment} {read : Stage Expr} (h : s.read o = (some read, [])) :
    read.position = s.position ∧ Leaves s.source [read.body] := by
  obtain ⟨s', hrun, _⟩ := Segment.read_iff.mp h
  obtain ⟨taken, hrest, hposition, hbody⟩ := stage_yields (expression_yields o _ _) s.handler s.position s.start
    read s' hrun
  rw [s.start_rest] at hrest
  refine ⟨hposition, ?_⟩
  rw [hrest]
  exact Leaves.front hbody _

/-- The stages of segments stand where these do, and their bodies are what the stretches leave. -/
theorem stages_leave {o : Options} {segments : List Segment} {stages : List (Stage Expr)}
    (h : List.Forall₂ (fun s stage => s.read o = (some stage, [])) segments stages) :
    stages.map Stage.position = segments.map Segment.position ∧
      Leaves (segments.flatMap Segment.source) (stages.map Stage.body) := by
  induction h with
  | nil => exact ⟨rfl, .done _⟩
  | cons hread _ ih =>
    obtain ⟨hposition, hbody⟩ := Segment.read_leaves hread
    obtain ⟨hpositions, hbodies⟩ := ih
    exact ⟨by rw [List.map_cons, List.map_cons, hposition, hpositions], hbody.append hbodies⟩

end Parse

/-! ## Trees -/

/-- **The stages of a chain in their places**: that of the head is the first token, and those of the others are
the markers. -/
def Expr.Marked (ts : List Token) : Expr → Prop
  | .pipe _ stages =>
    (∃ first rest, ts = first :: rest ∧ stages.map Stage.position =
      first.position :: (rest.filter fun t => t.kind.isPipe).map Token.position) ∧
    stages.Pairwise fun a b => a.position.Before b.position
  | _ => True

section Trees
open Parse
variable {source : String} {o : Options} {e : Expr}

/-- The head of a chain that is read does not start with a marker. -/
theorem head_of_read {first : Token} {rest : List Token} {final : Position} {stages : List (Stage Expr)}
    (hinner : ∀ t ∈ first :: rest, t.kind.isEof = false)
    (h : List.Forall₂ (fun s stage => s.read o = (some stage, [])) (segmentsOf first rest final) stages) :
    first.kind.isPipe = false := by
  by_contra hpipe
  obtain ⟨name, hname⟩ := exists_pipe (Bool.eq_true_of_not_eq_false hpipe)
  have hformed := (cut_wellFormed final sourceStage first.position hinner).1
  have hcut : segmentsOf first rest final = ⟨sourceStage, first.position, [], first⟩ ::
      cut (.eof final) (name.getD defaultPipe) first.position rest := by
    rw [segmentsOf, cut, hname]
  rw [segmentsOf] at hcut
  rw [segmentsOf, hcut] at h
  obtain ⟨stage, _, hread, -, -⟩ := List.forall₂_cons_left_iff.mp h
  have hlacks : Lacks sourceStage (front first []).kind (.emptyPipe sourceStage) := by
    rw [show (front first []).kind = .pipe name from hname]
    exact .atMarker name
  rw [Segment.read_lacks (hformed _ (hcut ▸ List.mem_cons_self ..)) hlacks] at hread
  cases hread

/-- **The tree of a source is in its place**, and the stages of a chain stand at the first token and at the
markers. -/
theorem parse_placed (h : parse source o = .ok e) :
    e.All fun x => x.InPlace (Scanner.ofSource source o.ieee).tokens.1 ∧
      x.Marked (Scanner.ofSource source o.ieee).tokens.1 := by
  obtain ⟨first, rest, final, stages, htokens, _, hread, rfl⟩ := parse_eq_ok.mp h
  have hscan := tokenize_ok htokens
  have hrow : (Scanner.ofSource source o.ieee).tokens.1 = first :: rest := by rw [hscan]
  have hincrease := tokens_increase source o.ieee
  rw [hrow] at hincrease ⊢
  obtain ⟨hpositions, hleaves⟩ := stages_leave hread
  rw [segmentsOf, cut_source] at hleaves
  obtain ⟨hall, hsiblings⟩ := hleaves.placed hincrease
  have hplaces : stages.map Stage.position =
      first.position :: (rest.filter fun t => t.kind.isPipe).map Token.position := by
    rw [hpositions, segmentsOf, cut_position, List.filter_cons, head_of_read (tokens_inner hscan) hread]
    rfl
  have hmarkers : stages.Pairwise fun a b => a.position.Before b.position := by
    rw [← List.pairwise_map, hplaces, ← List.map_cons, List.pairwise_map]
    exact hincrease.sublist (List.filter_sublist.cons_cons first)
  obtain ⟨hsound, _⟩ := stages_widen (Nat.le_refl _) htokens hread
  intro x hx
  rcases nodeOf_programOf hx with rfl | ⟨stage, hstage, hx⟩
  · exact ⟨⟨⟨first, List.mem_cons_self .., rfl⟩, trivial, hsiblings⟩, ⟨first, rest, rfl, hplaces⟩, hmarkers⟩
  · refine ⟨hall _ (List.mem_map_of_mem hstage) x hx, ?_⟩
    -- there are no pipes below the root
    have hformed := (hsound stage hstage).body.formed x hx
    cases x <;> first | exact trivial | exact hformed.elim

end Trees

/-! ## Errors -/

/-- **A place in a source**: that of one of its characters, or of its end. -/
def Position.Within (source : String) (p : Position) : Prop :=
  ∃ before, before <+: source.toList ∧ p = behind before

/-- A scan of a source stops within it, and so does its error. -/
theorem Scanner.Run.ending_within {source : String} {ieee : Bool} {ps : List Piece}
    {last : Except Diagnostic Token} (h : Run [] (ofSource source ieee) ps last) :
    (endingOf last).position.Within source ∧ ∀ d ∈ (endingOf last).fault, d.position.Within source := by
  obtain ⟨rest, hrest, hstops⟩ := h.stops
  have hsource : source.toList = Piece.row ps ++ rest := hrest
  cases hstops with
  | eof => exact ⟨⟨_, List.prefix_refl _, congrArg Position.behind hsource.symm⟩, nofun⟩
  | @error d read unread split place _ =>
    have hwithin : d.position.Within source := by
      refine ⟨Piece.row ps ++ read, ?_, place⟩
      rw [hsource, split, ← List.append_assoc]
      exact List.prefix_append _ _
    exact ⟨hwithin, fun d' hd' => Option.some.inj hd' ▸ hwithin⟩

/-- **A source without a tree has errors, and they are in the source.** -/
theorem parse_located {source : String} {o : Options} {errors : Diagnostics}
    (h : parse source o = .error errors) : errors ≠ [] ∧ ∀ d ∈ errors, d.position.Within source := by
  obtain ⟨ps, last, hrun⟩ := Scanner.run_ofSource source o.ieee
  obtain ⟨hending, hfault⟩ := hrun.ending_within
  have htokens : ∀ t ∈ (Scanner.ofSource source o.ieee).tokens.1, t.position.Within source := by
    rw [hrun.tokens]
    refine List.forall_mem_map.mpr fun p hp => ?_
    obtain ⟨mid, hmid, hplace⟩ := hrun.increase.1 p hp
    exact ⟨mid, hmid, hplace⟩
  have hinside : (Reader.ofSource source o).state.Inside (Position.Within source) :=
    Reader.inside_ofScanner o htokens (by rwa [hrun.tokens]) (by rwa [hrun.tokens])
  refine ⟨?_, Reader.program_located hinside h⟩
  rintro rfl
  exact (Reader.fresh_ofScanner (Scanner.ofSource source o.ieee) o).program.2 h

/-- **Places are faithful.**  Every node of a tree has the place of a token of its source, and is where its first
child is or in front of all its children.  Siblings stand in the order of the source, and so do the stages of a
chain, at the first token and at the markers.  A source without a tree has errors, each at one of its characters
or at its end. -/
theorem places_faithful (source : String) (o : Options) :
    (∀ e, parse source o = .ok e →
      e.All fun x => x.InPlace (Scanner.ofSource source o.ieee).tokens.1 ∧
        x.Marked (Scanner.ofSource source o.ieee).tokens.1) ∧
    ∀ errors, parse source o = .error errors →
      errors ≠ [] ∧ ∀ d ∈ errors, d.position.Within source :=
  ⟨fun _ h => parse_placed h, fun _ h => parse_located h⟩

/-- A chain whose head is in parentheses, which leave no place in the tree, and a list that is not closed: its
error is far behind the reader. -/
theorem places_faithful_group : (∃ e, parse "(a).c |: [d]" {} = .ok e ∧
      e.position = ⟨1, 1⟩ ∧ e.children.map Expr.position = [⟨1, 2⟩, ⟨1, 10⟩] ∧
      e.All fun x => x.InPlace (Scanner.ofSource "(a).c |: [d]" true).tokens.1 ∧
        x.Marked (Scanner.ofSource "(a).c |: [d]" true).tokens.1) ∧
    ∃ d, parse "[a,\n b" {} = .error [d] ∧ d.position = ⟨1, 1⟩ ∧ d.position.Within "[a,\n b" := by
  have htree : parse "(a).c |: [d]" {} = .ok (.pipe ⟨1, 1⟩
      [⟨sourceStage, none, ⟨1, 1⟩, .member ⟨1, 2⟩ (.reference ⟨1, 2⟩ "a" false) (.name "c") false⟩,
        ⟨defaultPipe, none, ⟨1, 7⟩, .array ⟨1, 10⟩ [.reference ⟨1, 11⟩ "d" false]⟩]) := rfl
  have hfails : parse "[a,\n b" {} = .error [(Fault.neverClosed .square ⟨1, 1⟩).report ⟨1, 1⟩] := rfl
  exact ⟨⟨_, htree, rfl, rfl, (places_faithful _ {}).1 _ htree⟩, _, hfails, rfl,
    ((places_faithful _ {}).2 _ hfails).2 _ (List.mem_singleton_self _)⟩

end PipeExpr
