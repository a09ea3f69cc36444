import PipeExpr.Proofs.LexicalErrors
import PipeExpr.Proofs.Narrowing
import PipeExpr.Proofs.Signs

/-!
# Switches only restrict

A source has a tree under some switches if and only if it has this tree under all of them and nothing in the
tree is switched off; a tree stays when the limit of nesting grows (`parse_restricted`).

A source with a tree is a row of segments, each of which is read to its end without an error
(`parse_eq_ok`).  The stage of a segment is read by a reader that narrows the one under all switches
(`Parse.stage_narrows`), so the segments can be compared one by one (`Segment.read_widen`,
`Segment.read_narrow`).
-/

namespace PipeExpr

open Parse

/-! ## Tokens of a source -/

theorem Parse.natural_of_unsigned {t : Token} (h : t.kind.Unsigned) : Parse.Natural t := by
  rintro p hp i rfl
  unfold property? at hp
  split at hp
  · cases hp
  · cases hp
  · cases hp
  · cases hp
  · rename_i x hx
    split at hp
    · cases hp
      exact Double.clampInt64_nonneg (h x hx)
    · cases hp
  · cases hp

theorem Parse.cut_subset (final : Token) (handler : String) (position : Position) (tokens : List Token) :
    ∀ s ∈ cut final handler position tokens, s.tokens ⊆ tokens := by
  induction tokens generalizing handler position with
  | nil =>
    intro s hs
    obtain rfl := List.mem_singleton.mp hs
    exact List.Subset.refl []
  | cons t rest ih =>
    intro s hs
    rw [cut] at hs
    split at hs
    · rcases List.mem_cons.mp hs with rfl | hs
      · exact List.nil_subset _
      · exact List.subset_cons_of_subset t (ih _ _ s hs)
    · obtain ⟨head, others, hcut⟩ := List.exists_cons_of_ne_nil (cut_ne_nil final handler position rest)
      have hsubset := ih handler position
      rw [hcut] at hs hsubset
      rcases List.mem_cons.mp hs with rfl | hs
      · exact List.cons_subset_cons t (hsubset head (List.mem_cons_self ..))
      · exact List.subset_cons_of_subset t (hsubset s (List.mem_cons_of_mem head hs))

section Segments
variable {o : Options} {limit : Nat} {s : Segment} {stage : Stage Expr}

/-- An error that is recorded in front of what is dropped stays recorded. -/
theorem Parse.errors_record_skip {s : State} (hfault : s.ending.fault = none) (d : Diagnostic) :
    (s.record d).skipToPipe.errors.toList ≠ [] := by
  obtain ⟨late, hlate⟩ := (Steady.skip.blind.keeps (s.record d)).grows
  have hskip : (s.record d).skipToPipe.errors = (s.record d).errors ++ late := hlate
  rw [hskip, State.record_of_scanned hfault]
  simp

/-- The reader of the stage of a segment. -/
def Parse.Segment.reader (o : Options) (s : Segment) : Parse (Stage Expr) :=
  Parse.stage (Parse.expression o (s.source.length + 1) (s.source.length + 1)) s.handler s.position

/-- The state in front of a segment alone. -/
def Parse.Segment.start (s : Segment) : State := .ofTokens s.source ⟨s.stop.position, none⟩

theorem Parse.Segment.start_eq (s : Segment) : s.start = ⟨s.source, ⟨s.stop.position, none⟩, #[], 0⟩ :=
  State.ofTokens_of_scanned s.source rfl

theorem Parse.Segment.start_rest (s : Segment) : s.start.rest = s.source := by rw [start_eq]

/-- **A segment is read without an error** if its stage is, and ends where the segment ends. -/
theorem Parse.Segment.read_iff : s.read o = (some stage, []) ↔ ∃ s', s.reader o s.start = (.ok stage, s') ∧
    (s'.current.kind.isEof || s'.current.kind.isPipe) = true ∧ s'.errors = #[] := by
  have hsteady : Steady (s.reader o) (s.reader o) :=
    (stage_built (expression_built o (Nat.le_refl _) (Nat.le_refl _)) s.handler trivial).steady
  have hkeeps := hsteady.blind.keeps s.start
  rcases hrun : s.reader o s.start with ⟨result, s'⟩
  have hfault : s'.ending.fault = none := by
    have hending : (s.reader o s.start).2.ending = s.start.ending := hkeeps.ending
    rw [hrun] at hending
    dsimp only at hending
    rw [hending, start_eq]
  unfold Segment.reader Segment.start at hrun
  unfold Segment.read Parse.segment
  simp only [hrun]
  cases result with
  | error e =>
    refine iff_of_false (fun h => ?_) fun ⟨_, h, _⟩ => ?_
    · cases e <;> cases h
    · cases h
  | ok read =>
    by_cases hends : (s'.current.kind.isEof || s'.current.kind.isPipe) = true
    · simp only [hends, if_true]
      refine ⟨fun h => ?_, fun ⟨_, h, _, herrors⟩ => ?_⟩
      · obtain ⟨hstage, hnone⟩ := Prod.mk.inj h
        exact ⟨s', by rw [Option.some.inj hstage], hends, Array.toList_eq_nil_iff.mp hnone⟩
      · cases h
        rw [herrors]
    · simp only [hends]
      refine iff_of_false (fun h => ?_) fun ⟨_, h, h', _⟩ => ?_
      · exact errors_record_skip hfault _ (congrArg Prod.snd h)
      · cases h
        exact hends h'

/-- **A segment that is read under some switches** has a stage that fits them, and is read under all of
them. -/
theorem Parse.Segment.read_widen (hlimit : o.maxDepth ≤ limit) (hs : ∀ t ∈ s.source, Parse.Natural t)
    (h : s.read o = (some stage, [])) : Sound o stage ∧ s.read (unlocked o limit) = (some stage, []) := by
  obtain ⟨s', hrun, hends, herrors⟩ := read_iff.mp h
  have hstart : s.start.Natural := fun t ht => hs t (s.start_rest ▸ ht)
  have hnarrows := stage_narrows (expression_narrows hlimit (s.source.length + 1) (s.source.length + 1))
    s.handler s.position
  obtain ⟨hsound, hrun'⟩ := hnarrows.widen hstart trivial hrun
  exact ⟨hsound, read_iff.mpr ⟨s', hrun', hends, herrors⟩⟩

/-- **A segment that is read under all switches** is read under those that its stage fits. -/
theorem Parse.Segment.read_narrow (hs : ∀ t ∈ s.source, Parse.Natural t) (hsound : Sound o stage)
    (h : s.read (unlocked o o.maxDepth) = (some stage, [])) : s.read o = (some stage, []) := by
  obtain ⟨s', hrun, hends, herrors⟩ := read_iff.mp h
  have hstart : s.start.Natural := fun t ht => hs t (s.start_rest ▸ ht)
  have hnarrows := stage_narrows (expression_narrows (Nat.le_refl o.maxDepth) (s.source.length + 1)
    (s.source.length + 1)) s.handler s.position
  exact read_iff.mpr ⟨s', (hnarrows.narrow rfl hstart hsound hrun).2, hends, herrors⟩

end Segments

section Sources
variable {source : String} {o : Options}

/-- The stages of segments that are read without an error. -/
theorem filterMap_read {segments : List Segment} {stages : List (Stage Expr)}
    (h : List.Forall₂ (fun s stage => s.read o = (some stage, [])) segments stages) :
    segments.filterMap (fun s => (s.read o).1) = stages ∧
      ∀ s ∈ segments, ∃ stage, s.read o = (some stage, []) := by
  induction h with
  | nil => exact ⟨rfl, fun _ hs => absurd hs List.not_mem_nil⟩
  | cons hread _ ih =>
    obtain ⟨hstages, hsegments⟩ := ih
    refine ⟨?_, List.forall_mem_cons.mpr ⟨⟨_, hread⟩, hsegments⟩⟩
    rw [List.filterMap_cons, hread, hstages]

/-- A source with a tree has tokens, and is scanned to its end. -/
theorem tokenize_of_parse {e : Expr} (h : parse source o = .ok e) : ∃ first rest final,
    (Scanner.ofSource source o.ieee).tokenize = .ok (first :: rest ++ [.eof final]) := by
  rcases htokens : (Scanner.ofSource source o.ieee).tokens with ⟨tokens, position, fault⟩
  have hparse : parse source o = (Reader.mk o (.ofTokens tokens ⟨position, fault⟩)).program.1 := by
    unfold parse Reader.ofSource Reader.ofScanner
    rw [htokens]
  rw [hparse] at h
  have hfault : fault = none := by
    obtain ⟨⟨early, _, hreported⟩, _⟩ := program_logged o ⟨position, fault⟩ (tokens_inner htokens)
    rw [h] at hreported
    exact Option.toList_eq_nil_iff.mp (List.append_eq_nil_iff.mp hreported.symm).2
  subst hfault
  cases tokens with
  | nil => cases h
  | cons first rest =>
    refine ⟨first, rest, position, ?_⟩
    unfold Scanner.tokenize
    rw [htokens]

/-- **A source has a tree** if and only if it is scanned to its end, each of its segments is read without an
error, and there is a single one or pipes are on. -/
theorem parse_eq_ok {e : Expr} : parse source o = .ok e ↔ ∃ first rest final stages,
    (Scanner.ofSource source o.ieee).tokenize = .ok (first :: rest ++ [.eof final]) ∧
    (stages.length = 1 ∨ o.pipes = true) ∧
    List.Forall₂ (fun s stage => s.read o = (some stage, [])) (segmentsOf first rest final) stages ∧
    e = Parse.programOf first.position stages := by
  constructor
  · intro h
    obtain ⟨first, rest, final, htokens⟩ := tokenize_of_parse h
    have hinner : ∀ t ∈ first :: rest, t.kind.isEof = false := tokens_inner (tokenize_ok htokens)
    rw [parse_eq htokens] at h
    split at h
    · rename_i hempty
      obtain ⟨hpipes, hread⟩ := (errors_eq_nil hinner).mp (List.isEmpty_iff.mp hempty)
      have hstages := stages_of_segments (cut_wellFormed final sourceStage first.position hinner).1 hread
      refine ⟨first, rest, final, _, htokens, ?_, hstages.imp fun _ _ h => h.1, (Except.ok.inj h).symm⟩
      rwa [← hstages.length_eq]
    · cases h
  · rintro ⟨first, rest, final, stages, htokens, hpipes, hstages, rfl⟩
    have hinner : ∀ t ∈ first :: rest, t.kind.isEof = false := tokens_inner (tokenize_ok htokens)
    obtain ⟨hfilter, hread⟩ := filterMap_read hstages
    rw [← hstages.length_eq] at hpipes
    rw [parse_eq htokens, (errors_eq_nil hinner).mpr ⟨hpipes, hread⟩, hfilter]
    rfl

theorem natural_of_segments {first : Token} {rest : List Token} {final : Position}
    (h : (Scanner.ofSource source o.ieee).tokenize = .ok (first :: rest ++ [.eof final])) :
    ∀ s ∈ segmentsOf first rest final, ∀ t ∈ s.source, Parse.Natural t := by
  have htokens := tokenize_ok h
  have hformed := (cut_wellFormed final sourceStage first.position (tokens_inner htokens)).1
  intro s hs
  have hnatural : ∀ t ∈ s.tokens, Parse.Natural t := by
    intro t ht
    have hmem : t ∈ (Scanner.ofSource source o.ieee).tokens.1 := by
      rw [htokens]
      exact cut_subset _ _ _ _ s hs ht
    exact natural_of_unsigned (Scanner.tokens_unsigned _ t hmem)
  unfold Segment.source
  split
  · rename_i hpipe
    intro t ht
    rcases List.mem_append.mp ht with ht | ht
    · exact hnatural t ht
    · rw [List.mem_singleton.mp ht]
      refine natural_of_unsigned fun x hx => ?_
      rw [hx] at hpipe
      cases hpipe
  · exact hnatural

/-- The stages of a source fit the switches, and are read under all of them. -/
theorem stages_widen {limit : Nat} (hlimit : o.maxDepth ≤ limit) {first : Token} {rest : List Token}
    {final : Position}
    (htokens : (Scanner.ofSource source o.ieee).tokenize = .ok (first :: rest ++ [.eof final]))
    {stages : List (Stage Expr)}
    (h : List.Forall₂ (fun s stage => s.read o = (some stage, [])) (segmentsOf first rest final) stages) :
    (∀ stage ∈ stages, Sound o stage) ∧
      List.Forall₂ (fun s stage => s.read (unlocked o limit) = (some stage, []))
        (segmentsOf first rest final) stages := by
  have hread := (List.forall₂_and_left _ _).mpr ⟨natural_of_segments htokens, h⟩
  have hwiden := hread.imp fun s stage h => Segment.read_widen hlimit h.1 h.2
  exact ⟨((List.forall₂_and_left _ _).mp hwiden.flip).1, hwiden.imp fun _ _ h => h.2⟩

end Sources

/-! ## Programs -/

section Programs
variable {o : Options} {position : Position} {stages : List (Stage Expr)}

/-- The program of a chain is a pipe, unless there is a single stage without an alias. -/
theorem programOf_cases (position : Position) (stages : List (Stage Expr)) :
    (∃ stage, stages = [stage] ∧ stage.boundAs = none ∧ Parse.programOf position stages = stage.body) ∨
      ((∀ stage, stages = [stage] → stage.boundAs ≠ none) ∧
        Parse.programOf position stages = .pipe position stages) := by
  unfold Parse.programOf
  split
  · exact .inl ⟨_, rfl, rfl, rfl⟩
  · rename_i hother
    refine .inr ⟨?_, rfl⟩
    rintro ⟨handler, boundAs, place, body⟩ rfl rfl
    exact hother handler place body rfl

theorem programOf_allowed : (Parse.programOf position stages).All (Expr.AllowedBy o) ↔
    (1 < stages.length → o.pipes = true) ∧ ∀ stage ∈ stages, stage.body.All (Expr.AllowedBy o) := by
  rcases programOf_cases position stages with ⟨stage, rfl, _, hbody⟩ | ⟨_, hpipe⟩
  · rw [hbody]
    simp
  · rw [hpipe, Expr.all_iff]
    exact and_congr_right fun _ => List.forall_mem_map

theorem Expr.Fits.allowed {e : Expr} (h : e.Fits o) : e.All (Expr.AllowedBy o) := (Expr.all_and.mp h).1

/-- **What has a tree under some switches has it under all of them**, also if trees may nest deeper. -/
theorem parse_widen {source : String} {limit : Nat} (hlimit : o.maxDepth ≤ limit) {e : Expr}
    (h : parse source o = .ok e) :
    parse source (unlocked o limit) = .ok e ∧ e.All (Expr.AllowedBy o) := by
  obtain ⟨first, rest, final, stages, htokens, hpipes, hstages, rfl⟩ := parse_eq_ok.mp h
  obtain ⟨hsound, hwiden⟩ := stages_widen hlimit htokens hstages
  refine ⟨parse_eq_ok.mpr ⟨first, rest, final, stages, htokens, .inr rfl, hwiden, rfl⟩, ?_⟩
  refine programOf_allowed.mpr ⟨fun hmore => ?_, fun stage hstage => (hsound stage hstage).body.allowed⟩
  exact hpipes.resolve_left (Nat.ne_of_gt hmore)

/-- **A tree in which nothing is switched off** is the one under the switches. -/
theorem parse_narrow {source : String} {e : Expr} (h : parse source (unlocked o o.maxDepth) = .ok e)
    (hallowed : e.All (Expr.AllowedBy o)) : parse source o = .ok e := by
  obtain ⟨first, rest, final, stages, htokens, _, hstages, rfl⟩ := parse_eq_ok.mp h
  -- that the grammar has its nodes is known from the reader under all switches
  obtain ⟨hsound, _⟩ := stages_widen (Nat.le_refl _) htokens hstages
  obtain ⟨hpipes, hbodies⟩ := programOf_allowed.mp hallowed
  have hfits : ∀ stage ∈ stages, Sound o stage := fun stage hstage =>
    ⟨Expr.all_and.mpr ⟨hbodies stage hstage, (Expr.all_and.mp (hsound stage hstage).body).2⟩,
      (hsound stage hstage).boundAs⟩
  have hlength : 0 < stages.length := by
    rw [← hstages.length_eq]
    exact List.length_pos_of_ne_nil (cut_ne_nil _ _ _ _)
  have hread := (List.forall₂_and_left _ _).mpr ⟨natural_of_segments htokens, hstages⟩
  have hnarrow := ((List.forall₂_and_left _ _).mpr ⟨hfits, hread.flip⟩).flip.imp
    fun s stage h => Segment.read_narrow h.2.1 h.1 h.2.2
  refine parse_eq_ok.mpr ⟨first, rest, final, stages, htokens, ?_, hnarrow, rfl⟩
  rcases Nat.eq_or_lt_of_le hlength with hone | hmore
  · exact .inl hone.symm
  · exact .inr (hpipes hmore)

/-- **Switches only restrict.**  A source has a tree under some switches if and only if it has it under all
of them, with the same limit of nesting, and the tree has no node that is switched off: no `??`, no optional
variable, member, index or slice, and no pipe of more than one stage.  With a greater limit a source keeps
its tree. -/
theorem parse_restricted (source : String) (o : Options) (e : Expr) :
    (parse source o = .ok e ↔
      parse source { o with nullish := true, chaining := true, pipes := true } = .ok e ∧
        e.All (Expr.AllowedBy o)) ∧
    ∀ limit, o.maxDepth ≤ limit → parse source o = .ok e →
      parse source { o with maxDepth := limit } = .ok e := by
  refine ⟨⟨fun h => parse_widen (Nat.le_refl _) h, fun h => parse_narrow h.1 h.2⟩, fun limit hlimit h => ?_⟩
  obtain ⟨hwide, hallowed⟩ := parse_widen hlimit h
  exact @parse_narrow { o with maxDepth := limit } source e hwide hallowed

end Programs

/-- A chain with all three features, which nests two levels deep.  It stays when it may nest deeper, and it
is not read if `??` is switched off. -/
theorem parse_restricted_default : ∃ e, parse "a?.b ?? -c |: d" ⟨true, true, true, true, 2⟩ = .ok e ∧
    parse "a?.b ?? -c |: d" ⟨true, true, true, true, 7⟩ = .ok e ∧
    parse "a?.b ?? -c |: d" ⟨false, true, true, true, 2⟩ ≠ .ok e := by
  have hparse : parse "a?.b ?? -c |: d" ⟨true, true, true, true, 2⟩ = .ok (.pipe ⟨1, 1⟩
      [⟨sourceStage, none, ⟨1, 1⟩, .binary ⟨1, 1⟩ .nullCoalesce
          (.member ⟨1, 1⟩ (.reference ⟨1, 1⟩ "a" false) (.name "b") true)
          (.unary ⟨1, 9⟩ .negate (.reference ⟨1, 10⟩ "c" false))⟩,
        ⟨defaultPipe, none, ⟨1, 12⟩, .reference ⟨1, 15⟩ "d" false⟩]) := by rfl
  have hdeep := (parse_restricted _ _ _).2 7 (by decide) hparse
  refine ⟨_, hparse, hdeep, fun h => ?_⟩
  have hallowed := ((parse_restricted _ ⟨false, true, true, true, 2⟩ _).1.mp h).2 _
    (.child .root (List.mem_cons_self ..))
  exact Bool.false_ne_true (hallowed rfl)

end PipeExpr
