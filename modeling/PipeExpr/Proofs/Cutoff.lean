import PipeExpr.Proofs.Construction

/-!
# Readers in front of a cut-off

A scan that fails leaves the reader with the tokens in front of the failure.  Which tokens these are is all
that a reader sees of it: the error of the scan is recorded when the last token is read, and from there on
nothing is.

This is said of one reader by comparing its runs (`Blind`).  Two runs in front of the same tokens have the same
result and read the same tokens, whatever the errors before them and however the scan ended (`Twin`).  A run
records errors of syntax, then the error of the scan with the last token, then nothing (`Logged`).  And a run
that has more tokens behind the cut-off records what the cut-off run has recorded before it noticed
(`InStep`, `Apart`).  A reader with more turns does the same as one that does not run out of them, so a reader
is compared with itself under two bounds (`Steady`).  The primitives are shown to be so, and the grammar is built
of them (`Built.steady`).
-/

namespace PipeExpr

namespace Parse

/-! ## Runs of one reader -/

/-- States that differ only in their errors and in whether the scan has failed. -/
structure Twin (s t : State) : Prop where
  rest : s.rest = t.rest
  depth : s.depth = t.depth
  position : s.ending.position = t.ending.position

/-- What a reader records on its way between two states. -/
inductive Logged (s s' : State) : Prop where
  | silent (failed : s.lexerFailed = true) (failed' : s'.lexerFailed = true) (errors : s'.errors = s.errors)
  | running (runs : s.lexerFailed = false) (runs' : s'.lexerFailed = false) (early : Array Diagnostic)
    (syntactic : ∀ e ∈ early, e.code.isLexical = false) (errors : s'.errors = s.errors ++ early)
  | fails (runs : s.lexerFailed = false) (failed' : s'.lexerFailed = true) (early : Array Diagnostic)
    (syntactic : ∀ e ∈ early, e.code.isLexical = false) (d : Diagnostic) (fault : s.ending.fault = some d)
    (errors : s'.errors = (s.errors ++ early).push d)

/-- What reading keeps: the ending, and the order of what is recorded. -/
structure Keeps (s s' : State) : Prop where
  ending : s'.ending = s.ending
  logged : Logged s s'

/-- A state `t` in front of the tokens that a failed scan has left, and one with `more` behind them. -/
structure InStep (more : List Token) (s t : State) : Prop where
  rest : s.rest = t.rest ++ more
  inner : t.rest ≠ []
  depth : s.depth = t.depth
  errors : s.errors = t.errors
  fault : t.ending.fault.isSome = true

/-- The error of the scan has been recorded behind errors that the other run has recorded first, too. -/
structure Apart (s t : State) : Prop where
  failed : t.lexerFailed = true
  errors : ∃ early late d, t.errors = early.push d ∧ s.errors = early ++ late

section States
variable {s s' s'' t t' : State} {more : List Token}

theorem syntactic_empty : ∀ e ∈ (#[] : Array Diagnostic), e.code.isLexical = false :=
  fun _ he => absurd he (Array.not_mem_empty _)

theorem Keeps.refl (s : State) : Keeps s s := by
  refine ⟨rfl, ?_⟩
  cases h : s.lexerFailed with
  | true => exact .silent h h rfl
  | false => exact .running h h #[] syntactic_empty Array.append_empty.symm

theorem Keeps.trans (h : Keeps s s') (h' : Keeps s' s'') : Keeps s s'' := by
  obtain ⟨hending, hlogged⟩ := h
  obtain ⟨hending', hlogged'⟩ := h'
  refine ⟨hending'.trans hending, ?_⟩
  cases hlogged with
  | silent failed failed' errors =>
    cases hlogged' with
    | silent _ failed'' errors' => exact .silent failed failed'' (errors'.trans errors)
    | running runs | fails runs => rw [failed'] at runs; cases runs
  | running runs runs' early syntactic errors =>
    have hall : ∀ early' : Array Diagnostic, (∀ e ∈ early', e.code.isLexical = false) →
        ∀ e ∈ early ++ early', e.code.isLexical = false := by
      intro early' syntactic' e he
      exact (Array.mem_append.mp he).elim (syntactic e) (syntactic' e)
    cases hlogged' with
    | silent failed => rw [runs'] at failed; cases failed
    | running _ runs'' early' syntactic' errors' =>
      exact .running runs runs'' _ (hall early' syntactic')
        (by rw [errors', errors, Array.append_assoc])
    | fails _ failed'' early' syntactic' d fault errors' =>
      exact .fails runs failed'' _ (hall early' syntactic') d (hending ▸ fault)
        (by rw [errors', errors, Array.append_assoc])
  | fails runs failed' early syntactic d fault errors =>
    cases hlogged' with
    | silent _ failed'' errors' => exact .fails runs failed'' early syntactic d fault (errors'.trans errors)
    | running runs' | fails runs' => rw [failed'] at runs'; cases runs'

/-- Errors are only added. -/
theorem Keeps.grows (h : Keeps s s') : ∃ late, s'.errors = s.errors ++ late := by
  cases h.logged with
  | silent _ _ errors => exact ⟨#[], by rw [errors, Array.append_empty]⟩
  | running _ _ early _ errors => exact ⟨early, errors⟩
  | fails _ _ early _ d _ errors => exact ⟨early.push d, by rw [errors, Array.append_push]⟩

/-- Nothing is recorded behind the error of the scan. -/
theorem Keeps.silent (h : Keeps s s') (hfailed : s.lexerFailed = true) :
    s'.lexerFailed = true ∧ s'.errors = s.errors := by
  cases h.logged with
  | silent _ failed' errors => exact ⟨failed', errors⟩
  | running runs | fails runs => rw [hfailed] at runs; cases runs

/-- Once apart, runs stay apart, whatever they read. -/
theorem Apart.keeps (h : Apart s t) (hs : Keeps s s') (ht : Keeps t t') : Apart s' t' := by
  obtain ⟨hfailed, early, late, d, herrors, hlate⟩ := h
  obtain ⟨hfailed', hsilent⟩ := ht.silent hfailed
  obtain ⟨late', hgrows⟩ := hs.grows
  exact ⟨hfailed', early, late ++ late', d, hsilent.trans herrors, by rw [hgrows, hlate, Array.append_assoc]⟩

theorem Twin.current (h : Twin s t) : s.current = t.current := State.current_congr h.rest h.position

theorem InStep.current (h : InStep more s t) : s.current = t.current := by
  obtain ⟨token, rest, hrest⟩ := List.exists_cons_of_ne_nil h.inner
  rw [State.current_of_cons hrest]
  exact State.current_of_cons (by rw [h.rest, hrest, List.cons_append])

/-! ### Moving on -/

theorem Keeps.moveTo (h : s.rest ≠ []) (rest : List Token) : Keeps s (s.moveTo rest) := by
  obtain ⟨hrest, hending, _⟩ := s.moveTo_fields rest
  have hruns := State.lexerFailed_of_ne_nil h
  refine ⟨hending, ?_⟩
  cases rest with
  | cons token rest =>
    refine .running hruns (State.lexerFailed_of_ne_nil (by rw [hrest]; exact List.cons_ne_nil _ _)) #[]
      syntactic_empty ?_
    rw [s.moveTo_of_ne_nil (List.cons_ne_nil _ _), Array.append_empty]
  -- the last token has been read
  | nil =>
    have hfailed : (s.moveTo []).lexerFailed = s.ending.fault.isSome := by
      rw [State.lexerFailed, hrest, hending]
      rfl
    cases hfault : s.ending.fault with
    | none =>
      rw [hfault] at hfailed
      refine .running hruns hfailed #[] syntactic_empty ?_
      rw [State.moveTo_of_scanned hfault, Array.append_empty]
    | some d =>
      rw [hfault] at hfailed
      refine .fails hruns hfailed #[] syntactic_empty d hfault ?_
      rw [State.moveTo_nil hfault, Array.append_empty]

theorem Twin.moveTo (h : Twin s t) (rest : List Token) : Twin (s.moveTo rest) (t.moveTo rest) := by
  obtain ⟨hs, hsending, hsdepth⟩ := s.moveTo_fields rest
  obtain ⟨ht, htending, htdepth⟩ := t.moveTo_fields rest
  exact ⟨hs.trans ht.symm, by rw [hsdepth, htdepth, h.depth], by rw [hsending, htending, h.position]⟩

theorem InStep.moveTo (h : InStep more s t) {rest : List Token} (hrest : rest ≠ []) :
    InStep more (s.moveTo (rest ++ more)) (t.moveTo rest) := by
  rw [t.moveTo_of_ne_nil hrest, s.moveTo_of_ne_nil (List.append_ne_nil_of_left_ne_nil hrest _)]
  exact ⟨rfl, hrest, h.depth, h.errors, h.fault⟩

/-- The last token in front of the cut-off is read. -/
theorem InStep.apart (h : InStep more s t) (rest : List Token) : Apart (s.moveTo rest) (t.moveTo []) := by
  obtain ⟨hrest, hending, _⟩ := t.moveTo_fields []
  obtain ⟨d, hd⟩ := Option.isSome_iff_exists.mp h.fault
  refine ⟨by rw [State.lexerFailed, hrest, hending, h.fault]; rfl, t.errors, ?_⟩
  have hs : s.rest ≠ [] := by
    rw [h.rest]
    exact List.append_ne_nil_of_left_ne_nil h.inner _
  obtain ⟨late, hlate⟩ := (Keeps.moveTo hs rest).grows
  exact ⟨late, d, by rw [State.moveTo_nil hd], by rw [hlate, h.errors]⟩

/-! ### Recording -/

theorem Keeps.record {d : Diagnostic} (hd : d.code.isLexical = false) (s : State) : Keeps s (s.record d) := by
  cases h : s.lexerFailed with
  | true =>
    have hsilent : s.record d = s := by
      unfold State.record
      rw [h, hd]
      rfl
    rw [hsilent]
    exact Keeps.refl s
  | false =>
    rw [State.record_of_running h]
    refine ⟨rfl, .running h h #[d] ?_ rfl⟩
    intro e he
    rw [Array.mem_singleton.mp he]
    exact hd

theorem Twin.record (h : Twin s t) (d : Diagnostic) : Twin (s.record d) (t.record d) := by
  obtain ⟨hs, hsending, hsdepth⟩ := s.record_fields d
  obtain ⟨ht, htending, htdepth⟩ := t.record_fields d
  exact ⟨by rw [hs, ht, h.rest], by rw [hsdepth, htdepth, h.depth], by rw [hsending, htending, h.position]⟩

theorem InStep.record (h : InStep more s t) (d : Diagnostic) : InStep more (s.record d) (t.record d) := by
  have hs : s.rest ≠ [] := by
    rw [h.rest]
    exact List.append_ne_nil_of_left_ne_nil h.inner _
  rw [State.record_of_running (State.lexerFailed_of_ne_nil hs),
    State.record_of_running (State.lexerFailed_of_ne_nil h.inner)]
  exact ⟨h.rest, h.inner, h.depth, congrArg (·.push d) h.errors, h.fault⟩

end States

/-! ## Readers -/

/-- **A reader that is blind to a cut-off** until it comes to it. -/
structure Blind {α : Type} (p : Parse α) : Prop where
  twin : ∀ {s t}, Twin s t → (p s).1 = (p t).1 ∧ Twin (p s).2 (p t).2
  keeps : ∀ s, Keeps s (p s).2
  syntactic : ∀ s d, (p s).1 = .error (.fault d) → d.code.isLexical = false
  step : ∀ {more s t}, InStep more s t →
    ((p s).1 = (p t).1 ∧ InStep more (p s).2 (p t).2) ∨ Apart (p s).2 (p t).2

/-- **A blind reader**, which does the same with more turns unless it runs out of them. -/
structure Steady {α : Type} (p q : Parse α) : Prop where
  blind : Blind p
  turns : ∀ s, (p s).1 = .error .exhausted ∨ p s = q s

section Readers
variable {α β : Type} {p q : Parse α}

/-- A reader one level deeper, which comes back whatever happens. -/
def deeper (p : Parse α) : Parse α := fun s =>
  let (result, s) := p { s with depth := s.depth + 1 }
  (result, { s with depth := s.depth - 1 })

/-- A nested reader is refused, or it is one level deeper. -/
theorem nested_cases (o : Options) (p : Parse α) (s : State) :
    (o.maxDepth ≤ s.depth ∧ nested o p s = fail (.maxDepthExceeded o.maxDepth) s) ∨
      (s.depth < o.maxDepth ∧ nested o p s = deeper p s) := by
  have hnested : nested o p s =
      (if s.depth ≥ o.maxDepth then fail (.maxDepthExceeded o.maxDepth) else deeper p : Parse α) s := rfl
  by_cases hdeep : s.depth ≥ o.maxDepth
  · exact .inl ⟨hdeep, by rw [hnested, if_pos hdeep]⟩
  · exact .inr ⟨Nat.lt_of_not_le hdeep, by rw [hnested, if_neg hdeep]⟩

/-- Whether there is no room for a reader one level deeper. -/
def tooDeep (o : Options) : Parse Bool := return (← get).depth ≥ o.maxDepth

theorem Blind.attempt (h : Blind p) {k : Except Failure α → Parse β}
    (hk : ∀ result, (∀ d, result = .error (.fault d) → d.code.isLexical = false) → Blind (k result)) :
    Blind (attempt p k) where
  twin := by
    intro s t hst
    obtain ⟨hresult, htwin⟩ := h.twin hst
    unfold Parse.attempt
    rw [hresult]
    exact (hk _ (h.syntactic t)).twin htwin
  keeps s := (h.keeps s).trans ((hk _ (h.syntactic s)).keeps _)
  syntactic s := (hk _ (h.syntactic s)).syntactic _
  step := by
    intro more s t hst
    rcases h.step hst with ⟨hresult, hstep⟩ | hapart
    · unfold Parse.attempt
      rw [hresult]
      exact (hk _ (h.syntactic t)).step hstep
    -- the two go on in different ways, with all that they record behind what they have in common
    · exact .inr (hapart.keeps ((hk _ (h.syntactic s)).keeps _) ((hk _ (h.syntactic t)).keeps _))

namespace Steady

theorem attempt (h : Steady p q) {k l : Except Failure α → Parse β}
    (hkl : ∀ result, (∀ d, result = .error (.fault d) → d.code.isLexical = false) →
      Steady (k result) (l result))
    (hexhausted : ∀ s, (k (.error .exhausted) s).1 = .error .exhausted) :
    Steady (attempt p k) (Parse.attempt q l) where
  blind := h.blind.attempt fun result hresult => (hkl result hresult).blind
  turns s := by
    unfold Parse.attempt
    rcases h.turns s with hturns | hturns
    · rw [hturns]
      exact .inl (hexhausted _)
    · rw [← hturns]
      exact (hkl _ (h.blind.syntactic s)).turns _

/-- A reader that only looks at the next token and at how deep it is nested. -/
theorem of_look {r : Token → Nat → Except Failure α} (hp : ∀ s, p s = (r s.current s.depth, s))
    (hr : ∀ token depth d, r token depth = .error (.fault d) → d.code.isLexical = false) : Steady p p where
  blind := by
    refine ⟨fun {s t} hst => ?_, fun s => ?_, fun s d hd => ?_, fun {more s t} hst => ?_⟩
    · rw [hp, hp, hst.current, hst.depth]
      exact ⟨rfl, hst⟩
    · rw [hp]
      exact Keeps.refl s
    · rw [hp] at hd
      exact hr _ _ d hd
    · rw [hp, hp, hst.current, hst.depth]
      exact .inl ⟨rfl, hst⟩
  turns _ := .inr rfl

theorem pure (v : α) : Steady (Pure.pure v) (Pure.pure v) :=
  of_look (r := fun _ _ => .ok v) (fun _ => rfl) fun _ _ _ h => nomatch h

theorem fault {d : Diagnostic} (hd : d.code.isLexical = false) :
    Steady (throw (.fault d) : Parse α) (throw (.fault d)) :=
  of_look (r := fun _ _ => .error (.fault d)) (fun _ => rfl) fun _ _ _ h => by cases h; exact hd

theorem exhausted (q : Parse α) : Steady (throw .exhausted) q :=
  ⟨(of_look (r := fun _ _ => .error .exhausted) (fun _ => rfl) fun _ _ _ h => nomatch h).blind,
    fun _ => .inl rfl⟩

/-- A sequence goes on with results and gives up with errors. -/
theorem bind (h : Steady p q) {f g : α → Parse β} (hfg : ∀ v, Steady (f v) (g v)) :
    Steady (p >>= f) (q >>= g) := by
  rw [bind_eq_attempt, bind_eq_attempt]
  refine h.attempt (fun result hresult => ?_) fun _ => rfl
  cases result with
  | ok v => exact hfg v
  | error e =>
    cases e with
    | fault d => exact fault (hresult d rfl)
    | exhausted => exact exhausted _

/-! ### Primitives -/

theorem current : Steady Parse.current Parse.current :=
  of_look (r := fun t _ => .ok t) (fun _ => rfl) fun _ _ _ h => nomatch h

theorem fail {f : Fault} (hf : f.code.isLexical = false) : Steady (Parse.fail f : Parse α) (Parse.fail f) :=
  current.bind fun _ => fault hf

/-- A reader that drops tokens in front, and looks no further than it drops. -/
theorem moving {p : Parse Unit} {f : List Token → List Token}
    (hp : ∀ s, p s = (.ok (), if s.rest = [] then s else s.moveTo (f s.rest)))
    (hf : ∀ rest more, rest ≠ [] → f rest ≠ [] → f (rest ++ more) = f rest ++ more) : Steady p p where
  blind := by
    refine ⟨fun {s t} hst => ?_, fun s => ?_, fun s d hd => ?_, fun {more s t} hst => ?_⟩
    · rw [hp, hp, hst.rest]
      split
      · exact ⟨rfl, hst⟩
      · exact ⟨rfl, hst.moveTo _⟩
    · rw [hp]
      split
      · exact Keeps.refl s
      · exact Keeps.moveTo ‹_› _
    · rw [hp] at hd
      cases hd
    · have hs : s.rest ≠ [] := by
        rw [hst.rest]
        exact List.append_ne_nil_of_left_ne_nil hst.inner _
      rw [hp, hp, if_neg hs, if_neg hst.inner]
      by_cases hend : f t.rest = []
      · rw [hend]
        exact .inr (hst.apart _)
      · rw [hst.rest, hf t.rest more hst.inner hend]
        exact .inl ⟨rfl, hst.moveTo hend⟩
  turns _ := .inr rfl

theorem advance : Steady Parse.advance Parse.advance := by
  refine moving (f := List.tail) (fun s => ?_) fun rest more hrest _ => List.tail_append_of_ne_nil hrest
  rw [← s.advance_eq]
  rfl

/-- Going to the next marker. -/
theorem skip : Steady (modify State.skipToPipe : Parse Unit) (modify State.skipToPipe) := by
  refine moving (f := List.dropWhile fun t => !t.kind.isPipe) (fun s => ?_) fun rest more _ hend => ?_
  · rw [← s.skipToPipe_eq]
    rfl
  · rw [List.dropWhile_append, if_neg (by simpa using hend)]

/-- Keeping an error of syntax. -/
theorem record {d : Diagnostic} (hd : d.code.isLexical = false) :
    Steady (modify (·.record d) : Parse Unit) (modify (·.record d)) where
  blind := by
    have hp : ∀ s, (modify (·.record d) : Parse Unit) s = (.ok (), s.record d) := fun _ => rfl
    refine ⟨fun {s t} hst => ?_, fun s => ?_, fun s e he => ?_, fun {more s t} hst => ?_⟩
    · rw [hp, hp]
      exact ⟨rfl, hst.record d⟩
    · rw [hp]
      exact Keeps.record hd s
    · rw [hp] at he
      cases he
    · rw [hp, hp]
      exact .inl ⟨rfl, hst.record d⟩
  turns _ := .inr rfl

theorem deeper (h : Steady p q) : Steady (Parse.deeper p) (Parse.deeper q) where
  blind := by
    refine ⟨fun {s t} hst => ?_, fun s => ?_, fun s d hd => ?_, fun {more s t} hst => ?_⟩
    · have hdeeper : Twin { s with depth := s.depth + 1 } { t with depth := t.depth + 1 } :=
        ⟨hst.rest, congrArg (· + 1) hst.depth, hst.position⟩
      obtain ⟨hresult, htwin⟩ := h.blind.twin hdeeper
      exact ⟨hresult, htwin.rest, congrArg (· - 1) htwin.depth, htwin.position⟩
    · obtain ⟨hending, hlogged⟩ := h.blind.keeps { s with depth := s.depth + 1 }
      refine ⟨hending, ?_⟩
      cases hlogged with
      | silent failed failed' errors => exact .silent failed failed' errors
      | running runs runs' early syntactic errors => exact .running runs runs' early syntactic errors
      | fails runs failed' early syntactic d fault errors =>
        exact .fails runs failed' early syntactic d fault errors
    · exact h.blind.syntactic _ d hd
    · have hdeeper : InStep more { s with depth := s.depth + 1 } { t with depth := t.depth + 1 } :=
        ⟨hst.rest, hst.inner, congrArg (· + 1) hst.depth, hst.errors, hst.fault⟩
      rcases h.blind.step hdeeper with ⟨hresult, hstep⟩ | hapart
      · exact .inl ⟨hresult, hstep.rest, hstep.inner, congrArg (· - 1) hstep.depth, hstep.errors, hstep.fault⟩
      · exact .inr ⟨hapart.failed, hapart.errors⟩
  turns s := by
    rcases h.turns { s with depth := s.depth + 1 } with hturns | hturns
    · exact .inl hturns
    · refine .inr ?_
      unfold Parse.deeper
      rw [hturns]

theorem nested (o : Options) (h : Steady p q) : Steady (Parse.nested o p) (Parse.nested o q) := by
  have hnested : ∀ p : Parse α, Parse.nested o p = tooDeep o >>= fun deep =>
      if deep then Parse.fail (.maxDepthExceeded o.maxDepth) else Parse.deeper p := by
    intro p
    funext s
    show (if s.depth ≥ o.maxDepth then Parse.fail _ else Parse.deeper p : Parse α) s =
      (if decide (s.depth ≥ o.maxDepth) then Parse.fail _ else Parse.deeper p : Parse α) s
    simp only [decide_eq_true_eq]
  have hlook : Steady (tooDeep o) (tooDeep o) :=
    of_look (r := fun _ depth => .ok (decide (depth ≥ o.maxDepth))) (fun _ => rfl) fun _ _ _ h => nomatch h
  rw [hnested, hnested]
  refine hlook.bind fun deep => ?_
  split
  · exact fail rfl
  · exact h.deeper

end Steady

end Readers

/-- In front of a cut-off, errors are those of syntax, wherever they are. -/
def Errors.ofSyntax : Errors := ⟨fun _ => True, fun d => d.code.isLexical = false, fun hf _ => hf⟩

/-- **What is built of the primitives is blind to a cut-off.** -/
theorem Built.steady {α : Type} {p q : Parse α} (h : Built .ofSyntax p q) : Steady p q := by
  induction h with
  | pure v => exact .pure v
  | exhausted q => exact .exhausted q
  | fault hd => exact .fault hd
  | record hd => exact .record hd
  | current _ ih => exact Steady.current.bind fun t => ih t trivial
  | advance => exact .advance
  | skip => exact .skip
  | nested o _ ih => exact ih.nested o
  | attempt _ _ hexhausted ih ihnext => exact ih.attempt ihnext hexhausted

end Parse

end PipeExpr
