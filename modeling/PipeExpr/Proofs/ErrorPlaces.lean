import PipeExpr.Proofs.Cutoff

/-!
# Where errors are

Errors take their places from tokens.  Some of these have been read long before: an opening bracket, a comma, a
marker.  No reader makes up a place, so whatever set the places of the tokens and of the end are in
(`State.Inside`), the places of the errors are in it (`Located`).  That a reader gives an error no place but one
it was given or found at a token is told by what it is built of (`Built.located`).

For the set of the places of a source this says that **errors are in the source** (`Reader.program_located`).
-/

namespace PipeExpr

namespace Parse

section Places
variable {A : Position → Prop}

/-- **A state with all places in a set**: those of its tokens, of the end, and of the errors, found or to come. -/
structure State.Inside (A : Position → Prop) (s : State) : Prop where
  tokens : ∀ t ∈ s.rest, A t.position
  ending : A s.ending.position
  fault : ∀ d ∈ s.ending.fault, A d.position
  errors : ∀ d ∈ s.errors, A d.position

namespace State.Inside
variable {s : State}

theorem current (h : s.Inside A) : A s.current.position := by
  cases hrest : s.rest with
  | nil =>
    rw [State.current_of_nil hrest]
    exact h.ending
  | cons t rest =>
    rw [State.current_of_cons hrest]
    exact h.tokens t (hrest ▸ List.mem_cons_self ..)

theorem push (h : s.Inside A) {d : Diagnostic} (hd : A d.position) :
    State.Inside A { s with errors := s.errors.push d } := by
  refine ⟨h.tokens, h.ending, h.fault, fun e he => ?_⟩
  rcases Array.mem_push.mp he with he | rfl
  · exact h.errors e he
  · exact hd

theorem record (h : s.Inside A) {d : Diagnostic} (hd : A d.position) : (s.record d).Inside A := by
  rcases s.record_cases d with heq | heq
  · rwa [heq]
  · rw [heq]
    exact h.push hd

/-- Errors come with the last token, too. -/
theorem noteEnding (h : s.Inside A) : s.noteEnding.Inside A := by
  rcases s.noteEnding_cases with heq | ⟨d, hfault, heq⟩
  · rwa [heq]
  · rw [heq]
    exact h.push (h.fault d hfault)

theorem moveTo (h : s.Inside A) {rest : List Token} (hrest : rest ⊆ s.rest) : (s.moveTo rest).Inside A :=
  noteEnding ⟨fun t ht => h.tokens t (hrest ht), h.ending, h.fault, h.errors⟩

theorem advance (h : s.Inside A) : s.advance.Inside A := by
  rw [s.advance_eq]
  split
  · exact h
  · exact h.moveTo (List.tail_suffix _).subset

theorem skipToPipe (h : s.Inside A) : s.skipToPipe.Inside A := by
  rw [s.skipToPipe_eq]
  split
  · exact h
  · exact h.moveTo (List.dropWhile_sublist _).subset

/-- How deep a reader is nested has no place. -/
theorem setDepth (h : s.Inside A) (depth : Nat) : State.Inside A { s with depth } :=
  ⟨h.tokens, h.ending, h.fault, h.errors⟩

end State.Inside

/-- **A reader whose errors have their places in a set**, if all places in front of it are there. -/
def Located {α : Type} (A : Position → Prop) (p : Parse α) : Prop :=
  ∀ s : State, s.Inside A → (p s).2.Inside A ∧ ∀ d, (p s).1 = .error (.fault d) → A d.position

namespace Located
variable {α β : Type} {p : Parse α}

theorem pure (v : α) : Located A (Pure.pure v) := fun _ h => ⟨h, nofun⟩

/-- The next token has a place in the set. -/
theorem current {f : Token → Parse β} (hf : ∀ t, A t.position → Located A (f t)) :
    Located A (Parse.current >>= f) := fun s hs => hf s.current hs.current s hs

theorem exhausted : Located A (throw Failure.exhausted : Parse α) := fun _ h => ⟨h, nofun⟩

theorem advance : Located A Parse.advance := fun _ h => ⟨h.advance, nofun⟩

theorem skip : Located A (modify State.skipToPipe : Parse Unit) := fun _ h => ⟨h.skipToPipe, nofun⟩

theorem record {d : Diagnostic} (hd : A d.position) : Located A (modify (·.record d) : Parse Unit) :=
  fun _ h => ⟨h.record hd, nofun⟩

theorem fault {d : Diagnostic} (hd : A d.position) : Located A (throw (.fault d) : Parse α) := by
  refine fun _ hs => ⟨hs, fun d' hd' => ?_⟩
  obtain rfl := Failure.fault.inj (Except.error.inj hd')
  exact hd

theorem nested (o : Options) (h : Located A p) : Located A (Parse.nested o p) := by
  intro s hs
  rcases nested_cases o p s with ⟨_, hnested⟩ | ⟨_, hnested⟩
  · rw [hnested]
    exact (current fun _ ht => fault ht) s hs
  · rw [hnested]
    obtain ⟨hstate, hfault⟩ := h _ (hs.setDepth (s.depth + 1))
    exact ⟨hstate.setDepth _, hfault⟩

theorem attempt {k : Except Failure α → Parse β} (h : Located A p)
    (hk : ∀ result, (∀ d, result = .error (.fault d) → A d.position) → Located A (k result)) :
    Located A (attempt p k) := by
  intro s hs
  obtain ⟨hstate, hfault⟩ := h s hs
  exact hk (p s).1 hfault (p s).2 hstate

end Located

/-- The places of errors, whatever they are. -/
def Errors.within (A : Position → Prop) : Errors := ⟨A, fun d => A d.position, fun _ h => h⟩

/-- **What is built of the primitives makes up no place.** -/
theorem Built.located {α : Type} {p q : Parse α} (h : Built (.within A) p q) : Located A p := by
  induction h with
  | pure v => exact .pure v
  | exhausted => exact .exhausted
  | fault hd => exact .fault hd
  | record hd => exact .record hd
  | current _ ih => exact .current ih
  | advance => exact .advance
  | skip => exact .skip
  | nested o _ ih => exact ih.nested o
  | attempt _ _ _ ih ihnext => exact ih.attempt ihnext

end Places

end Parse

namespace Reader
open Parse
variable {A : Position → Prop}

/-- A reader starts with the places of the tokens and of the end. -/
theorem inside_ofScanner {scanner : Scanner} (o : Options) (htokens : ∀ t ∈ scanner.tokens.1, A t.position)
    (hending : A scanner.tokens.2.position) (hfault : ∀ d ∈ scanner.tokens.2.fault, A d.position) :
    (ofScanner scanner o).state.Inside A :=
  State.Inside.noteEnding ⟨htokens, hending, hfault, fun d hd => absurd hd (Array.not_mem_empty d)⟩

/-- **The errors of a program are where its tokens are.** -/
theorem program_located {r : Reader} (h : r.state.Inside A) {errors : Diagnostics}
    (herrors : r.program.1 = .error errors) : ∀ d ∈ errors, A d.position := by
  unfold program at herrors
  dsimp only at herrors
  split at herrors
  · obtain rfl := Except.error.inj herrors
    split
    · exact List.forall_mem_singleton.mpr h.current
    · exact fun d hd => h.errors d (Array.mem_toList_iff.mp hd)
  · have hexpr : Built (.within A) (Parse.expression r.options r.fuel r.fuel) _ :=
      expression_built r.options (Nat.le_refl _) (Nat.le_refl _)
    obtain ⟨hstate, _⟩ := (segments_built hexpr r.options sourceStage [] h.current
      (Nat.le_refl r.fuel)).located r.state h
    split at herrors
    · rename_i stages state hrun
      rw [hrun] at hstate
      dsimp only at herrors
      split at herrors
      · cases herrors
      · obtain rfl := Except.error.inj herrors
        exact fun d hd => hstate.errors d (Array.mem_toList_iff.mp hd)
    · obtain rfl := Except.error.inj herrors
      exact fun _ h => nomatch h

end Reader

end PipeExpr
