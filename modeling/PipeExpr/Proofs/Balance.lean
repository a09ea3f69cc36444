import PipeExpr.Proofs.Nesting
import PipeExpr.Proofs.Segments

/-!
# Calls of a reader

A reader of one source can be called again and again, for an expression or for a whole program.  **Whatever the
calls before it came to, a call starts at depth zero** (`Reader.Fresh.after`), so it has all levels that the
options allow, and so has each segment of a chain: an error in one of them, be it that the nesting is too deep,
takes nothing from the next (`chain_within`).  Every call comes to an end, since all that a reader does shrinks
what is left to read, or stops.
-/

namespace PipeExpr

namespace Parse

section Returns
variable {α β : Type} {s s' : State} {p q : Parse α}

theorem Onward.inner (h : Onward s s') (hs : ∀ t ∈ s.rest, t.kind.isEof = false) :
    ∀ t ∈ s'.rest, t.kind.isEof = false := by
  obtain ⟨taken, hrest, _⟩ := h.passed
  exact fun t ht => hs t (hrest ▸ List.mem_append_right taken ht)

/-- A reader goes on with whatever comes out of another one. -/
theorem Returns.attempt {Q : α → State → Prop} {R : β → State → Prop} (h : Returns s Q p q)
    {k : Except Failure α → Parse β}
    (hk : ∀ result s', Onward s s' → result ≠ .error .exhausted → Returns s' R (k result) (k result)) :
    Returns s R (Parse.attempt p k) (Parse.attempt q k) := by
  obtain ⟨hsame, honward, hsettles⟩ := h
  have hresult : (p s).1 ≠ .error .exhausted := by
    rcases hp : p s with ⟨result, s'⟩
    rw [hp] at hsettles
    rintro rfl
    exact hsettles
  obtain ⟨_, honward', hsettles'⟩ := hk (p s).1 (p s).2 honward hresult
  refine ⟨?_, honward.trans honward', hsettles'⟩
  unfold Parse.attempt
  rw [hsame]

/-- Dropping tokens up to a marker, in front of tokens that end with the source. -/
theorem Returns.skip (hs : ∀ t ∈ s.rest, t.kind.isEof = false) :
    Returns s (fun _ _ => True) (modify State.skipToPipe : Parse Unit) (modify State.skipToPipe) := by
  refine ⟨rfl, ?_, trivial⟩
  show Onward s s.skipToPipe
  rw [s.skipToPipe_eq]
  split
  · exact .refl s
  · obtain ⟨hrest, hending, hdepth⟩ := s.moveTo_fields (s.rest.dropWhile fun t => !t.kind.isPipe)
    refine ⟨hdepth, hending, s.rest.takeWhile fun t => !t.kind.isPipe, ?_, fun t ht => ?_⟩
    · exact (List.takeWhile_append_dropWhile ..).symm.trans (congrArg _ hrest.symm)
    · exact hs t (List.takeWhile_subset _ ht)

end Returns

/-! ## Programs -/

theorem aliasName_returns (s : State) : Returns s (fun _ _ => True) aliasName aliasName := by
  refine .currentKind ?_
  cases hkind : s.current.kind with
  | identifier name =>
    dsimp only
    split
    · exact .read (by rw [hkind]; rfl) fun _ _ _ => .pure _ trivial
    · exact .fail _
  | _ => exact .unexpected _

theorem optionalAlias_returns (s : State) : Returns s (fun _ _ => True) optionalAlias optionalAlias := by
  refine .looksAt ?_
  by_cases has : s.current.kind.isSymbol .as = true
  · rw [if_pos has]
    refine .read (isEof_of_isSymbol has) fun s₁ _ _ => ?_
    refine .bind (aliasName_returns s₁) fun name s₂ _ _ => .looksAt ?_
    split
    · exact .fail _
    · exact .pure _ trivial
  · rw [if_neg has]
    exact .pure _ trivial

section Programs
variable {expr expr' : Parse Expr} {d bound : Nat} {s : State}

theorem stage_returns (hexpr : Returns s (Shrinks s) expr expr') (handler : String) (position : Position) :
    Returns s (fun _ _ => True) (stage expr handler position) (stage expr' handler position) := by
  have hbody : Returns s (fun _ _ => True)
      (do let body ← expr; let boundAs ← optionalAlias; return Stage.mk handler boundAs position body)
      (do let body ← expr'; let boundAs ← optionalAlias; return Stage.mk handler boundAs position body) :=
    hexpr.bind fun _ s₁ _ _ => .bind (optionalAlias_returns s₁) fun _ _ _ _ => .pure _ trivial
  -- nothing follows where the segment is empty
  have hempty : ∀ (f : Fault) {k k' : Unit → Parse (Stage Expr)}, Returns s (fun _ _ => True)
      (failAt position f >>= k) (failAt position f >>= k') := fun f =>
    (@Returns.failAt Unit s (fun _ _ => False) position f).bind fun _ _ _ h => h.elim
  unfold stage
  split
  · refine .currentKind ?_
    split
    · exact hempty _
    · exact hempty _
    · exact hempty _
    · exact hbody
  · exact hbody

theorem segment_returns (hexpr : Returns s (Shrinks s) expr expr')
    (hs : ∀ t ∈ s.rest, t.kind.isEof = false) (handler : String) (position : Position) :
    Returns s (fun _ _ => True) (segment expr handler position) (segment expr' handler position) := by
  rw [segment_eq_attempt, segment_eq_attempt]
  have hdrop : ∀ (d : Diagnostic) (read : Option (Stage Expr)) (s₁ : State), Onward s s₁ →
      Returns s₁ (fun _ _ => True)
        (do modify (·.record d); modify State.skipToPipe; return read)
        (do modify (·.record d); modify State.skipToPipe; return read) :=
    fun d read s₁ h₁ => .bind (.record d) fun _ s₂ h₂ _ =>
      .bind (.skip ((h₁.trans h₂).inner hs)) fun _ _ _ _ => .pure _ trivial
  refine (stage_returns hexpr handler position).attempt fun result s₁ h₁ hresult => ?_
  cases result with
  | ok read =>
    refine .current ?_
    split
    · exact .pure _ trivial
    · exact hdrop _ _ s₁ h₁
  | error e =>
    cases e with
    | fault d => exact hdrop d none s₁ h₁
    | exhausted => exact absurd rfl hresult

theorem segments_returns (o : Options) (hexpr : ∀ s, Near d bound s → Returns s (Shrinks s) expr expr') :
    ∀ (n : Nat) (handler : String) (position : Position) (stages : List (Stage Expr)) (s : State),
      Near d bound s → (∀ t ∈ s.rest, t.kind.isEof = false) → s.rest.length < n →
      Returns s (fun _ _ => True) (segments o expr n handler position stages)
        (segments o expr' n handler position stages) := by
  intro n
  induction n with
  | zero => intro _ _ _ s _ _ hn; omega
  | succ n ih =>
    intro handler position stages s hs hinner hn
    rw [segments, segments]
    refine .bind (segment_returns (hexpr s hs) hinner handler position) fun read s₁ h₁ _ => .current ?_
    -- the next segment behind its marker
    have hnext : ∀ (name : Option String) (stages : List (Stage Expr)) (s₂ : State), Onward s s₂ →
        s₂.current.kind.isEof = false →
        Returns s₂ (fun _ _ => True)
          (advance >>= fun _ => segments o expr n (name.getD defaultPipe) s₁.current.position stages)
          (advance >>= fun _ => segments o expr' n (name.getD defaultPipe) s₁.current.position stages) :=
      fun name stages s₂ h₂ heof => .read heof fun s₃ h₃ hlength =>
        ih _ _ _ s₃ (hs.onward (h₂.trans h₃)) ((h₂.trans h₃).inner hinner)
          (by have := h₂.length_le; omega)
    cases hkind : s₁.current.kind with
    | pipe name =>
      have heof : s₁.current.kind.isEof = false := by rw [hkind]; rfl
      dsimp only
      split
      · refine .bind (.recordAt _ _) fun _ s₂ h₂ hrest => ?_
        have hcurrent : s₂.current = s₁.current := State.current_congr hrest (by rw [h₂.ending])
        exact hnext name _ s₂ (h₁.trans h₂) (hcurrent ▸ heof)
      · exact hnext name _ s₁ h₁ heof
    | _ => exact .pure _ trivial

end Programs

/-! ### Chains do not fail -/

/-- A reader that does not give up because of an error. -/
def Recovers {α : Type} (p : Parse α) : Prop := ∀ s d, (p s).1 ≠ .error (.fault d)

theorem Recovers.bind {α β : Type} {p : Parse α} {f : α → Parse β} (h : Recovers p) (hf : ∀ v, Recovers (f v)) :
    Recovers (p >>= f) := by
  intro s d hfault
  rw [run_bind] at hfault
  rcases hp : p s with ⟨result, s'⟩
  rw [hp] at hfault
  cases result with
  | ok v => exact hf v s' d hfault
  | error e =>
    obtain rfl : e = .fault d := Except.error.inj hfault
    exact h s d (congrArg Prod.fst hp)

theorem Recovers.of_ok {α : Type} {p : Parse α} (h : ∀ s, ∃ v, (p s).1 = .ok v) : Recovers p := by
  intro s d hfault
  obtain ⟨v, hv⟩ := h s
  rw [hv] at hfault
  cases hfault

theorem segment_recovers (expr : Parse Expr) (handler : String) (position : Position) :
    Recovers (segment expr handler position) := by
  intro s d hfault
  unfold segment at hfault
  split at hfault
  · dsimp only at hfault
    split at hfault <;> cases hfault
  · cases hfault
  · cases hfault

theorem segments_recovers (o : Options) (expr : Parse Expr) : ∀ (n : Nat) (handler : String) (position : Position)
    (stages : List (Stage Expr)), Recovers (segments o expr n handler position stages) := by
  intro n
  induction n with
  | zero => exact fun _ _ _ _ _ h => nomatch h
  | succ n ih =>
    intro handler position stages
    have hadvance : ∀ (handler : String) (position : Position) (stages : List (Stage Expr)),
        Recovers (advance >>= fun _ => segments o expr n handler position stages) := fun handler position stages =>
      (Recovers.of_ok fun _ => ⟨(), rfl⟩).bind fun _ => ih handler position stages
    rw [segments]
    refine (segment_recovers expr handler position).bind fun read =>
      (Recovers.of_ok fun s => ⟨s.current, rfl⟩).bind fun token => ?_
    dsimp only
    split
    · split
      · exact (Recovers.of_ok fun _ => ⟨(), rfl⟩).bind fun _ => hadvance _ _ _
      · exact hadvance _ _ _
    · exact .of_ok fun _ => ⟨_, rfl⟩

/-! ## Routines -/

/-- **The routines of the reader**, from a state.  Each has the reader for nested expressions, and bounds on its
turns that are larger than the number of tokens. -/
inductive Routine (o : Options) (n fuel : Nat) (s : State) : {α : Type} → Parse α → Prop where
  | expression : Routine o n fuel s (expression o n fuel)
  | conditional : Routine o n fuel s (conditional o (expression o n fuel) n)
  | level (lvl : Nat) : Routine o n fuel s (level o (expression o n fuel) n lvl)
  | operands (lvl next : Nat) {turns : Nat} (h : s.rest.length < turns) (left : Expr) :
    Routine o n fuel s (operands o next (level o (expression o n fuel) n lvl) turns left)
  | power {turns : Nat} (h : s.rest.length < turns) : Routine o n fuel s (power o (expression o n fuel) n turns)
  | prefixed {turns : Nat} (h : s.rest.length < turns) :
    Routine o n fuel s (prefixed o (expression o n fuel) n turns)
  | postfixChain {turns : Nat} (h : s.rest.length < turns) (target : Expr) :
    Routine o n fuel s (postfixChain o (expression o n fuel) n turns target)
  | postfixStep (target : Expr) : Routine o n fuel s (postfixStep o (expression o n fuel) n target)
  | member (target : Expr) (optional : Bool) :
    Routine o n fuel s (member (expression o n fuel) target optional)
  | brackets (target : Expr) (optional : Bool) (opened : Position) :
    Routine o n fuel s (brackets (expression o n fuel) target optional opened)
  | sliceRest (target : Expr) (start : Option Expr) (optional : Bool) (opened : Position) :
    Routine o n fuel s (sliceRest (expression o n fuel) target start optional opened)
  | primary : Routine o n fuel s (primary o (expression o n fuel) n)
  | parenthesized (position : Position) (h : s.current.kind.isSymbol .leftParen = true) :
    Routine o n fuel s (parenthesized (expression o n fuel) position)
  | leadingDot (optional : Bool) (position : Position)
    (h : s.current.kind.isSymbol (if optional then .questionDot else .dot) = true) :
    Routine o n fuel s (leadingDot o optional position)
  | items (bracket : Bracket) (opened : Position) {turns : Nat} (h : s.rest.length < turns) (items : List Expr) :
    Routine o n fuel s (listItems bracket opened (expression o n fuel) turns items)
  | entries (opened : Position) {turns : Nat} (h : s.rest.length < turns) (entries : List (String × Expr)) :
    Routine o n fuel s (listItems .brace opened (objectEntry (expression o n fuel)) turns entries)
  | objectEntry : Routine o n fuel s (objectEntry (expression o n fuel))
  | close (bracket : Bracket) (opened : Position) : Routine o n fuel s (close bracket opened)
  | stage (handler : String) (position : Position) :
    Routine o n fuel s (stage (expression o n fuel) handler position)
  | optionalAlias : Routine o n fuel s optionalAlias
  | aliasName : Routine o n fuel s aliasName
  | segment (handler : String) (position : Position) (h : ∀ t ∈ s.rest, t.kind.isEof = false) :
    Routine o n fuel s (segment (expression o n fuel) handler position)
  | segments (handler : String) (position : Position) (stages : List (Stage Expr)) {turns : Nat}
    (h : ∀ t ∈ s.rest, t.kind.isEof = false) (hturns : s.rest.length < turns) :
    Routine o n fuel s (segments o (expression o n fuel) turns handler position stages)

section Routines
variable {o : Options} {bad : Parse Expr} {n fuel : Nat} {s : State}

/-- **Every routine returns**, whatever it comes to. -/
theorem Routine.returns {α : Type} {p : Parse α} (h : Routine o n fuel s p) (hn : s.rest.length < n)
    (hfuel : s.rest.length < fuel) : ∃ Q q, Returns s Q p q := by
  have hcovers : ∀ bound, bound ≤ n →
      (Recursion.within o (fail .emptyExpression) n (o.maxDepth - s.depth)).Covers o n s.depth bound :=
    fun bound hbound => within_covers _ _ _ rfl hbound
  have hs : Near s.depth (s.rest.length + 1) s := ⟨rfl, Nat.lt_succ_self _⟩
  have hexpr := @expression_covered o n _ _ fuel _ (hcovers (s.rest.length + 1) hn) hfuel
  have hle := Nat.le_of_lt hn
  have hle' := Nat.le_of_lt hfuel
  have hless := hcovers s.rest.length hle
  have hnext : Near s.depth (s.rest.length + 1 + 1) s := ⟨rfl, by omega⟩
  have hlevel := fun lvl => level_covered hless hn hle' lvl
  cases h with
  | expression => exact ⟨_, _, hexpr s hs⟩
  | conditional => exact ⟨_, _, conditional_covered hless hn hle' s hs⟩
  | level lvl => exact ⟨_, _, hlevel lvl s hs⟩
  | operands lvl next h left => exact ⟨_, _, operands_returns (hlevel lvl) next _ left s hs h⟩
  | power h => exact ⟨_, _, power_covered hless hn hle' s hs h⟩
  | prefixed h => exact ⟨_, _, prefixed_covered hless hn hle' s hs h⟩
  | postfixChain h target => exact ⟨_, _, postfixChain_returns hexpr o _ target s hnext hle h⟩
  | postfixStep target => exact ⟨_, _, postfixStep_returns hexpr o target s hnext hle⟩
  | member target optional => exact ⟨_, _, member_returns hexpr target optional s hnext⟩
  | brackets target optional opened => exact ⟨_, _, brackets_returns hexpr target optional opened s hs⟩
  | sliceRest target start optional opened =>
    exact ⟨_, _, sliceRest_returns hexpr target start optional opened s hs⟩
  | primary => exact ⟨_, _, primary_returns hexpr o s hnext hle⟩
  | parenthesized position h => exact ⟨_, _, parenthesized_returns hexpr position s hnext (isEof_of_isSymbol h)⟩
  | leadingDot optional position h =>
    exact ⟨_, _, leadingDot_returns o optional position s (isEof_of_isSymbol h)⟩
  | items bracket opened h items => exact ⟨_, _, listItems_returns hexpr bracket opened _ items s hs h⟩
  | entries opened h entries =>
    exact ⟨_, _, listItems_returns (objectEntry_returns hexpr) .brace opened _ entries s hs h⟩
  | objectEntry => exact ⟨_, _, objectEntry_returns hexpr s hs⟩
  | close bracket opened => exact ⟨_, _, close_returns bracket opened s⟩
  | stage handler position => exact ⟨_, _, stage_returns (hexpr s hs) handler position⟩
  | optionalAlias => exact ⟨_, _, optionalAlias_returns s⟩
  | aliasName => exact ⟨_, _, aliasName_returns s⟩
  | segment handler position h => exact ⟨_, _, segment_returns (hexpr s hs) h handler position⟩
  | segments handler position stages h hturns =>
    exact ⟨_, _, segments_returns o hexpr _ handler position stages s hs h hturns⟩

theorem Returns.not_exhausted {α : Type} {Q : α → State → Prop} {p q : Parse α} (h : Returns s Q p q) :
    (p s).1 ≠ .error .exhausted := by
  have hsettles := h.settles
  rcases hp : p s with ⟨result, s'⟩
  rw [hp] at hsettles
  rintro rfl
  exact hsettles

/-- **The reader of expressions is one within the levels that the counter leaves it.** -/
theorem expression_within (hn : s.rest.length < n) (hfuel : s.rest.length < fuel) :
    Returns s (Shrinks s) (expression o n fuel) (Recursion.within o bad n (o.maxDepth - s.depth)).expression :=
  (within_covers _ _ (s.rest.length + 1) rfl hn).expression fuel s ⟨rfl, Nat.lt_succ_self _⟩ hfuel

/-- **Each segment of a chain has all levels**, whatever the segments in front of it came to. -/
theorem chain_within (hdepth : s.depth = 0) (hs : ∀ t ∈ s.rest, t.kind.isEof = false)
    (hn : s.rest.length < n) (handler : String) (position : Position) (stages : List (Stage Expr)) :
    Returns s (fun _ _ => True) (segments o (expression o n n) n handler position stages)
      (segments o (Recursion.within o bad n o.maxDepth).expression n handler position stages) := by
  have hcovers := @within_covers o bad n o.maxDepth 0 (s.rest.length + 1) rfl hn
  exact segments_returns o (expression_covered hcovers hn) n handler position stages s
    ⟨hdepth, Nat.lt_succ_self _⟩ hs hn

end Routines

end Parse

/-! ## Calls -/

namespace Reader
open Parse

/-- What a reader can be asked for. -/
inductive Call where
  | expression
  | program

/-- The reader behind a call, whatever came out of it. -/
def after (r : Reader) : Call → Reader
  | .expression => r.expression.2
  | .program => r.program.2

/-- **A reader between two calls**: it is not nested, and the end of the source is not among its tokens. -/
structure Fresh (r : Reader) : Prop where
  depth : r.state.depth = 0
  inner : ∀ t ∈ r.state.rest, t.kind.isEof = false

section Calls
variable {r : Reader}

theorem fresh_ofScanner (scanner : Scanner) (o : Options) : (ofScanner scanner o).Fresh := by
  rcases htokens : scanner.tokens with ⟨tokens, ending⟩
  have hstate : (ofScanner scanner o).state = (State.mk [] ending #[] 0).moveTo tokens := by
    unfold ofScanner
    rw [htokens]
    rfl
  obtain ⟨hrest, _, hdepth⟩ := (State.mk [] ending #[] 0).moveTo_fields tokens
  refine ⟨by rw [hstate, hdepth], ?_⟩
  rw [hstate, hrest]
  exact tokens_inner htokens

theorem expression_returns (r : Reader) : Onward r.state r.expression.2.state ∧
    r.expression.1 ≠ .error .exhausted := by
  have hreturns : Returns r.state (Shrinks r.state) (Parse.expression r.options r.fuel r.fuel)
      (Recursion.within r.options (fail .emptyExpression) r.fuel (r.options.maxDepth - r.state.depth)).expression :=
    expression_within (Nat.lt_succ_self _) (Nat.lt_succ_self _)
  exact ⟨hreturns.onward, hreturns.not_exhausted⟩

/-- A program is read, or there are errors. -/
theorem Fresh.program (h : r.Fresh) : Onward r.state r.program.2.state ∧ r.program.1 ≠ .error [] := by
  have hforget : ∀ {s s' : State}, Onward s s' → Onward s { s' with errors := #[] } := fun h =>
    ⟨h.depth, h.ending, h.passed⟩
  have hreturns := @chain_within r.options (fail .emptyExpression) r.fuel r.state h.depth h.inner
    (Nat.lt_succ_self _) sourceStage r.state.current.position []
  unfold Reader.program
  dsimp only
  split
  · refine ⟨hforget (.refl _), fun herror => ?_⟩
    have hnil := Except.error.inj herror
    split at hnil
    · cases hnil
    · rename_i hsome
      rw [hnil] at hsome
      exact hsome rfl
  · have hexhausted := hreturns.not_exhausted
    have hrecovers := segments_recovers r.options (Parse.expression r.options r.fuel r.fuel) r.fuel sourceStage
      r.state.current.position [] r.state
    have honward := hreturns.onward
    rcases hrun : segments r.options (Parse.expression r.options r.fuel r.fuel) r.fuel sourceStage
      r.state.current.position [] r.state with ⟨result, s'⟩
    rw [hrun] at hexhausted hrecovers honward
    cases result with
    | error e =>
      cases e with
      | fault d => exact absurd rfl (hrecovers d)
      | exhausted => exact absurd rfl hexhausted
    | ok stages =>
      refine ⟨hforget honward, fun herror => ?_⟩
      change (if s'.errors.toList.isEmpty then Except.ok (programOf r.state.current.position stages)
        else Except.error s'.errors.toList) = Except.error [] at herror
      by_cases hnone : s'.errors.toList.isEmpty = true
      · rw [if_pos hnone] at herror
        cases herror
      · rw [if_neg hnone] at herror
        exact hnone (Except.error.inj herror ▸ rfl)

/-- **A call leaves a reader as fresh as it was.** -/
theorem Fresh.after (h : r.Fresh) (call : Call) : (r.after call).Fresh ∧ (r.after call).options = r.options := by
  have honward : Onward r.state (r.after call).state := by
    cases call with
    | expression => exact r.expression_returns.1
    | program => exact h.program.1
  refine ⟨⟨honward.depth.trans h.depth, honward.inner h.inner⟩, ?_⟩
  cases call with
  | expression => rfl
  | program =>
    show r.program.2.options = _
    unfold Reader.program
    dsimp only
    split
    · rfl
    · split <;> rfl

/-- The reader behind any calls, one after the other. -/
theorem Fresh.afterAll (h : r.Fresh) (calls : List Call) :
    (calls.foldl Reader.after r).Fresh ∧ (calls.foldl Reader.after r).options = r.options := by
  induction calls generalizing r with
  | nil => exact ⟨h, rfl⟩
  | cons call calls ih =>
    obtain ⟨hnext, hoptions⟩ := h.after call
    obtain ⟨hlast, hlastOptions⟩ := ih hnext
    exact ⟨hlast, hlastOptions.trans hoptions⟩

/-- **The recursion of a reader is balanced and bounded.**  From any state, every routine comes back to the depth
where it started, has not passed the end of the source, and does not run out of turns.  Nothing is nested deeper
than the options allow, and an expression has at least one token.  So whatever a reader has been asked for
before, and whatever came out of it, its next call ends, and has all levels for each segment. -/
theorem recursion_balanced :
    (∀ (o : Options) (n fuel : Nat) (s : State) (α : Type) (p : Parse α), Routine o n fuel s p →
      s.rest.length < n → s.rest.length < fuel → Onward s (p s).2 ∧ (p s).1 ≠ .error .exhausted) ∧
    (∀ (o : Options) (n fuel : Nat) (s : State), s.rest.length < n → s.rest.length < fuel →
      (∀ bad, Parse.expression o n fuel s =
        (Recursion.within o bad n (o.maxDepth - s.depth)).expression s) ∧
      ∀ e s', Parse.expression o n fuel s = (.ok e, s') → s'.rest.length < s.rest.length) ∧
    ∀ (scanner : Scanner) (o : Options) (calls : List Call) (r : Reader),
      r = calls.foldl after (ofScanner scanner o) → r.state.depth = 0 ∧ r.options = o ∧
        r.expression.1 ≠ .error .exhausted ∧ r.program.1 ≠ .error [] ∧
        ∀ bad, segments o (Parse.expression o r.fuel r.fuel) r.fuel sourceStage r.state.current.position []
            r.state =
          segments o (Recursion.within o bad r.fuel o.maxDepth).expression r.fuel sourceStage
            r.state.current.position [] r.state := by
  refine ⟨fun o n fuel s α p hp hn hfuel => ?_, fun o n fuel s hn hfuel => ⟨fun bad => ?_, fun e s' hrun => ?_⟩,
    fun scanner o calls r hr => ?_⟩
  · obtain ⟨Q, q, hreturns⟩ := hp.returns hn hfuel
    exact ⟨hreturns.onward, hreturns.not_exhausted⟩
  · exact (expression_within hn hfuel).same.symm
  · have hsettles := (@expression_within o (fail .emptyExpression) n fuel s hn hfuel).settles
    rw [hrun] at hsettles
    exact hsettles
  · obtain ⟨hfresh, hoptions⟩ := (fresh_ofScanner scanner o).afterAll calls
    rw [← hr] at hfresh hoptions
    refine ⟨hfresh.depth, hoptions, r.expression_returns.2, hfresh.program.2, fun bad => ?_⟩
    exact (chain_within hfresh.depth hfresh.inner (Nat.lt_succ_self _) _ _ _).same.symm

/-- A first segment that is nested too deep, with a second one behind it that has room. -/
theorem recursion_balanced_deep : ∃ r : Reader,
    r = [Call.program].foldl after (ofScanner (.ofSource "((1)) |: [2]" true) (.mk true true true true 2)) ∧
    parse "((1)) |: [2]" (.mk true true true true 2) =
      .error [(Fault.maxDepthExceeded 2).report ⟨1, 3⟩] ∧
    r.state.depth = 0 ∧ r.expression.1 ≠ .error .exhausted ∧
    Onward r.state (Parse.expression r.options r.fuel r.fuel r.state).2 := by
  obtain ⟨hroutine, -, hcalls⟩ := recursion_balanced
  refine ⟨_, rfl, rfl, ?_⟩
  obtain ⟨hdepth, -, hends, -⟩ := hcalls (.ofSource "((1)) |: [2]" true) (.mk true true true true 2) [.program] _ rfl
  exact ⟨hdepth, hends, (hroutine _ _ _ _ _ _ .expression (Nat.lt_succ_self _) (Nat.lt_succ_self _)).1⟩

end Calls

end Reader

end PipeExpr
