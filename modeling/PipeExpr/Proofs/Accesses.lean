import PipeExpr.Proofs.Extending
import PipeExpr.Proofs.Seams

/-!
# Accesses put together

A source with an access is put together from a source for its target and one for its key, or from the target
and a word or digits.  The tokens and the tree of the whole are those of the parts, and it needs as much room as
the target, or as a key one level deeper (`Extends.named`, `Extends.keyed`, `Extends.indexed`).  Operands of
`??` are put together in the same way (`Spans.coalesced`).
-/

namespace PipeExpr

namespace Parse

/-! ## Readers of a step -/

section Steps
variable {o : Options} {exprs : Nat → Parse Expr} {n height : Nat} {target key longer : Expr}
  {ts : List Token} {s : State} {t t' : Token} {optional : Bool} (hs : s.ending.fault = none)

theorem Performs.looksAt {α : Type} {g : Nat → Bool → Parse α} {w : α} {symbol : Symbol} {b : Bool}
    (ht : t.kind.isSymbol symbol = b) (h : Performs (fun limit => g limit b) (t :: ts) s height w) :
    Performs (fun limit => Parse.looksAt symbol >>= g limit) (t :: ts) s height w := by
  subst ht
  exact h

theorem Performs.currentKind {α : Type} {g : Nat → TokenKind → Parse α} {w : α}
    (h : Performs (fun limit => g limit t.kind) (t :: ts) s height w) :
    Performs (fun limit => Parse.currentKind >>= g limit) (t :: ts) s height w := h

include hs

theorem performs_close (bracket : Bracket) (ht : t.kind.isSymbol bracket.closing = true)
    (opened : Position) : Performs (fun _ => close bracket opened) [t] s 0 () := by
  refine .looksAt ht ?_
  rw [if_pos rfl]
  exact .of_ok fun _ => advance_before hs t

/-- A name or a position behind a dot. -/
theorem performs_property {property : Property} (ht : property? t = some property) :
    Performs (fun limit => member (exprs limit) target optional) [t] s 0
      (.member target.position target property optional) := by
  refine .current ?_
  simp only [ht]
  exact .read hs (.pure _ s)

/-- A key in parentheses behind a dot. -/
theorem performs_key (hopens : t.kind = .symbol .leftParen) (hcloses : t'.kind = .symbol .rightParen)
    (h : Performs exprs ts (s.before [t']) height key) :
    Performs (fun limit => member (exprs limit) target optional) (t :: (ts ++ [t'])) s height
      (.index target.position target key optional) := by
  have hnone : property? t = none := by
    unfold property?
    rw [hopens]
  have hparen : t.kind.isSymbol .leftParen = true := by
    rw [hopens]
    rfl
  refine .current ?_
  simp only [hnone, hparen, if_true]
  refine .read hs ?_
  rw [← Nat.max_zero height]
  exact h.bind ((performs_close hs .paren (by rw [hcloses]; rfl) _).bind_last (.pure _ s))

/-- A key in brackets. -/
theorem performs_brackets (hfirst : ∃ t ts', ts = t :: ts' ∧ leads 15 t.kind = true)
    (hcloses : t'.kind = .symbol .rightBracket) (h : Performs exprs ts (s.before [t']) height key)
    (opened : Position) :
    Performs (fun limit => brackets (exprs limit) target optional opened) (ts ++ [t']) s height
      (.index target.position target key optional) := by
  obtain ⟨t, ts', rfl, hleads⟩ := hfirst
  have hother : ∀ symbol, leads 15 (.symbol symbol) = false → t.kind.isSymbol symbol = false := by
    intro symbol hsymbol
    cases hk : t.kind with
    | symbol symbol' =>
      refine beq_eq_false_iff_ne.mpr fun hsame => ?_
      rw [hk, hsame, hsymbol] at hleads
      cases hleads
    | _ => rfl
  refine .looksAt (hother .rightBracket rfl) ?_
  simp only [Bool.false_eq_true, if_false]
  refine .looksAt (hother .colon rfl) ?_
  simp only [Bool.false_eq_true, if_false]
  rw [← Nat.max_zero height]
  refine h.bind (.looksAt (b := false) (by rw [hcloses]; rfl) ?_)
  simp only [Bool.false_eq_true, if_false]
  exact (performs_close hs .square (by rw [hcloses]; rfl) _).bind_last (.pure _ s)

variable (hchaining : optional = true → o.chaining = true)
include hchaining

/-- A step that starts with a dot. -/
theorem performs_dot (ht : t.kind = (Lexeme.dot optional).kind)
    (h : Performs (fun limit => member (exprs limit) target optional) ts s height longer) :
    Performs (fun limit => postfixStep (o.within limit) (exprs limit) n target) (t :: ts) s height
      (some longer) := by
  have hswitch : ∀ limit, (o.within limit).chaining = o.chaining := fun _ => rfl
  simp only [postfixStep, hswitch]
  refine .current ?_
  cases optional with
  | false =>
    have hkind : t.kind = .symbol .dot := ht
    simp only [hkind]
    exact .read hs (h.map some)
  | true =>
    have hkind : t.kind = .symbol .questionDot := ht
    simp only [hkind, hchaining rfl, if_true]
    exact .read hs (h.map some)

/-- A step that starts with a bracket. -/
theorem performs_bracket (ht : t.kind = (Lexeme.bracket optional).kind)
    (h : Performs (fun limit => brackets (exprs limit) target optional t.position) ts s height longer) :
    Performs (fun limit => postfixStep (o.within limit) (exprs limit) n target) (t :: ts) s height
      (some longer) := by
  have hswitch : ∀ limit, (o.within limit).chaining = o.chaining := fun _ => rfl
  simp only [postfixStep, hswitch]
  refine .current ?_
  cases optional with
  | false =>
    have hkind : t.kind = .symbol .leftBracket := ht
    simp only [hkind]
    exact .read hs (h.map some)
  | true =>
    have hkind : t.kind = .symbol .questionBracket := ht
    simp only [hkind, hchaining rfl, if_true]
    exact .read hs (h.map some)

end Steps

/-- **Two operands of a binary operator**, the left one with what stops it in front of the operator. -/
theorem Performs.binary {o : Options} {n l height height' : Nat} {left right : Expr} {op : BinaryOp}
    {ts ts' : List Token} {t : Token} {s : State} (hop : BinaryOp.atLevel? (l + 1) t.kind = some op)
    (hnullish : op = .nullCoalesce → o.nullish = true) (hl : l ≤ 10) (hn : 0 < n) (hs : s.ending.fault = none)
    (hnext : Stops (l + 4) s.current.kind)
    (h : Performs (fun limit => rowReader (o.within limit) n (l + 3)) ts (s.before (t :: ts')) height left)
    (h' : Performs (fun limit => rowReader (o.within limit) n (l + 3)) ts' s height' right) :
    Performs (fun limit => rowReader (o.within limit) n (l + 4)) (ts ++ t :: ts') s (max height height')
      (.binary left.position op left right) := by
  obtain ⟨k, rfl⟩ : ∃ k, n = k + 1 := ⟨n - 1, by omega⟩
  have hbelow : ∀ limit, rowReader (o.within limit) (k + 1) (l + 3) =
      level (o.within limit) (Parse.expression (o.within limit) (k + 1 + 1) (k + 1)) (k + 1 + 1) l := by
    intro limit
    rw [rowReader_of_le (by omega)]
    cases l <;> rfl
  have hrow : ∀ limit, rowReader (o.within limit) (k + 1) (l + 4) =
      level (o.within limit) (Parse.expression (o.within limit) (k + 1 + 1) (k + 1)) (k + 1 + 1) l >>=
        operands (o.within limit) (l + 1) (rowReader (o.within limit) (k + 1) (l + 3)) (k + 1 + 1) := by
    intro limit
    rw [hbelow, rowReader_of_le (by omega)]
    rfl
  have hswitch : ∀ limit, (o.within limit).nullish = o.nullish := fun _ => rfl
  simp only [hrow, ← hbelow]
  refine h.bind ?_
  have hsecond : Performs (fun limit => rowReader (o.within limit) (k + 1) (l + 3) >>= fun right =>
      operands (o.within limit) (l + 1) (rowReader (o.within limit) (k + 1) (l + 3)) (k + 1)
        (.binary left.position op left right)) ts' s height' (.binary left.position op left right) := by
    exact h'.bind_last (.of_ok fun limit => operands_of_stops hnext ..)
  have hallowed : (decide (op = .nullCoalesce) && !o.nullish) = false := by
    by_cases hcoalesce : op = .nullCoalesce
    · rw [hnullish hcoalesce]
      exact Bool.and_false _
    · rw [decide_eq_false hcoalesce]
      rfl
  simp only [operands, hswitch] at hsecond ⊢
  refine .currentKind ?_
  simp only [hop, hallowed, Bool.false_eq_true, if_false]
  exact .read hs hsecond

end Parse

/-! ## Texts -/

/-- A target with a word behind a dot. -/
def dotted (optional : Bool) (t w : String) : String := t ++ (if optional then "?." else ".") ++ w

/-- A target with a key in brackets. -/
def bracketed (optional : Bool) (t k : String) : String := t ++ (if optional then "?[" else "[") ++ k ++ "]"

theorem toList_dotted (optional : Bool) (t w : String) :
    (dotted optional t w).toList = t.toList ++ ((Lexeme.dot optional).text ++ w.toList) := by
  unfold dotted
  rw [String.toList_append, String.toList_append, List.append_assoc]
  cases optional <;> rfl

theorem toList_bracketed (optional : Bool) (t k : String) : (bracketed optional t k).toList =
    t.toList ++ ((Lexeme.bracket optional).text ++ (k.toList ++ [']'])) := by
  unfold bracketed
  simp only [String.toList_append, List.append_assoc]
  cases optional <;> rfl

namespace Scanner

theorem visible_cons {c : Char} {cs : List Char} (h : Text.isBlank c = false) :
    ∀ d ∈ (c :: cs).head?, Text.isBlank d = false := fun _ hd => Option.some.inj hd ▸ h

section Lexes
variable {front back : List Char} {ieee afterDot : Bool} {ts : List Token}

/-- A lexeme, directly behind what stands in front of it. -/
theorem Lexes.lexeme {lexeme : List Char} {k : TokenKind}
    (hvisible : ∀ c ∈ lexeme.head?, Text.isBlank c = false) (hne : lexeme ≠ [])
    (htoken : Scan.token ieee afterDot (lexeme ++ back) = .ok { kind := k, length := lexeme.length })
    (heof : k.isEof = false) (h : Lexes (front ++ lexeme) back ieee (isDot k) ts) :
    ∃ t, t.kind = k ∧ t.lexeme.toList = lexeme ∧ Lexes front (lexeme ++ back) ieee afterDot (t :: ts) :=
  ⟨_, rfl, String.toList_ofList, Lexes.token [] nofun hvisible hne htoken rfl heof h⟩

theorem Lexes.dot (optional : Bool) (h : Lexes (front ++ (Lexeme.dot optional).text) back ieee true ts) :
    ∃ t, t.kind = (Lexeme.dot optional).kind ∧
      Lexes front ((Lexeme.dot optional).text ++ back) ieee false (t :: ts) := by
  cases optional with
  | false => exact ⟨_, rfl, Lexes.token [] nofun (visible_cons rfl) (List.cons_ne_nil _ _) rfl rfl rfl h⟩
  | true => exact ⟨_, rfl, Lexes.token [] nofun (visible_cons rfl) (List.cons_ne_nil _ _) rfl rfl rfl h⟩

theorem Lexes.bracket (optional : Bool)
    (h : Lexes (front ++ (Lexeme.bracket optional).text) back ieee false ts) :
    ∃ t, t.kind = (Lexeme.bracket optional).kind ∧
      Lexes front ((Lexeme.bracket optional).text ++ back) ieee false (t :: ts) := by
  cases optional with
  | false => exact ⟨_, rfl, Lexes.token [] nofun (visible_cons rfl) (List.cons_ne_nil _ _) rfl rfl rfl h⟩
  | true => exact ⟨_, rfl, Lexes.token [] nofun (visible_cons rfl) (List.cons_ne_nil _ _) rfl rfl rfl h⟩

end Lexes

end Scanner

/-! ## Sources -/

open Parse Scanner

section Sources
variable {o : Options}

/-- A whole expression inside of another one, which may be moved. -/
theorem Spans.nested {source : String} {e : Expr} {tokens : List Token} {position : Position} {height : Nat}
    (h : Spans o 15 source e tokens position height) {n : Nat} (g f : Position → Position) {s : State}
    (hn : tokens.length < n) (hs : s.ending.fault = none) (hnext : Stops 15 s.current.kind) :
    Performs (fun limit => expression (o.within limit) (n + 1) n)
      ((tokens.map (Token.relocate g)).map (Token.relocate f)) s (height + 1) ((e.relocate g).relocate f) := by
  obtain ⟨m, rfl⟩ : ∃ m, n = m + 1 := ⟨n - 1, by omega⟩
  have hperforms := h.performs m (f ∘ g) { s with depth := s.depth + 1 } (Nat.le_of_lt_succ hn) hs hnext
  rw [List.map_map, Expr.relocate_relocate]
  exact hperforms.expression.steady fun limit => (expression_built _ (Nat.le_succ _) (Nat.le_refl _)).steady

/-- **A whole expression with the bracket that closes it**, at the end of a longer text. -/
theorem Spans.enclosed {k : String} {ek : Expr} {ks : List Token} {pk : Position} {hk : Nat}
    (h : Spans o 15 k ek ks pk hk) (front : List Char) (c : Char) (closing : Symbol) (hparts : Scan.parts c = true)
    (hdot : c ≠ '.') (hvisible : Text.isBlank c = false)
    (htoken : Scan.token o.ieee false [c] = .ok { kind := .symbol closing, length := 1 })
    (hstops : Stops 15 (.symbol closing)) : ∃ g right, right.kind = .symbol closing ∧ right.lexeme.toList = [c] ∧
      Lexes front (k.toList ++ [c]) o.ieee false (ks.map (Token.relocate g) ++ [right]) ∧
      (∀ t ∈ ks.map (Token.relocate g) ++ [right], Inner t) ∧
      ∀ n f (s : State), (ks.map (Token.relocate g) ++ [right]).length ≤ n → s.ending.fault = none →
        Performs (fun limit => expression (o.within limit) (n + 1) n)
          ((ks.map (Token.relocate g)).map (Token.relocate f)) (s.before [right.relocate f]) (hk + 1)
          ((ek.relocate g).relocate f) := by
  obtain ⟨right, hright, hlexeme, hlast⟩ : ∃ right, right.kind = .symbol closing ∧ right.lexeme.toList = [c] ∧
      Lexes (front ++ k.toList) ([c] ++ []) o.ieee false [right] :=
    Lexes.lexeme (visible_cons hvisible) (List.cons_ne_nil c []) htoken rfl (lexes_end ..)
  have hlexes : Lexes front (k.toList ++ [c]) o.ieee false _ := Lexes.source h.scans h.closed
    (fun d hd => Option.some.inj hd ▸ hparts) (fun _ d hd => Option.some.inj hd ▸ hdot) hlast
  refine ⟨_, right, hright, hlexeme, hlexes, ?_, fun n f s hn hs => ?_⟩
  · have hinner : Inner right := inner_of_isSymbol (s := closing) (by rw [hright]; exact beq_self_eq_true _)
    exact List.forall_mem_append.mpr ⟨List.forall_mem_map.mpr h.inner, List.forall_mem_singleton.mpr hinner⟩
  · rw [List.length_append, List.length_map] at hn
    have hnext : Stops 15 (s.before [right.relocate f]).current.kind := by
      show Stops 15 right.kind
      rwa [hright]
    exact h.nested _ f hn hs hnext

theorem inner_of_dot {optional : Bool} {t : Token} (h : t.kind = (Lexeme.dot optional).kind) : Inner t :=
  inner_of_isSymbol (s := if optional then .questionDot else .dot) (by rw [h]; exact beq_self_eq_true _)

theorem inner_of_bracket {optional : Bool} {t : Token} (h : t.kind = (Lexeme.bracket optional).kind) : Inner t :=
  inner_of_isSymbol (s := if optional then .questionBracket else .leftBracket)
    (by rw [h]; exact beq_self_eq_true _)

section Targets
variable {t : String} {e : Expr} {tokens : List Token} {position : Position} {height : Nat}
  (h : Extends o t e tokens position height) (hbare : endsBare false tokens = false)
include h hbare

/-- **A target with a step behind it** is read if the step is. -/
theorem Extends.step (longer : Expr) (height' : Nat) {source : String} {more : List Char}
    (hsource : source.toList = t.toList ++ more)
    (hmore : ∀ d ∈ more.head?, Scan.parts d = true) {ts : List Token}
    (hlexes : Lexes t.toList more o.ieee false ts) (hclosed : Closed ts) (hinner : ∀ t ∈ ts, Inner t)
    (hstep : ∀ n f (s : State), ts.length ≤ n → s.ending.fault = none →
      Performs (fun limit => postfixStep (o.within limit) (expression (o.within limit) (n + 1) n) (n + 1)
        ((e.relocate (Position.beyond [])).relocate f)) (ts.map (Token.relocate f)) s height'
        (some (longer.relocate f))) :
    ∃ position', Spans o 1 source longer (tokens.map (Token.relocate (Position.beyond [])) ++ ts) position'
      (max height height') := by
  obtain ⟨position', hscan⟩ : Lexes [] (t.toList ++ more) o.ieee false _ := Lexes.source h.scans h.closed hmore
    (fun hbare' => absurd (hbare.symm.trans hbare') Bool.false_ne_true) hlexes
  refine ⟨position', ?_, hclosed.append _, ?_, ?_, fun n f s hn hs hnext => ?_⟩
  · rw [← hsource] at hscan
    exact hscan
  · exact List.forall_mem_append.mpr ⟨List.forall_mem_map.mpr h.inner, hinner⟩
  · obtain ⟨t, rest, rfl, hleads⟩ := h.first
    exact ⟨_, _, rfl, hleads⟩
  · rw [List.length_append, List.length_map] at hn
    rw [List.map_append, List.map_map]
    refine h.longer n (f ∘ Position.beyond []) s _ height' _ (by omega) hs fun k => ?_
    rw [← Expr.relocate_relocate]
    exact performs_chain_step k (Nat.ne_of_gt hnext) (hstep n f s (by omega) hs)

variable {optional : Bool} (hchaining : optional = true → o.chaining = true)
include hchaining

/-- A name or a position behind a dot. -/
theorem Extends.named {w : String} {k : TokenKind} {property : Property}
    (hvisible : ∀ c ∈ w.toList.head?, Text.isBlank c = false) (hne : w.toList ≠ [])
    (htoken : Scan.token o.ieee true w.toList = .ok { kind := k, length := w.toList.length })
    (hproperty : ∀ t : Token, t.kind = k → t.lexeme = w → property? t = some property) :
    ∃ tokens' position', Spans o 1 (dotted optional t w)
      (.member (Position.beyond [] e.position) (e.relocate (Position.beyond [])) property optional) tokens'
      position' height := by
  have hcloses : closes k = true := closes_of_property? (hproperty ⟨k, w, .start, false, false⟩ rfl rfl)
  have heof : k.isEof = false := (inner_of_closes (t := ⟨k, w, .start, false, false⟩) hcloses).2
  obtain ⟨word, hkind, hlexeme, hword⟩ : ∃ word, word.kind = k ∧ word.lexeme.toList = w.toList ∧
      Lexes (t.toList ++ (Lexeme.dot optional).text) (w.toList ++ []) o.ieee true [word] :=
    Lexes.lexeme hvisible hne (by rw [List.append_nil]; exact htoken) heof (lexes_end ..)
  rw [List.append_nil] at hword
  obtain ⟨dot, hdot, hlexes⟩ := Lexes.dot optional hword
  have hinner : ∀ t' ∈ [dot, word], Inner t' := List.forall_mem_cons.mpr
    ⟨inner_of_dot hdot, List.forall_mem_singleton.mpr (inner_of_closes (hkind.symm ▸ hcloses))⟩
  obtain ⟨position', hspans⟩ := h.step hbare
    (.member (Position.beyond [] e.position) (e.relocate (Position.beyond [])) property optional) 0
    (toList_dotted optional t w) (fun d hd => by cases optional <;> exact Option.some.inj hd ▸ rfl) hlexes
    ⟨[dot], word, rfl, hkind.symm ▸ hcloses⟩ hinner fun n f s _ hs => by
      have hmember : Performs (fun limit => member (expression (o.within limit) (n + 1) n)
          ((e.relocate (Position.beyond [])).relocate f) optional) [word.relocate f] s 0 _ :=
        performs_property hs (hproperty (word.relocate f) hkind (String.toList_inj.mp hlexeme))
      have hstep := performs_dot (n := n + 1) (t := dot.relocate f) hs hchaining hdot hmember
      rwa [Expr.position_relocate, Expr.position_relocate] at hstep
  rw [Nat.max_zero] at hspans
  exact ⟨_, position', hspans⟩

/-- A key in parentheses behind a dot. -/
theorem Extends.keyed {k : String} {ek : Expr} {ks : List Token} {pk : Position} {hk : Nat}
    (hkey : Spans o 15 k ek ks pk hk) : ∃ g tokens' position', Spans o 1 (dotted optional t ("(" ++ k ++ ")"))
      (.index (Position.beyond [] e.position) (e.relocate (Position.beyond [])) (ek.relocate g) optional) tokens'
      position' (max height (hk + 1)) := by
  have hkeyText : ("(" ++ k ++ ")").toList = ['('] ++ (k.toList ++ [')']) := by
    simp only [String.toList_append]
    rfl
  obtain ⟨g, right, hright, -, hlexes, hinner, hnested⟩ := hkey.enclosed
    (t.toList ++ (Lexeme.dot optional).text ++ ['(']) ')' .rightParen rfl (by decide) rfl rfl (by decide)
  obtain ⟨left, hleft, -, hlexes⟩ : ∃ left, left.kind = .symbol .leftParen ∧ left.lexeme.toList = ['('] ∧
      Lexes (t.toList ++ (Lexeme.dot optional).text) (['('] ++ (k.toList ++ [')'])) o.ieee true
        (left :: (ks.map (Token.relocate g) ++ [right])) :=
    Lexes.lexeme (visible_cons rfl) (List.cons_ne_nil _ _) rfl rfl hlexes
  obtain ⟨dot, hdot, hlexes⟩ := Lexes.dot optional hlexes
  have hinner' : ∀ t' ∈ dot :: left :: (ks.map (Token.relocate g) ++ [right]), Inner t' := List.forall_mem_cons.mpr
    ⟨inner_of_dot hdot, List.forall_mem_cons.mpr ⟨inner_of_isSymbol (s := .leftParen) (by rw [hleft]; rfl), hinner⟩⟩
  obtain ⟨position', hspans⟩ := h.step hbare
    (.index (Position.beyond [] e.position) (e.relocate (Position.beyond [])) (ek.relocate g) optional) (hk + 1)
    ((toList_dotted optional t _).trans (by rw [hkeyText]))
    (fun d hd => by cases optional <;> exact Option.some.inj hd ▸ rfl) hlexes
    ⟨dot :: left :: ks.map (Token.relocate g), right, rfl, by rw [hright]; rfl⟩ hinner' fun n f s hn hs => by
      have hmember : Performs (fun limit => member (expression (o.within limit) (n + 1) n)
          ((e.relocate (Position.beyond [])).relocate f) optional)
          (left.relocate f :: ((ks.map (Token.relocate g)).map (Token.relocate f) ++ [right.relocate f])) s
          (hk + 1) _ := performs_key hs (show (left.relocate f).kind = _ from hleft)
            (show (right.relocate f).kind = _ from hright) (hnested n f s (by simp only [List.length_cons] at hn; omega) hs)
      have hstep := performs_dot (n := n + 1) (t := dot.relocate f) hs hchaining hdot hmember
      rw [Expr.position_relocate, Expr.position_relocate] at hstep
      simp only [List.map_cons, List.map_append, List.map_nil]
      exact hstep
  exact ⟨g, _, position', hspans⟩

/-- A key in brackets. -/
theorem Extends.indexed {k : String} {ek : Expr} {ks : List Token} {pk : Position} {hk : Nat}
    (hkey : Spans o 15 k ek ks pk hk) : ∃ g tokens' position', Spans o 1 (bracketed optional t k)
      (.index (Position.beyond [] e.position) (e.relocate (Position.beyond [])) (ek.relocate g) optional) tokens'
      position' (max height (hk + 1)) := by
  obtain ⟨g, right, hright, -, hlexes, hinner, hnested⟩ := hkey.enclosed
    (t.toList ++ (Lexeme.bracket optional).text) ']' .rightBracket rfl (by decide) rfl rfl (by decide)
  obtain ⟨left, hleft, hlexes⟩ := Lexes.bracket optional hlexes
  have hinner' : ∀ t' ∈ left :: (ks.map (Token.relocate g) ++ [right]), Inner t' :=
    List.forall_mem_cons.mpr ⟨inner_of_bracket hleft, hinner⟩
  obtain ⟨position', hspans⟩ := h.step hbare
    (.index (Position.beyond [] e.position) (e.relocate (Position.beyond [])) (ek.relocate g) optional) (hk + 1)
    (toList_bracketed optional t k) (fun d hd => by cases optional <;> exact Option.some.inj hd ▸ rfl) hlexes
    ⟨left :: ks.map (Token.relocate g), right, rfl, by rw [hright]; rfl⟩ hinner' fun n f s hn hs => by
      have hfirst : ∃ t ts', (ks.map (Token.relocate g)).map (Token.relocate f) = t :: ts' ∧
          leads 15 t.kind = true := by
        obtain ⟨t, rest, rfl, hleads⟩ := hkey.first
        exact ⟨_, _, rfl, hleads⟩
      have hbrackets : Performs (fun limit => brackets (expression (o.within limit) (n + 1) n)
          ((e.relocate (Position.beyond [])).relocate f) optional (left.relocate f).position)
          ((ks.map (Token.relocate g)).map (Token.relocate f) ++ [right.relocate f]) s (hk + 1) _ :=
        performs_brackets hs hfirst (show (right.relocate f).kind = _ from hright)
          (hnested n f s (by simp only [List.length_cons] at hn; omega) hs) _
      have hstep := performs_bracket (n := n + 1) (t := left.relocate f) hs hchaining hleft hbrackets
      rw [Expr.position_relocate, Expr.position_relocate] at hstep
      simp only [List.map_cons, List.map_append, List.map_nil]
      exact hstep
  exact ⟨g, _, position', hspans⟩

end Targets

/-! ### Defaults -/

/-- A default behind an access. -/
theorem Spans.coalesced {a r gap : String} {ea er : Expr} {ts rs : List Token} {pa pr : Position} {ha hr : Nat}
    (h : Spans o 1 a ea ts pa ha) (h' : Spans o 13 r er rs pr hr) (hnullish : o.nullish = true)
    (hgap : ∀ c ∈ gap.toList, Text.isBlank c = true) : ∃ g tokens position,
      Spans o 14 (a ++ gap ++ "??" ++ r) (.binary (Position.beyond [] ea.position) .nullCoalesce
        (ea.relocate (Position.beyond [])) (er.relocate g)) tokens position (max ha hr) := by
  have htext : (a ++ gap ++ "??" ++ r).toList = a.toList ++ (gap.toList ++ (['?', '?'] ++ r.toList)) := by
    simp only [String.toList_append, List.append_assoc]
    rfl
  have hmore : ∀ d ∈ (gap.toList ++ (['?', '?'] ++ r.toList)).head?, Scan.parts d = true ∧ d ≠ '.' := by
    cases hgaps : gap.toList with
    | nil => exact fun d hd => Option.some.inj hd ▸ ⟨rfl, by decide⟩
    | cons c cs =>
      intro d hd
      obtain rfl := Option.some.inj hd
      have hblank := hgap c (hgaps ▸ List.mem_cons_self ..)
      exact ⟨Bool.or_eq_true_iff.mpr (.inl hblank), Scan.ne_of_isBlank hblank rfl⟩
  obtain ⟨g, mark, hmark, position, hscan⟩ : ∃ g, ∃ mark : Token, mark.kind = .symbol .questionQuestion ∧
      Lexes [] (a.toList ++ (gap.toList ++ (['?', '?'] ++ r.toList))) o.ieee false
        (ts.map (Token.relocate (Position.beyond [])) ++ mark :: rs.map (Token.relocate g)) := by
    have hlast : Lexes a.toList (gap.toList ++ (['?', '?'] ++ r.toList)) o.ieee false _ :=
      Lexes.token gap.toList hgap (visible_cons rfl) (List.cons_ne_nil _ _) rfl rfl rfl
        (lexes_moved h'.scans h'.closed _)
    exact ⟨_, _, rfl, Lexes.source h.scans h.closed (fun d hd => (hmore d hd).1)
      (fun _ d hd => (hmore d hd).2) hlast⟩
  have hclosed : Closed (rs.map (Token.relocate g)) := by
    obtain ⟨front, t, rfl, ht⟩ := h'.closed
    exact ⟨front.map (Token.relocate g), t.relocate g, List.map_append, ht⟩
  rw [← htext] at hscan
  refine ⟨g, ts.map (Token.relocate (Position.beyond [])) ++ mark :: rs.map (Token.relocate g), position, hscan,
    (hclosed.append [mark]).append _, ?_, ?_, fun n f s hn hs hnext => ?_⟩
  · exact List.forall_mem_append.mpr ⟨List.forall_mem_map.mpr h.inner, List.forall_mem_cons.mpr
      ⟨inner_of_isSymbol (s := .questionQuestion) (by rw [hmark]; rfl), List.forall_mem_map.mpr h'.inner⟩⟩
  · obtain ⟨t, rest, rfl, hleads⟩ := h.first
    exact ⟨_, _, rfl, Bool.or_eq_true_iff.mpr (.inl (opens_of_leads (Nat.le_refl 1) hleads))⟩
  -- the left operand goes down to the level of the operator, the right one is on the next tighter row
  rw [List.length_append, List.length_cons, List.length_map, List.length_map] at hn
  have hleft := (h.loosen (Nat.le_refl 1) (show 1 ≤ 13 by decide) (by decide)).performs n
    (f ∘ Position.beyond []) (s.before ((mark :: rs.map (Token.relocate g)).map (Token.relocate f)))
    (by omega) hs (by
      show Stops 13 mark.kind
      rw [hmark]
      decide)
  have hright := h'.performs n (f ∘ g) s (by omega) hs (hnext.mono (Nat.le_succ 13))
  have hop : BinaryOp.atLevel? (10 + 1) (mark.relocate f).kind = some .nullCoalesce := by
    show BinaryOp.atLevel? (10 + 1) mark.kind = _
    rw [hmark]
    rfl
  have hboth := Performs.binary hop (fun _ => hnullish) (by decide) (by omega) hs hnext hleft
    (by rw [List.map_map]; exact hright)
  simp only [List.map_append, List.map_cons, List.map_map, Expr.relocate, Expr.relocate_relocate]
  rw [List.map_map, Expr.position_relocate] at hboth
  exact hboth

/-! ### Operands -/

/-- A source that is read at once is the start of a chain. -/
theorem extends_primary {source : String} {e : Expr} {ts : List Token} {height : Nat}
    (hlexes : Lexes [] source.toList o.ieee false ts) (hclosed : Closed ts) (hinner : ∀ t ∈ ts, Inner t)
    (hfirst : ∃ t rest, ts = t :: rest ∧ opens t.kind = true)
    (hprimary : ∀ n f (s : State), ts.length ≤ n → s.ending.fault = none →
      Performs (fun limit => primary (o.within limit) (expression (o.within limit) (n + 1) n) (n + 1))
        (ts.map (Token.relocate f)) s height (e.relocate f)) :
    ∃ position, Extends o source e ts position height := by
  obtain ⟨position, hscan⟩ := hlexes
  obtain ⟨t, rest, rfl, hopens⟩ := hfirst
  refine ⟨position, ⟨hscan, hclosed, hinner, ⟨t, rest, rfl, Bool.or_eq_true_iff.mpr (.inl hopens)⟩, ?_⟩, ?_⟩
  · intro n f s hn hs hnext
    simp only [rowReader_of_le (show 1 ≤ 14 by decide), reader]
    exact (hprimary n f s hn hs).bind_last (performs_chain_end n (Nat.ne_of_gt hnext))
  · intro n f s ts' height' v hn hs hrest
    obtain ⟨k, rfl⟩ : ∃ k, n = k + 1 := ⟨n - 1, by
      rw [List.length_cons] at hn
      omega⟩
    simp only [rowReader_of_le (show 1 ≤ 14 by decide), reader]
    exact (hprimary (k + 1) f (s.before ts') hn hs).bind (hrest k)

/-- A source of a single token. -/
theorem extends_token {source : String} {k : TokenKind} {e : Position → Expr}
    (hvisible : ∀ c ∈ source.toList.head?, Text.isBlank c = false) (hne : source.toList ≠ [])
    (htoken : Scan.token o.ieee false source.toList = .ok { kind := k, length := source.toList.length })
    (hcloses : closes k = true) (hopens : opens k = true) (he : ∀ f p, (e p).relocate f = e (f p))
    (hprimary : ∀ place (exprs : Nat → Parse Expr) n (s : State), s.ending.fault = none →
      Performs (fun limit => primary (o.within limit) (exprs limit) n) [⟨k, source, place, false, false⟩] s 0
        (e place)) :
    ∃ ts place position, Extends o source (e place) ts position 0 := by
  have hinner : ∀ place, Inner ⟨k, source, place, false, false⟩ := fun _ => inner_of_closes hcloses
  have hlexes : Lexes [] ([] ++ (source.toList ++ [])) o.ieee false _ := Lexes.token [] nofun hvisible hne
    (by rw [List.append_nil]; exact htoken) rfl (hinner .start).2 (lexes_end ..)
  rw [String.ofList_toList, List.nil_append, List.append_nil] at hlexes
  obtain ⟨position, hextends⟩ : ∃ position, Extends o source (e _) _ position 0 := extends_primary hlexes
    ⟨[], _, rfl, hcloses⟩ (List.forall_mem_singleton.mpr (hinner _)) ⟨_, [], rfl, hopens⟩ fun n f s _ hs => by
      rw [he]
      exact hprimary _ _ (n + 1) s hs
  exact ⟨_, _, position, hextends⟩

end Sources

end PipeExpr
