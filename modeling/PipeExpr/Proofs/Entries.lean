import PipeExpr.Proofs.Extent
import PipeExpr.Proofs.Keys
import PipeExpr.Proofs.Sites
import PipeExpr.Proofs.Synonyms

/-!
# Objects of one entry

A word or a text in quotes names the entry that it is the key of, and so does a number, by the text of its double.
An access by the same name finds the entry, and an access by a number looks for the text of its double too.  So
what is written as a key is read back by it (`entry_selected`), whichever way a numeral is written.

The object is read as the start of a chain (`extends_entry`), with the value as a part of it that was moved.  What
the access has to do with the value is told by one tree, in which nothing was moved (`Expr.pick`): it does what the
value does, unless it meets a limit (`Expr.Follows`).  This is passed on to all trees with the same code.
-/

namespace PipeExpr

open Parse Scanner

/-! ## Reading an object -/

namespace Parse

section Keys
variable {t : Token} {name : String} (h : objectKey? t = some name)
include h

theorem closes_of_objectKey? : closes t.kind = true := by
  unfold objectKey? at h
  cases hk : t.kind with
  | symbol s =>
    rw [hk] at h
    cases s <;> first | rfl | cases h
  | pipe | eof => rw [hk] at h; cases h
  | _ => rfl

/-- The only symbol that is a key is `as`. -/
theorem isSymbol_of_objectKey? {symbol : Symbol} (hs : symbol ≠ .as) : t.kind.isSymbol symbol = false := by
  unfold objectKey? at h
  cases hk : t.kind with
  | symbol s =>
    rw [hk] at h
    cases s with
    | as => exact beq_eq_false_iff_ne.mpr hs.symm
    | _ => cases h
  | _ => rfl

end Keys

section Lists
variable {o : Options} {n height : Nat} {ts : List Token} {s : State} {t' : Token}
  (hs : s.ending.fault = none)
include hs

/-- A list of one item. -/
theorem performs_item {α : Type} {items : Nat → Parse α} {x : α} (bracket : Bracket)
    (hfirst : ∃ t rest, ts = t :: rest ∧ t.kind.isSymbol bracket.closing = false ∧
      t.kind.isSymbol .comma = false ∧ t.kind.isEof = false)
    (hcloses : t'.kind = .symbol bracket.closing) (h : Performs items ts (s.before [t']) height x)
    (opened : Position) : Performs (fun limit => listItems bracket opened (items limit) (n + 2) []) (ts ++ [t'])
      s height [x] := by
  obtain ⟨t, rest, rfl, hother, hcomma, heof⟩ := hfirst
  have hcomma' : t'.kind.isSymbol .comma = false := by
    rw [hcloses]
    cases bracket <;> rfl
  have hcloses' : t'.kind.isSymbol bracket.closing = true := by
    rw [hcloses]
    exact beq_self_eq_true _
  simp only [listItems]
  refine .looksAt hother ?_
  simp only [Bool.false_eq_true, if_false]
  refine .looksAt hcomma ?_
  simp only [Bool.false_eq_true, if_false]
  refine .currentKind ?_
  simp only [heof, Bool.false_eq_true, if_false]
  rw [← Nat.max_zero height]
  refine h.bind (.looksAt hcomma' ?_)
  simp only [Bool.false_eq_true, if_false]
  refine .looksAt hcloses' ?_
  simp only [if_true]
  refine .looksAt hcloses' ?_
  simp only [if_true]
  exact .read hs (.pure _ s)

/-- An entry. -/
theorem performs_entry {exprs : Nat → Parse Expr} {key colon : Token} {name : String} {v : Expr}
    (hkey : objectKey? key = some name) (hcolon : colon.kind = .symbol .colon)
    (h : Performs exprs ts s height v) :
    Performs (fun limit => objectEntry (exprs limit)) (key :: colon :: ts) s height (name, v) := by
  refine .current ?_
  simp only [hkey]
  refine .read hs (.looksAt (b := true) (by rw [hcolon]; rfl) ?_)
  simp only [if_true]
  exact .read hs (h.bind_last (.pure _ s))

/-- **An object of one entry.** -/
theorem performs_object {exprs : Nat → Parse Expr} {left key colon right : Token} {name : String} {v : Expr}
    (hleft : left.kind = .symbol .leftBrace) (hkey : objectKey? key = some name)
    (hcolon : colon.kind = .symbol .colon) (hright : right.kind = .symbol .rightBrace)
    (h : Performs exprs ts (s.before [right]) height v) :
    Performs (fun limit => primary (o.within limit) (exprs limit) (n + 2)) (left :: key :: colon :: (ts ++ [right]))
      s height (.object left.position [(name, v)]) := by
  have hentry := performs_entry (s := s.before [right]) hs hkey hcolon h
  have heof := (inner_of_closes (closes_of_objectKey? hkey)).2
  have hlist := performs_item (n := n) hs .brace ⟨_, _, rfl, isSymbol_of_objectKey? hkey (by decide),
    isSymbol_of_objectKey? hkey (by decide), heof⟩ hright hentry left.position
  refine .current ?_
  simp only [hleft]
  exact .read hs (hlist.bind_last (.pure _ s))

end Lists

end Parse

namespace Scan
variable {ieee afterDot : Bool} {cs : List Char} {found : Found} {x : Float}

/-- **A number** starts with a digit, or it is a name that means one. -/
theorem token_number (h : token ieee afterDot cs = .ok found) (hx : found.kind = .number x) : ∃ c rest, cs = c :: rest ∧
    (Text.isDigit c = true ∧ number afterDot cs = .ok found ∨
      startsName c = true ∧ (c = 'r' → ∀ d ∈ rest.head?, isQuote d = false) ∧ found = name ieee cs) := by
  cases token_reading h with
  | symbol s _ hr =>
    obtain rfl := Except.ok.inj hr
    rcases symbolKind_kind s cs with ⟨_, hkind⟩ | ⟨_, hkind⟩ <;> cases hkind.symm.trans hx
  | eof _ hr =>
    obtain rfl := Except.ok.inj hr
    cases hx
  | text raw quote rest _ _ hr =>
    obtain ⟨_, _, -, rfl⟩ := of_literal hr
    cases hx
  | number c rest hc hcs hr => exact ⟨c, rest, hcs, .inl ⟨hc, hr⟩⟩
  | name c rest hc hraw hcs hr => exact ⟨c, rest, hcs, .inr ⟨hc, hraw, Except.ok.inj hr⟩⟩
  | stray _ _ _ hr => cases hr
  | invalid _ _ _ _ _ _ _ hr => cases hr

section Number
variable (h : token ieee afterDot cs = .ok found) (hx : found.kind = .number x)
include h hx

theorem visible_number : cs ≠ [] ∧ ∀ c ∈ cs.head?, Text.isBlank c = false := by
  obtain ⟨c, rest, rfl, hc⟩ := token_number h hx
  refine ⟨List.cons_ne_nil c rest, fun d hd => Option.some.inj hd ▸ ?_⟩
  exact hc.elim (fun hc => isBlank_of_isDigit hc.1) fun hc => isBlank_of_startsName hc.1

/-- A number is the same in front of what breaks it off. -/
theorem number_kept_before {more : List Char} (hmore : ∀ d ∈ more.head?, breaks d = true ∧ d ≠ '.') :
    token ieee afterDot (cs ++ more) = .ok found := by
  have hbreaks : ∀ d ∈ more.head?, breaks d = true := fun d hd => (hmore d hd).1
  obtain ⟨c, rest, rfl, ⟨hc, hnumber⟩ | ⟨hc, hraw, rfl⟩⟩ := token_number h hx
  · exact (token_digit afterDot hc (rest ++ more)).trans
      (number_append hbreaks (List.cons_ne_nil c rest) hnumber fun _ _ d hd => (hmore d hd).2)
  · have hletter : c = 'r' → ∀ d ∈ (rest ++ more).head?, isQuote d = false := fun hletter =>
      head?_append_imp (hraw hletter) fun d hd => isQuote_of_breaks (hbreaks d hd)
    rw [← name_append hbreaks, List.cons_append, token_name afterDot hc hletter]

end Number

end Scan

namespace Scanner

theorem endsBare_concat {t : Token} (h : t.lexeme.toList.head?.any Text.isDigit = false) :
    ∀ (afterDot : Bool) (ts : List Token), endsBare afterDot (ts ++ [t]) = false
  | afterDot, [] => by
    show (!afterDot && t.lexeme.toList.head?.any Text.isDigit) = false
    rw [h, Bool.and_false]
  | afterDot, t' :: ts => by
    rw [List.cons_append, endsBare_cons, if_neg (List.append_ne_nil_of_right_ne_nil ts (List.cons_ne_nil t []))]
    exact endsBare_concat h _ ts

end Scanner

/-- An object with a single entry. -/
def entryText (n v : String) : String := "\x7b" ++ n ++ ":" ++ v ++ "\x7d"

theorem toList_entryText (n v : String) : (entryText n v).toList =
    ['\x7b'] ++ (n.toList ++ ([':'] ++ (v.toList ++ ['\x7d']))) := by
  unfold entryText
  simp only [String.toList_append, List.append_assoc]
  rfl

/-- A text that is read as the key of an entry. -/
structure KeyText (ieee : Bool) (n name : String) : Prop where
  ne_nil : n.toList ≠ []
  visible : ∀ c ∈ n.toList.head?, Text.isBlank c = false
  token : ∃ k, (∀ rest, Scan.token ieee false (n.toList ++ ':' :: rest) =
      .ok { kind := k, length := n.toList.length }) ∧
    ∀ t : Token, t.kind = k → t.lexeme = n → objectKey? t = some name

/-- A number is a key by the text of its double. -/
theorem keyText_number {ieee : Bool} {n : String} {x : Float}
    (hn : Scan.token ieee false n.toList = .ok { kind := .number x, length := n.toList.length }) :
    KeyText ieee n (Double.text x) := by
  obtain ⟨hne, hvisible⟩ := Scan.visible_number hn rfl
  refine ⟨hne, hvisible, .number x, fun rest => ?_, fun t hkind _ => ?_⟩
  · exact Scan.number_kept_before hn rfl fun d hd => Option.some.inj hd ▸ ⟨rfl, by decide⟩
  · unfold objectKey?
    rw [hkind]

/-- **An object of one entry** is the start of a chain. -/
theorem extends_entry {o : Options} {n name v : String} {ev : Expr} {vs : List Token} {pv : Position}
    {height : Nat} (hn : KeyText o.ieee n name) (hv : Spans o 15 v ev vs pv height) :
    ∃ place g ts position, endsBare false ts = false ∧
      Extends o (entryText n v) (.object place [(name, ev.relocate g)]) ts position (height + 1) := by
  obtain ⟨hne, hvisible, k, htoken, hnames⟩ := hn
  obtain ⟨g, right, hright, hbrace, hlexes, hinner, hnested⟩ := hv.enclosed
    (([] ++ ['\x7b']) ++ n.toList ++ [':']) '\x7d' .rightBrace rfl (by decide) rfl rfl (by decide)
  obtain ⟨colon, hcolon, -, hlexes⟩ : ∃ colon, colon.kind = .symbol .colon ∧ colon.lexeme.toList = [':'] ∧
      Lexes (([] ++ ['\x7b']) ++ n.toList) ([':'] ++ (v.toList ++ ['\x7d'])) o.ieee false
        (colon :: (vs.map (Token.relocate g) ++ [right])) :=
    Lexes.lexeme (visible_cons rfl) (List.cons_ne_nil _ _) rfl rfl hlexes
  have hcloses : closes k = true := closes_of_objectKey? (hnames ⟨k, n, .start, false, false⟩ rfl rfl)
  have hplain := inner_of_closes (t := ⟨k, n, .start, false, false⟩) hcloses
  obtain ⟨key, hkey, hlexeme, hlexes⟩ : ∃ key, key.kind = k ∧ key.lexeme.toList = n.toList ∧
      Lexes ([] ++ ['\x7b']) (n.toList ++ ([':'] ++ (v.toList ++ ['\x7d']))) o.ieee false
        (key :: colon :: (vs.map (Token.relocate g) ++ [right])) :=
    Lexes.lexeme hvisible hne (htoken _) hplain.2 (isDot_of_closes hcloses ▸ hlexes)
  obtain ⟨left, hleft, -, hlexes⟩ : ∃ left, left.kind = .symbol .leftBrace ∧ left.lexeme.toList = ['\x7b'] ∧
      Lexes [] (['\x7b'] ++ (n.toList ++ ([':'] ++ (v.toList ++ ['\x7d'])))) o.ieee false
        (left :: key :: colon :: (vs.map (Token.relocate g) ++ [right])) :=
    Lexes.lexeme (visible_cons rfl) (List.cons_ne_nil _ _) rfl rfl hlexes
  rw [← toList_entryText] at hlexes
  have hinner' : ∀ t ∈ left :: key :: colon :: (vs.map (Token.relocate g) ++ [right]), Inner t :=
    List.forall_mem_cons.mpr ⟨inner_of_isSymbol (s := .leftBrace) (by rw [hleft]; rfl),
      List.forall_mem_cons.mpr ⟨inner_of_closes (hkey.symm ▸ hcloses),
        List.forall_mem_cons.mpr ⟨inner_of_isSymbol (s := .colon) (by rw [hcolon]; rfl), hinner⟩⟩⟩
  have hbare : endsBare false ((left :: key :: colon :: vs.map (Token.relocate g)) ++ [right]) = false :=
    endsBare_concat (by rw [hbrace]; rfl) false _
  obtain ⟨position, hextends⟩ : ∃ position, Extends o (entryText n v)
      (.object left.position [(name, ev.relocate g)]) _ position (height + 1) := extends_primary
    hlexes ⟨left :: key :: colon :: vs.map (Token.relocate g), right, rfl, by rw [hright]; rfl⟩ hinner'
    ⟨left, _, rfl, by rw [hleft]; rfl⟩ fun n f s hn hs => by
      simp only [List.length_cons] at hn
      obtain ⟨k, rfl⟩ : ∃ k, n = k + 1 := ⟨n - 1, by omega⟩
      simp only [List.map_cons, List.map_append, List.map_nil]
      exact performs_object hs (show (left.relocate f).kind = _ from hleft)
        (hnames (key.relocate f) hkey (String.toList_inj.mp hlexeme))
        (show (colon.relocate f).kind = _ from hcolon)
        (show (right.relocate f).kind = _ from hright) (hnested (k + 1) f s (by omega) hs)
  exact ⟨left.position, g, _, position, hbare, hextends⟩

/-- The value of an entry is no chain. -/
theorem Fragment.root_of_entry {o : Options} {n name v : String} {ev : Expr} (hn : KeyText o.ieee n name)
    (hv : Fragment o 15 v ev) : ev.isPipe = false := by
  obtain ⟨vs, pv, height, -, hspans⟩ := hv.spans (Nat.le_refl 15)
  obtain ⟨place, g, ts, position, -, hextends⟩ := extends_entry hn hspans
  have hread := (hextends.toSpans.readAs (Nat.le_refl 1) (by decide) _).1 (Nat.le_refl _)
  cases ev with
  | pipe p stages =>
    have hnone := (sourced_of_parse hread).pipes _ (List.mem_singleton_self _)
    exact (hnone _ _ .root).elim
  | _ => rfl

/-! ## The value of an entry -/

namespace Expr

/-- A literal that is a key of the fields with a name. -/
inductive Finds : String → Expr → Prop where
  | number (p : Position) (x : Float) : Finds (Double.text x) (.number p x)
  | string (p : Position) (s : String) (style : LiteralStyle) : Finds s (.string p s style)

/-- An object of one entry, and an access by a key. -/
def pick (name : String) (key v : Expr) : Expr := .index .start (.object .start [(name, v)]) key false

section Pick
variable {name : String} {key : Expr} (hkey : Finds name key)
include hkey

/-- There is one more value on the stack than the value of the entry needs: its name. -/
theorem pick_need (v : Expr) : (pick name key v).need ≤ v.need + 1 := by
  have hsorted : byName [(name, v.need)] = [(name, v.need)] := List.mergeSort_singleton _
  have hpos := need_pos v
  have hone : key.need = 1 := by cases hkey <;> rfl
  simp only [pick, need, needEntries, hsorted, keyedNeeds, List.flatMap_cons, List.flatMap_nil, List.append_nil,
    rowNeed, hone]
  omega

/-- **The access gives what the value of the entry gives**, unless it overflows. -/
theorem pick_value (m : Site) (v : Expr) : UpToOverflow m.stackSize (m.value (pick name key v) false)
    (m.value v false) := by
  obtain ⟨k, hplan, hname⟩ : ∃ k, key.plan false = .constant k ∧ Access.fieldName? k = some name := by
    cases hkey with
    | number p x => exact ⟨.number x, rfl, rfl⟩
    | string => exact ⟨.string name, rfl, rfl⟩
  have hsorted : byName [(name, v)] = [(name, v)] := List.mergeSort_singleton _
  -- the name of the entry stands below its value
  have hvalue : UpToOverflow m.stackSize ((v.plan false).within m.setting m.stackSize (m.state.stack.size + 1))
      (m.value v false) := v.within_sinks false _
  have hentry := UpToOverflow.cons (.constant m.state.stack.size (.string name)) (.cons hvalue .nil)
  have hboth := (UpToOverflow.cons (hentry.gather .object) (.cons (.constant _ k) .nil)).gather
    (.index ⟨false, false⟩)
  have hpick : m.value (pick name key v) false = (Plan.gather [.gather [.constant (.string name), v.plan false]
      .object, .constant k] (.index ⟨false, false⟩)).within m.setting m.stackSize m.state.stack.size := by
    rw [Site.value, pick, plan, plan_object, hsorted, hplan]
    rfl
  rw [hpick]
  convert hboth using 1
  cases m.value v false with
  | error err => rfl
  | ok w =>
    show Except.ok w = Access.index (.object (Fields.ofList [(name, w)])) k ⟨false, false⟩
    simp [Fields.ofList, Fields.insert, Access.index, hname, Fields.get?]

omit hkey in
theorem entryWriters_singleton (v : Expr) :
    Compile.sortEntries (Compile.entryWriters [(name, v)]) = [(name, Compile.code v false)] :=
  List.mergeSort_singleton _

/-- **Its code is written where that of the value is**, or fails as that does, unless there is too little room.
Both use the same names. -/
theorem pick_tracks (v : Expr) : Compile.Tracks true (fun _ _ => True)
    (Compile.code (pick name key v) false 0 0) (Compile.code v false 0 0) := by
  have hliteral : ∀ offset, Compile.Takes true (Compile.code key false 1 offset) := fun offset => by
    cases hkey with
    | number p x => exact (Compile.deeper_takes p 1).bind fun _ => Compile.constant_takes p _
    | string p s style => exact (Compile.deeper_takes p 1).bind fun _ => Compile.constant_takes p _
  have hvalue : ∀ offset, Compile.Tracks true Compile.SameSize (Compile.code v false 2 offset)
      (Compile.code v false 0 0) := fun offset =>
    Compile.code_tracked true v (.inr ⟨rfl, by decide, by decide⟩) (Nat.zero_le offset)
  have hobject : Compile.Tracks true (fun _ _ => True) (Compile.code (.object .start [(name, v)]) false 1 0)
      (Compile.code v false 0 0) := by
    show Compile.Tracks _ _ (Compile.deeper false 1 .start >>= _) _
    rw [Compile.deeper_room .start (by decide), entryWriters_singleton, pure_bind]
    show Compile.Tracks _ _ (Compile.count 1 .start >>= _) _
    rw [Compile.count_room .start (by decide), pure_bind]
    refine Compile.Takes.behind (R := fun _ _ => True) ?_ fun entries =>
      (Compile.emit_takes (by rfl)).bind fun i => .pure _
    refine (Compile.constant_takes .start (.string name)).before fun k => ?_
    exact Compile.Takes.behind (hvalue _) fun a => .pure _
  show Compile.Tracks _ _ (Compile.deeper false 0 .start >>= _) _
  rw [Compile.deeper_room .start (by decide), pure_bind]
  exact Compile.Takes.behind hobject fun a => (hliteral _).bind fun k =>
    (Compile.emit_takes (by rfl)).bind fun i => .pure _

/-- The value stands two levels below the access and behind the name of the entry, and a key follows. -/
theorem pick_fills (v : Expr) : ∃ n, Compile.Fills 0 n (CompileError.Beyond 0 0 0
      ⟨(v.extent false).levels + 2, (v.extent false).constants + 2, (v.extent false).bytes + 3⟩) (fun _ => True)
    (Compile.code (pick name key v) false 0 0) := by
  generalize hX : Extent.mk ((v.extent false).levels + 2) ((v.extent false).constants + 2)
    ((v.extent false).bytes + 3) = X
  obtain ⟨hlevels, hconstants, hbytes⟩ := Extent.ext_iff.mp hX
  simp only at hlevels hconstants hbytes
  have hliteral : ∀ offset, Compile.Fills ((v.extent false).constants + 1) ((v.extent false).constants + 2)
      (CompileError.Beyond 0 0 0 X) (fun _ => True) (Compile.code key false 1 offset) := fun offset => by
    have hconstant : ∀ p w, Compile.Fills ((v.extent false).constants + 1) ((v.extent false).constants + 2)
        (CompileError.Beyond 0 0 0 X) (fun _ => True)
        (do let _ ← Compile.deeper false 1 p; Compile.constant w p : Compile Assembly) := fun p w =>
      (Compile.deeper_fills p (by omega)).bind fun _ _ =>
        (Compile.constant_fills p w (by omega)).imp rfl fun _ _ => trivial
    cases hkey with
    | number p x => exact hconstant p _
    | string p s style => exact hconstant p _
  have hobject : Compile.Fills 0 ((v.extent false).constants + 1) (CompileError.Beyond 0 0 0 X) (fun _ => True)
      (Compile.code (.object .start [(name, v)]) false 1 0) := by
    show Compile.Fills _ _ _ _ (Compile.deeper false 1 .start >>= _)
    rw [Compile.deeper_room .start (by decide), entryWriters_singleton, pure_bind]
    refine (Compile.count_fills .start 1).bind fun m ⟨hm, hmax⟩ => ?_
    have hentry : Compile.Fills 0 ((v.extent false).constants + 1) (CompileError.Beyond 0 0 0 X) (fun _ => True)
        (Compile.entriesCode .start (1 + 1) 0 #[] [(name, Compile.code v false)]) := by
      refine (Compile.constant_fills .start (.string name) (by omega)).bind fun k hk => ?_
      exact ((Compile.code_extent v).part false (by omega)).bind fun a _ => .pure (by omega) trivial
    refine hentry.bind fun entries _ => ?_
    exact (Compile.emit_fills (fits_of_le rfl (hm ▸ hmax))).bind fun i _ => .pure rfl trivial
  refine ⟨(v.extent false).constants + 2, ?_⟩
  show Compile.Fills _ _ _ _ (Compile.deeper false 0 .start >>= _)
  rw [Compile.deeper_room .start (by decide), pure_bind]
  exact hobject.bind fun a _ => (hliteral _).bind fun k _ =>
    (Compile.emit_fills (fits_of_flags rfl _)).bind fun i _ => .pure rfl trivial

end Pick

/-- **An error that a value meets as an entry**: its program has the room that it needs itself, but not that for two
levels, two constants or three bytes more.  The access and the object stand above the value, and the name of the entry
in front of it. -/
def Crowded (v : Expr) : CompileError → Prop
  | .nestingTooDeep _ => maxNesting < (v.extent false).levels + 2
  | .tooManyConstants _ => maxOperand < (v.extent false).constants + 2
  | .encode (.operandOverflow ..) => maxOperand < (v.extent false).bytes + 3
  | _ => False

/-- An expression with room for what an entry adds to it. -/
structure HasMargin (v : Expr) : Prop where
  levels : (v.extent false).levels + 2 ≤ maxNesting
  constants : (v.extent false).constants + 2 ≤ maxOperand
  bytes : (v.extent false).bytes + 3 ≤ maxOperand

theorem HasMargin.not_crowded {v : Expr} (h : v.HasMargin) (err : CompileError) : ¬ v.Crowded err := by
  obtain ⟨hlevels, hconstants, hbytes⟩ := h
  cases err with
  | nestingTooDeep p => exact Nat.not_lt_of_le hlevels
  | tooManyConstants p => exact Nat.not_lt_of_le hconstants
  | encode e =>
    cases e with
    | operandOverflow => exact Nat.not_lt_of_le hbytes
    | _ => exact not_false
  | _ => exact not_false

theorem crowded_of_room {v : Expr} {err : CompileError} (hroom : err.OfRoom true) (hbeyond : err.Beyond 0 0 0
    ⟨(v.extent false).levels + 2, (v.extent false).constants + 2, (v.extent false).bytes + 3⟩) :
    v.Crowded err := by
  cases err with
  | nestingTooDeep | tooManyConstants => exact Nat.lt_of_lt_of_eq hbeyond (Nat.zero_add _)
  | encode e =>
    cases e with
    | operandOverflow => exact Nat.lt_of_lt_of_eq hbeyond (Nat.zero_add _)
    | _ => exact hroom
  | tooManyVariables => cases hroom
  | _ => exact hroom

/-- **A tree that does what another one does**, at any site, unless it meets a limit.  It has a program if the other
one has, and else fails with the same error, but for the place; in both cases it may meet a limit that leaves too
little room for an entry beside the other one.  A run gives what a run of the other one gives, or overflows for want
of room for one more value than the other one needs. -/
inductive Follows (e v : Expr) : Prop where
  | limit {err : CompileError} (h : e.compile = .error err) (hlimit : v.Crowded err)
  | fails {err err' : CompileError} (h : e.compile = .error err) (hv : v.compile = .error err')
    (hsame : err.unplaced = err'.unplaced)
  | runs {p q : Program} (h : e.compile = .ok p) (hv : v.compile = .ok q)
    (houtcome : ∀ m : Site, m.outcome p = m.outcome q ∨ (m.stackSize < m.state.stack.size + v.need + 1 ∧
      m.outcome p = .error (.error (.stackOverflow m.stackSize))))

/-- **The entry that is picked is followed.** -/
theorem pick_follows {name : String} {key v : Expr} (hkey : Finds name key) (hroot : v.isPipe = false) :
    (pick name key v).Follows v := by
  have hempty := Tables.roomier_self NameTable.empty_valid Tables.empty_fit
  rcases pick_tracks hkey v .empty .empty hempty with
    ⟨err, herr, hroom | herr'⟩ | ⟨a, t, a', t', hrun, hrun', -, -⟩
  · obtain ⟨n, hfills⟩ := pick_fills hkey v
    refine .limit (compile_of_code_error rfl herr) (crowded_of_room hroom ?_)
    rcases hfills .empty rfl with ⟨err', herr', hbeyond⟩ | ⟨a, u, hrun, -⟩
    · obtain rfl := Except.error.inj (herr.symm.trans herr')
      exact hbeyond
    · cases herr.symm.trans hrun
  · exact .fails (compile_of_code_error rfl herr) (compile_of_code_error hroot herr') rfl
  · have hp : (pick name key v).compile = _ := compile_of_code_root rfl hrun
    have hq : v.compile = _ := compile_of_code_root hroot hrun'
    refine .runs hp hq fun m => ?_
    rw [Site.outcome_eq_value rfl hp, Site.outcome_eq_value hroot hq]
    rcases pick_value hkey m v with hsame | hover
    · exact .inl (by rw [hsame])
    · refine .inr ⟨Nat.lt_of_not_le fun hroom => ?_, by rw [hover]; rfl⟩
      have hneed := pick_need hkey v
      exact (pick name key v).fits false (by omega) _ hover

theorem crowded_of_unplaced {v : Expr} {err err' : CompileError} (h : err.unplaced = err'.unplaced)
    (hlimit : v.Crowded err) : v.Crowded err' := by
  cases err <;> cases err' <;> cases h <;> exact hlimit

/-- What a tree follows, trees with the same program follow too. -/
theorem Follows.congr {e e' v : Expr} (h : e.Follows v) (hsame : e'.SameProgram e) : e'.Follows v := by
  rcases hsame with ⟨q, hq', hq⟩ | ⟨err, err', herr, herr', hunplaced⟩
  · cases h with
    | limit h => cases hq.symm.trans h
    | fails h => cases hq.symm.trans h
    | runs h hv houtcome =>
      obtain rfl := Except.ok.inj (hq.symm.trans h)
      exact .runs hq' hv houtcome
  · cases h with
    | limit h hlimit =>
      obtain rfl := Except.error.inj (herr'.symm.trans h)
      exact .limit herr (crowded_of_unplaced hunplaced.symm hlimit)
    | fails h hv hsame =>
      obtain rfl := Except.error.inj (herr'.symm.trans h)
      exact .fails herr hv (hunplaced.trans hsame)
    | runs h => cases herr'.symm.trans h

/-- **Where an entry has room, nothing else is done** than for its value: on a stack with one place more than the
value needs. -/
theorem Follows.outcome_eq {e v : Expr} (h : e.Follows v) (hmargin : v.HasMargin) {q : Program}
    (hq : v.compile = .ok q) {m : Site} (hroom : m.state.stack.size + v.need + 1 ≤ m.stackSize) :
    ∃ p, e.compile = .ok p ∧ m.outcome p = m.outcome q := by
  cases h with
  | limit h hlimit => exact absurd hlimit (hmargin.not_crowded _)
  | fails h hv => cases hv.symm.trans hq
  | @runs p _ h hv houtcome =>
    obtain rfl := Except.ok.inj (hv.symm.trans hq)
    exact ⟨p, h, (houtcome m).resolve_right fun hover => Nat.not_lt_of_le hroom hover.1⟩

/-- **A tree that gives the value of another one**, at any site, if there is room for one more value on the stack.
It has a program if the other one has, unless this one leaves too little room for an entry beside it. -/
structure Selects (e v : Expr) : Prop where
  limits : (∃ q, v.compile = .ok q) → ∀ err, e.compile = .error err → v.Crowded err
  value : ∀ (m : Site) {w : Value} {p : Program}, m.Gives v (.ok w) → e.compile = .ok p → m.outcome p = .ok w ∨
    (m.stackSize < m.state.stack.size + v.need + 1 ∧ m.outcome p = .error (.error (.stackOverflow m.stackSize)))

/-- What does what a tree does gives its value. -/
theorem Follows.selects {e v : Expr} (h : e.Follows v) : e.Selects v := by
  cases h with
  | limit h hlimit =>
    refine ⟨fun _ err herr => ?_, fun m w p _ hp => ?_⟩
    · obtain rfl := Except.error.inj (h.symm.trans herr)
      exact hlimit
    · cases h.symm.trans hp
  | fails h hv =>
    refine ⟨fun ⟨q, hq⟩ => ?_, fun m w p ⟨q, hq, _⟩ => ?_⟩
    · cases hv.symm.trans hq
    · cases hv.symm.trans hq
  | runs h hv houtcome =>
    refine ⟨fun _ err herr => ?_, fun m w p hgives hp => ?_⟩
    · cases h.symm.trans herr
    · obtain ⟨q, hq, hgives⟩ := hgives
      obtain rfl := Except.ok.inj (h.symm.trans hp)
      obtain rfl := Except.ok.inj (hv.symm.trans hq)
      rw [← show m.outcome _ = .ok w from hgives]
      exact houtcome m

/-- **Where an entry has room, its value is given**: on a stack with one place more than the value needs. -/
theorem Selects.gives {e v : Expr} (h : e.Selects v) (hmargin : v.HasMargin) {m : Site}
    (hroom : m.state.stack.size + v.need + 1 ≤ m.stackSize) {w : Value} (hv : m.Gives v (.ok w)) :
    m.Gives e (.ok w) := by
  cases he : e.compile with
  | error err =>
    obtain ⟨q, hq, -⟩ := hv
    exact absurd (h.limits ⟨q, hq⟩ err he) (hmargin.not_crowded err)
  | ok p =>
    refine ⟨p, he, (h.value m hv he).resolve_right fun hover => ?_⟩
    exact Nat.not_lt_of_le hroom hover.1

end Expr

/-! ## Accesses to an entry -/

/-- The object of a source with an access to its entry. -/
theorem Expr.similar_pick (f g : Position → Position) (p q : Position) {key key' : Expr} (hkey : Similar key key')
    (name : String) (v : Expr) :
    Similar (.index p ((Expr.object q [(name, v.relocate g)]).relocate f) key false) (pick name key' v) := by
  have hvalue : Similar ((v.relocate g).relocate f) v := by
    rw [relocate_relocate]
    exact similar_relocate _ v
  have hobject : Similar ((Expr.object q [(name, v.relocate g)]).relocate f) (.object .start [(name, v)]) :=
    @Similar.object _ _ _ [(name, v)] _ rfl (.cons hvalue .nil) ⟨.refl _, fun _ => rfl⟩
  exact .index _ _ hobject hkey false

section Entries
variable {o : Options} {n v : String} {x : Float} {ev : Expr}
  (hn : Scan.token o.ieee false n.toList = .ok { kind := .number x, length := n.toList.length })
  (hv : Fragment o 15 v ev)
include hn hv

/-- **A numeric key finds its entry.** -/
theorem entry_selected : ∃ room ≤ o.maxDepth + 1, ∃ e,
    ReadAs o (bracketed false (entryText n v) n) room e ∧ e.Selects ev := by
  obtain ⟨vs, pv, height, hroom, hspans⟩ := hv.spans (Nat.le_refl 15)
  obtain ⟨place, g, ts, position, hbare, hextends⟩ := extends_entry (keyText_number hn) hspans
  obtain ⟨hne, hvisible⟩ := Scan.visible_number hn rfl
  obtain ⟨_, place', _, hnumber⟩ := extends_number hvisible hne hn
  obtain ⟨g', _, _, hindexed⟩ := hextends.indexed hbare (show false = true → o.chaining = true from nofun)
    (hnumber.toSpans.loosen (Nat.le_refl 1) (by decide) (Nat.le_refl 15))
  have hread := hindexed.readAs (Nat.le_refl 1) (by decide)
  have hfollows := Expr.pick_follows (.number .start x) (hv.root_of_entry (keyText_number hn))
  have hsimilar := Expr.similar_pick (Position.beyond []) g (Position.beyond [] place) place
    (.number (g' place') .start x) (Double.text x) ev
  exact ⟨_, by omega, _, hread, (hfollows.congr hsimilar.compile_cases).selects⟩

/-- **So does the position that the key spells.** -/
theorem entry_selected_digits (hd : ∀ c ∈ n.toList, Text.isDigit c = true)
    (hvalue : digitsValue n.toList ≤ 2 ^ 63) : ∃ room ≤ o.maxDepth + 1, ∃ e,
      ReadAs o (dotted false (entryText n v) n) room e ∧ e.Selects ev := by
  obtain ⟨vs, pv, height, hroom, hspans⟩ := hv.spans (Nat.le_refl 15)
  obtain ⟨place, g, ts, position, hbare, hextends⟩ := extends_entry (keyText_number hn) hspans
  obtain ⟨hne, hvisible⟩ := Scan.visible_number hn rfl
  obtain rfl : Numeral.toDouble ⟨n.toList, [], 0⟩ = x := by
    have hsame := Except.ok.inj ((token_digits hne hd hvalue o.ieee false).symm.trans hn)
    exact TokenKind.number.inj (congrArg Scan.Found.kind hsame)
  obtain ⟨_, _, hnamed⟩ := hextends.named hbare (show false = true → o.chaining = true from nofun) hvisible hne
    (token_digits hne hd hvalue o.ieee true)
    fun _ hkind hlexeme => property?_digits hd hvalue hkind (congrArg String.toList hlexeme)
  have hread := hnamed.readAs (Nat.le_refl 1) (by decide)
  have hfinds := Expr.Finds.number .start (Numeral.toDouble ⟨n.toList, [], 0⟩)
  have hfollows := Expr.pick_follows hfinds (hv.root_of_entry (keyText_number hn))
  have hsimilar := Expr.similar_pick (Position.beyond []) g (Position.beyond [] place) place
    (.number .start .start (Numeral.toDouble ⟨n.toList, [], 0⟩))
    (Double.text (Numeral.toDouble ⟨n.toList, [], 0⟩)) ev
  have hcode := Compile.SameCode.trans (Compile.sameCode_access (.refl _)
    (.position .start (Numeral.position_of_digits hvalue).2.2) (Position.beyond [] place) _ _)
    (Compile.code_similar _ _ hsimilar)
  exact ⟨_, by omega, _, hread, (hfollows.congr (hcode.sameProgram rfl rfl)).selects⟩

end Entries

end PipeExpr
