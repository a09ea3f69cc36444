import PipeExpr.Proofs.Entries

/-!
# Words as names of properties

What a word is to the scanner depends on the word and on a switch: a variable, a keyword or a number.  Behind a dot
and as the key of an entry it should only be a name.  Two readers decide on that, each with a list of its own of the
kinds of tokens that it takes for names.  They agree on all words but those that are numbers (`property?_word`,
`objectKey?_word`).

So a word behind a dot always names a property of what stands in front of it, and an entry is found by the word that
is its key (`words_name_properties`).  Neither needs more room than a level for the braces and a place on the stack
for the name; to compile the access takes two levels, two constants and three bytes more than the value
(`Expr.HasMargin`).
-/

namespace PipeExpr

open Parse Scanner

/-! ## Words -/

/-- The only words that are numbers are the two of the switch. -/
theorem wordKind_ne_number {ieee : Bool} {w : String} (hplain : ieee = true → w ≠ "NaN" ∧ w ≠ "Inf") (x : Float) :
    Scan.wordKind ieee w ≠ .number x := by
  have hnan : ¬ (ieee && decide (w = "NaN")) = true := by
    rw [Bool.and_eq_true, decide_eq_true_eq]
    exact fun ⟨hieee, hw⟩ => (hplain hieee).1 hw
  have hinf : ¬ (ieee && decide (w = "Inf")) = true := by
    rw [Bool.and_eq_true, decide_eq_true_eq]
    exact fun ⟨hieee, hw⟩ => (hplain hieee).2 hw
  unfold Scan.wordKind
  rw [if_neg hnan, if_neg hinf]
  split_ifs
  all_goals exact nofun

/-- In front of a colon a word is a name as well, whether it is a keyword or not. -/
theorem objectKey?_word {ieee : Bool} {w : String} (hnumber : ∀ x, Scan.wordKind ieee w ≠ .number x) {t : Token}
    (hkind : t.kind = Scan.wordKind ieee w) (hlexeme : t.lexeme = w) : objectKey? t = some w := by
  unfold objectKey?
  rw [hkind, hlexeme]
  revert hnumber
  unfold Scan.wordKind
  split_ifs
  all_goals first | exact fun _ => rfl | exact fun hnumber => absurd rfl (hnumber _)

section Words
variable {ieee : Bool} {w : String} (hw : IsWord w) (hnumber : ∀ x, Scan.wordKind ieee w ≠ .number x)
include hw hnumber

/-- A word is a key, and the name of its entry. -/
theorem IsWord.keyText : KeyText ieee w w :=
  ⟨hw.ne_nil, hw.visible, _,
    fun _ => token_isWord false hw fun d hd => Option.some.inj hd ▸ ⟨by decide, by decide⟩,
    fun _ hkind hlexeme => objectKey?_word hnumber hkind hlexeme⟩

end Words

/-! ## Words behind a dot -/

/-- The places of a source are counted from its start already. -/
theorem Spans.relocate_front {o : Options} {row : Nat} {source : String} {e : Expr} {tokens : List Token}
    {position : Position} {height : Nat} (h : Spans o row source e tokens position height) (hrow : row ≤ 15) :
    e.relocate (Position.beyond []) = e := by
  obtain ⟨place, hmoved⟩ : Lexes [] source.toList o.ieee false _ := lexes_moved h.scans h.closed []
  have htokens : tokens.map (Token.relocate (Position.beyond [])) = tokens :=
    (Prod.mk.inj (hmoved.symm.trans h.scans)).1
  have hread : ∀ f, rowReader (o.within (1 + height)) tokens.length row
      ⟨tokens.map (Token.relocate f), ⟨position, none⟩, #[], 1⟩ =
        (.ok (e.relocate f), ⟨[], ⟨position, none⟩, #[], 1⟩) := by
    intro f
    have hperforms := h.performs _ f ⟨[], ⟨position, none⟩, #[], 1⟩ (Nat.le_refl _) rfl (stops_end hrow rfl)
    have hrun := (hperforms (1 + height) (Nat.le_add_right 1 _)).1 (Nat.le_refl _)
    rwa [State.before_end] at hrun
  have hsame := hread id
  rw [show tokens.map (Token.relocate id) = tokens from List.map_id _, Expr.relocate_id] at hsame
  have hfront := hread (Position.beyond [])
  rw [htokens, hsame] at hfront
  exact (Except.ok.inj (Prod.mk.inj hfront).1).symm

section Members
variable {o : Options} {t w : String} {e : Expr} {tokens : List Token} {position : Position} {height : Nat}
  {optional : Bool}

/-- **A word behind a dot is a member**, in as much room as its target. -/
theorem Extends.member_word (h : Extends o t e tokens position height) (hbare : endsBare false tokens = false)
    (hchaining : optional = true → o.chaining = true) (hw : IsWord w)
    (hnumber : ∀ x, Scan.wordKind o.ieee w ≠ .number x) :
    ReadAs o (dotted optional t w) (1 + height) (.member e.position e (.name w) optional) := by
  obtain ⟨_, _, hnamed⟩ := h.named hbare hchaining hw.visible hw.ne_nil (hw.token o.ieee true)
    fun _ hkind hlexeme => property?_word hnumber hkind hlexeme
  have hread := hnamed.readAs (Nat.le_refl 1) (by decide)
  have hfront := h.toSpans.relocate_front (by decide)
  have hplace : Position.beyond [] e.position = e.position :=
    (Expr.position_relocate _ e).symm.trans (congrArg Expr.position hfront)
  rwa [hfront, hplace] at hread

/-- **A word finds its entry**, in one level more than the value of the entry. -/
theorem entry_member {v : String} {ev : Expr} {vs : List Token} {pv : Position} (hv : Spans o 15 v ev vs pv height)
    (hroot : ev.isPipe = false) (hw : IsWord w) (hnumber : ∀ x, Scan.wordKind o.ieee w ≠ .number x) :
    ∃ place g, ReadAs o (dotted false (entryText w v) w) (1 + height + 1)
        (.member place (.object place [(w, ev.relocate g)]) (.name w) false) ∧
      (Expr.member place (.object place [(w, ev.relocate g)]) (.name w) false).Follows ev := by
  obtain ⟨place, g, ts, position, hbare, hextends⟩ := extends_entry (hw.keyText hnumber) hv
  have hread : ReadAs o (dotted false (entryText w v) w) _ _ := hextends.member_word hbare nofun hw hnumber
  have hfollows := Expr.pick_follows (.string .start w ⟨false, false⟩) hroot
  have hsimilar := Expr.similar_pick id g place place (.string .start .start w ⟨false, false⟩ ⟨false, false⟩) w ev
  rw [Expr.relocate_id] at hsimilar
  have hcode := Compile.SameCode.trans
    (Compile.sameCode_access (.refl _) (.name .start w ⟨false, false⟩) place _ _)
    (Compile.code_similar _ _ hsimilar)
  exact ⟨place, g, hread, hfollows.congr (hcode.sameProgram rfl rfl)⟩

end Members

/-- **Every word names a property**, but for the two that a switch turns into numbers.  Behind the dot of an access
it is the name of a member, whatever is accessed, and both sources are read under the same limits.  As the key of an
entry it is read back by the same spelling: where the value of the entry can be read with one level to spare, the
access can, and it does what the value does, unless it meets a limit. -/
theorem words_name_properties (o : Options) (w : String) (hw : IsWord w)
    (hplain : o.ieee = true → w ≠ "NaN" ∧ w ≠ "Inf") :
    (∀ (t : String) (e : Expr) (optional : Bool), Fragment o 1 t e →
      endsBare false (Scanner.ofSource t o.ieee).tokens.1 = false → (optional = true → o.chaining = true) →
      ∃ room ≤ o.maxDepth, ReadAs o t room e ∧
        ReadAs o (dotted optional t w) room (.member e.position e (.name w) optional)) ∧
    ∀ (v : String) (ev : Expr), Fragment o 15 v ev → ∃ room ≤ o.maxDepth, ReadAs o v room ev ∧
      ∃ place g, ReadAs o (dotted false (entryText w v) w) (room + 1)
          (.member place (.object place [(w, ev.relocate g)]) (.name w) false) ∧
        (Expr.member place (.object place [(w, ev.relocate g)]) (.name w) false).Follows ev := by
  have hnumber := wordKind_ne_number hplain
  refine ⟨fun t e optional ht hbare hchaining => ?_, fun v ev hv => ?_⟩
  · obtain ⟨tokens, position, height, hroom, hextends⟩ := ht.extends
    rw [hextends.scans] at hbare
    exact ⟨1 + height, hroom, hextends.toSpans.readAs (Nat.le_refl 1) (by decide),
      hextends.member_word hbare hchaining hw hnumber⟩
  · obtain ⟨vs, pv, height, hroom, hspans⟩ := hv.spans (Nat.le_refl 15)
    exact ⟨1 + height, hroom, hspans.readAs (by decide) (Nat.le_refl 15),
      entry_member hspans (hv.root_of_entry (hw.keyText hnumber)) hw hnumber⟩

/-- A keyword behind a dot, and as the key of an entry, which is found by it. -/
theorem true_names_property :
    parse "flags?.true" {} = .ok (.member ⟨1, 1⟩ (.reference ⟨1, 1⟩ "flags" false) (.name "true") true) ∧
    ∃ e p, parse "\x7btrue:!null\x7d.true" {} = .ok e ∧ e.Follows (.unary ⟨1, 1⟩ .not (.null ⟨1, 2⟩)) ∧
      e.compile = .ok p ∧ p.run .standard defaultStackSize [] = .ok (.boolean true) := by
  have htarget : Fragment {} 1 "flags" (.reference ⟨1, 1⟩ "flags" false) :=
    ⟨by decide, [⟨.identifier "flags", "flags", ⟨1, 1⟩, false, false⟩], ⟨1, 6⟩, rfl, rfl⟩
  have hvalue : Fragment (Options.within {} 31) 15 "!null" (.unary ⟨1, 1⟩ .not (.null ⟨1, 2⟩)) :=
    ⟨by decide, [⟨.symbol .bang, "!", ⟨1, 1⟩, false, false⟩, ⟨.null, "null", ⟨1, 2⟩, false, false⟩],
      ⟨1, 6⟩, rfl, rfl⟩
  have hword : IsWord "true" := isWord_of_chars rfl rfl
  obtain ⟨room, hroom, -, hread⟩ := (words_name_properties {} "true" hword fun _ => ⟨by decide, by decide⟩).1
    "flags" _ true htarget rfl fun _ => rfl
  obtain ⟨room', hroom', -, place, g, hread', hfollows⟩ :=
    (words_name_properties (Options.within {} 31) "true" hword fun _ => ⟨by decide, by decide⟩).2 "!null" _ hvalue
  have hmargin : (Expr.unary ⟨1, 1⟩ .not (.null ⟨1, 2⟩)).HasMargin := ⟨by decide, by decide, by decide⟩
  obtain ⟨q, hq⟩ : ∃ q, (Expr.unary ⟨1, 1⟩ .not (.null ⟨1, 2⟩)).compile = .ok q := ⟨_, rfl⟩
  have htrue : (Site.start []).outcome q = .ok (.boolean true) := Site.outcome_eq rfl hq (by decide)
  obtain ⟨p, hp, hrun⟩ := hfollows.outcome_eq hmargin hq (m := Site.start []) (by decide)
  exact ⟨(hread _).1 hroom, _, p, (hread' 32).1 (Nat.succ_le_succ hroom'), hfollows, hp, hrun.trans htrue⟩

/-- Where words do not name properties: the two that are numbers, `?.` without its switch, and where an entry takes
one more level and one more place on the stack than its value. -/
theorem property_names_limited :
    (IsWord "NaN" ∧ parse "x" {} = .ok (.reference ⟨1, 1⟩ "x" false) ∧
      ∃ d, parse "x.NaN" {} = .error [d] ∧ d.code = .invalidProperty) ∧
    (parse "x" { chaining := false } = .ok (.reference ⟨1, 1⟩ "x" false) ∧
      ∃ d, parse "x?.a" { chaining := false } = .error [d] ∧ d.code = .featureDisabled) ∧
    (parse "true" (Options.within {} 1) = .ok (.boolean ⟨1, 1⟩ true) ∧
      ∃ d, parse "\x7ba:true\x7d.a" (Options.within {} 1) = .error [d] ∧ d.code = .maxDepthExceeded) ∧
    (∃ p, (Expr.boolean ⟨1, 1⟩ true).compile = .ok p ∧ p.run .standard 1 [] = .ok (.boolean true)) ∧
    ∃ e p, parse "\x7ba:true\x7d.a" {} = .ok e ∧ e.compile = .ok p ∧
      p.run .standard 1 [] = .error (.error (.stackOverflow 1)) := by
  refine ⟨⟨isWord_of_chars rfl rfl, rfl, _, rfl, rfl⟩, ⟨rfl, _, rfl, rfl⟩, ⟨rfl, _, rfl, rfl⟩, ⟨_, rfl, rfl⟩, ?_⟩
  have hsorted : ∀ write : Compile.Writer, Compile.sortEntries [("a", write)] = [("a", write)] :=
    fun _ => List.mergeSort_singleton _
  obtain ⟨p, hp⟩ : ∃ p, (Expr.member ⟨1, 1⟩ (.object ⟨1, 1⟩ [("a", .boolean ⟨1, 4⟩ true)]) (.name "a")
      false).compile = .ok p := by
    simp only [Expr.compile, Compile.streams, Compile.code, Compile.entryWriters, hsorted]
    exact ⟨_, rfl⟩
  refine ⟨_, p, rfl, hp, ?_⟩
  have houtcome : p.run .standard 1 [] = _ := Site.outcome_eq_value (m := ⟨.standard, 1, [], .initial⟩) rfl hp
  have hnames : byName [("a", Expr.boolean ⟨1, 4⟩ true)] = [("a", .boolean ⟨1, 4⟩ true)] :=
    List.mergeSort_singleton _
  rw [houtcome, Site.value, Expr.plan, Expr.plan_object, hnames]
  rfl

end PipeExpr
