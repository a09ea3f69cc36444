import PipeExpr.Proofs.Accesses
import PipeExpr.Proofs.Indices
import PipeExpr.Proofs.Literals

/-!
# Keys of accesses

A word names the same key behind a dot and between quotes, and digits name the same position behind a dot and
alone.  Behind a dot no word is a keyword (`property?_word`) and no number has a fraction.  Alone a number is the
double that its digits spell, behind a dot it is brought down to a position, and for digits up to `2 ^ 63` these
are the same key (`property?_digits`, `Numeral.position_of_digits`).

Each of the literals is a source of its own, which can stand in others.
-/

namespace PipeExpr

open Parse Scanner

/-! ## Words -/

section Words
variable {w : String} (hw : IsWord w)
include hw

theorem IsWord.visible : ∀ c ∈ w.toList.head?, Text.isBlank c = false := by
  obtain ⟨c, cs, hchars, hc, -⟩ := hw
  rw [hchars]
  exact fun d hd => Option.some.inj hd ▸ isBlank_of_startsName hc

theorem IsWord.ne_nil : w.toList ≠ [] := by
  obtain ⟨c, cs, hchars, -⟩ := hw
  rw [hchars]
  exact List.cons_ne_nil c cs

theorem IsWord.token (ieee afterDot : Bool) : Scan.token ieee afterDot w.toList =
    .ok { kind := Scan.wordKind ieee w, length := w.toList.length } := by
  have htoken : Scan.token ieee afterDot (w.toList ++ []) = _ :=
    token_isWord afterDot hw fun d hd => nomatch hd
  rwa [List.append_nil] at htoken

/-- There is nothing to escape in a word. -/
theorem IsWord.spells : Scan.Spells w false '"' ('"' :: (w.toList ++ ['"'])) := by
  obtain ⟨c, cs, hchars, hc, hcs⟩ := hw
  refine .quoted ?_
  have hall : ∀ d ∈ w.toList, Scan.continuesName d = true := by
    rw [hchars]
    exact List.forall_mem_cons.mpr ⟨Scan.continuesName_of_startsName hc, hcs⟩
  generalize w.toList = chars at hall
  induction chars with
  | nil => exact .nil
  | cons d ds ih =>
    obtain ⟨hd, hds⟩ := List.forall_mem_cons.mp hall
    refine .cons (w := [d]) (.itself ?_ ?_) (ih hds)
    all_goals
      rintro rfl
      exact absurd hd (by decide)

end Words

/-- Behind a dot a word is a name, whether it is a keyword or not. -/
theorem property?_word {ieee : Bool} {w : String} (hnumber : ∀ x, Scan.wordKind ieee w ≠ .number x) {t : Token}
    (hkind : t.kind = Scan.wordKind ieee w) (hlexeme : t.lexeme = w) : property? t = some (.name w) := by
  unfold property?
  rw [hkind, hlexeme]
  revert hnumber
  unfold Scan.wordKind
  split_ifs
  all_goals first | exact fun _ => rfl | exact fun hnumber => absurd rfl (hnumber _)

/-! ## Digits -/

section Digits
variable {d : List Char} (hne : d ≠ []) (hd : ∀ c ∈ d, Text.isDigit c = true)
  (hvalue : digitsValue d ≤ 2 ^ 63)
include hd hvalue

include hne in
/-- Digits are a number, whatever stands in front of them. -/
theorem token_digits (ieee afterDot : Bool) : Scan.token ieee afterDot d =
    .ok { kind := .number (Numeral.toDouble ⟨d, [], 0⟩), length := d.length } := by
  have hfinite := (Numeral.position_of_digits hvalue).1
  obtain ⟨c, cs, rfl⟩ := List.exists_cons_of_ne_nil hne
  have hc := hd c (List.mem_cons_self ..)
  rw [Scan.token_digit afterDot hc cs]
  have hread : Numeral.ofChars? (c :: cs) = some ⟨c :: cs, [], 0⟩ := by
    have hparts := @Numeral.ofChars?_parts (c :: cs) [] [] ⟨hne, hd⟩ nofun nofun
    rw [Numeral.fractionText, if_pos rfl, List.append_nil, List.append_nil] at hparts
    exact hparts
  unfold Scan.number Scan.numberOf
  rw [Scan.numberLength_digits afterDot hd, List.take_length, hread]
  exact if_pos hfinite

/-- Behind a dot they are a position. -/
theorem property?_digits {t : Token} (hkind : t.kind = .number (Numeral.toDouble ⟨d, [], 0⟩))
    (hlexeme : t.lexeme.toList = d) :
    property? t = some (.position (Double.clampInt64 (Numeral.toDouble ⟨d, [], 0⟩))) := by
  unfold property?
  rw [hkind]
  dsimp only
  rw [hlexeme, List.all_eq_true.mpr hd, decide_eq_true (Numeral.position_of_digits hvalue).2.1]
  rfl

end Digits

/-! ## Literals as sources -/

section Literals
variable {o : Options}

/-- A word between quotes. -/
theorem extends_quoted {w : String} (hw : IsWord w) : ∃ ts place position,
    Extends o ("\"" ++ w ++ "\"") (.string place w ⟨false, false⟩) ts position 0 := by
  have htext : ("\"" ++ w ++ "\"").toList = '"' :: (w.toList ++ ['"']) := by
    simp only [String.toList_append]
    rfl
  have htoken : Scan.token o.ieee false ('"' :: (w.toList ++ ['"']) ++ []) = _ :=
    Scan.token_spells rfl hw.spells nofun
  rw [List.append_nil, ← htext] at htoken
  refine extends_token (k := .string w) (e := fun p => .string p w ⟨false, false⟩) ?_ ?_ htoken rfl rfl
    (fun _ _ => rfl) fun _ _ _ s hs => .current (.read hs (.pure _ s))
  · rw [htext]
    exact fun c hc => Option.some.inj hc ▸ rfl
  · rw [htext]
    exact List.cons_ne_nil _ _

/-- A number. -/
theorem extends_number {n : String} {x : Float} (hvisible : ∀ c ∈ n.toList.head?, Text.isBlank c = false)
    (hne : n.toList ≠ [])
    (htoken : Scan.token o.ieee false n.toList = .ok { kind := .number x, length := n.toList.length }) :
    ∃ ts place position, Extends o n (.number place x) ts position 0 :=
  extends_token (e := fun p => .number p x) hvisible hne htoken rfl rfl (fun _ _ => rfl)
    fun _ _ _ s hs => .current (.read hs (.pure _ s))

section Variables
variable {name : String} (hw : IsWord name) (hname : Scan.wordKind o.ieee name = .identifier name)
include hw hname

/-- A variable. -/
theorem extends_variable : ∃ ts place position,
    Extends o name (.reference place name false) ts position 0 :=
  extends_token (k := .identifier name) (e := fun p => .reference p name false) hw.visible hw.ne_nil
    (by rw [hw.token, hname]) rfl rfl (fun _ _ => rfl)
    fun _ _ _ s hs => .current (.read hs (.pure _ s))

/-- A variable with a dot in front. -/
theorem extends_dotted_variable : ∃ ts place position,
    Extends o ("." ++ name) (.reference place name false) ts position 0 := by
  have htext : ("." ++ name).toList = (Lexeme.dot false).text ++ name.toList := by
    rw [String.toList_append]
    rfl
  obtain ⟨word, hkind, -, hword⟩ : ∃ word, word.kind = _ ∧ word.lexeme.toList = name.toList ∧
      Lexes ([] ++ (Lexeme.dot false).text) (name.toList ++ []) o.ieee true [word] :=
    Lexes.lexeme hw.visible hw.ne_nil (by rw [List.append_nil]; exact hw.token o.ieee true)
      (by rw [hname]; rfl) (lexes_end ..)
  rw [List.append_nil] at hword
  obtain ⟨dot, hdot, hlexes⟩ := Lexes.dot false hword
  rw [← htext] at hlexes
  have hinner : ∀ t ∈ [dot, word], Inner t := by
    refine List.forall_mem_cons.mpr ⟨inner_of_isSymbol (s := .dot) (by rw [hdot]; rfl), ?_⟩
    exact List.forall_mem_singleton.mpr (inner_of_closes (by rw [hkind, hname]; rfl))
  obtain ⟨position, hextends⟩ : ∃ position,
      Extends o ("." ++ name) (.reference dot.position name false) [dot, word] position 0 :=
    extends_primary hlexes ⟨[dot], word, rfl, by rw [hkind, hname]; rfl⟩ hinner
      ⟨dot, [word], rfl, by rw [hdot]; rfl⟩ fun n f s _ hs => by
      have hdot' : (dot.relocate f).kind = .symbol .dot := hdot
      have hword' : (word.relocate f).kind = .identifier name := hkind.trans hname
      refine .current ?_
      simp only [hdot', leadingDot, Bool.false_and, Bool.false_eq_true, if_false]
      refine .read hs (.currentKind ?_)
      simp only [hword']
      exact .read hs (.pure _ s)
  exact ⟨_, _, position, hextends⟩

end Variables

end Literals

end PipeExpr
