import Mathlib
import PipeExpr.Machine.Operator
import PipeExpr.Proofs.Addressing

/-!
# Splitting texts

`split`, `replace` and `contains` go over a text each in a loop of its own.  What they have in common is how a
separator cuts the text: at its first occurrence, and then the rest in the same way (`Text.Cuts`).  The loops
of `split` and `replace` do the same at every character and differ in what they write (`Text.Searches`), so
the one gives the pieces (`Cuts.splitFrom_eq`) and the other puts something between them
(`Cuts.replaceFrom_eq`); and a text is cut if and only if the separator occurs in it (`Cuts.infix_iff`).  With
this every law that connects the functions is an induction on the cuts.

`startsWith` and `endsWith` look at the ends of a text, which `substr` takes out by their lengths.  A length is
a double, so what is said of them is said of texts whose lengths doubles can tell.
-/

namespace PipeExpr

namespace Text

/-! ## Cuts -/

/-- The pieces of a row of characters between the occurrences of a separator, which are found from the left
and without overlap. -/
inductive Cuts (separator : List Char) : List Char → List (List Char) → Prop where
  | whole {cs : List Char} (h : ¬ separator <:+: cs) : Cuts separator cs [cs]
  /-- No occurrence starts in front of the one where the text is cut. -/
  | cut {front rest : List Char} {pieces : List (List Char)}
    (hfirst : ∀ k < front.length, ¬ separator <+: (front ++ separator ++ rest).drop k)
    (hrest : Cuts separator rest pieces) : Cuts separator (front ++ separator ++ rest) (front :: pieces)

theorem occursIn_iff (part cs : List Char) : occursIn part cs = true ↔ part <:+: cs := by
  induction cs with
  | nil => rw [occursIn, List.isEmpty_iff, List.infix_nil]
  | cons c cs ih => rw [occursIn, Bool.or_eq_true, List.isPrefixOf_iff_prefix, ih, List.infix_cons_iff]

section Cuts
variable {separator cs : List Char} {pieces : List (List Char)}

/-- A separator that occurs has a first occurrence. -/
theorem exists_first (h : separator <:+: cs) : ∃ front rest, cs = front ++ separator ++ rest ∧
    ∀ k < front.length, ¬ separator <+: (front ++ separator ++ rest).drop k := by
  induction cs with
  | nil =>
    obtain rfl := List.infix_nil.mp h
    exact ⟨[], [], rfl, fun k hk => absurd hk (Nat.not_lt_zero k)⟩
  | cons c cs ih =>
    by_cases hprefix : separator <+: c :: cs
    · obtain ⟨rest, hrest⟩ := hprefix
      exact ⟨[], rest, hrest.symm, fun k hk => absurd hk (Nat.not_lt_zero k)⟩
    · obtain ⟨front, rest, rfl, hfirst⟩ := ih ((List.infix_cons_iff.mp h).resolve_left hprefix)
      refine ⟨c :: front, rest, rfl, fun k hk => ?_⟩
      cases k with
      | zero => exact hprefix
      | succ k => exact hfirst k (Nat.lt_of_succ_lt_succ hk)

theorem exists_cuts (hne : separator ≠ []) (cs : List Char) : ∃ pieces, Cuts separator cs pieces := by
  induction hn : cs.length using Nat.strong_induction_on generalizing cs with
  | _ n ih =>
    by_cases h : separator <:+: cs
    · obtain ⟨front, rest, rfl, hfirst⟩ := exists_first h
      have hshorter : rest.length < n := by
        have hpos := List.length_pos_of_ne_nil hne
        rw [List.length_append, List.length_append] at hn
        omega
      obtain ⟨pieces, hpieces⟩ := ih _ hshorter rest rfl
      exact ⟨_, .cut hfirst hpieces⟩
    · exact ⟨_, .whole h⟩

theorem Cuts.ne_nil (h : Cuts separator cs pieces) : pieces ≠ [] := by
  cases h <;> exact List.cons_ne_nil _ _

/-- The pieces with the separator between them are the text. -/
theorem Cuts.intercalate_eq (h : Cuts separator cs pieces) : separator.intercalate pieces = cs := by
  induction h with
  | whole => exact List.intercalate_singleton
  | cut _ hrest ih => rw [List.intercalate_cons_of_ne_nil hrest.ne_nil, ih]

theorem Cuts.apart (hne : separator ≠ []) (h : Cuts separator cs pieces) :
    ∀ piece ∈ pieces, ¬ separator <:+: piece := by
  induction h with
  | whole h => exact List.forall_mem_singleton.mpr h
  | @cut front rest pieces hfirst _ ih =>
    refine List.forall_mem_cons.mpr ⟨?_, ih⟩
    rintro ⟨before, behind, rfl⟩
    have hpos := List.length_pos_of_ne_nil hne
    refine hfirst before.length (by rw [List.length_append, List.length_append]; omega) ?_
    rw [List.append_assoc, List.append_assoc, List.append_assoc, List.drop_left]
    exact List.prefix_append _ _

/-- A text is cut if the separator occurs in it. -/
theorem Cuts.infix_iff (h : Cuts separator cs pieces) : separator <:+: cs ↔ 1 < pieces.length := by
  cases h with
  | whole h => exact iff_of_false h (lt_irrefl 1)
  | @cut front rest pieces _ hrest =>
    refine iff_of_true ⟨front, rest, rfl⟩ ?_
    rw [List.length_cons]
    exact Nat.succ_lt_succ (List.length_pos_of_ne_nil hrest.ne_nil)

/-! ## The loops -/

/-- A loop over a text that looks for a separator: it passes over the characters that belong to an occurrence,
and its state changes by `cut` at an occurrence and by `copy` at any other character. -/
structure Searches {σ τ : Type} (separator : List Char) (loop : List Char → Nat → σ → τ) (copy : Char → σ → σ)
    (cut : σ → σ) : Prop where
  skip : ∀ c cs k state, loop (c :: cs) (k + 1) state = loop cs k state
  cut : ∀ {c cs}, separator <+: c :: cs → ∀ state,
    loop (c :: cs) 0 state = loop cs (separator.length - 1) (cut state)
  copy : ∀ {c cs}, ¬ separator <+: c :: cs → ∀ state, loop (c :: cs) 0 state = loop cs 0 (copy c state)

namespace Searches
variable {σ τ : Type} {loop : List Char → Nat → σ → τ} {copy : Char → σ → σ} {cut : σ → σ}

theorem pass (h : Searches separator loop copy cut) (skipped cs : List Char) (state : σ) :
    loop (skipped ++ cs) skipped.length state = loop cs 0 state := by
  induction skipped with
  | nil => rfl
  | cons c skipped ih => rw [List.cons_append, List.length_cons, h.skip, ih]

/-- Up to the first occurrence every character is copied. -/
theorem first (h : Searches separator loop copy cut) (hne : separator ≠ []) {front rest : List Char}
    (hfirst : ∀ k < front.length, ¬ separator <+: (front ++ separator ++ rest).drop k) (state : σ) :
    loop (front ++ separator ++ rest) 0 state =
      loop rest 0 (cut (front.foldl (fun st c => copy c st) state)) := by
  induction front generalizing state with
  | nil =>
    obtain ⟨c, tail, rfl⟩ := List.exists_cons_of_ne_nil hne
    exact (h.cut (List.prefix_append (c :: tail) rest) state).trans (h.pass tail rest _)
  | cons c front ih =>
    have hnext := ih (fun k hk => hfirst (k + 1) (Nat.succ_lt_succ hk)) (copy c state)
    exact (h.copy (hfirst 0 (Nat.succ_pos _)) state).trans hnext

/-- Without an occurrence all characters are copied. -/
theorem none (h : Searches separator loop copy cut) (hcs : ¬ separator <:+: cs) (state : σ) :
    loop cs 0 state = loop [] 0 (cs.foldl (fun st c => copy c st) state) := by
  induction cs generalizing state with
  | nil => rfl
  | cons c cs ih =>
    rw [List.infix_cons_iff, not_or] at hcs
    exact (h.copy hcs.1 state).trans (ih hcs.2 _)

end Searches

theorem splitFrom_searches (separator : List Char) : Searches separator
    (fun cs skip (state : List Char × List (List Char)) => splitFrom separator cs skip state.1 state.2)
    (fun c state => (c :: state.1, state.2)) (fun state => ([], state.1.reverse :: state.2)) where
  skip := fun _ _ _ _ => rfl
  cut := fun h _ => if_pos (List.isPrefixOf_iff_prefix.mpr h)
  copy := fun h _ => if_neg (List.isPrefixOf_iff_prefix.not.mpr h)

theorem replaceFrom_searches (separator replacement : List Char) : Searches separator
    (replaceFrom separator replacement) (fun c out => c :: out) (fun out => replacement.reverse ++ out) where
  skip := fun _ _ _ _ => rfl
  cut := fun h _ => if_pos (List.isPrefixOf_iff_prefix.mpr h)
  copy := fun h _ => if_neg (List.isPrefixOf_iff_prefix.not.mpr h)

theorem foldl_copy_part (cs part : List Char) (parts : List (List Char)) :
    cs.foldl (fun (state : List Char × List (List Char)) c => (c :: state.1, state.2)) (part, parts) =
      (cs.reverse ++ part, parts) := by
  induction cs generalizing part with
  | nil => rfl
  | cons c cs ih =>
    rw [List.foldl_cons, ih, List.reverse_cons, List.append_assoc]
    rfl

/-- **The parts of a text are its pieces.** -/
theorem Cuts.splitFrom_eq (hne : separator ≠ []) (h : Cuts separator cs pieces) (parts : List (List Char)) :
    splitFrom separator cs 0 [] parts = parts.reverse ++ pieces := by
  induction h generalizing parts with
  | @whole cs h =>
    have hloop := (splitFrom_searches separator).none h ([], parts)
    rw [foldl_copy_part] at hloop
    rw [hloop, splitFrom, List.append_nil, List.reverse_reverse, List.reverse_cons]
  | @cut front rest pieces hfirst _ ih =>
    have hloop := (splitFrom_searches separator).first hne hfirst ([], parts)
    rw [foldl_copy_part] at hloop
    rw [hloop, ih, List.append_nil, List.reverse_reverse, List.reverse_cons, List.append_assoc]
    rfl

/-- **A text with a part replaced is its pieces with the replacement between them.** -/
theorem Cuts.replaceFrom_eq (hne : separator ≠ []) (h : Cuts separator cs pieces) (replacement out : List Char) :
    replaceFrom separator replacement cs 0 out = out.reverse ++ replacement.intercalate pieces := by
  induction h generalizing out with
  | @whole cs h =>
    have hloop := (replaceFrom_searches separator replacement).none h out
    rw [List.foldl_flip_cons_eq_append'] at hloop
    rw [hloop, replaceFrom, List.reverse_append, List.reverse_reverse, List.intercalate_singleton]
  | @cut front rest pieces hfirst hrest ih =>
    have hloop := (replaceFrom_searches separator replacement).first hne hfirst out
    rw [List.foldl_flip_cons_eq_append'] at hloop
    rw [hloop, ih, List.intercalate_cons_of_ne_nil hrest.ne_nil]
    simp only [List.reverse_append, List.reverse_reverse, List.append_assoc]

end Cuts

/-! ## Texts -/

theorem intercalate_append_cons (separator front piece : List Char) (pieces : List (List Char)) :
    separator.intercalate ((front ++ piece) :: pieces) = front ++ separator.intercalate (piece :: pieces) := by
  cases pieces with
  | nil => rw [List.intercalate_singleton, List.intercalate_singleton]
  | cons next pieces =>
    rw [List.intercalate_cons_cons, List.intercalate_cons_cons]
    simp only [List.append_assoc]

theorem intercalate_singletons (cs : List Char) : ([] : List Char).intercalate (cs.map fun c => [c]) = cs := by
  induction cs with
  | nil => rfl
  | cons c cs ih =>
    cases cs with
    | nil => rfl
    | cons d cs =>
      rw [List.map_cons] at ih
      rw [List.map_cons, List.map_cons, List.intercalate_cons_cons, ih]
      rfl

theorem toList_join (parts : List String) (separator : String) :
    (join parts separator).toList = separator.toList.intercalate (parts.map String.toList) := by
  have fold : ∀ (rest : List String) (first : String),
      (rest.foldl (fun out part => out ++ separator ++ part) first).toList =
        separator.toList.intercalate (first.toList :: rest.map String.toList) := by
    intro rest
    induction rest with
    | nil => exact fun first => List.intercalate_singleton.symm
    | cons part rest ih =>
      intro first
      rw [List.foldl_cons, ih, List.map_cons, List.intercalate_cons_cons, String.toList_append,
        String.toList_append, intercalate_append_cons]
  cases parts with
  | nil => rfl
  | cons first rest => exact fold rest first

section Texts
variable {s separator : String}

theorem split_cuts (hne : separator ≠ "") (s : String) :
    Cuts separator.toList s.toList ((split s separator).map String.toList) := by
  have hlist : separator.toList ≠ [] := String.toList_eq_nil_iff.not.mpr hne
  obtain ⟨pieces, hpieces⟩ := exists_cuts hlist s.toList
  have hsplit : split s separator = pieces.map String.ofList := by
    unfold split
    rw [if_neg (by rwa [String.isEmpty_iff]), hpieces.splitFrom_eq hlist]
    rfl
  have htexts : (pieces.map String.ofList).map String.toList = pieces := by
    rw [List.map_map]
    exact (List.map_congr_left fun piece _ => String.toList_ofList).trans (List.map_id _)
  rwa [hsplit, htexts]

/-- **The parts of a text with the separator between them are the text.** -/
theorem join_split (s separator : String) : join (split s separator) separator = s := by
  refine String.toList_inj.mp ?_
  rw [toList_join]
  by_cases hne : separator = ""
  · subst hne
    have hpieces : (split s "").map String.toList = s.toList.map fun c => [c] := by
      unfold split
      rw [if_pos (String.isEmpty_iff.mpr rfl), List.map_map]
      exact List.map_congr_left fun c _ => String.toList_singleton c
    rw [hpieces]
    exact intercalate_singletons s.toList
  · exact (split_cuts hne s).intercalate_eq

/-- **A text with a part replaced is its parts with the replacement between them.** -/
theorem replace_eq_join (hne : separator ≠ "") (s replacement : String) :
    replace s separator replacement = join (split s separator) replacement := by
  have hlist : separator.toList ≠ [] := String.toList_eq_nil_iff.not.mpr hne
  refine String.toList_inj.mp ?_
  unfold replace
  rw [if_neg (by rwa [String.isEmpty_iff]), (split_cuts hne s).replaceFrom_eq hlist, toList_join,
    String.toList_ofList]
  rfl

theorem contains_eq (s part : String) : contains s part = decide (part.toList <:+: s.toList) := by
  rw [Bool.eq_iff_iff, decide_eq_true_iff]
  exact occursIn_iff _ _

end Texts

end Text

/-! ## The functions -/

namespace Functions

theorem join_strings (parts : List String) (separator : String) :
    join [.array (parts.map .string), .string separator] = .ok (.string (Text.join parts separator)) := by
  have htexts : (parts.map Value.string).map Value.asText = parts := by
    rw [List.map_map]
    exact List.map_id parts
  show Except.ok (Value.string (Text.join ((parts.map Value.string).map Value.asText) separator)) = _
  rw [htexts]

/-- The characters in front of a position. -/
theorem substr_take {s : String} (hs : s.length ≤ 2 ^ 53) {n : Nat} (hn : n ≤ 2 ^ 53) :
    substr [.string s, .ofNat 0, .ofNat n] = .ok (.string (String.ofList (s.toList.take n))) := by
  rw [← String.length_toList] at hs
  have hstart : Double.toInt? (Double.ofInt (0 : Nat)) = some ((0 : Nat) : Int) := Double.toInt?_ofInt (by decide)
  obtain ⟨hpart, hnonneg⟩ := Access.substrCount_whole (Double.toInt?_ofInt hn) (Int.natCast_nonneg n)
  have hsubstr : substr [.string s, .ofNat 0, .ofNat n] = _ :=
    Access.substr_extract (by omega) hstart le_rfl hpart hnonneg
  have hfirst : Access.boundIn s.toList.length 1 (0 : Nat) = 0 := by
    unfold Access.boundIn
    simp only [Int.one_pos, if_true]
    omega
  have hcount : Access.cutOff n = n := by
    rcases Access.cutOff_cases n with h | ⟨h, _⟩ | ⟨h, _⟩ <;> omega
  have hlast : (Min.min (s.toList.length : Int) (0 + n)).toNat = Min.min n s.toList.length := by omega
  rw [Option.map_some, Option.getD_some, hfirst, Access.toInt_cutOff, hcount, hlast,
    List.extract_eq_take_drop] at hsubstr
  rw [List.take_eq_take_min]
  exact hsubstr

/-- The characters from a position on. -/
theorem substr_drop {s : String} (hs : s.length ≤ 2 ^ 53) {n : Nat} (hn : n ≤ s.length) :
    substr [.string s, .ofNat n] = .ok (.string (String.ofList (s.toList.drop n))) := by
  rw [← String.length_toList] at hs hn
  have hstart := Double.toInt?_ofInt (hn.trans hs)
  obtain ⟨cs, hsubstr, _, rfl⟩ := Access.substr_rest (s := s) (by omega) hstart ⟨false, false⟩
  have hbound : (Access.boundIn s.toList.length 1 n).toNat = n := by
    unfold Access.boundIn
    simp only [Int.one_pos, if_true]
    omega
  rw [hbound] at hsubstr
  exact hsubstr

theorem startsWith_eq (s p : String) :
    Text.startsWith s p = (String.ofList (s.toList.take p.length) == p) := by
  rw [Bool.eq_iff_iff, Text.startsWith, List.isPrefixOf_iff_prefix, List.prefix_iff_eq_take, String.length_toList,
    beq_iff_eq, ← String.toList_inj, String.toList_ofList, eq_comm]

theorem endsWith_eq (s p : String) :
    Text.endsWith s p = (String.ofList (s.toList.drop (s.length - p.length)) == p) := by
  rw [Bool.eq_iff_iff, Text.endsWith, List.isSuffixOf_iff_suffix, List.suffix_iff_eq_drop, String.length_toList,
    String.length_toList, beq_iff_eq, ← String.toList_inj, String.toList_ofList, eq_comm]

theorem endsWith_longer {s p : String} (h : s.length < p.length) : Text.endsWith s p = false := by
  refine Bool.eq_false_of_not_eq_true fun hsuffix => ?_
  have hlength := (List.isSuffixOf_iff_suffix.mp hsuffix).length_le
  rw [String.length_toList, String.length_toList] at hlength
  exact h.not_ge hlength

/-- What it comes to that a text is split into parts. -/
structure SplitInto (s separator : String) (parts : List String) : Prop where
  given : split [.string s, .string separator] = .ok (.array (parts.map .string))
  counted : len [.array (parts.map .string)] = .ok (.ofNat parts.length)
  joined : join [.array (parts.map .string), .string separator] = .ok (.string s)
  apart : separator ≠ "" → ∀ part ∈ parts, contains [.string part, .string separator] = .ok (.boolean false)
  /-- There is more than one part exactly if the separator occurs. -/
  found : separator ≠ "" → contains [.string s, .string separator] = .ok (.boolean (decide (1 < parts.length)))
  replaced : separator ≠ "" → ∀ replacement, ∃ t,
    replace [.string s, .string separator, .string replacement] = .ok (.string t) ∧
    join [.array (parts.map .string), .string replacement] = .ok (.string t)
  characters : separator = "" → parts = s.toList.map String.singleton
  /-- The empty text is never replaced, though it is a separator. -/
  kept : separator = "" → ∀ replacement,
    replace [.string s, .string separator, .string replacement] = .ok (.string s)

theorem splitInto_split (s separator : String) : SplitInto s separator (Text.split s separator) where
  given := rfl
  counted := by
    show Except.ok (Value.ofNat ((Text.split s separator).map Value.string).length) = _
    rw [List.length_map]
  joined := by rw [join_strings, Text.join_split]
  apart := by
    intro hne part hpart
    have hlist : separator.toList ≠ [] := String.toList_eq_nil_iff.not.mpr hne
    have hfree := (Text.split_cuts hne s).apart hlist _ (List.mem_map_of_mem hpart)
    show Except.ok (Value.boolean (Text.contains part separator)) = _
    rw [Text.contains_eq, decide_eq_false hfree]
  found := by
    intro hne
    have hinfix := (Text.split_cuts hne s).infix_iff
    rw [List.length_map] at hinfix
    show Except.ok (Value.boolean (Text.contains s separator)) = _
    rw [Text.contains_eq, decide_eq_decide.mpr hinfix]
  replaced := by
    intro hne replacement
    exact ⟨_, rfl, by rw [join_strings, Text.replace_eq_join hne]⟩
  characters := by
    intro hempty
    unfold Text.split
    rw [if_pos (String.isEmpty_iff.mpr hempty)]
  kept := by
    intro hempty replacement
    have hkeep : Text.replace s separator replacement = s := by
      unfold Text.replace
      rw [if_pos (String.isEmpty_iff.mpr hempty)]
    show Except.ok (Value.string (Text.replace s separator replacement)) = _
    rw [hkeep]

/-- **One splitting law.**  The parts that a text is split into make it up again; they are what is left between
the occurrences that `contains` looks for and `replace` replaces.  `startsWith` and `endsWith` compare with the
end of the text that `substr` takes, as long as doubles can tell the lengths. -/
theorem splitting_laws :
    (∀ s separator, ∃ parts, SplitInto s separator parts) ∧
    (∀ s part, contains [.string s, .string part] = .ok (.boolean (decide (part.toList <:+: s.toList)))) ∧
    (∀ s p : String, s.length ≤ 2 ^ 53 → p.length ≤ 2 ^ 53 → ∃ n front, len [.string p] = .ok n ∧
      substr [.string s, .ofNat 0, n] = .ok (.string front) ∧
      startsWith [.string s, .string p] = .ok (.boolean (front == p))) ∧
    ∀ s p : String, s.length ≤ 2 ^ 53 → p.length ≤ 2 ^ 53 → ∃ m n fits,
      len [.string s] = .ok m ∧ len [.string p] = .ok n ∧ Operator.compare .lessEqual n m = .ok fits ∧
      (fits = false → endsWith [.string s, .string p] = .ok (.boolean false)) ∧
      (fits = true → ∃ start back, Operator.binary .sub m n = .ok start ∧
        substr [.string s, start] = .ok (.string back) ∧
        endsWith [.string s, .string p] = .ok (.boolean (back == p))) := by
  refine ⟨fun s separator => ⟨_, splitInto_split s separator⟩, fun s part => ?_, fun s p hs hp => ?_,
    fun s p hs hp => ?_⟩
  · rw [← Text.contains_eq]
    rfl
  · refine ⟨_, _, rfl, substr_take hs hp, ?_⟩
    rw [← startsWith_eq]
    rfl
  · have hcompare : Operator.compare .lessEqual (.ofNat p.length) (.ofNat s.length) =
        .ok (decide (p.length ≤ s.length)) := by
      show Except.ok (decide (Double.ofInt p.length ≤ Double.ofInt s.length)) = _
      rw [decide_eq_decide.mpr (Double.ofInt_le_ofInt_iff hp hs)]
    refine ⟨_, _, _, rfl, rfl, hcompare, fun hfits => ?_, fun hfits => ?_⟩
    · have hlonger := endsWith_longer (Nat.lt_of_not_le (of_decide_eq_false hfits))
      show Except.ok (Value.boolean (Text.endsWith s p)) = _
      rw [hlonger]
    · have hle := of_decide_eq_true hfits
      have hstart : Operator.binary .sub (.ofNat s.length) (.ofNat p.length) =
          .ok (.ofNat (s.length - p.length)) := by
        show Except.ok (Value.number (Double.ofInt s.length - Double.ofInt p.length)) = _
        rw [Double.ofInt_sub_ofInt hle hs]
        rfl
      refine ⟨_, _, hstart, substr_drop hs (Nat.sub_le _ _), ?_⟩
      rw [← endsWith_eq]
      rfl

/-- Of two occurrences that overlap the first one counts, and a character of four bytes is one character. -/
theorem splitting_laws_overlapping :
    (join [.array [.string "", .string "a"], .string "aa"] = .ok (.string "aaa") ∧
      contains [.string "a", .string "aa"] = .ok (.boolean false) ∧
      contains [.string "aaa", .string "aa"] = .ok (.boolean true) ∧
      ∃ t, replace [.string "aaa", .string "aa", .string "b"] = .ok (.string t) ∧
        join [.array [.string "", .string "a"], .string "b"] = .ok (.string t)) ∧
    replace [.string "𝄞", .string "", .string "b"] = .ok (.string "𝄞") ∧
    (∃ n front, len [.string "𝄞a"] = .ok n ∧ substr [.string "𝄞ab", .ofNat 0, n] = .ok (.string front) ∧
      startsWith [.string "𝄞ab", .string "𝄞a"] = .ok (.boolean (front == "𝄞a"))) ∧
    ∃ m n fits, len [.string "𝄞ab"] = .ok m ∧ len [.string "ab"] = .ok n ∧
      Operator.compare .lessEqual n m = .ok fits ∧
      (fits = true → ∃ start back, Operator.binary .sub m n = .ok start ∧
        substr [.string "𝄞ab", start] = .ok (.string back) ∧
        endsWith [.string "𝄞ab", .string "ab"] = .ok (.boolean (back == "ab"))) := by
  obtain ⟨hsplit, _, hstart, hend⟩ := splitting_laws
  refine ⟨?_, ?_, hstart "𝄞ab" "𝄞a" (by decide) (by decide), ?_⟩
  · obtain ⟨parts, h⟩ := hsplit "aaa" "aa"
    have hgiven : split [.string "aaa", .string "aa"] = .ok (.array (["", "a"].map .string)) := rfl
    have hvalues := Value.array.inj (Except.ok.inj (h.given.symm.trans hgiven))
    obtain rfl := List.map_injective_iff.mpr (fun _ _ => Value.string.inj) hvalues
    exact ⟨h.joined, h.apart (by decide) "a" (by decide), h.found (by decide), h.replaced (by decide) "b"⟩
  · obtain ⟨parts, h⟩ := hsplit "𝄞" ""
    exact h.kept rfl "b"
  · obtain ⟨m, n, fits, hm, hn, hfits, _, hback⟩ := hend "𝄞ab" "ab" (by decide) (by decide)
    exact ⟨m, n, fits, hm, hn, hfits, hback⟩

end Functions

end PipeExpr
