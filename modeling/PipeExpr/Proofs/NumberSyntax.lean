import Mathlib.Data.List.DropRight
import PipeExpr.Proofs.Printing
import PipeExpr.Source.Scanner

/-!
# The syntax of numbers

A number is digits, a fraction and an exponent, and the last two may be missing.  The scanner goes over
these parts with one look ahead for the dot and up to two for the marker, and never goes back.  **What it
takes is the longest prefix of the text that is a number** (`Scan.numberLength_longest`): a part that ends
is followed by a character that the part could have gone on with, or by one that may start the next part,
and never by both (`Longest.append`).

Whatever is a number by its syntax spells a numeral (`Scan.IsNumber.reads`), which is the parts of its text
(`Numeral.ofChars?_parts`).
-/

namespace PipeExpr

/-- A run of characters ends in front of a character of another kind. -/
theorem takeWhile_append_eq {p : Char → Bool} {cs more : List Char} (hcs : ∀ c ∈ cs, p c = true)
    (hmore : ∀ c ∈ more.head?, p c = false) : (cs ++ more).takeWhile p = cs := by
  rw [List.takeWhile_append_of_pos hcs]
  cases more with
  | nil => exact List.append_nil cs
  | cons c more =>
    have hc : p c = false := hmore c rfl
    rw [List.takeWhile_cons_of_neg (by rw [hc]; exact Bool.false_ne_true), List.append_nil]

theorem head?_dropWhile {p : Char → Bool} {cs : List Char} {c : Char} (h : c ∈ (cs.dropWhile p).head?) :
    p c = false := by
  have hnot := List.head?_dropWhile_not p cs
  rwa [h] at hnot

namespace Scan

/-! ## Longest prefixes -/

/-- **The longest prefix** of a text that has a property. -/
structure Longest (P : List Char → Prop) (text front : List Char) : Prop where
  holds : P front
  starts : front <+: text
  longest : ∀ other, P other → other <+: text → other.length ≤ front.length

/-- A text in two parts. -/
def Then (P Q : List Char → Prop) (text : List Char) : Prop :=
  ∃ front back, text = front ++ back ∧ P front ∧ Q back

section Longest
variable {P Q : List Char → Prop} {text front back rest : List Char}

theorem Longest.unique (h : Longest P text front) (h' : Longest P text back) : front = back := by
  have hle := h'.longest front h.holds h.starts
  have hge := h.longest back h'.holds h'.starts
  exact (List.prefix_of_prefix_length_le h.starts h'.starts hle).eq_of_length (Nat.le_antisymm hle hge)

/-- **The longest part is followed by the longest next part**, if the next part never starts with a character
of the first one: then it does not help to end the first part early. -/
theorem Longest.append {p : Char → Prop} (hP : Longest P (front ++ rest) front) (hQ : Longest Q rest back)
    (hfront : ∀ c ∈ front, p c) (hback : ∀ other, Q other → ∀ c ∈ other.head?, ¬ p c) :
    Longest (Then P Q) (front ++ rest) (front ++ back) := by
  refine ⟨⟨front, back, rfl, hP.holds, hQ.holds⟩, (List.prefix_append_right_inj front).mpr hQ.starts, ?_⟩
  rintro _ ⟨first, second, rfl, hfirst, hsecond⟩ hstarts
  have hle := hP.longest first hfirst ((List.prefix_append first second).trans hstarts)
  rw [List.length_append, List.length_append]
  rcases hle.lt_or_eq with hlt | heq
  · cases second with
    | nil => exact Nat.le_add_right_of_le hle
    | cons c second =>
      have hnext : first ++ [c] <+: front := by
        refine List.prefix_of_prefix_length_le ?_ (List.prefix_append front rest) ?_
        · refine List.IsPrefix.trans ?_ hstarts
          exact (List.prefix_append_right_inj first).mpr (List.prefix_append [c] second)
        · rw [List.length_append, List.length_singleton]
          exact hlt
      have hc : c ∈ front := hnext.subset (List.mem_append_right first (List.mem_singleton_self c))
      exact absurd (hfront c hc) (hback _ hsecond c rfl)
  · obtain rfl : first = front :=
      (List.prefix_of_prefix_length_le ((List.prefix_append first second).trans hstarts)
        (List.prefix_append front rest) hle).eq_of_length heq
    have hlonger := hQ.longest second hsecond ((List.prefix_append_right_inj first).mp hstarts)
    omega

end Longest

/-! ## Parts of numbers -/

/-- A row of digits. -/
structure Digits (cs : List Char) : Prop where
  ne_nil : cs ≠ []
  all : ∀ c ∈ cs, Text.isDigit c = true

/-- A fraction: none, or a dot and digits if a fraction is allowed. -/
inductive IsFraction (afterDot : Prop) : List Char → Prop where
  | none : IsFraction afterDot []
  | digits {cs : List Char} (hdot : ¬ afterDot) (h : Digits cs) : IsFraction afterDot ('.' :: cs)

/-- The sign of an exponent. -/
def IsSign (cs : List Char) : Prop := cs = [] ∨ cs = ['+'] ∨ cs = ['-']

/-- An exponent: none, or a marker, a sign and digits. -/
inductive IsExponent : List Char → Prop where
  | none : IsExponent []
  | digits {marker : Char} {sign cs : List Char} (hmarker : marker = 'e' ∨ marker = 'E') (hsign : IsSign sign)
    (h : Digits cs) : IsExponent (marker :: (sign ++ cs))

/-- The digits of a number with its fraction. -/
def IsMantissa (afterDot : Prop) : List Char → Prop := Then Digits (IsFraction afterDot)

/-- **A number by its syntax**: digits, a fraction unless the token in front is a dot, an exponent. -/
def IsNumber (afterDot : Prop) : List Char → Prop := Then (IsMantissa afterDot) IsExponent

theorem IsFraction.head {afterDot : Prop} {cs : List Char} (h : IsFraction afterDot cs) :
    ∀ c ∈ cs.head?, c = '.' := by
  cases h with
  | none => exact fun c hc => absurd hc (Option.not_mem_none c)
  | digits => exact fun _ hc => (Option.some.inj hc).symm

theorem IsExponent.head {cs : List Char} (h : IsExponent cs) : ∀ c ∈ cs.head?, c = 'e' ∨ c = 'E' := by
  cases h with
  | none => exact fun c hc => absurd hc (Option.not_mem_none c)
  | digits hmarker => exact fun _ hc => Option.some.inj hc ▸ hmarker

/-- A mantissa has digits and a dot only. -/
theorem IsMantissa.mem {afterDot : Prop} {cs : List Char} (h : IsMantissa afterDot cs) :
    ∀ c ∈ cs, Text.isDigit c = true ∨ c = '.' := by
  obtain ⟨whole, fraction, rfl, hwhole, hfraction⟩ := h
  refine List.forall_mem_append.mpr ⟨fun c hc => .inl (hwhole.all c hc), ?_⟩
  cases hfraction with
  | none => exact fun c hc => absurd hc List.not_mem_nil
  | digits _ h => exact List.forall_mem_cons.mpr ⟨.inr rfl, fun c hc => .inl (h.all c hc)⟩

/-- A sign in front of the digits of an exponent: one of the two signs, or nothing in front of a text that
starts with neither. -/
inductive Signed : List Char → Bool → List Char → Prop where
  | minus (body : List Char) : Signed ['-'] true body
  | plus (body : List Char) : Signed ['+'] false body
  | none {body : List Char} (h : ∀ c ∈ body.head?, c ≠ '-' ∧ c ≠ '+') : Signed [] false body

theorem exists_signed (rest : List Char) :
    ∃ sign negative body, rest = sign ++ body ∧ Signed sign negative body := by
  by_cases hminus : ∃ body, rest = '-' :: body
  · obtain ⟨body, rfl⟩ := hminus
    exact ⟨_, _, body, rfl, .minus body⟩
  by_cases hplus : ∃ body, rest = '+' :: body
  · obtain ⟨body, rfl⟩ := hplus
    exact ⟨_, _, body, rfl, .plus body⟩
  refine ⟨[], false, rest, rfl, .none fun c hc => ⟨?_, ?_⟩⟩
  · rintro rfl
    exact hminus ⟨_, List.eq_cons_of_mem_head? hc⟩
  · rintro rfl
    exact hplus ⟨_, List.eq_cons_of_mem_head? hc⟩

/-- A sign stays what it is if something else stands behind the first digit. -/
theorem Signed.digits {sign ds tail : List Char} {d : Char} {negative : Bool}
    (h : Signed sign negative (d :: ds ++ tail)) (more : List Char) :
    Signed sign negative (d :: ds ++ more) := by
  cases h with
  | minus => exact .minus _
  | plus => exact .plus _
  | none h => exact .none h

theorem Signed.isSign {sign body : List Char} {negative : Bool} (h : Signed sign negative body) :
    IsSign sign := by
  cases h with
  | minus => exact .inr (.inr rfl)
  | plus => exact .inr (.inl rfl)
  | none => exact .inl rfl

/-- Digits are signed by what stands in front of them. -/
theorem IsSign.signed {sign cs : List Char} (h : IsSign sign) (hcs : Digits cs) :
    ∃ negative, Signed sign negative cs := by
  obtain rfl | rfl | rfl := h
  · refine ⟨false, .none fun c hc => ?_⟩
    have hdigit := hcs.all c (List.mem_of_mem_head? hc)
    constructor <;>
      · rintro rfl
        exact absurd hdigit (by decide)
  · exact ⟨false, .plus cs⟩
  · exact ⟨true, .minus cs⟩

/-- Only one sign leaves digits behind it. -/
theorem Signed.of_starts {sign body sign' cs : List Char} {negative : Bool} (h : Signed sign negative body)
    (hsign : IsSign sign') (hcs : Digits cs) (hstarts : sign' ++ cs <+: sign ++ body) :
    sign' = sign ∧ cs <+: body := by
  obtain ⟨d, ds, rfl⟩ := List.exists_cons_of_ne_nil hcs.ne_nil
  have hd := hcs.all d (List.mem_cons_self ..)
  cases h with
  | minus =>
    obtain rfl | rfl | rfl := hsign
    · obtain ⟨rfl, -⟩ := List.cons_prefix_cons.mp hstarts
      exact absurd hd (by decide)
    · exact absurd (List.cons_prefix_cons.mp hstarts).1 (by decide)
    · exact ⟨rfl, (List.cons_prefix_cons.mp hstarts).2⟩
  | plus =>
    obtain rfl | rfl | rfl := hsign
    · obtain ⟨rfl, -⟩ := List.cons_prefix_cons.mp hstarts
      exact absurd hd (by decide)
    · exact ⟨rfl, (List.cons_prefix_cons.mp hstarts).2⟩
    · exact absurd (List.cons_prefix_cons.mp hstarts).1 (by decide)
  | none h =>
    obtain ⟨more, rfl⟩ := hstarts
    obtain rfl | rfl | rfl := hsign
    · exact ⟨rfl, List.prefix_append _ _⟩
    · exact absurd rfl (h _ rfl).2
    · exact absurd rfl (h _ rfl).1

/-! ## Lengths of the parts -/

theorem fractionLength_dot (rest : List Char) : fractionLength ('.' :: rest) =
    if (rest.takeWhile Text.isDigit).isEmpty then 0 else (rest.takeWhile Text.isDigit).length + 1 := rfl

/-- How many characters of a text a number takes as its fraction. -/
def fractionTaken (afterDot : Bool) (cs : List Char) : Nat := if afterDot then 0 else fractionLength cs

theorem fractionTaken_of_ne (afterDot : Bool) {cs : List Char} (h : ∀ c ∈ cs.head?, c ≠ '.') :
    fractionTaken afterDot cs = 0 := by
  unfold fractionTaken fractionLength
  split
  · rfl
  split
  · exact absurd rfl (h _ rfl)
  · rfl

/-- An exponent is its marker, a sign and digits, and there is none without digits. -/
theorem exponentLength_marker {marker : Char} (hmarker : marker = 'e' ∨ marker = 'E') {sign body : List Char}
    {negative : Bool} (hsign : Signed sign negative body) : exponentLength (marker :: (sign ++ body)) =
      if (body.takeWhile Text.isDigit).isEmpty then 0
      else 1 + sign.length + (body.takeWhile Text.isDigit).length := by
  cases hsign with
  | minus body | plus body =>
    unfold exponentLength
    simp only [hmarker, if_true, List.cons_append, List.nil_append]
    rfl
  | none h =>
    unfold exponentLength
    simp only [hmarker, if_true, List.nil_append]
    split
    · exact absurd rfl (h _ rfl).1
    · exact absurd rfl (h _ rfl).2
    · rfl

theorem exponentLength_of_ne {cs : List Char} (h : ∀ c ∈ cs.head?, c ≠ 'e' ∧ c ≠ 'E') :
    exponentLength cs = 0 := by
  cases cs with
  | nil => rfl
  | cons c cs =>
    obtain ⟨he, hE⟩ := h c rfl
    exact if_neg (not_or.mpr ⟨he, hE⟩)

/-- A number is its digits, its fraction and its exponent. -/
theorem numberLength_parts {afterDot : Bool} {whole fraction more : List Char}
    (hwhole : ∀ c ∈ whole, Text.isDigit c = true)
    (hbehind : ∀ c ∈ (fraction ++ more).head?, Text.isDigit c = false)
    (hfraction : fractionTaken afterDot (fraction ++ more) = fraction.length) :
    numberLength afterDot (whole ++ (fraction ++ more)) =
      whole.length + fraction.length + exponentLength more := by
  unfold fractionTaken at hfraction
  unfold numberLength
  dsimp only
  rw [takeWhile_append_eq hwhole hbehind, List.drop_left, hfraction, ← List.append_assoc,
    ← List.length_append, List.drop_left]

/-! ## The longest number -/

/-- Digits with something else behind them are all the digits that there are. -/
theorem Digits.longest {ds more : List Char} (h : Digits ds)
    (hmore : ∀ c ∈ more.head?, Text.isDigit c = false) : Longest Digits (ds ++ more) ds := by
  refine ⟨h, List.prefix_append ds more, ?_⟩
  rintro other hother ⟨rest, hrest⟩
  have hall := congrArg (List.takeWhile Text.isDigit) hrest
  rw [takeWhile_append_eq h.all hmore, List.takeWhile_append_of_pos hother.all] at hall
  rw [← hall, List.length_append]
  exact Nat.le_add_right _ _

theorem longest_digits {cs : List Char} (h : cs.takeWhile Text.isDigit ≠ []) :
    Longest Digits cs (cs.takeWhile Text.isDigit) := by
  have hdigits : Digits (cs.takeWhile Text.isDigit) := ⟨h, fun _ hc => List.mem_takeWhile_imp hc⟩
  have hlongest := @Digits.longest _ (cs.dropWhile Text.isDigit) hdigits fun c hc => head?_dropWhile hc
  rwa [List.takeWhile_append_dropWhile] at hlongest

/-- What starts with digits has digits to take. -/
theorem takeWhile_ne_nil_of_starts {cs ds : List Char} (hds : Digits ds) (hstarts : ds <+: cs) :
    cs.takeWhile Text.isDigit ≠ [] := by
  obtain ⟨more, rfl⟩ := hstarts
  rw [List.takeWhile_append_of_pos hds.all]
  exact List.append_ne_nil_of_left_ne_nil hds.ne_nil _

theorem longest_none {P : List Char → Prop} {cs : List Char} (hnil : P [])
    (h : ∀ other, P other → other <+: cs → other = []) : Longest P cs [] :=
  ⟨hnil, List.nil_prefix, fun other hother hstarts => (congrArg List.length (h other hother hstarts)).le⟩

/-- A part is missing in front of a character that it does not start with. -/
theorem longest_none_of_head {P : List Char → Prop} {p : Char → Prop} {cs : List Char} (hnil : P [])
    (hP : ∀ other, P other → ∀ c ∈ other.head?, p c) (hcs : ∀ c ∈ cs.head?, ¬ p c) : Longest P cs [] := by
  refine longest_none hnil fun other hother hstarts => ?_
  cases other with
  | nil => rfl
  | cons c other =>
    obtain ⟨more, rfl⟩ := hstarts
    exact absurd (hP _ hother c rfl) (hcs c rfl)

/-- A dot is left where no digit follows it. -/
theorem longest_fraction_left {afterDot : Prop} {more : List Char}
    (h : afterDot ∨ more.takeWhile Text.isDigit = []) : Longest (IsFraction afterDot) ('.' :: more) [] := by
  refine longest_none .none fun other hother hstarts => ?_
  cases hother with
  | none => rfl
  | digits hdot hds =>
    exact absurd (h.resolve_left hdot)
      (takeWhile_ne_nil_of_starts hds (List.cons_prefix_cons.mp hstarts).2)

/-- A marker is left where no digits follow it, with a sign or without. -/
theorem longest_exponent_left {marker : Char} {more : List Char}
    (h : ∀ sign ds, IsSign sign → Digits ds → ¬ sign ++ ds <+: more) : Longest IsExponent (marker :: more) [] := by
  refine longest_none .none fun other hother hstarts => ?_
  cases hother with
  | none => rfl
  | digits _ hsign hds => exact absurd (List.cons_prefix_cons.mp hstarts).2 (h _ _ hsign hds)

theorem longest_fraction_digits {afterDot : Prop} {cs ds : List Char} (hdot : ¬ afterDot)
    (h : Longest Digits cs ds) : Longest (IsFraction afterDot) ('.' :: cs) ('.' :: ds) := by
  refine ⟨.digits hdot h.holds, List.cons_prefix_cons.mpr ⟨rfl, h.starts⟩, fun other hother hstarts => ?_⟩
  cases hother with
  | none => exact Nat.zero_le _
  | digits _ hds => exact Nat.succ_le_succ (h.longest _ hds (List.cons_prefix_cons.mp hstarts).2)

theorem IsFraction.longest {afterDot : Prop} {fraction more : List Char} (h : IsFraction afterDot fraction)
    (hmore : ∀ c ∈ more.head?, c ≠ '.' ∧ Text.isDigit c = false) :
    Longest (IsFraction afterDot) (fraction ++ more) fraction := by
  cases h with
  | none => exact longest_none_of_head .none (fun _ hother => hother.head) fun c hc => (hmore c hc).1
  | digits hdot hds => exact longest_fraction_digits hdot (hds.longest fun c hc => (hmore c hc).2)

theorem longest_mantissa {afterDot : Prop} {whole rest fraction : List Char}
    (hwhole : Longest Digits (whole ++ rest) whole) (hfraction : Longest (IsFraction afterDot) rest fraction) :
    Longest (IsMantissa afterDot) (whole ++ rest) (whole ++ fraction) := by
  refine hwhole.append (p := fun c => Text.isDigit c = true) hfraction hwhole.holds.all ?_
  intro other hother c hc
  rw [hother.head c hc]
  decide

theorem longest_number {afterDot : Prop} {mantissa more exponent : List Char}
    (hmantissa : Longest (IsMantissa afterDot) (mantissa ++ more) mantissa)
    (hexponent : Longest IsExponent more exponent) :
    Longest (IsNumber afterDot) (mantissa ++ more) (mantissa ++ exponent) := by
  refine hmantissa.append hexponent hmantissa.holds.mem ?_
  intro other hother c hc
  rcases hother.head c hc with rfl | rfl <;> decide

/-- A mantissa ends in front of what is neither a dot nor a digit. -/
theorem IsMantissa.longest {afterDot : Prop} {mantissa more : List Char} (h : IsMantissa afterDot mantissa)
    (hmore : ∀ c ∈ more.head?, c ≠ '.' ∧ Text.isDigit c = false) :
    Longest (IsMantissa afterDot) (mantissa ++ more) mantissa := by
  obtain ⟨whole, fraction, rfl, hwhole, hfraction⟩ := h
  rw [List.append_assoc]
  refine longest_mantissa (hwhole.longest ?_) (hfraction.longest hmore)
  cases hfraction with
  | none => exact fun c hc => (hmore c hc).2
  | digits => exact fun c hc => Option.some.inj hc ▸ rfl

/-- **A dot that starts no fraction is no part of the number.** -/
theorem longest_number_dot {afterDot : Prop} {whole more : List Char} (hwhole : Digits whole)
    (h : afterDot ∨ ∀ c ∈ more.head?, Text.isDigit c = false) :
    Longest (IsNumber afterDot) (whole ++ '.' :: more) whole := by
  have hleft : afterDot ∨ more.takeWhile Text.isDigit = [] :=
    h.imp_right fun hmore => @takeWhile_append_eq Text.isDigit [] more nofun hmore
  have hhead : ∀ c ∈ ('.' :: more).head?, Text.isDigit c = false := fun c hc => Option.some.inj hc ▸ rfl
  have hmantissa := longest_mantissa (hwhole.longest hhead) (longest_fraction_left hleft)
  rw [List.append_nil] at hmantissa
  have hexponent : Longest IsExponent ('.' :: more) [] :=
    longest_none_of_head .none (fun _ hother => hother.head) fun c hc => Option.some.inj hc ▸ by decide
  have hnumber := longest_number hmantissa hexponent
  rwa [List.append_nil] at hnumber

/-- **A marker that starts no exponent is no part of the number.** -/
theorem longest_number_marker {afterDot : Prop} {mantissa more : List Char} {marker : Char}
    (hmantissa : IsMantissa afterDot mantissa) (hmarker : marker = 'e' ∨ marker = 'E')
    (h : ∀ sign ds, IsSign sign → Digits ds → ¬ sign ++ ds <+: more) :
    Longest (IsNumber afterDot) (mantissa ++ marker :: more) mantissa := by
  have hhead : ∀ c ∈ (marker :: more).head?, c ≠ '.' ∧ Text.isDigit c = false := by
    intro c hc
    obtain rfl := Option.some.inj hc
    rcases hmarker with rfl | rfl <;> decide
  have hnumber := longest_number (hmantissa.longest hhead) (longest_exponent_left h)
  rwa [List.append_nil] at hnumber

theorem longest_fraction (afterDot : Bool) (cs : List Char) : ∃ front,
    Longest (IsFraction (afterDot = true)) cs front ∧ fractionTaken afterDot cs = front.length := by
  by_cases hdot : ∃ rest, cs = '.' :: rest
  · obtain ⟨rest, rfl⟩ := hdot
    by_cases hleft : afterDot = true ∨ rest.takeWhile Text.isDigit = []
    · refine ⟨[], longest_fraction_left hleft, ?_⟩
      unfold fractionTaken
      rcases hleft with rfl | hempty
      · rfl
      · rw [fractionLength_dot, hempty]
        exact ite_self 0
    · obtain ⟨hafter, hdigits⟩ := not_or.mp hleft
      refine ⟨_, longest_fraction_digits hafter (longest_digits hdigits), ?_⟩
      rw [fractionTaken, if_neg hafter, fractionLength_dot]
      exact if_neg fun hempty => hdigits (List.isEmpty_iff.mp hempty)
  · have hhead : ∀ c ∈ cs.head?, c ≠ '.' := by
      rintro c hc rfl
      exact hdot ⟨_, List.eq_cons_of_mem_head? hc⟩
    exact ⟨[], longest_none_of_head .none (fun _ hother => hother.head) hhead, fractionTaken_of_ne afterDot hhead⟩

theorem longest_exponent (cs : List Char) : ∃ front,
    Longest IsExponent cs front ∧ exponentLength cs = front.length := by
  by_cases hmarker : ∃ marker rest, cs = marker :: rest ∧ (marker = 'e' ∨ marker = 'E')
  · obtain ⟨marker, rest, rfl, hmarker⟩ := hmarker
    obtain ⟨sign, negative, body, rfl, hsign⟩ := exists_signed rest
    have hlength := exponentLength_marker hmarker hsign
    by_cases hdigits : body.takeWhile Text.isDigit = []
    · rw [hdigits] at hlength
      refine ⟨[], longest_exponent_left fun sign' ds hsign' hds hstarts => ?_, hlength⟩
      obtain ⟨-, hbody⟩ := hsign.of_starts hsign' hds hstarts
      exact takeWhile_ne_nil_of_starts hds hbody hdigits
    · have hlongest := longest_digits hdigits
      refine ⟨marker :: (sign ++ body.takeWhile Text.isDigit),
        ⟨.digits hmarker hsign.isSign hlongest.holds, ?_, fun other hother hstarts => ?_⟩, ?_⟩
      · exact List.cons_prefix_cons.mpr ⟨rfl, (List.prefix_append_right_inj sign).mpr hlongest.starts⟩
      · cases hother with
        | none => exact Nat.zero_le _
        | digits _ hsign' h =>
          obtain ⟨rfl, hbody⟩ := hsign.of_starts hsign' h (List.cons_prefix_cons.mp hstarts).2
          have hle := hlongest.longest _ h hbody
          simp only [List.length_cons, List.length_append]
          omega
      · rw [hlength, if_neg fun hempty => hdigits (List.isEmpty_iff.mp hempty)]
        simp only [List.length_cons, List.length_append]
        omega
  · have hhead : ∀ c ∈ cs.head?, ¬ (c = 'e' ∨ c = 'E') := fun c hc hc' =>
      hmarker ⟨c, _, List.eq_cons_of_mem_head? hc, hc'⟩
    exact ⟨[], longest_none_of_head .none (fun _ hother => hother.head) hhead,
      exponentLength_of_ne fun c hc => not_or.mp (hhead c hc)⟩

/-- **A number is the longest prefix with the syntax of one.** -/
theorem numberLength_longest (afterDot : Bool) {c : Char} (hc : Text.isDigit c = true) (cs : List Char) :
    ∃ lexeme, Longest (IsNumber (afterDot = true)) (c :: cs) lexeme ∧
      numberLength afterDot (c :: cs) = lexeme.length := by
  have hwhole : (c :: cs).takeWhile Text.isDigit ≠ [] := by
    rw [List.takeWhile_cons_of_pos hc]
    exact List.cons_ne_nil _ _
  have hlongest := longest_digits hwhole
  have hsplit : c :: cs = (c :: cs).takeWhile Text.isDigit ++ (c :: cs).dropWhile Text.isDigit :=
    List.takeWhile_append_dropWhile.symm
  have hbehind : ∀ d ∈ ((c :: cs).dropWhile Text.isDigit).head?, Text.isDigit d = false :=
    fun d hd => head?_dropWhile hd
  generalize (c :: cs).takeWhile Text.isDigit = whole at hlongest hsplit
  generalize (c :: cs).dropWhile Text.isDigit = rest at hsplit hbehind
  rw [hsplit] at hlongest ⊢
  obtain ⟨fraction, hfraction, htaken⟩ := longest_fraction afterDot rest
  obtain ⟨more, rfl⟩ := hfraction.starts
  obtain ⟨exponent, hexponent, hlength⟩ := longest_exponent more
  have hmantissa := longest_mantissa hlongest hfraction
  refine ⟨whole ++ fraction ++ exponent, ?_, ?_⟩
  · rw [← List.append_assoc] at hmantissa ⊢
    exact longest_number hmantissa hexponent
  · rw [numberLength_parts hlongest.holds.all hbehind htaken, hlength, List.length_append, List.length_append]

end Scan

/-! ## Numerals -/

namespace Numeral
open Scan

theorem exponentOf?_digits {sign digits : List Char} {negative : Bool} (hsign : Signed sign negative digits)
    (hdigits : Digits digits) : exponentOf? (sign ++ digits) =
      some (if negative then -(digitsValue digits : Int) else digitsValue digits) := by
  have hempty : digits.isEmpty = false := by
    rw [← Bool.not_eq_true, List.isEmpty_iff]
    exact hdigits.ne_nil
  have hall : digits.all Text.isDigit = true := List.all_eq_true.mpr hdigits.all
  cases hsign with
  | minus | plus =>
    unfold exponentOf?
    simp [hempty, hall]
  | none h =>
    obtain ⟨d, ds, rfl⟩ := List.exists_cons_of_ne_nil hdigits.ne_nil
    obtain ⟨hminus, hplus⟩ := h d rfl
    unfold exponentOf?
    simp [hminus, hplus, hall]

/-- The exponent that the end of a number spells. -/
def exponentValue? : List Char → Option Int
  | [] => some 0
  | _ :: body => exponentOf? body

/-- **A number is read part by part.** -/
theorem ofChars?_parts {whole fraction exponent : List Char} (hwhole : Digits whole)
    (hfraction : ∀ c ∈ fraction, Text.isDigit c = true) (hexponent : ∀ c ∈ exponent.head?, c = 'e' ∨ c = 'E') :
    ofChars? (whole ++ (fractionText fraction ++ exponent)) =
      (exponentValue? exponent).map fun value => ⟨whole, fraction, value⟩ := by
  have hmarker : ∀ c ∈ exponent.head?, Text.isDigit c = false := by
    intro c hc
    rcases hexponent c hc with rfl | rfl <;> decide
  have hbehind : ∀ c ∈ (fractionText fraction ++ exponent).head?, Text.isDigit c = false := by
    unfold fractionText
    split
    · exact hmarker
    · exact fun c hc => Option.some.inj hc ▸ rfl
  have htake := takeWhile_append_eq hwhole.all hbehind
  have hdrop : (whole ++ (fractionText fraction ++ exponent)).dropWhile Text.isDigit =
      fractionText fraction ++ exponent := by
    have hsplit := @List.takeWhile_append_dropWhile _ Text.isDigit (whole ++ (fractionText fraction ++ exponent))
    rw [htake] at hsplit
    exact List.append_cancel_left hsplit
  have hempty : whole.isEmpty = false := by
    rw [← Bool.not_eq_true, List.isEmpty_iff]
    exact hwhole.ne_nil
  unfold ofChars?
  dsimp only
  rw [htake, hdrop]
  by_cases hnone : fraction = []
  · subst hnone
    cases exponent with
    | nil => simp [fractionText, hempty, exponentValue?]
    | cons marker body => rcases hexponent marker rfl with rfl | rfl <;> simp [fractionText, hempty, exponentValue?]
  · have hdigits := takeWhile_append_eq hfraction hmarker
    have hrest : (fraction ++ exponent).dropWhile Text.isDigit = exponent := by
      have hsplit := @List.takeWhile_append_dropWhile _ Text.isDigit (fraction ++ exponent)
      rw [hdigits] at hsplit
      exact List.append_cancel_left hsplit
    simp only [fractionText, if_neg hnone, List.cons_append, hdigits, hrest]
    cases exponent with
    | nil => simp [hempty, exponentValue?]
    | cons marker body => rcases hexponent marker rfl with rfl | rfl <;> simp [hempty, exponentValue?]

end Numeral

/-- **What is a number by its syntax spells a numeral.** -/
theorem Scan.IsNumber.reads {afterDot : Prop} {lexeme : List Char} (h : IsNumber afterDot lexeme) :
    ∃ n, Numeral.ofChars? lexeme = some n := by
  obtain ⟨_, exponent, rfl, ⟨whole, fraction, rfl, hwhole, hfraction⟩, hexponent⟩ := h
  obtain ⟨ds, hds, hdigits⟩ : ∃ ds, fraction = Numeral.fractionText ds ∧ ∀ c ∈ ds, Text.isDigit c = true := by
    cases hfraction with
    | none => exact ⟨[], rfl, nofun⟩
    | @digits ds _ hds => exact ⟨ds, (if_neg hds.ne_nil).symm, hds.all⟩
  obtain ⟨value, hvalue⟩ : ∃ value, Numeral.exponentValue? exponent = some value := by
    cases hexponent with
    | none => exact ⟨0, rfl⟩
    | digits _ hsign hds =>
      obtain ⟨negative, hsigned⟩ := hsign.signed hds
      exact ⟨_, Numeral.exponentOf?_digits hsigned hds⟩
  rw [hds, List.append_assoc, Numeral.ofChars?_parts hwhole hdigits hexponent.head, hvalue]
  exact ⟨_, rfl⟩

end PipeExpr
