import PipeExpr.Expr.Parser
import PipeExpr.Proofs.Numerals

/-!
# Printing expressions

The text of a tree (`Expr.print`): its tokens in a row, with single spaces between them, and with
parentheses only where the table of precedence asks for them.

The table has fifteen rows, from the steps of access to the conditional, and `Expr.rank` counts them
from the tightest one.  Each place for an operand has a limit, and an operand from a looser row stands in
parentheses (`Expr.enclose`).  Operators that group to the left take their own row on the left side and
the next tighter one on the right side; power, which groups to the right, takes its own row on the right
side and prefix operators on the left one.

`Expr.Printable` says which trees have a text at all.  What is not in the text is the place of a node and
how a string was quoted; `Expr.bare` leaves these out.
-/

namespace PipeExpr

/-! ## Lexemes -/

/-- A token of a printed text: its characters, and what they are read as. -/
structure Lexeme where
  kind : TokenKind
  text : List Char

namespace Lexeme

def symbol (s : Symbol) : Lexeme := ⟨.symbol s, s.chars⟩

/-- A keyword or a name. -/
def word (w : String) : Lexeme := ⟨Scan.wordKind true w, w.toList⟩

/-- The characters of a string between double quotes. -/
def escaped : List Char → List Char
  | [] => []
  | c :: cs => if c = '"' ∨ c = '\\' then '\\' :: c :: escaped cs else c :: escaped cs

def string (s : String) : Lexeme := ⟨.string s, '"' :: (escaped s.toList ++ ['"'])⟩

/-- The marker of a handler; the default handler has the marker without a name. -/
def marker (handler : String) : Lexeme :=
  if handler = defaultPipe then ⟨.pipe none, ['|', ':']⟩
  else ⟨.pipe (some handler), '|' :: (handler.toList ++ [':'])⟩

/-- A position behind a dot, in digits. -/
def position (i : Int) : Lexeme :=
  let digits := Nat.toDigits 10 i.toNat
  ⟨.number (Numeral.toDouble ⟨digits, [], 0⟩), digits⟩

/-- The dot in front of a name. -/
def dot (optional : Bool) : Lexeme := symbol (if optional then .questionDot else .dot)

/-- The bracket in front of a key. -/
def bracket (optional : Bool) : Lexeme := symbol (if optional then .questionBracket else .leftBracket)

end Lexeme

/-- What a token is and the characters it was read from. -/
def Token.written (t : Token) : Lexeme := ⟨t.kind, t.lexeme.toList⟩

/-! ## Spellings -/

/-- A finite double without a sign. -/
def Double.Unsigned (x : Float) : Prop :=
  ∃ b, Double.classify x = .finite b ∧ b.negative = false

namespace Numeral

/-- The point with the digits behind it. -/
def fractionText (fraction : List Char) : List Char :=
  if fraction = [] then [] else '.' :: fraction

/-- The exponent with its sign, unless it is zero. -/
def exponentText (exponent : Int) : List Char :=
  if exponent = 0 then []
  else 'e' :: ((if exponent < 0 then ['-'] else []) ++ Nat.toDigits 10 exponent.natAbs)

/-- The text of a numeral. -/
def text (n : Numeral) : List Char := n.whole ++ (fractionText n.fraction ++ exponentText n.exponent)

end Numeral

/-- A way of writing what has more than one spelling: a numeral for each number, and a symbol for each
operator. -/
structure Spelling where
  numeral : Float → Numeral
  written : ∀ x, Double.Unsigned x → (numeral x).Written
  toDouble : ∀ x, Double.Unsigned x → (numeral x).toDouble = x
  operator : BinaryOp → Symbol
  ofSymbol? : ∀ op, BinaryOp.ofSymbol? (operator op) = some op

namespace Spelling

/-- Numbers with all their digits, and the first spelling of each operator. -/
def exact : Spelling where
  numeral x := match Double.classify x with
    | .finite b => Numeral.exact b
    | _ => ⟨['0'], [], 0⟩
  written := by
    rintro x ⟨b, hb, hsign⟩
    rw [hb]
    exact Numeral.exact_written b
  toDouble := by
    rintro x ⟨b, hb, hsign⟩
    rw [hb]
    exact Numeral.toDouble_exact hb hsign
  operator := BinaryOp.symbol
  ofSymbol? := BinaryOp.ofSymbol?_symbol

def lexeme (σ : Spelling) (x : Float) : Lexeme := ⟨.number x, (σ.numeral x).text⟩

end Spelling

/-! ## Rows of the table -/

/-- The row of an operator in the table of precedence. -/
def BinaryOp.rank : BinaryOp → Nat
  | .power => 3
  | .multiply | .divide | .modulo => 4
  | .add | .subtract => 5
  | .shiftLeft | .shiftRight => 6
  | .lessThan | .greaterThan | .lessEqual | .greaterEqual => 7
  | .equal | .notEqual => 8
  | .bitAnd => 9
  | .bitXor => 10
  | .bitOr => 11
  | .and => 12
  | .or => 13
  | .nullCoalesce => 14

/-- The rows in front of the binary operators are those of access and of prefix operators. -/
theorem BinaryOp.rank_eq_level (op : BinaryOp) : op.rank = op.level + 3 := by
  cases op <;> rfl

/-- The loosest row that an operator takes on its left side. -/
def BinaryOp.leftLimit : BinaryOp → Nat
  | .power => 2
  | op => op.rank

/-- The loosest row that an operator takes on its right side. -/
def BinaryOp.rightLimit : BinaryOp → Nat
  | .power => 3
  | op => op.rank - 1

namespace Expr

/-- The row of an expression: access and calls are on the first one, the conditional is on the last one.
What has no operator is in front of the table. -/
def rank : Expr → Nat
  | .call .. | .member .. | .index .. | .slice .. => 1
  | .unary .. => 2
  | .binary _ op _ _ => op.rank
  | .conditional .. | .pipe .. => 15
  | _ => 0

/-- The lexemes of an operand, in parentheses if its row is looser than the limit. -/
def enclose (limit : Nat) (e : Expr) (ls : List Lexeme) : List Lexeme :=
  if e.rank ≤ limit then ls else .symbol .leftParen :: (ls ++ [.symbol .rightParen])

end Expr

/-! ## Texts -/

/-- Rows of lexemes with commas between them. -/
def commas : List (List Lexeme) → List Lexeme
  | [] => []
  | [ls] => ls
  | ls :: rest => ls ++ .symbol .comma :: commas rest

/-- What stands behind a dot. -/
def Property.lexeme : Property → Lexeme
  | .name s => .word s
  | .position i => .position i

/-- The alias at the end of a segment. -/
def aliasLexemes : Option String → List Lexeme
  | none => []
  | some name => [.symbol .as, .word name]

namespace Expr

mutual

/-- The tokens of an expression. -/
def lexemes (σ : Spelling) : Expr → List Lexeme
  | .number _ x => [σ.lexeme x]
  | .string _ s _ => [.string s]
  | .boolean _ b => [.word (if b then "true" else "false")]
  | .null _ => [.word "null"]
  | .reference _ name false => [.word name]
  | .reference _ name true => [.dot true, .word name]
  | .unary _ op operand => .symbol op.symbol :: enclose 2 operand (lexemes σ operand)
  | .binary _ op left right =>
    enclose op.leftLimit left (lexemes σ left) ++
      .symbol (σ.operator op) :: enclose op.rightLimit right (lexemes σ right)
  | .conditional _ condition consequent alternate =>
    enclose 14 condition (lexemes σ condition) ++
      .symbol .question :: (lexemes σ consequent ++ .symbol .colon :: lexemes σ alternate)
  | .array _ items =>
    .symbol .leftBracket :: (commas (lexemesItems σ items) ++ [.symbol .rightBracket])
  | .object _ entries =>
    .symbol .leftBrace :: (commas (lexemesEntries σ entries) ++ [.symbol .rightBrace])
  | .call _ callee arguments =>
    enclose 1 callee (lexemes σ callee) ++
      .symbol .leftParen :: (commas (lexemesItems σ arguments) ++ [.symbol .rightParen])
  | .member _ target property optional =>
    enclose 1 target (lexemes σ target) ++ [.dot optional, property.lexeme]
  | .index _ target key optional =>
    enclose 1 target (lexemes σ target) ++
      .bracket optional :: (lexemes σ key ++ [.symbol .rightBracket])
  | .slice _ target start stop step optional =>
    enclose 1 target (lexemes σ target) ++
      .bracket optional :: (lexemesBound σ [] start ++ .symbol .colon :: (lexemesBound σ [] stop ++
        (lexemesBound σ [.symbol .colon] step ++ [.symbol .rightBracket])))
  -- the first segment has no marker
  | .pipe _ stages => (lexemesStages σ stages).tail

/-- The tokens of each of several expressions. -/
def lexemesItems (σ : Spelling) : List Expr → List (List Lexeme)
  | [] => []
  | e :: rest => lexemes σ e :: lexemesItems σ rest

/-- The tokens of each of several entries. -/
def lexemesEntries (σ : Spelling) : List (String × Expr) → List (List Lexeme)
  | [] => []
  | (key, e) :: rest => (.string key :: .symbol .colon :: lexemes σ e) :: lexemesEntries σ rest

/-- The tokens of a bound of a slice behind those in front of it, unless it is omitted. -/
def lexemesBound (σ : Spelling) (front : List Lexeme) : Option Expr → List Lexeme
  | none => []
  | some e => front ++ lexemes σ e

/-- The tokens of segments, each with its marker. -/
def lexemesStages (σ : Spelling) : List (Stage Expr) → List Lexeme
  | [] => []
  | ⟨handler, boundAs, _, body⟩ :: rest =>
    .marker handler :: (lexemes σ body ++ (aliasLexemes boundAs ++ lexemesStages σ rest))

end

/-- **The text of an expression**: its tokens, with single spaces between them. -/
def print (σ : Spelling) (e : Expr) : String :=
  String.ofList ([' '].intercalate ((e.lexemes σ).map Lexeme.text))

end Expr

/-! ## Trees that have a text -/

/-- Words as the scanner cuts them off. -/
def IsWord (w : String) : Prop :=
  ∃ c cs, w.toList = c :: cs ∧ Scan.startsName c = true ∧ ∀ d ∈ cs, Scan.continuesName d = true

/-- Words that are read as numbers. -/
def specialNumbers : List String := ["NaN", "Inf"]

/-- Words with a meaning of their own. -/
def reservedWords : List String := ["true", "false", "null", "as"]

/-- Names of variables. -/
def IsName (w : String) : Prop := IsWord w ∧ w ∉ reservedWords ∧ w ∉ specialNumbers

/-- Names of pipe locals: a dollar sign with a name behind it. -/
def IsAlias (w : String) : Prop :=
  ∃ c cs, w.toList = '$' :: c :: cs ∧ ∀ d ∈ c :: cs, Scan.continuesName d = true

/-- Positions that digits spell exactly: the values of doubles, and the greatest position, to which the
next double is brought down. -/
def ExactPosition (i : Int) : Prop :=
  i = Double.greatestInt64 ∨
    ∃ x b, Double.classify x = .finite b ∧ b.negative = false ∧ b.isWhole = true ∧
      i = b.wholePart ∧ i < Double.greatestInt64

/-- What can stand behind a dot: any word but the special numbers, and exact positions. -/
def Property.Printable : Property → Prop
  | .name s => IsWord s ∧ s ∉ specialNumbers
  | .position i => ExactPosition i

/-- Expressions that have a text: numbers have no sign, names are words, and only names and calls are
called. -/
inductive Expr.Plain : Expr → Prop where
  | number (pos : Position) {x : Float} (h : Double.Unsigned x) : Plain (.number pos x)
  | string (pos : Position) (s : String) (style : LiteralStyle) : Plain (.string pos s style)
  | boolean (pos : Position) (b : Bool) : Plain (.boolean pos b)
  | null (pos : Position) : Plain (.null pos)
  | reference (pos : Position) {name : String} (optional : Bool) (h : IsName name) :
    Plain (.reference pos name optional)
  | unary (pos : Position) (op : UnaryOp) {operand : Expr} (h : Plain operand) :
    Plain (.unary pos op operand)
  | binary (pos : Position) (op : BinaryOp) {left right : Expr} (hl : Plain left) (hr : Plain right) :
    Plain (.binary pos op left right)
  | conditional (pos : Position) {condition consequent alternate : Expr} (hc : Plain condition)
    (ht : Plain consequent) (hf : Plain alternate) :
    Plain (.conditional pos condition consequent alternate)
  | array (pos : Position) {items : List Expr} (h : ∀ e ∈ items, Plain e) : Plain (.array pos items)
  | object (pos : Position) {entries : List (String × Expr)} (h : ∀ x ∈ entries, Plain x.2) :
    Plain (.object pos entries)
  | call (pos : Position) {callee : Expr} {arguments : List Expr} (hcallable : callee.isCallable = true)
    (hcallee : Plain callee) (h : ∀ e ∈ arguments, Plain e) : Plain (.call pos callee arguments)
  | member (pos : Position) {target : Expr} {property : Property} (optional : Bool)
    (ht : Plain target) (hp : property.Printable) : Plain (.member pos target property optional)
  | index (pos : Position) {target key : Expr} (optional : Bool) (ht : Plain target)
    (hk : Plain key) : Plain (.index pos target key optional)
  | slice (pos : Position) {target : Expr} {start stop step : Option Expr} (optional : Bool)
    (ht : Plain target) (hstart : ∀ e ∈ start, Plain e) (hstop : ∀ e ∈ stop, Plain e)
    (hstep : ∀ e ∈ step, Plain e) : Plain (.slice pos target start stop step optional)

/-- Chains that have a text.  A single segment has an alias, as it is not a chain without one. -/
structure PlainChain (stages : List (Stage Expr)) : Prop where
  length : 2 ≤ stages.length ∨ ∃ stage name, stages = [stage] ∧ stage.boundAs = some name
  head : ∀ stage ∈ stages.head?, stage.handler = sourceStage
  handlers : ∀ stage ∈ stages.tail, stage.handler ≠ "" ∧
    ∀ c ∈ stage.handler.toList, Text.isAsciiLetter c = true
  aliases : ∀ stage ∈ stages, ∀ name ∈ stage.boundAs, IsAlias name
  bodies : ∀ stage ∈ stages, stage.body.Plain

/-- **Programs that have a text**: expressions, and chains of them. -/
def Expr.Printable : Expr → Prop
  | .pipe _ stages => PlainChain stages
  | e => e.Plain

/-! ## What a text does not tell -/

namespace Expr

mutual

/-- An expression without the places of its nodes and without the styles of its literals. -/
def bare : Expr → Expr
  | .number _ x => .number .start x
  | .string _ s _ => .string .start s ⟨false, false⟩
  | .boolean _ b => .boolean .start b
  | .null _ => .null .start
  | .reference _ name optional => .reference .start name optional
  | .unary _ op operand => .unary .start op (bare operand)
  | .binary _ op left right => .binary .start op (bare left) (bare right)
  | .conditional _ condition consequent alternate =>
    .conditional .start (bare condition) (bare consequent) (bare alternate)
  | .array _ items => .array .start (bareItems items)
  | .object _ entries => .object .start (bareEntries entries)
  | .call _ callee arguments => .call .start (bare callee) (bareItems arguments)
  | .member _ target property optional => .member .start (bare target) property optional
  | .index _ target key optional => .index .start (bare target) (bare key) optional
  | .slice _ target start stop step optional =>
    .slice .start (bare target) (bareBound start) (bareBound stop) (bareBound step) optional
  | .pipe _ stages => .pipe .start (bareStages stages)

@[inherit_doc bare]
def bareItems : List Expr → List Expr
  | [] => []
  | e :: rest => bare e :: bareItems rest

@[inherit_doc bare]
def bareEntries : List (String × Expr) → List (String × Expr)
  | [] => []
  | (key, e) :: rest => (key, bare e) :: bareEntries rest

@[inherit_doc bare]
def bareBound : Option Expr → Option Expr
  | none => none
  | some e => some (bare e)

@[inherit_doc bare]
def bareStages : List (Stage Expr) → List (Stage Expr)
  | [] => []
  | ⟨handler, boundAs, _, body⟩ :: rest => ⟨handler, boundAs, .start, bare body⟩ :: bareStages rest

end

theorem lexemesItems_eq_map (σ : Spelling) (items : List Expr) :
    lexemesItems σ items = items.map (lexemes σ) := by
  induction items with
  | nil => rfl
  | cons e rest ih => rw [lexemesItems, ih, List.map_cons]

theorem lexemesEntries_eq_map (σ : Spelling) (entries : List (String × Expr)) :
    lexemesEntries σ entries =
      entries.map fun x => .string x.1 :: .symbol .colon :: lexemes σ x.2 := by
  induction entries with
  | nil => rfl
  | cons x rest ih => rw [lexemesEntries, ih, List.map_cons]

theorem bareBound_eq_map (bound : Option Expr) : bareBound bound = bound.map bare := by
  cases bound <;> rfl

theorem isCallable_bare (e : Expr) : e.bare.isCallable = e.isCallable := by
  cases e <;> rfl

end Expr

/-! ## Names and positions -/

section Positions

open Float.Model (UnpackedFloat)

theorem isWord_of_chars {w : String} {c : Char} {cs : List Char} (hw : w.toList = c :: cs)
    (h : (Scan.startsName c && cs.all Scan.continuesName) = true) : IsWord w := by
  obtain ⟨hc, hcs⟩ := Bool.and_eq_true_iff.mp h
  exact ⟨c, cs, hw, hc, List.all_eq_true.mp hcs⟩

theorem wordKind_of_name {w : String} (h : IsName w) : Scan.wordKind true w = .identifier w := by
  obtain ⟨_, hreserved, hspecial⟩ := h
  simp only [reservedWords, specialNumbers, List.mem_cons, List.not_mem_nil, or_false,
    not_or] at hreserved hspecial
  simp [Scan.wordKind, hreserved, hspecial]

theorem Double.isFinite_of_classify {x : Float} {b : Binary} (h : Double.classify x = .finite b) :
    Double.isFinite x = true := by
  unfold Double.isFinite
  rw [h]

/-- The doubles in front of the greatest position. -/
theorem Double.Canonical.le_greatestPosition {m : Nat} {q : Int} (hc : Double.Canonical m q)
    (hq : q < 11) : hc.toDouble ≤ Parse.greatestPosition := by
  have hgreatest : Double.Canonical (2 ^ 52) 11 :=
    ⟨by decide, by decide, by decide, by decide, .inl (by decide)⟩
  have heq : Parse.greatestPosition = .ofModel (.pack (.finite .positive (2 ^ 52) 11 (by decide))) := by
    decide +kernel
  have hle : UnpackedFloat.le hc.toDouble.toModel.unpack hgreatest.toDouble.toModel.unpack = true := by
    rw [hc.unpack_toDouble, hgreatest.unpack_toDouble]
    show ((compare q 11).then (compare m (2 ^ 52))).isLE = true
    rw [Int.compare_eq_lt.mpr hq]
    rfl
  rw [show Parse.greatestPosition = hgreatest.toDouble from heq]
  exact decide_eq_true hle

theorem Double.Canonical.lt_of_wholePart {b : Binary} (hc : Double.Canonical b.mantissa b.exponent)
    (h : b.wholePart < 2 ^ 63) : b.exponent < 11 := by
  by_contra hge
  obtain ⟨e, he⟩ : ∃ e : Nat, b.exponent = e + 11 := ⟨(b.exponent - 11).toNat, by omega⟩
  have hm : 2 ^ 52 ≤ b.mantissa := hc.form.resolve_right (by omega)
  have hwhole : b.wholePart = b.mantissa <<< (e + 11) := by
    unfold Binary.wholePart
    rw [show b.exponent = Int.ofNat (e + 11) from he]
  rw [hwhole, Nat.shiftLeft_eq] at h
  have hle : 2 ^ 52 * 2 ^ 11 ≤ b.mantissa * 2 ^ (e + 11) :=
    Nat.mul_le_mul hm (Nat.pow_le_pow_right (by decide) (Nat.le_add_left _ _))
  omega

/-- What an exact position is read as. -/
theorem ExactPosition.reads {i : Int} (h : ExactPosition i) :
    ∃ x, (Lexeme.position i).kind = .number x ∧ Double.isFinite x = true ∧ x ≤ Parse.greatestPosition ∧
      Double.clampInt64 x = i := by
  rcases h with rfl | ⟨x, b, hb, hsign, hwhole, rfl, hlt⟩
  · have hread : Numeral.toDouble ⟨Nat.toDigits 10 Double.greatestInt64.toNat, [], 0⟩ =
        Parse.greatestPosition := by decide +kernel
    exact ⟨Parse.greatestPosition, congrArg TokenKind.number hread, by decide +kernel, by decide +kernel,
      by decide +kernel⟩
  · have hdouble : Numeral.toDouble ⟨Nat.toDigits 10 (b.wholePart : Int).toNat, [], 0⟩ = x := by
      rw [Int.toNat_natCast, ← Numeral.exact_of_isWhole hwhole]
      exact Numeral.toDouble_exact hb hsign
    unfold Double.greatestInt64 at hlt
    refine ⟨x, congrArg TokenKind.number hdouble, Double.isFinite_of_classify hb, ?_, ?_⟩
    · rcases Double.eq_of_classify hb hsign with ⟨_, rfl⟩ | ⟨hc, rfl⟩
      · decide +kernel
      · exact hc.le_greatestPosition (hc.lt_of_wholePart (by omega))
    · have htruncate : b.truncate = b.wholePart := by
        unfold Binary.truncate
        rw [hsign, if_neg Bool.false_ne_true]
      unfold Double.clampInt64
      rw [hb]
      simp only [htruncate]
      unfold Double.leastInt64 Double.greatestInt64
      omega

theorem property?_of_word {w : String} (h : w ∉ specialNumbers) {t : Token}
    (hkind : t.kind = Scan.wordKind true w) (hlexeme : t.lexeme = w) :
    Parse.property? t = some (.name w) := by
  have hwords : Scan.wordKind true w = .identifier w ∨ (∃ b, Scan.wordKind true w = .boolean b) ∨
      Scan.wordKind true w = .null ∨ Scan.wordKind true w = .symbol .as := by
    simp only [specialNumbers, List.mem_cons, List.not_mem_nil, or_false, not_or] at h
    simp only [Scan.wordKind, h]
    grind
  unfold Parse.property?
  rcases hwords with hw | ⟨b, hw⟩ | hw | hw <;> simp only [hkind, hw, hlexeme]

theorem property?_lexeme {p : Property} (h : p.Printable) {t : Token}
    (hkind : t.kind = p.lexeme.kind) (htext : t.lexeme.toList = p.lexeme.text) :
    Parse.property? t = some p := by
  cases p with
  | name s => exact property?_of_word h.2 hkind (String.toList_inj.mp htext)
  | position i =>
    obtain ⟨x, hx, _, hle, hclamp⟩ := ExactPosition.reads h
    have hdigits : t.lexeme.toList.all Text.isDigit = true := by
      rw [htext]
      exact List.all_eq_true.mpr fun c => isDigit_of_mem_toDigits
    have hnumber : t.kind = .number x := hkind.trans hx
    unfold Parse.property?
    simp only [hnumber, hdigits, hle, decide_true, Bool.and_self, if_true, hclamp]

end Positions

end PipeExpr
