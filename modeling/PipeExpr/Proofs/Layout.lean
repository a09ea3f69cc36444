import Mathlib.Data.List.Forall2
import PipeExpr.Evaluate
import PipeExpr.Proofs.NodeCode

/-!
# Layout and the order of entries

Trees that differ in layout only (`Expr.Similar`) have the same program, or none for the same reason
(`Expr.compile_layout`).  Places get into errors and nowhere else, and how a text is quoted is not looked at.

Steps of compilation are compared by `Compile.Matches`: from the same tables they come to the same tables with
the same code, or fail alike up to the place of the error.  Sequences of matching steps match, so the tables,
which grow in the order of the code, need not be mentioned again.  That holds for objects too, because their
entries are sorted before anything is written for them: entries in ascending order are determined by those of
each name (`eq_of_named`), and these keep their order in the sort and in every reordering that is allowed here
(`Reordered.byName_eq`).
-/

namespace PipeExpr

/-! ## Reorderings -/

section Entries
variable {α β : Type} {entries entries' : List (String × α)}

/-- The entries with a name. -/
def named (name : String) (entries : List (String × α)) : List (String × α) := entries.filter (·.1 = name)

/-- **A reordering of entries**: entries with the same name keep their order. -/
structure Reordered (entries entries' : List (String × α)) : Prop where
  perm : entries.Perm entries'
  stable : ∀ name, named name entries = named name entries'

theorem mem_named {name : String} {x : String × α} : x ∈ named name entries ↔ x ∈ entries ∧ x.1 = name := by
  rw [named, List.mem_filter, decide_eq_true_iff]

theorem named_cons (name : String) (x : String × α) (rest : List (String × α)) :
    named name (x :: rest) = if x.1 = name then x :: named name rest else named name rest := by
  rw [named, List.filter_cons]
  simp only [decide_eq_true_eq]
  rfl

theorem named_map (f : α → β) (name : String) (entries : List (String × α)) :
    named name (entries.map (Prod.map id f)) = (named name entries).map (Prod.map id f) := by
  rw [named, List.filter_map]
  rfl

theorem Reordered.map (f : α → β) (h : Reordered entries entries') :
    Reordered (entries.map (Prod.map id f)) (entries'.map (Prod.map id f)) :=
  ⟨h.perm.map _, fun name => by rw [named_map, named_map, h.stable]⟩

/-- Sorting by name keeps the entries of each name in their order. -/
theorem named_byName (name : String) (entries : List (String × α)) :
    named name (byName entries) = named name entries := by
  have hequal : (named name entries).Pairwise fun a b => decide (a.1 ≤ b.1) = true := by
    refine List.pairwise_of_forall_mem_list fun a ha b hb => decide_eq_true ?_
    have hsame : a.1 = b.1 := (mem_named.mp ha).2.trans (mem_named.mp hb).2.symm
    exact hsame ▸ String.le_refl a.1
  have hsorted := List.sublist_mergeSort nameLe_trans nameLe_total hequal List.filter_sublist
  have hsublist := hsorted.filter (·.1 = name)
  rw [List.filter_eq_self.mpr fun x hx => decide_eq_true (mem_named.mp hx).2] at hsublist
  exact (hsublist.eq_of_length ((List.mergeSort_perm entries _).filter _).length_eq.symm).symm

/-- Of entries in ascending order, the first one has the least name. -/
theorem fst_le_of_mem {x y : String × α} {rest : List (String × α)}
    (h : ((x :: rest).map Prod.fst).Pairwise (· ≤ ·)) (hy : y ∈ x :: rest) : x.1 ≤ y.1 := by
  rcases List.mem_cons.mp hy with rfl | hy
  · exact String.le_refl _
  · exact List.rel_of_pairwise_cons h (List.mem_map_of_mem hy)

theorem mem_iff_of_named (h : ∀ name, named name entries = named name entries') (x : String × α) :
    x ∈ entries ↔ x ∈ entries' := by
  have hx : x ∈ named x.1 entries ↔ x ∈ named x.1 entries' := by rw [h]
  simpa only [mem_named, and_true] using hx

/-- Entries in ascending order are determined by those of each name. -/
theorem eq_of_named (h : (entries.map Prod.fst).Pairwise (· ≤ ·))
    (h' : (entries'.map Prod.fst).Pairwise (· ≤ ·))
    (hsame : ∀ name, named name entries = named name entries') : entries = entries' := by
  have hmem := mem_iff_of_named hsame
  induction entries generalizing entries' with
  | nil => exact (List.eq_nil_iff_forall_not_mem.mpr fun z hz => List.not_mem_nil ((hmem z).mpr hz)).symm
  | cons x rest ih =>
    cases entries' with
    | nil => exact absurd ((hmem x).mp (List.mem_cons_self ..)) List.not_mem_nil
    | cons y rest' =>
      have hname : x.1 = y.1 := String.le_antisymm
        (fst_le_of_mem h ((hmem y).mpr (List.mem_cons_self ..)))
        (fst_le_of_mem h' ((hmem x).mp (List.mem_cons_self ..)))
      have hhead := hsame x.1
      rw [named_cons, named_cons, if_pos rfl, if_pos hname.symm] at hhead
      obtain rfl := (List.cons.inj hhead).1
      have htail : ∀ name, named name rest = named name rest' := by
        intro name
        have hrest := hsame name
        rw [named_cons, named_cons] at hrest
        split at hrest
        · exact (List.cons.inj hrest).2
        · exact hrest
      rw [ih (List.pairwise_cons.mp h).2 (List.pairwise_cons.mp h').2 htail (mem_iff_of_named htail)]

/-- **The order of entries does not matter** if they are sorted by name. -/
theorem Reordered.byName_eq (h : Reordered entries entries') : byName entries = byName entries' := by
  refine eq_of_named (byName_sorted entries) (byName_sorted entries') fun name => ?_
  rw [named_byName, named_byName, h.stable]

/-- Entries with the same names stay side by side if they are sorted. -/
theorem byName_forall₂ {R : α → β → Prop} {xs : List (String × α)} {ys : List (String × β)}
    (hnames : xs.map Prod.fst = ys.map Prod.fst) (h : List.Forall₂ R (xs.map Prod.snd) (ys.map Prod.snd)) :
    List.Forall₂ (fun x y => x.1 = y.1 ∧ R x.2 y.2) (byName xs) (byName ys) := by
  obtain ⟨zs, rfl, rfl, hzs⟩ : ∃ zs : List (String × (α × β)), xs = zs.map (Prod.map id Prod.fst) ∧
      ys = zs.map (Prod.map id Prod.snd) ∧ ∀ z ∈ zs, R z.2.1 z.2.2 := by
    induction xs generalizing ys with
    | nil =>
      obtain rfl := List.map_eq_nil_iff.mp hnames.symm
      exact ⟨[], rfl, rfl, fun _ hz => nomatch hz⟩
    | cons x xs ih =>
      obtain ⟨y, ys, rfl, hxy, hnames⟩ := List.map_eq_cons_iff.mp hnames.symm
      obtain ⟨hR, h⟩ := List.forall₂_cons.mp h
      obtain ⟨zs, rfl, rfl, hzs⟩ := ih hnames.symm h
      refine ⟨(x.1, (x.2, y.2)) :: zs, rfl, ?_, List.forall_mem_cons.mpr ⟨hR, hzs⟩⟩
      rw [List.map_cons, ← hxy]
      rfl
  rw [byName_map, byName_map, List.forall₂_map_left_iff, List.forall₂_map_right_iff, List.forall₂_same]
  exact fun z hz => ⟨rfl, hzs z (mem_byName.mp hz)⟩

end Entries

/-! ## Trees -/

/-- What is written around the expression of a stage. -/
def Stage.mark {ε : Type} (s : Stage ε) : String × Option String := (s.handler, s.boundAs)

namespace Expr

/-- **Trees that differ in layout only**: in places, in how texts are quoted, and in the order of entries of
objects with different names. -/
inductive Similar : Expr → Expr → Prop where
  | number (p p' : Position) (x : Float) : Similar (.number p x) (.number p' x)
  | string (p p' : Position) (s : String) (style style' : LiteralStyle) :
    Similar (.string p s style) (.string p' s style')
  | boolean (p p' : Position) (b : Bool) : Similar (.boolean p b) (.boolean p' b)
  | null (p p' : Position) : Similar (.null p) (.null p')
  | reference (p p' : Position) (name : String) (optional : Bool) :
    Similar (.reference p name optional) (.reference p' name optional)
  | unary (p p' : Position) (op : UnaryOp) {operand operand' : Expr} (h : Similar operand operand') :
    Similar (.unary p op operand) (.unary p' op operand')
  | binary (p p' : Position) (op : BinaryOp) {left left' right right' : Expr} (hl : Similar left left')
    (hr : Similar right right') : Similar (.binary p op left right) (.binary p' op left' right')
  | conditional (p p' : Position) {condition condition' consequent consequent' alternate alternate' : Expr}
    (hc : Similar condition condition') (ht : Similar consequent consequent')
    (ha : Similar alternate alternate') :
    Similar (.conditional p condition consequent alternate)
      (.conditional p' condition' consequent' alternate')
  | array (p p' : Position) {items items' : List Expr} (h : List.Forall₂ Similar items items') :
    Similar (.array p items) (.array p' items')
  | object (p p' : Position) {entries middle entries' : List (String × Expr)}
    (hnames : entries.map Prod.fst = middle.map Prod.fst)
    (h : List.Forall₂ Similar (entries.map Prod.snd) (middle.map Prod.snd))
    (horder : Reordered middle entries') :
    Similar (.object p entries) (.object p' entries')
  | call (p p' : Position) {callee callee' : Expr} {arguments arguments' : List Expr}
    (hc : Similar callee callee') (h : List.Forall₂ Similar arguments arguments') :
    Similar (.call p callee arguments) (.call p' callee' arguments')
  | member (p p' : Position) {target target' : Expr} (h : Similar target target') (property : Property)
    (optional : Bool) : Similar (.member p target property optional) (.member p' target' property optional)
  | index (p p' : Position) {target target' key key' : Expr} (h : Similar target target')
    (hk : Similar key key') (optional : Bool) :
    Similar (.index p target key optional) (.index p' target' key' optional)
  | slice (p p' : Position) {target target' : Expr} {start start' stop stop' step step' : Option Expr}
    (h : Similar target target') (hstart : Option.Rel Similar start start')
    (hstop : Option.Rel Similar stop stop') (hstep : Option.Rel Similar step step') (optional : Bool) :
    Similar (.slice p target start stop step optional) (.slice p' target' start' stop' step' optional)
  | pipe (p p' : Position) {stages stages' : List (Stage Expr)}
    (hmarks : stages.map Stage.mark = stages'.map Stage.mark)
    (h : List.Forall₂ Similar (stages.map Stage.body) (stages'.map Stage.body)) :
    Similar (.pipe p stages) (.pipe p' stages')

end Expr

/-! ## Steps of compilation -/

/-- An error without the place that it is reported at. -/
def CompileError.unplaced : CompileError → CompileError
  | .invalidCallee _ => .invalidCallee .start
  | .tooManyConstants _ => .tooManyConstants .start
  | .tooManyVariables _ => .tooManyVariables .start
  | .tooManyElements _ count => .tooManyElements .start count
  | .tooManyBlocks _ => .tooManyBlocks .start
  | .nestedPipe _ => .nestedPipe .start
  | .nestingTooDeep _ => .nestingTooDeep .start
  | .encode error => .encode error

namespace Compile

/-- **Two steps of compilation that do the same**, up to the places of errors. -/
def Matches {α : Type} (m m' : Compile α) : Prop :=
  ∀ t, (m t).mapError CompileError.unplaced = (m' t).mapError CompileError.unplaced

namespace Matches
variable {α β : Type} {m m' : Compile α}

theorem refl (m : Compile α) : Matches m m := fun _ => rfl

theorem throw {err err' : CompileError} (h : err.unplaced = err'.unplaced) :
    Matches (MonadExcept.throw err : Compile α) (MonadExcept.throw err') :=
  fun _ => congrArg Except.error h

theorem bind {f f' : α → Compile β} (h : Matches m m') (hf : ∀ a, Matches (f a) (f' a)) :
    Matches (m >>= f) (m' >>= f') := by
  intro t
  show (m t >>= fun y => f y.1 y.2).mapError _ = (m' t >>= fun y => f' y.1 y.2).mapError _
  have ht := h t
  cases hm : m t with
  | error err =>
    cases hm' : m' t with
    | error err' =>
      rw [hm, hm'] at ht
      exact congrArg Except.error (Except.error.inj ht)
    | ok y =>
      rw [hm, hm'] at ht
      cases ht
  | ok x =>
    cases hm' : m' t with
    | error err' =>
      rw [hm, hm'] at ht
      cases ht
    | ok y =>
      rw [hm, hm'] at ht
      obtain rfl : x = y := Except.ok.inj ht
      exact hf x.1 x.2

end Matches

section Steps
variable (p p' : Position)

theorem constantIndex_matches (v : Value) : Matches (constantIndex v p) (constantIndex v p') := by
  refine (Matches.refl _).bind fun t => ?_
  split
  · exact .throw rfl
  · exact .refl _

theorem constant_matches (v : Value) : Matches (constant v p) (constant v p') :=
  (constantIndex_matches p p' v).bind fun _ => .refl _

theorem reference_matches (name : String) (flags : AccessFlags) :
    Matches (reference name flags p) (reference name flags p') := by
  unfold reference
  split
  · exact (constantIndex_matches p p' _).bind fun _ => .refl _
  · refine (Matches.refl _).bind fun t => ?_
    rcases t.contextVars.slot name with ⟨slot, contextVars⟩
    refine (Matches.refl _).bind fun _ => ?_
    split
    · exact .throw rfl
    · exact .refl _

theorem count_matches {n n' : Nat} (h : n = n') : Matches (count n p) (count n' p') := by
  subst h
  unfold count
  split
  · exact .throw rfl
  · exact .refl _

theorem deeper_matches (soft : Bool) (depth : Nat) :
    Matches (deeper soft depth p) (deeper soft depth p') := by
  unfold deeper
  split
  · exact .refl _
  split
  · exact .throw rfl
  · exact .refl _

/-- Two expressions with the same code, wherever it stands. -/
def SameCode (e e' : Expr) : Prop :=
  ∀ soft depth offset, Matches (code e soft depth offset) (code e' soft depth offset)

theorem itemsCode_matches {items items' : List Expr} (h : List.Forall₂ SameCode items items')
    (depth offset : Nat) (done : Assembly) :
    Matches (itemsCode items depth offset done) (itemsCode items' depth offset done) := by
  induction h generalizing offset done with
  | nil => exact .refl _
  | cons hx _ ih => exact (hx false depth offset).bind fun item => ih _ _

theorem entriesCode_matches {entries entries' : List (String × Writer)}
    (h : List.Forall₂ (fun x y => x.1 = y.1 ∧ ∀ depth offset, Matches (x.2 depth offset) (y.2 depth offset))
      entries entries') (depth offset : Nat) (done : Assembly) :
    Matches (entriesCode p depth offset done entries) (entriesCode p' depth offset done entries') := by
  induction h generalizing offset done with
  | nil => exact .refl _
  | @cons x y _ _ hx _ ih =>
    obtain ⟨name, write⟩ := x
    obtain ⟨_, write'⟩ := y
    obtain ⟨rfl, hwrite⟩ := hx
    exact (constant_matches p p' _).bind fun key => (hwrite depth _).bind fun value => ih _ _

theorem boundCode_matches {bound bound' : Option Expr} (h : Option.Rel SameCode bound bound')
    (depth offset : Nat) : Matches (boundCode bound p depth offset) (boundCode bound' p' depth offset) := by
  cases h with
  | none => exact constant_matches p p' _
  | some h => exact h false depth offset

/-- Entries that only stand in another order are written alike. -/
theorem sortedEntries_matches {entries middle entries' : List (String × Expr)}
    (hnames : entries.map Prod.fst = middle.map Prod.fst)
    (h : List.Forall₂ SameCode (entries.map Prod.snd) (middle.map Prod.snd))
    (horder : Reordered middle entries') (depth offset : Nat) (done : Assembly) :
    Matches (entriesCode p depth offset done (sortEntries (entryWriters entries)))
      (entriesCode p' depth offset done (sortEntries (entryWriters entries'))) := by
  have hsort : sortEntries (entryWriters entries') = byName (entryWriters middle) := by
    rw [entryWriters_eq_map, entryWriters_eq_map]
    exact (horder.map (code · false)).byName_eq.symm
  have hwriters : (entryWriters entries).map Prod.fst = (entryWriters middle).map Prod.fst := by
    rw [entryWriters_eq_map, entryWriters_eq_map, List.map_map, List.map_map]
    exact hnames
  have hcode : List.Forall₂ (fun write write' : Writer => ∀ depth offset, Matches (write depth offset)
      (write' depth offset)) ((entryWriters entries).map Prod.snd) ((entryWriters middle).map Prod.snd) := by
    rw [entryWriters_eq_map, entryWriters_eq_map, List.map_map, List.map_map]
    rw [List.forall₂_map_left_iff, List.forall₂_map_right_iff] at h ⊢
    exact h.imp fun x y hxy => hxy false
  rw [hsort]
  exact entriesCode_matches p p' (byName_forall₂ hwriters hcode) depth offset done

/-- Similar callees name the same function. -/
theorem calleeName?_similar {callee callee' : Expr} (h : Expr.Similar callee callee') :
    calleeName? callee = calleeName? callee' := by
  cases h with
  | reference p p' name optional => cases optional <;> rfl
  | _ => rfl

end Steps

/-! ## Expressions -/

/-- The expressions of two similar lists have the same code, one by one. -/
theorem sameCode_forall₂ {xs ys : List Expr} (hxs : ∀ x ∈ xs, ∀ y, Expr.Similar x y → SameCode x y)
    (h : List.Forall₂ Expr.Similar xs ys) : List.Forall₂ SameCode xs ys :=
  ((List.forall₂_and_left xs ys).mpr ⟨hxs, h⟩).imp fun _ y hxy => hxy.1 y hxy.2

theorem sameCode_bound {bound bound' : Option Expr}
    (hbound : ∀ x ∈ bound, ∀ y, Expr.Similar x y → SameCode x y) (h : Option.Rel Expr.Similar bound bound') :
    Option.Rel SameCode bound bound' := by
  cases h with
  | none => exact .none
  | some h => exact .some (hbound _ rfl _ h)

theorem SameCode.binary {left left' right right' : Expr} (hl : SameCode left left')
    (hr : SameCode right right') (p p' : Position) (op : BinaryOp) :
    SameCode (.binary p op left right) (.binary p' op left' right') := by
  intro soft depth offset
  refine (deeper_matches _ _ _ _).bind fun depth => ?_
  split
  · exact (hl _ _ _).bind fun _ => (hr _ _ _).bind fun _ => .refl _
  · exact (hl _ _ _).bind fun _ => (hr _ _ _).bind fun _ => .refl _
  · exact (hl _ _ _).bind fun _ => (hr _ _ _).bind fun _ => .refl _

/-- **Similar expressions have the same code**: layout leaves the tables as they are, at each node. -/
theorem code_similar (e : Expr) : ∀ e', Expr.Similar e e' → SameCode e e' := by
  induction e using Expr.induction with
  | number | string | boolean | null =>
    rintro _ ⟨⟩ soft depth offset
    exact (deeper_matches _ _ _ _).bind fun _ => constant_matches _ _ _
  | reference =>
    rintro _ ⟨⟩ soft depth offset
    exact (deeper_matches _ _ _ _).bind fun _ => reference_matches _ _ _ _
  | unary p op operand ih =>
    intro e' h soft depth offset
    cases h with
    | unary _ p' _ h =>
      exact (deeper_matches _ _ _ _).bind fun _ => (ih _ h _ _ _).bind fun _ => .refl _
  | binary p op left right ihl ihr =>
    intro e' h
    cases h with
    | binary _ p' _ hl hr => exact (ihl _ hl).binary (ihr _ hr) p p' op
  | conditional p condition consequent alternate ihc iht iha =>
    intro e' h soft depth offset
    cases h with
    | conditional _ p' hc ht ha =>
      exact (deeper_matches _ _ _ _).bind fun _ => (ihc _ hc _ _ _).bind fun _ =>
        (iht _ ht _ _ _).bind fun _ => (Matches.refl _).bind fun _ => (iha _ ha _ _ _).bind fun _ => .refl _
  | array p items ih =>
    intro e' h soft depth offset
    cases h with
    | array _ p' h =>
      exact (deeper_matches _ _ _ _).bind fun _ => (count_matches _ _ h.length_eq).bind fun _ =>
        (itemsCode_matches (sameCode_forall₂ ih h) _ _ _).bind fun _ => .refl _
  | object p entries ih =>
    intro e' h soft depth offset
    cases h with
    | @object _ p' _ middle entries' hnames h horder =>
      have hlength : entries.length = entries'.length := by
        have hmiddle := congrArg List.length hnames
        rw [List.length_map, List.length_map] at hmiddle
        exact hmiddle.trans horder.perm.length_eq
      have hcode := sameCode_forall₂ (List.forall_mem_map.mpr ih) h
      exact (deeper_matches _ _ _ _).bind fun _ => (count_matches _ _ hlength).bind fun _ =>
        (sortedEntries_matches _ _ hnames hcode horder _ _ _).bind fun _ => .refl _
  | call p callee arguments _ ih =>
    intro e' h soft depth offset
    cases h with
    | @call _ p' _ callee' _ arguments' hc h =>
      have hname := calleeName?_similar hc
      refine (deeper_matches _ _ _ _).bind fun depth => ?_
      rw [hname]
      split
      · exact .throw rfl
      · exact (count_matches _ _ h.length_eq).bind fun _ =>
          (itemsCode_matches (sameCode_forall₂ ih h) _ _ _).bind fun _ =>
            (constantIndex_matches _ _ _).bind fun _ => .refl _
  | member p target property optional ih =>
    intro e' h soft depth offset
    cases h with
    | member _ p' h _ _ =>
      exact (deeper_matches _ _ _ _).bind fun _ => (ih _ h _ _ _).bind fun _ =>
        (constant_matches _ _ _).bind fun _ => .refl _
  | index p target key optional iht ihk =>
    intro e' h soft depth offset
    cases h with
    | index _ p' h hk _ =>
      exact (deeper_matches _ _ _ _).bind fun _ => (iht _ h _ _ _).bind fun _ =>
        (ihk _ hk _ _ _).bind fun _ => .refl _
  | slice p target start stop step optional iht ihstart ihstop ihstep =>
    intro e' h soft depth offset
    cases h with
    | slice _ p' h hstart hstop hstep _ =>
      exact (deeper_matches _ _ _ _).bind fun _ => (iht _ h _ _ _).bind fun _ =>
        (boundCode_matches _ _ (sameCode_bound ihstart hstart) _ _).bind fun _ =>
          (boundCode_matches _ _ (sameCode_bound ihstop hstop) _ _).bind fun _ =>
            (boundCode_matches _ _ (sameCode_bound ihstep hstep) _ _).bind fun _ => .refl _
  | pipe p stages _ =>
    rintro _ ⟨⟩ soft depth offset
    exact (deeper_matches _ _ _ _).bind fun _ => .throw rfl

/-! ## Programs -/

theorem bindAlias_matches (name : Option String) (p p' : Position) :
    Matches (bindAlias name p) (bindAlias name p') := by
  cases name with
  | none => exact .refl _
  | some name => exact (constantIndex_matches p p' _).bind fun _ => .refl _

theorem aliasOperand_matches (name : Option String) (p p' : Position) :
    Matches (aliasOperand name p) (aliasOperand name p') := by
  cases name with
  | none => exact .refl _
  | some name => exact constantIndex_matches p p' _

theorem blockCode_matches {stage stage' : Stage Expr} (h : SameCode stage.body stage'.body) (k : Nat) :
    Matches (blockCode k stage) (blockCode k stage') := by
  unfold blockCode
  split
  · exact .throw rfl
  · exact h false 0 0

/-- Stages with the same marks and similar expressions are written alike. -/
theorem stagesCode_matches {stages stages' : List (Stage Expr)}
    (hmarks : stages.map Stage.mark = stages'.map Stage.mark)
    (h : List.Forall₂ Expr.Similar (stages.map Stage.body) (stages'.map Stage.body)) (done : Assembly)
    (blocks : Array Code) : Matches (stagesCode done blocks stages) (stagesCode done blocks stages') := by
  induction stages generalizing stages' done blocks with
  | nil =>
    obtain rfl := List.map_eq_nil_iff.mp hmarks.symm
    exact .refl _
  | cons stage rest ih =>
    obtain ⟨stage', rest', rfl, hmark, hrest⟩ := List.map_eq_cons_iff.mp hmarks.symm
    obtain ⟨hbody, hbodies⟩ := List.forall₂_cons.mp h
    obtain ⟨hhandler, hbound⟩ := Prod.mk.inj hmark
    unfold stagesCode
    rw [hhandler, hbound]
    exact (constantIndex_matches _ _ _).bind fun _ => (aliasOperand_matches _ _ _).bind fun _ =>
      (blockCode_matches (code_similar _ _ hbody) _).bind fun _ => (Matches.refl _).bind fun _ =>
        ih hrest.symm hbodies _ _

/-- The streams of similar trees. -/
theorem streams_similar {e e' : Expr} (h : Expr.Similar e e') : Matches (streams e) (streams e') := by
  have plain : Matches (do return (← code e false 0 0, #[]) : Compile (Assembly × Array Code))
      (do return (← code e' false 0 0, #[])) :=
    (code_similar e e' h false 0 0).bind fun _ => .refl _
  cases h with
  | @pipe p p' stages stages' hmarks h =>
    cases stages with
    | nil =>
      obtain rfl := List.map_eq_nil_iff.mp hmarks.symm
      exact (constant_matches p p' _).bind fun _ => .refl _
    | cons head rest =>
      obtain ⟨head', rest', rfl, hmark, hrest⟩ := List.map_eq_cons_iff.mp hmarks.symm
      obtain ⟨hbody, hbodies⟩ := List.forall₂_cons.mp h
      obtain ⟨_, hbound⟩ := Prod.mk.inj hmark
      refine (code_similar _ _ hbody false 0 0).bind fun main => ?_
      rw [hbound]
      exact (bindAlias_matches _ _ _).bind fun binding => stagesCode_matches hrest.symm hbodies _ _
  | _ => exact plain

end Compile

/-- **Two trees with the same program**, or without one for the same reason. -/
def Expr.SameProgram (e e' : Expr) : Prop :=
  (∃ p, e.compile = .ok p ∧ e'.compile = .ok p) ∨
    ∃ err err', e.compile = .error err ∧ e'.compile = .error err' ∧ err.unplaced = err'.unplaced

theorem Compile.Matches.sameProgram {e e' : Expr} (h : Matches (streams e) (streams e')) :
    e.SameProgram e' := by
  have hstreams := h ⟨#[], .empty⟩
  unfold Expr.SameProgram Expr.compile StateT.run
  cases hs : Compile.streams e ⟨#[], .empty⟩ with
  | ok x =>
    cases hs' : Compile.streams e' ⟨#[], .empty⟩ with
    | ok y =>
      rw [hs, hs'] at hstreams
      obtain rfl : x = y := Except.ok.inj hstreams
      exact .inl ⟨_, rfl, rfl⟩
    | error err' =>
      rw [hs, hs'] at hstreams
      cases hstreams
  | error err =>
    cases hs' : Compile.streams e' ⟨#[], .empty⟩ with
    | ok y =>
      rw [hs, hs'] at hstreams
      cases hstreams
    | error err' =>
      rw [hs, hs'] at hstreams
      exact .inr ⟨err, err', rfl, rfl, Except.error.inj hstreams⟩

/-- **Similar trees have the same program.** -/
theorem Expr.Similar.compile_cases {e e' : Expr} (h : Similar e e') : e.SameProgram e' :=
  (Compile.streams_similar h).sameProgram

/-! ## Evaluation -/

/-- An error of evaluation without its place in the source. -/
def EvaluationError.unplaced : EvaluationError → EvaluationError
  | .compile err => .compile err.unplaced
  | err => err

/-- What the program of an expression gives, or why there is none. -/
def Expr.outcome (e : Expr) (library : Library) (stackSize : Nat) (context : Fields Value) :
    Except EvaluationError Value := do
  let p ← e.compile.mapError EvaluationError.compile
  (p.run library stackSize context).mapError EvaluationError.ofHalt

/-- **Layout and the order of entries do not matter.**  Of two trees that differ in nothing else,
compilation gives the same program, or it fails on both for the same reason.  So they have the same value or
fail with the same error, up to the place that an error of compilation tells.  Wherever an object literal
stands in such a tree, the code that is written for it in the program builds its value: an object with the
keys of the literal, in strictly ascending order. -/
theorem Expr.compile_layout {e e' : Expr} (h : Similar e e') :
    ((∃ p, e.compile = .ok p ∧ e'.compile = .ok p) ∨
      ∃ err err', e.compile = .error err ∧ e'.compile = .error err' ∧ err.unplaced = err'.unplaced) ∧
    (∀ library stackSize context, (e.outcome library stackSize context).mapError EvaluationError.unplaced =
      (e'.outcome library stackSize context).mapError EvaluationError.unplaced) ∧
    ∀ p, e.compile = .ok p → ∀ pos entries, Within (.object pos entries) e → p.Builds pos entries := by
  refine ⟨h.compile_cases, fun library stackSize context => ?_,
    fun p hp pos entries hx => Expr.object_built hp hx⟩
  unfold Expr.outcome
  rcases h.compile_cases with ⟨p, he, he'⟩ | ⟨err, err', he, he', hplace⟩
  · rw [he, he']
  · rw [he, he']
    exact congrArg (Except.error ∘ EvaluationError.compile) hplace

/-- The entries of an object with two values of one key. -/
def sortedEntries : List (String × Expr) :=
  [("a", .null ⟨1, 5⟩), ("b", .string ⟨1, 14⟩ "x" ⟨false, false⟩), ("b", .boolean ⟨1, 22⟩ true)]

/-- The same entries on other lines, with the first two exchanged. -/
def shuffledEntries : List (String × Expr) :=
  [("b", .string ⟨2, 5⟩ "x" ⟨true, true⟩), ("a", .null ⟨3, 5⟩), ("b", .boolean ⟨4, 5⟩ true)]

theorem shuffledEntries_similar :
    Expr.Similar (.object ⟨1, 1⟩ sortedEntries) (.object ⟨2, 1⟩ shuffledEntries) := by
  refine @Expr.Similar.object _ _ _ [("a", .null ⟨3, 5⟩), ("b", .string ⟨2, 5⟩ "x" ⟨true, true⟩),
    ("b", .boolean ⟨4, 5⟩ true)] _ rfl ?_ ⟨.swap _ _ _, fun name => ?_⟩
  · exact .cons (.null _ _) (.cons (.string _ _ _ _ _) (.cons (.boolean _ _ _) .nil))
  · unfold shuffledEntries
    simp only [named_cons]
    by_cases ha : "a" = name
    · subst ha
      rfl
    · rw [if_neg ha, if_neg ha]

theorem compile_layout_shuffled : ∃ p, (Expr.object ⟨1, 1⟩ sortedEntries).compile = .ok p ∧
    (Expr.object ⟨2, 1⟩ shuffledEntries).compile = .ok p ∧ p.Builds ⟨1, 1⟩ sortedEntries ∧
    p.run .standard 8 [] = .ok (.object [("a", .null), ("b", .boolean true)]) := by
  obtain ⟨p, hp⟩ : ∃ p, (Expr.object ⟨1, 1⟩ sortedEntries).compile = .ok p := by
    have hsorted : Compile.sortEntries (Compile.entryWriters sortedEntries) =
        Compile.entryWriters sortedEntries :=
      eq_of_named (byName_sorted _) (by decide) fun name => named_byName name _
    simp only [Expr.compile, Compile.streams, Compile.code, hsorted]
    exact ⟨_, rfl⟩
  obtain ⟨hprograms, _, hbuilds⟩ := Expr.compile_layout shuffledEntries_similar
  refine ⟨p, hp, ?_, hbuilds p hp _ _ (.self _), ?_⟩
  · rcases hprograms with ⟨q, hq, hq'⟩ | ⟨err, _, herr, _⟩
    · obtain rfl := Except.ok.inj (hp.symm.trans hq)
      exact hq'
    · cases hp.symm.trans herr
  · have hnames : byName sortedEntries = sortedEntries :=
      eq_of_named (byName_sorted _) (by decide) fun name => named_byName name _
    rw [Expr.run_eq_within rfl hp, UpToOverflow.eq (Expr.plan_within _ false 0)]
    · rw [Expr.eval, Expr.evalEntries_eq_map, byName_map, hnames]
      rfl
    · rw [Expr.plan_object, hnames]
      intro h
      cases h

end PipeExpr
