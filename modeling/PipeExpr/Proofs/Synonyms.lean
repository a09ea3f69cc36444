import PipeExpr.Proofs.CompileFailures
import PipeExpr.Proofs.Layout
import PipeExpr.Proofs.Operands
import PipeExpr.Proofs.Replays

/-!
# Trees with the same code

An access that names its key is written as one that computes it, if the key is a literal
(`Compile.sameCode_access`).  The two nodes differ in depth by one level.  That makes no difference, because
the target stands on this level in both of them: where it is too deep for the key, nothing of the access is
written (`Compile.code_deep`).
-/

namespace PipeExpr

namespace Compile

/-! ## Steps that never succeed -/

/-- A step of compilation that fails with all tables. -/
def Never {α : Type} (m : Compile α) : Prop := ∀ t, ∃ err, m t = .error err

namespace Never
variable {α β : Type} {m m' : Compile α} {f f' : α → Compile β}

theorem throw (err : CompileError) : Never (MonadExcept.throw err : Compile α) := fun _ => ⟨err, rfl⟩

theorem left (h : Never m) (f : α → Compile β) : Never (m >>= f) := by
  intro t
  obtain ⟨err, herr⟩ := h t
  refine ⟨err, ?_⟩
  show (m t >>= fun y => f y.1 y.2) = _
  rw [herr]
  rfl

/-- Where a step never succeeds, what comes behind it makes no difference. -/
theorem bind_matches (h : Never m) (hm : Matches m m') (f f' : α → Compile β) :
    Matches (m >>= f) (m' >>= f') := by
  intro t
  obtain ⟨err, herr⟩ := h t
  have ht := hm t
  show (m t >>= fun y => f y.1 y.2).mapError _ = (m' t >>= fun y => f' y.1 y.2).mapError _
  rw [herr] at ht ⊢
  cases hm' : m' t with
  | error err' =>
    rw [hm'] at ht
    exact congrArg Except.error (Except.error.inj ht)
  | ok y =>
    rw [hm'] at ht
    cases ht

end Never

theorem Matches.symm {α : Type} {m m' : Compile α} (h : Matches m m') : Matches m' m := fun t => (h t).symm

theorem Matches.trans {α : Type} {m m' m'' : Compile α} (h : Matches m m') (h' : Matches m' m'') :
    Matches m m'' := fun t => (h t).trans (h' t)

/-- Nothing is written below the deepest level. -/
theorem code_deep (e : Expr) {depth : Nat} (h : maxNesting ≤ depth) (offset : Nat) :
    Never (code e false depth offset) := by
  obtain ⟨p, f, hcode⟩ : ∃ p, ∃ f : Nat → Compile Assembly,
      code e false depth offset = deeper false depth p >>= f := by
    cases e <;> exact ⟨_, _, rfl⟩
  rw [hcode, deeper_full p h]
  exact (Never.throw _).left f

/-! ## Accesses -/

namespace SameCode
variable {e e' e'' : Expr}

theorem refl (e : Expr) : SameCode e e := fun _ _ _ => .refl _

theorem symm (h : SameCode e e') : SameCode e' e := fun soft depth offset => (h soft depth offset).symm

theorem trans (h : SameCode e e') (h' : SameCode e' e'') : SameCode e e'' :=
  fun soft depth offset => (h soft depth offset).trans (h' soft depth offset)

/-- Trees with the same code have the same program. -/
theorem sameProgram (h : SameCode e e') (hroot : e.isPipe = false) (hroot' : e'.isPipe = false) :
    e.SameProgram e' := by
  refine Matches.sameProgram ?_
  rw [Expr.streams_eq hroot, Expr.streams_eq hroot']
  exact (h false 0 0).bind fun _ => .refl _

end SameCode

/-- A literal with the value of a property. -/
inductive SpellsKey : Property → Expr → Prop where
  | name (p : Position) (s : String) (style : LiteralStyle) : SpellsKey (.name s) (.string p s style)
  | position (p : Position) {i : Int} {x : Float} (h : Double.ofInt i = x) :
    SpellsKey (.position i) (.number p x)

/-- The code of a literal is that of the property. -/
theorem SpellsKey.code_matches {property : Property} {key : Expr} (h : SpellsKey property key) {depth : Nat}
    (hdepth : depth < maxNesting) (p : Position) (offset : Nat) :
    Matches (constant (propertyValue property) p) (code key false depth offset) := by
  cases h with
  | name q s style =>
    have hcode : code (.string q s style) false depth offset = constant (.string s) q := by
      show deeper false depth q >>= _ = _
      rw [deeper_room q hdepth]
      rfl
    rw [hcode]
    exact constant_matches _ _ _
  | @position q i x h =>
    have hcode : code (.number q x) false depth offset = constant (.number x) q := by
      show deeper false depth q >>= _ = _
      rw [deeper_room q hdepth]
      rfl
    rw [hcode, ← h]
    exact constant_matches _ _ _

/-- **An access by name or position** has the code of one by a literal. -/
theorem sameCode_access {target target' key : Expr} {property : Property} (h : SameCode target target')
    (hkey : SpellsKey property key) (p p' : Position) (optional : Bool) :
    SameCode (.member p target property optional) (.index p' target' key optional) := by
  intro soft depth offset
  refine (deeper_matches p p' soft depth).bind fun depth => ?_
  by_cases hdepth : depth < maxNesting
  · exact (h _ _ _).bind fun _ => (hkey.code_matches hdepth p _).bind fun _ => .refl _
  -- the target is too deep already
  · exact (code_deep target (Nat.le_of_not_lt hdepth) _).bind_matches (h _ _ _) _ _

end Compile

/-! ## Places -/

namespace Expr

/-- Trees that were moved are similar. -/
theorem relocate_similar (f g : Position → Position) (e : Expr) : Similar (e.relocate f) (e.relocate g) := by
  induction e using Expr.induction with
  | number p x => exact .number _ _ x
  | string p s style => exact .string _ _ s _ _
  | boolean p b => exact .boolean _ _ b
  | null p => exact .null _ _
  | reference p name optional => exact .reference _ _ name optional
  | unary p op operand ih => exact .unary _ _ op ih
  | binary p op left right ihl ihr => exact .binary _ _ op ihl ihr
  | conditional p condition consequent alternate ihc iht iha => exact .conditional _ _ ihc iht iha
  | array p items ih =>
    simp only [relocate, relocateItems_eq_map]
    refine .array _ _ ?_
    rw [List.forall₂_map_left_iff, List.forall₂_map_right_iff, List.forall₂_same]
    exact ih
  | object p entries ih =>
    simp only [relocate, relocateEntries_eq_map]
    refine .object _ _ ?_ ?_ ⟨.refl _, fun _ => rfl⟩
    · simp only [List.map_map]
      rfl
    · simp only [List.map_map]
      rw [List.forall₂_map_left_iff, List.forall₂_map_right_iff, List.forall₂_same]
      exact ih
  | call p callee arguments ihc ih =>
    simp only [relocate, relocateItems_eq_map]
    refine .call _ _ ihc ?_
    rw [List.forall₂_map_left_iff, List.forall₂_map_right_iff, List.forall₂_same]
    exact ih
  | member p target property optional ih => exact .member _ _ ih property optional
  | index p target key optional iht ihk => exact .index _ _ iht ihk optional
  | slice p target start stop step optional iht ihstart ihstop ihstep =>
    have hbound : ∀ bound : Option Expr, (∀ e ∈ bound, Similar (e.relocate f) (e.relocate g)) →
        Option.Rel Similar (relocateBound f bound) (relocateBound g bound) := by
      intro bound h
      cases bound with
      | none => exact .none
      | some e => exact .some (h e rfl)
    exact .slice _ _ iht (hbound start ihstart) (hbound stop ihstop) (hbound step ihstep) optional
  | pipe p stages ih =>
    simp only [relocate, relocateStages_eq_map]
    refine .pipe _ _ ?_ ?_
    · simp only [List.map_map]
      rfl
    · simp only [List.map_map]
      rw [List.forall₂_map_left_iff, List.forall₂_map_right_iff, List.forall₂_same]
      exact ih

theorem similar_relocate (f : Position → Position) (e : Expr) : Similar (e.relocate f) e := by
  have hsimilar := relocate_similar f id e
  rwa [relocate_id] at hsimilar

/-- A tree that was moved has the same code. -/
theorem sameCode_relocate (f : Position → Position) (e : Expr) : Compile.SameCode (e.relocate f) e :=
  Compile.code_similar _ _ (similar_relocate f e)

end Expr

end PipeExpr
