import PipeExpr.Expr.Parser
import PipeExpr.Proofs.Parts

/-!
# Nodes of trees

What a tree contains: the tree itself and all that stands below it, callees included
(`Expr.NodeOf`).  A property of all nodes of a tree is one of its root and of all nodes of its children
(`Expr.all_iff`).

Two such properties are about what is read from a source.  A node is allowed by the switches of the language
(`Expr.AllowedBy`), and it is one that the grammar has below the root (`Expr.Formed`).
-/

namespace PipeExpr

/-- A property that is a name, or a position that is not negative. -/
def Property.Natural (p : Property) : Prop := ∀ i, p = .position i → 0 ≤ i

namespace Expr

/-- The expressions directly below an expression.  Other than among its parts, a callee is one of them. -/
def children : Expr → List Expr
  | .call _ callee arguments => callee :: arguments
  | e => e.parts

/-- Whether an expression is a node of a tree. -/
inductive NodeOf (x : Expr) : Expr → Prop where
  | root : NodeOf x x
  | child {y e : Expr} (hx : NodeOf x y) (hy : y ∈ e.children) : NodeOf x e

/-- Whether all nodes of a tree have a property. -/
def All (N : Expr → Prop) (e : Expr) : Prop := ∀ x, NodeOf x e → N x

section Nodes
variable {x y e : Expr} {M N : Expr → Prop}

theorem NodeOf.trans (hx : NodeOf x y) (hy : NodeOf y e) : NodeOf x e := by
  induction hy with
  | root => exact hx
  | child _ hmem ih => exact .child ih hmem

theorem nodeOf_cases (h : NodeOf x e) : x = e ∨ ∃ y ∈ e.children, NodeOf x y := by
  cases h with
  | root => exact .inl rfl
  | child hx hy => exact .inr ⟨_, hy, hx⟩

theorem all_iff : e.All N ↔ N e ∧ ∀ y ∈ e.children, y.All N := by
  refine ⟨fun h => ⟨h e .root, fun y hy x hx => h x (.child hx hy)⟩, ?_⟩
  rintro ⟨he, hchildren⟩ x hx
  rcases nodeOf_cases hx with rfl | ⟨y, hy, hx⟩
  · exact he
  · exact hchildren y hy x hx

theorem all_and : e.All (fun x => M x ∧ N x) ↔ e.All M ∧ e.All N := by
  refine ⟨fun h => ⟨fun x hx => (h x hx).1, fun x hx => (h x hx).2⟩, ?_⟩
  exact fun h x hx => ⟨h.1 x hx, h.2 x hx⟩

/-- Parts are among the children. -/
theorem parts_subset_children (e : Expr) : e.parts ⊆ e.children := by
  cases e with
  | call p callee arguments => exact List.subset_cons_self callee arguments
  | _ => exact List.Subset.refl _

/-- Induction on expressions that goes from the parts of a node to the node, for all constructors at once. -/
theorem of_parts {P : Expr → Prop} (h : ∀ e, (∀ y ∈ e.parts, P y) → P e) (e : Expr) : P e := by
  induction e using Expr.induction with
  | number p x | string p s style | boolean p b | null p | reference p name optional =>
    exact h _ fun _ hy => nomatch hy
  | unary p op operand ih => exact h _ (List.forall_mem_singleton.mpr ih)
  | binary p op left right ihl ihr =>
    exact h _ (List.forall_mem_cons.mpr ⟨ihl, List.forall_mem_singleton.mpr ihr⟩)
  | conditional p condition consequent alternate ihc iht iha =>
    have hbranches := List.forall_mem_cons.mpr ⟨iht, List.forall_mem_singleton.mpr iha⟩
    exact h _ (List.forall_mem_cons.mpr ⟨ihc, hbranches⟩)
  | array p items ih => exact h _ ih
  | object p entries ih => exact h _ (List.forall_mem_map.mpr ih)
  | call p callee arguments _ ih => exact h _ ih
  | member p target property optional ih => exact h _ (List.forall_mem_singleton.mpr ih)
  | index p target key optional iht ihk =>
    exact h _ (List.forall_mem_cons.mpr ⟨iht, List.forall_mem_singleton.mpr ihk⟩)
  | slice p target start stop step optional iht ihstart ihstop ihstep =>
    refine h _ (List.forall_mem_cons.mpr ⟨iht, ?_⟩)
    simp only [List.forall_mem_append, Option.mem_toList]
    exact ⟨⟨ihstart, ihstop⟩, ihstep⟩
  | pipe p stages ih => exact h _ (List.forall_mem_map.mpr ih)

end Nodes

/-! ## What is read from a source -/

/-- Whether the switches of the language allow a node. -/
def AllowedBy (o : Options) : Expr → Prop
  | .binary _ op _ _ => op = .nullCoalesce → o.nullish = true
  | .reference _ _ optional | .member _ _ _ optional | .index _ _ _ optional
  | .slice _ _ _ _ _ optional => optional = true → o.chaining = true
  | .pipe _ stages => 1 < stages.length → o.pipes = true
  | _ => True

/-- Whether the grammar has a node below the root of a tree. -/
def Formed : Expr → Prop
  | .call _ callee _ => callee.isCallable = true
  | .member _ _ property _ => property.Natural
  | .pipe .. => False
  | _ => True

end Expr

end PipeExpr
