import PipeExpr.Pattern.Basic

/-!
# Matching

**Sets of places.** The places of a text are numbered from its start, and a set of them is a number
whose binary digits tell which ones it holds. `Pattern.ends` sends the set of places where a match
may start to the set of those where it may end, for all starts at once; a pattern occurs in a text
when the set of all places does not go to the empty set.

**A repetition without limit ends.** Each further round is made only from places that were not
reached before, so there are no more rounds with something to do than there are places.
-/

namespace PipeExpr.Pattern

/-- The places of a text that stand after a character, in order. -/
private def placesAfter (before : Option Char) : List Char → List Place
  | [] => [⟨before, none⟩]
  | c :: cs => ⟨before, some c⟩ :: placesAfter (some c) cs

/-- The places of a text, in order. -/
def places (cs : List Char) : List Place := placesAfter none cs

/-- The set of the places at which a test holds. -/
def placesWhere (test : Place → Bool) (all : List Place) : Nat :=
  all.foldr (fun place set => 2 * set + (test place).toNat) 0

/-- A step made a number of times, or until it changes nothing. -/
def repeated (step : Nat → Nat) : Nat → Nat → Nat
  | 0, set => set
  | n + 1, set => if step set = set then set else repeated step n (step set)

/-- Everything that up to `n` steps reach. `fresh` holds the places that the last step was the first
to reach, `seen` all that were reached. -/
def spread (step : Nat → Nat) : Nat → Nat → Nat → Nat
  | 0, _, seen => seen
  | n + 1, fresh, seen =>
    if fresh = 0 then seen
    else
      let all := seen ||| step fresh
      spread step n (all ^^^ seen) all

/-- The places where matches end that start in a set of places. `rounds` is the number of places of
the text. -/
def ends (rounds : Nat) : Pattern Nat → Nat → Nat
  | empty, set => set
  | look at_, set => set &&& at_
  | char at_, set => (set &&& at_) <<< 1
  | seq a b, set => b.ends rounds (a.ends rounds set)
  | alt a b, set => a.ends rounds set ||| b.ends rounds set
  | rep p least most, set =>
    let start := repeated (p.ends rounds) least set
    spread (p.ends rounds) (match most with
      | none => rounds
      | some most => most - least) start start

/-- Whether a pattern matches some part of a text. -/
def occursIn (p : Pattern (Place → Bool)) (s : String) : Bool :=
  let all := places s.toList
  (p.map (placesWhere · all)).ends all.length (placesWhere (fun _ => true) all) != 0

end PipeExpr.Pattern
