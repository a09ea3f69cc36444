import PipeExpr.Text.Case
import PipeExpr.Text.FoldTable

/-!
# Characters that differ in case only

`alike c` lists the characters that a comparison without regard to case takes for `c`, with `c`
itself among them.
-/

namespace PipeExpr.Text

private def representatives : CaseMap := .ofText [FoldTable.representatives]

/-- The characters of every class with more than one, by the code point of its representative. -/
private def foldClasses : CaseMap :=
  representatives.toList.foldl (fun classes (point, image) =>
    match image with
    | [first] => classes.insert first.toNat (Char.ofNat point :: classes.getD first.toNat [first])
    | _ => classes) ∅

/-- The characters that differ from a character in case only, itself included. -/
def alike (c : Char) : List Char :=
  match representatives.image c with
  | [first] => foldClasses.getD first.toNat [c]
  | _ => [c]

end PipeExpr.Text
