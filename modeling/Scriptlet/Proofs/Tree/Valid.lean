import Scriptlet.Tree
import Scriptlet.Tree.Context

/-!
# Valid trees

Not every tree is that of a program. What a reader promises about its trees beyond the grammar is
said here, in a form that can be computed: `break` and `continue` have the loops they leave around
them **in the same body**, a `return` has a value just in a function that gives one back, no
function has two parameters of one name, and the alternative of a condition is a block or a further
condition, so that nothing is declared in it outside a block.
-/

namespace Scriptlet

/-- A statement may be the alternative of a condition. -/
def Stmt.isAlternative : Stmt → Bool
  | .block _ | .ifElse _ _ _ => true
  | _ => false

/-- A `return` with a value, or without one, may stand here. -/
def Place.allows : Place → (isBare : Bool) → Bool
  | .top, isBare | .inside true, isBare => isBare
  | .inside false, isBare => !isBare

mutual

/-- A statement with so many loops around it in its body is valid. -/
def Stmt.valid (loops : Nat) (place : Place) : Stmt → Bool
  | .ifElse _ body otherwise =>
    validAll loops place body && validAll loops place otherwise && otherwise.all isAlternative
  | .whileLoop _ body => validAll (loops + 1) place body
  | .breakLoop depth => decide (1 ≤ depth) && decide (depth ≤ loops)
  | .continueLoop => decide (1 ≤ loops)
  | .function head body =>
    validAll 0 (.inside (head.returns == .void)) body && decide head.params.Nodup
  | .giveBack value => place.allows value.isNone
  | .block body => validAll loops place body
  | .declare _ _ _ _ | .assign _ _ | .assignAt _ _ _ | .step _ _ | .exit | .unset _ | .uses _
  | .eval _ => true

/-- Some statements are valid. -/
def Stmt.validAll (loops : Nat) (place : Place) : List Stmt → Bool
  | [] => true
  | s :: ss => s.valid loops place && validAll loops place ss

end

end Scriptlet
