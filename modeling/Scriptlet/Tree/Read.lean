import Scriptlet.Tree.Read.Stmt

/-!
# From tokens to trees

The program of a token list is its statements up to the end of the text, or the first complaint
about them. The reader is given fuel for all its tokens, so it never runs out of it.
-/

namespace Scriptlet

open Reader

/-- Statements up to the end of the text. -/
def readAll : (fuel : Nat) → Context → Reader (List Stmt × Context)
  | 0, _ => exhausted
  | fuel + 1, c => do
    if ← atEnd then return ([], c)
    else
      let (s, c) ← readStmt fuel c
      let (ss, c) ← readAll fuel c
      return (s :: ss, c)

/-- Fuel for a number of tokens. -/
def fuelFor (count : Nat) : Nat :=
  16 * (count + 1)

/-- The program that tokens spell. -/
def Program.ofTokens (ts : Tokens) : Except Complaint Program := do
  let ((program, _), _) ← readAll (fuelFor ts.ahead.length) .start ts
  return program

end Scriptlet
