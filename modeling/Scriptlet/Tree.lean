import Scriptlet.Code.Instr
import Scriptlet.Image

/-!
# Program trees

The tree of a program holds what its text means and nothing of how it was written: no spans, no
parentheses, no modifiers without effect. A condition with `elif` parts is a condition whose
alternative is the next condition; the alternative is run in the scope of the condition itself,
while bodies are blocks of their own.
-/

namespace Scriptlet

/-- An expression. -/
inductive Expr where
  | int (n : Int64)
  | float (x : Float)
  | str (s : String)
  | bool (b : Bool)
  | null
  | var (name : String)
  | call (name : String) (args : List Expr)
  | list (items : List Expr)
  | unary (op : UnaryOp) (e : Expr)
  | binary (op : BinaryOp) (left right : Expr)
  | index (container i : Expr)
  | slice (container start stop : Expr)
deriving Repr

/-- The head of a function: everything but its body. -/
structure Head where
  name : String
  /-- The call in `return f(..);` takes the place of the present one. -/
  isTail : Bool
  returns : Returns
  params : List String
deriving Repr, DecidableEq

/-- A statement. -/
inductive Stmt where
  /-- Declares a variable; without an initial value it starts with the default of its type. -/
  | declare (isConst : Bool) (type : Tag) (name : String) (init : Option Expr)
  | assign (name : String) (value : Expr)
  | assignAt (name : String) (i value : Expr)
  /-- Adds one to a variable or subtracts one from it. -/
  | step (op : BinaryOp) (name : String)
  /-- Runs a body in a scope of its own, or else the alternative, which is empty, a single block or
  a single further condition. -/
  | ifElse (condition : Expr) (body otherwise : List Stmt)
  | whileLoop (condition : Expr) (body : List Stmt)
  /-- Leaves so many loops around it, one being the innermost. -/
  | breakLoop (depth : Nat)
  | continueLoop
  | function (head : Head) (body : List Stmt)
  | giveBack (value : Option Expr)
  | exit
  | unset (name : String)
  /-- Names another program. It has no effect. -/
  | uses (target : String)
  | block (body : List Stmt)
  | eval (e : Expr)
deriving Repr

/-- The statements of a program, in order. -/
abbrev Program := List Stmt

end Scriptlet
