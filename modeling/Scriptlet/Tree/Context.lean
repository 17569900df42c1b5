import Scriptlet.Image
import Scriptlet.Tree.Complaint

/-!
# What a reader knows about the program so far

While a program is read, its reader keeps track of the names bound in each open block, of the loops
around the present statement, of the function whose body it is in, and of all functions defined so
far. Declarations, assignments, `break`, `return` and `func` are checked against that.

The names are a **guess** at what the scopes will hold when the program runs: a function body starts
over with its parameters, and an assignment in it binds nothing here, since at run time it may reach
a variable of the caller.
-/

namespace Scriptlet

/-- How a name was bound. -/
inductive Binding where
  | mutable | constant
deriving Repr, DecidableEq

/-- The names bound in one block. -/
abbrev Block := List (String × Binding)

/-- Where a statement stands: outside all functions, or in the body of one that gives back a value
or none. -/
inductive Place where
  | top
  | inside (isVoid : Bool)
deriving Repr, DecidableEq

/-- What is known at one point of a program. -/
structure Context where
  /-- The open blocks of the present body, innermost first. -/
  blocks : List Block
  /-- The number of loops around the statement in the present body. -/
  loops : Nat
  place : Place
  /-- All functions defined so far, the program itself among them. -/
  functions : List String
deriving Repr, DecidableEq

namespace Context

/-- What is known before the first statement. -/
def start : Context :=
  ⟨[[]], 0, .top, [Function.mainName]⟩

/-- How a name is bound in the innermost block that binds it. -/
def lookup (c : Context) (name : String) : Option Binding :=
  c.blocks.findSome? (·.lookup name)

/-- Inside one more block. -/
def enterBlock (c : Context) : Context :=
  { c with blocks := [] :: c.blocks }

/-- Outside the innermost block. -/
def exitBlock (c : Context) : Context :=
  { c with blocks := c.blocks.tail }

/-- Inside one more loop. -/
def enterLoop (c : Context) : Context :=
  { c with loops := c.loops + 1 }

/-- Outside the innermost loop. -/
def exitLoop (c : Context) : Context :=
  { c with loops := c.loops - 1 }

/-- At the start of the body of a function, which is defined from here on. -/
def enterFunction (c : Context) (name : String) (isVoid : Bool) (params : List String) : Context :=
  ⟨[params.map fun p ↦ (p, .mutable)], 0, .inside isVoid, c.functions ++ [name]⟩

/-- Behind the body of a function: all that was known before, and the functions defined in it. -/
def exitFunction (c : Context) (inner : Context) : Context :=
  { c with functions := inner.functions }

/-- Binds a name in the innermost block, which must not bind it yet. -/
def declare (c : Context) (name : String) (b : Binding) : Except Cause Context :=
  match c.blocks with
  | [] => .error .outsideBlocks
  | block :: blocks =>
    if (block.lookup name).isSome then .error (.alreadyDeclared name)
    else .ok { c with blocks := ((name, b) :: block) :: blocks }

/-- The name may be assigned to: it is not bound as a constant. -/
def assignable (c : Context) (name : String) : Except Cause Unit :=
  if c.lookup name = some .constant then .error (.constant name) else .ok ()

/-- Notes an assignment. Outside functions it binds a name that no open block binds. -/
def assigned (c : Context) (name : String) : Context :=
  if c.place ≠ .top ∨ (c.lookup name).isSome then c
  else match c.blocks with
    | [] => c
    | block :: blocks => { c with blocks := ((name, .mutable) :: block) :: blocks }

/-- Blocks without the innermost binding of a name. -/
def forgetIn (name : String) : List Block → List Block
  | [] => []
  | block :: blocks =>
    if (block.lookup name).isSome then (block.filter fun b ↦ b.1 != name) :: blocks
    else block :: forgetIn name blocks

/-- Forgets the innermost binding of a name. -/
def forget (c : Context) (name : String) : Context :=
  { c with blocks := forgetIn name c.blocks }

/-- There are so many loops around the statement. -/
def enclosing (c : Context) (keyword : Keyword) (depth : Nat) : Except Cause Unit :=
  if c.loops = 0 then .error (.outsideLoop keyword)
  else if depth = 0 ∨ c.loops < depth then .error (.tooFewLoops keyword depth c.loops)
  else .ok ()

/-- A `return` with a value, or without one, is allowed here. -/
def mayReturn (c : Context) (isBare : Bool) : Except Cause Unit :=
  match c.place, isBare with
  | .top, true | .inside true, true | .inside false, false => .ok ()
  | .top, false => .error .valueAtTop
  | .inside true, false => .error .valueFromVoid
  | .inside false, true => .error .bareReturn

end Context

end Scriptlet
