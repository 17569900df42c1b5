import Scriptlet.Proofs.Tree.Meaning

/-!
# Closed functions and agreeing last calls

A call runs inside the scopes of its caller, so in general a function may see the variables of
whoever calls it. A **closed** function does not: every variable of its body is one of its
parameters or was declared before, in a block of the body that is still open, and nothing is ever
undeclared.

The last calls of a function **agree** with it if taking its place does not change what is given
back: the function gives back what it is given, or it gives back the same type as the function that
it calls. A last call of a function of the host always agrees, since nothing takes the place of the
caller then.
-/

namespace Scriptlet

/-! ### Variables -/

mutual

/-- The variables that an expression reads. -/
def Expr.variables : Expr → List String
  | .int _ | .float _ | .str _ | .bool _ | .null => []
  | .var name => [name]
  | .call _ args => variablesAll args
  | .list items => variablesAll items
  | .unary _ e => e.variables
  | .binary _ left right => left.variables ++ right.variables
  | .index container i => container.variables ++ i.variables
  | .slice container start stop => container.variables ++ start.variables ++ stop.variables

/-- The variables that some expressions read. -/
def Expr.variablesAll : List Expr → List String
  | [] => []
  | e :: es => e.variables ++ variablesAll es

end

/-- The variables that a statement itself reads, assigns or steps. Those of its bodies are not
among them. -/
def Stmt.variables : Stmt → List String
  | .declare _ _ _ (some e) | .giveBack (some e) | .eval e => e.variables
  | .ifElse c _ _ | .whileLoop c _ => c.variables
  | .assign name value => name :: value.variables
  | .assignAt name i value => name :: (i.variables ++ value.variables)
  | .step _ name => [name]
  | .declare _ _ _ none | .giveBack none | .breakLoop _ | .continueLoop | .function _ _ | .exit
  | .unset _ | .uses _ | .block _ => []

/-- The names declared in open blocks, innermost block first, behind a statement. -/
def Stmt.blocksAfter (blocks : List (List String)) : Stmt → List (List String)
  | .declare _ _ name _ => blocks.modifyHead (name :: ·)
  | _ => blocks

mutual

/-- A statement uses only names declared in the open blocks, and undeclares none. A function inside
it has a body of its own. -/
def Stmt.closed (blocks : List (List String)) (s : Stmt) : Bool :=
  s.variables.all (blocks.flatten.contains ·) && match s with
    | .ifElse _ body otherwise => closedAll ([] :: blocks) body && closedAll blocks otherwise
    | .whileLoop _ body | .block body => closedAll ([] :: blocks) body
    | .unset _ => false
    | _ => true

/-- Some statements use only names declared in the open blocks or by those before them. -/
def Stmt.closedAll (blocks : List (List String)) : List Stmt → Bool
  | [] => true
  | s :: ss => s.closed blocks && closedAll (s.blocksAfter blocks) ss

end

/-- Every function of a program is closed. -/
def Program.Closed (p : Program) : Prop :=
  ∀ f ∈ Stmt.functionsAll p, Stmt.closedAll [f.1.params] f.2 = true

instance (p : Program) : Decidable p.Closed :=
  inferInstanceAs (Decidable (∀ f ∈ Stmt.functionsAll p, _))

/-! ### Last calls -/

mutual

/-- The functions called by `return f(..);` in a statement, but not in functions inside it. -/
def Stmt.lastCalls : Stmt → List String
  | .giveBack (some (.call name _)) => [name]
  | .ifElse _ body otherwise => lastCallsAll body ++ lastCallsAll otherwise
  | .whileLoop _ body | .block body => lastCallsAll body
  | _ => []

/-- The functions called by `return f(..);` in some statements. -/
def Stmt.lastCallsAll : List Stmt → List String
  | [] => []
  | s :: ss => s.lastCalls ++ lastCallsAll ss

end

/-- A function agrees with the functions of some name that it calls last. -/
def Head.AgreesWith (head : Head) (fs : List (Head × List Stmt)) (name : String) : Prop :=
  head.returns = .any ∨ ∀ f ∈ fs, f.1.name = name → f.1.returns = head.returns

instance (head : Head) (fs : List (Head × List Stmt)) (name : String) :
    Decidable (head.AgreesWith fs name) :=
  inferInstanceAs (Decidable (_ ∨ _))

/-- Every function whose last calls take its place agrees with the functions that it calls so. -/
def Program.LastCallsAgree (p : Program) : Prop :=
  ∀ f ∈ Stmt.functionsAll p, f.1.isTail = true →
    ∀ name ∈ Stmt.lastCallsAll f.2, f.1.AgreesWith (Stmt.functionsAll p) name

instance (p : Program) : Decidable p.LastCallsAgree :=
  inferInstanceAs (Decidable (∀ f ∈ Stmt.functionsAll p, f.1.isTail = true → _))

end Scriptlet
