import Scriptlet.Proofs.Machine.Outline
import Scriptlet.Tree

/-!
# The meaning of programs

An interpreter of program trees, with no code, no operands and no offsets. It works on a stack of
scopes, the innermost one first, and notes the calls of builtins it makes.

The rules are those of the language. Operands are evaluated from left to right, and always all of
them. A block runs in a fresh scope. A function is known from the start, wherever it is declared,
and runs in a fresh scope **inside the scope of its caller**; it gives back its value coerced to its
declared type. `break` and `continue` act on the loops of the same body, and `exit` ends the
program.

Loops and calls need fuel, nothing else does. An interpretation that runs out of it says nothing.
-/

namespace Scriptlet

/-- What an interpretation changes. -/
structure Store where
  /-- The open scopes, the innermost one first. -/
  scopes : Scopes
  /-- The calls of builtins made so far. -/
  calls : Array Call

/-- Why an interpretation stops on the way. -/
inductive Stop where
  | exit
  | fault (cause : FaultCause)
  | outOfFuel
deriving Repr, DecidableEq

/-- An action of the interpreter. -/
abbrev Interp := EStateM Stop Store

/-- How a statement ends: the next one follows, loops are left, a loop goes on, or the body is
left. -/
inductive Flow where
  | next
  | breaks (depth : Nat)
  | continues
  | returns (v : Option Value)
deriving Repr

namespace Interp

/-- Fails if an operation on values did. -/
def ofValue {α : Type} (result : Except ValueError α) : Interp α :=
  match result with
  | .ok a => pure a
  | .error e => throw (.fault (.ofValueError e))

/-- Operates on the scopes, and fails if the operation did. -/
def onScopes (f : Scopes → Except ScopeError Scopes) : Interp Unit :=
  fun st ↦ match f st.scopes with
    | .ok scopes => .ok () { st with scopes }
    | .error e => .error (.fault (.ofScopeError e)) st

/-- Reads a variable. -/
def read (name : String) : Interp Value :=
  fun st ↦ match st.scopes.var? name with
    | some var => .ok var.value st
    | none => .error (.fault (.unknownVariable name)) st

/-- Removes a variable. -/
def unset (name : String) : Interp Unit :=
  fun st ↦ .ok () { st with scopes := st.scopes.unset name }

/-- Opens a scope. -/
def enterScope : Interp Unit :=
  fun st ↦ .ok () { st with scopes := [] :: st.scopes }

/-- Closes the innermost scope. -/
def exitScope : Interp Unit :=
  fun st ↦ .ok () { st with scopes := st.scopes.tail }

/-- Acts in a fresh scope. -/
def inBlock {α : Type} (x : Interp α) : Interp α := do
  enterScope
  let a ← x
  exitScope
  return a

/-- Repeats a body as long as a condition holds, so many times at most. -/
def loop : (fuel : Nat) → (condition : Interp Value) → (body : Interp Flow) → Interp Flow
  | 0, _, _ => throw .outOfFuel
  | fuel + 1, condition, body => do
    if (← condition).isTrue then
      match ← body with
      | .next | .continues => loop fuel condition body
      | .breaks (depth + 2) => return .breaks (depth + 1)
      | .breaks _ => return .next
      | .returns v => return .returns v
    else return .next

/-- Calls a builtin. -/
def callBuiltin (b : Builtin) (args : List Value) : Interp Value :=
  fun st ↦
    let noted := { st with calls := st.calls.push ⟨b.name, args⟩ }
    match b.answer st.calls args with
    | .ok v => .ok v noted
    | .error message => .error (.fault (.builtin b.name message)) noted

/-- Calls a builtin by its name. -/
def callHost (table : Table) (name : String) (args : List Value) : Interp Value :=
  match table.find? name with
  | none => throw (.fault (.unknownFunction name))
  | some b =>
    match b.arity with
    | some arity =>
      if args.length = arity then callBuiltin b args
      else throw (.fault (.arity name arity args.length))
    | none => callBuiltin b args

end Interp

open Interp

/-! ### Expressions -/

mutual

/-- Evaluates an expression, given what a call does. -/
def Expr.eval (call : String → List Value → Interp Value) : Expr → Interp Value
  | .int n => return .int n
  | .float x => return .float x
  | .str s => return .str s
  | .bool b => return .bool b
  | .null => return .null
  | .var name => read name
  | .call name args => do
    let vs ← Expr.evalAll call args
    call name vs
  | .list items => do
    let vs ← Expr.evalAll call items
    return .list vs
  | .unary op e => do
    let v ← e.eval call
    ofValue (op.apply v)
  | .binary op left right => do
    let v ← left.eval call
    let w ← right.eval call
    ofValue (op.apply v w)
  | .index container i => do
    let v ← container.eval call
    let w ← i.eval call
    ofValue (v.index w)
  | .slice container start stop => do
    let v ← container.eval call
    let w ← start.eval call
    let w' ← stop.eval call
    ofValue (v.slice w w')

/-- Evaluates some expressions, in order. -/
def Expr.evalAll (call : String → List Value → Interp Value) : List Expr → Interp (List Value)
  | [] => return []
  | e :: es => do
    let v ← e.eval call
    let vs ← Expr.evalAll call es
    return v :: vs

end

/-! ### Statements -/

mutual

/-- Runs a statement, given what a call does and how often a loop may go around. -/
def Stmt.run (call : String → List Value → Interp Value) (fuel : Nat) : Stmt → Interp Flow
  | .declare _ type name none => do
    onScopes (·.declare name type type.default)
    return .next
  | .declare _ type name (some e) => do
    let v ← e.eval call
    onScopes (·.declare name type v)
    return .next
  | .assign name value => do
    let v ← value.eval call
    onScopes (·.assign name v)
    return .next
  | .assignAt name i value => do
    let v ← i.eval call
    let w ← value.eval call
    onScopes (·.update name fun container ↦ container.setIndex v w)
    return .next
  | .step op name => do
    let v ← read name
    let w ← ofValue (op.apply v (.int 1))
    onScopes (·.assign name w)
    return .next
  | .ifElse condition body otherwise => do
    if (← condition.eval call).isTrue then inBlock (Stmt.runAll call fuel body)
    else Stmt.runAll call fuel otherwise
  | .whileLoop condition body =>
    loop fuel (condition.eval call) (inBlock (Stmt.runAll call fuel body))
  | .breakLoop depth => return .breaks depth
  | .continueLoop => return .continues
  | .function _ _ => return .next
  | .giveBack none => return .returns none
  | .giveBack (some e) => do
    let v ← e.eval call
    return .returns (some v)
  | .exit => throw .exit
  | .unset name => do
    Interp.unset name
    return .next
  | .uses _ => return .next
  | .block body => inBlock (Stmt.runAll call fuel body)
  | .eval e => do
    let _ ← e.eval call
    return .next

/-- Runs statements in order, until one of them does not go on with the next. -/
def Stmt.runAll (call : String → List Value → Interp Value) (fuel : Nat) : List Stmt → Interp Flow
  | [] => return .next
  | s :: ss => do
    match ← s.run call fuel with
    | .next => Stmt.runAll call fuel ss
    | flow => return flow

end

/-! ### Calls -/

mutual

/-- The functions declared in a statement. -/
def Stmt.functions : Stmt → List (Head × List Stmt)
  | .ifElse _ body otherwise => Stmt.functionsAll body ++ Stmt.functionsAll otherwise
  | .whileLoop _ body | .block body => Stmt.functionsAll body
  | .function head body => (head, body) :: Stmt.functionsAll body
  | _ => []

/-- The functions declared in some statements. -/
def Stmt.functionsAll : List Stmt → List (Head × List Stmt)
  | [] => []
  | s :: ss => s.functions ++ Stmt.functionsAll ss

end

/-- What a call makes of the value that its body gives back: null, where nothing is given back, and
else the value, coerced if a type is declared. -/
def Returns.give : Returns → Value → Except ValueError Value
  | .void, _ => .ok .null
  | .any, v => .ok v
  | .typed type, v => v.coerce type

/-- What a call gives back when its body ends so. At its end a body gives back null, which is
coerced like any other value; a `return` without a value gives back null as it is. -/
def Returns.result (returns : Returns) : Flow → Except ValueError Value
  | .returns (some v) => returns.give v
  | .returns none => .ok .null
  | _ => returns.give .null

/-- Calls a function by its name. The program's own functions come before those of the host. -/
def Interp.call (functions : List (Head × List Stmt)) (table : Table) :
    (fuel : Nat) → (name : String) → (args : List Value) → Interp Value
  | 0, _, _ => throw .outOfFuel
  | fuel + 1, name, args =>
    match functions.find? fun f ↦ f.1.name == name && f.1.name != Function.mainName with
    | some (head, body) =>
      if args.length = head.params.length then do
        onScopes fun scopes ↦ Scopes.bindParams ([] :: scopes) head.params args
        let flow ← Stmt.runAll (call functions table fuel) fuel body
        let v ← ofValue (head.returns.result flow)
        exitScope
        return v
      else throw (.fault (.arity name head.params.length args.length))
    | none => callHost table name args

/-! ### Programs -/

/-- How a run ends, as far as it can be seen from outside. -/
inductive Outcome where
  | ended (t : Termination) (globals : List (String × Value)) (calls : Array Call)
  | failed (cause : FaultCause) (calls : Array Call)

/-- The global variables in order of declaration. -/
def Store.globals (st : Store) : List (String × Value) :=
  (st.scopes.getLast?.getD []).map fun b ↦ (b.1, b.2.value)

/-- What a program does, unless the fuel is not enough to tell. -/
def Program.interpret (p : Program) (table : Table) (fuel : Nat) : Option Outcome :=
  match Stmt.runAll (Interp.call (Stmt.functionsAll p) table fuel) fuel p ⟨[[]], #[]⟩ with
  | .ok (.returns _) st => some (.ended .returned st.globals st.calls)
  | .ok _ st => some (.ended .endOfCode st.globals st.calls)
  | .error .exit st => some (.ended .halt st.globals st.calls)
  | .error (.fault cause) st => some (.failed cause st.calls)
  | .error .outOfFuel _ => none

end Scriptlet
