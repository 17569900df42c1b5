import Scriptlet.Tree

/-!
# From trees to code

An expression leaves its value on the stack and a statement leaves the stack as it was. Every jump
goes to a label: those of conditions and loops are made and bound around the parts they join, and a
function is jumped over where it stands.

Leaving a loop first leaves the blocks opened inside it, so a layout knows how many blocks are open
in the present body and how many were open at each loop around it. Emitting is total: a program that
was read has a loop for each `break`, and the case without one emits nothing.
-/

namespace Scriptlet

/-! ### Expressions -/

mutual

/-- Adds the code of an expression: its operands from left to right, then what is done with them.
Both operands of `&&` and `||` are evaluated. -/
def Expr.emit : Expr → Buffer → Buffer
  | .int n, b => b.emit (.pushInt n)
  | .float x, b => b.emit (.pushFloat x)
  | .str s, b => b.emit (.pushStr s)
  | .bool v, b => b.emit (.pushBool v)
  | .null, b => b.emit .pushNull
  | .var name, b => b.emit (.get name)
  | .call name args, b => (emitAll args b).emit (.call name args.length)
  | .list items, b => (emitAll items b).emit (.makeList items.length)
  | .unary op e, b => (e.emit b).emit (.unary op)
  | .binary op left right, b => (right.emit (left.emit b)).emit (.binary op)
  | .index container i, b => (i.emit (container.emit b)).emit .index
  | .slice container start stop, b => (stop.emit (start.emit (container.emit b))).emit .slice

/-- Adds the code of some expressions, in order. -/
def Expr.emitAll : List Expr → Buffer → Buffer
  | [], b => b
  | e :: es, b => emitAll es (e.emit b)

end

/-- Adds the code of an expression whose value is given back. In a body whose last calls take its
place, an expression that **is** a call becomes such a call. -/
def Expr.emitLast (isTail : Bool) (e : Expr) (b : Buffer) : Buffer :=
  match isTail, e with
  | true, .call name args => (Expr.emitAll args b).emit (.tailCall name args.length)
  | _, e => e.emit b

/-- The instruction that pushes the default value of a type. -/
def Tag.pushDefault : Tag → Instr
  | .int => .pushInt 0
  | .float => .pushFloat 0
  | .bool => .pushBool false
  | .str => .pushStr ""
  | .list => .makeList 0
  | .null | .auto => .pushNull

/-! ### Statements -/

/-- Where a loop around a statement goes on and where it ends. -/
structure LoopLabels where
  continueAt : Label
  breakAt : Label
  /-- The number of blocks open outside the loop. -/
  depth : Nat
deriving Repr

/-- What the code of a statement depends on besides the statement. -/
structure Layout where
  /-- The number of open blocks in the present body. -/
  depth : Nat
  /-- The loops around the statement in the present body, innermost first. -/
  loops : List LoopLabels
  /-- The body is that of a function whose last calls take its place. -/
  isTail : Bool
deriving Repr

namespace Layout

/-- At the top of a program. -/
def top : Layout :=
  ⟨0, [], false⟩

/-- At the start of the body of a function. -/
def body (isTail : Bool) : Layout :=
  ⟨0, [], isTail⟩

/-- Inside one more block. -/
def inBlock (l : Layout) : Layout :=
  { l with depth := l.depth + 1 }

/-- Inside one more loop. -/
def inLoop (l : Layout) (continueAt breakAt : Label) : Layout :=
  { l with loops := ⟨continueAt, breakAt, l.depth⟩ :: l.loops }

/-- The loop so many loops out, one being the innermost. -/
def loop? (l : Layout) : (depth : Nat) → Option LoopLabels
  | 0 => none
  | depth + 1 => l.loops[depth]?

end Layout

/-- Code so far, and the functions defined in it. -/
structure Draft where
  buffer : Buffer
  functions : Array Function
deriving Repr

namespace Draft

/-- A draft without code. The program itself is its first function. -/
def new : Draft :=
  ⟨.new, #[.main]⟩

/-- Adds an instruction. -/
def emit (d : Draft) (i : Instr) : Draft :=
  { d with buffer := d.buffer.emit i }

/-- Adds the code of an expression. -/
def expr (d : Draft) (e : Expr) : Draft :=
  { d with buffer := e.emit d.buffer }

/-- Adds the code of an expression whose value is given back. -/
def lastExpr (d : Draft) (isTail : Bool) (e : Expr) : Draft :=
  { d with buffer := e.emitLast isTail d.buffer }

/-- Makes a label. -/
def newLabel (d : Draft) : Label × Draft :=
  let (l, b) := d.buffer.newLabel
  (l, { d with buffer := b })

/-- Binds a label to the end of the code. -/
def bind (d : Draft) (l : Label) : Draft :=
  { d with buffer := d.buffer.bind l }

/-- Adds a jump to a label. -/
def jump (d : Draft) (op : Opcode) (l : Label) : Draft :=
  { d with buffer := d.buffer.jump op l }

/-- Leaves so many blocks. -/
def exitScopes (d : Draft) : (count : Nat) → Draft
  | 0 => d
  | count + 1 => (d.emit .exitScope).exitScopes count

/-- Defines a function whose body starts here. -/
def define (d : Draft) (h : Head) : Draft :=
  let f := Function.ofReturns h.name d.buffer.size.toUInt64 h.returns h.params
  { d with functions := d.functions.push f }

/-- Gives back nothing at the end of a function. -/
def giveBackNothing (d : Draft) : Returns → Draft
  | .void => d.emit .retVoid
  | _ => (d.emit .pushNull).emit .ret

end Draft

/-- Whether the code ends with a `return` behind a statement, given whether it does before it. A
statement without code changes nothing. -/
def Stmt.endsInReturn (before : Bool) : Stmt → Bool
  | .uses _ => before
  | .giveBack _ => true
  | _ => false

/-- The code of a body ends with a `return`. -/
def bodyReturns (body : List Stmt) : Bool :=
  body.foldl Stmt.endsInReturn false

mutual

/-- Adds the code of a statement. -/
def Stmt.emit (l : Layout) : Stmt → Draft → Draft
  | .declare _ type name init, d =>
    let d := match init with
      | some e => d.expr e
      | none => d.emit type.pushDefault
    d.emit (.decl name type)
  | .assign name value, d => (d.expr value).emit (.set name)
  | .assignAt name i value, d => ((d.expr i).expr value).emit (.setIndex name)
  | .step op name, d =>
    (((d.emit (.get name)).emit (.pushInt 1)).emit (.binary op)).emit (.set name)
  | .ifElse condition body otherwise, d =>
    let (done, d) := d.newLabel
    let d := d.expr condition
    let (next, d) := d.newLabel
    let d := d.jump .jumpIfFalse next
    let d := (emitAll l.inBlock body (d.emit .enterScope)).emit .exitScope
    let d := (d.jump .jump done).bind next
    (emitAll l otherwise d).bind done
  | .whileLoop condition body, d =>
    let (again, d) := d.newLabel
    let d := (d.bind again).expr condition
    let (done, d) := d.newLabel
    let d := d.jump .jumpIfFalse done
    let inside := (l.inLoop again done).inBlock
    let d := (emitAll inside body (d.emit .enterScope)).emit .exitScope
    (d.jump .jump again).bind done
  | .breakLoop depth, d =>
    match l.loop? depth with
    | some loop => (d.exitScopes (l.depth - loop.depth)).jump .jump loop.breakAt
    | none => d
  | .continueLoop, d =>
    match l.loop? 1 with
    | some loop => (d.exitScopes (l.depth - loop.depth)).jump .jump loop.continueAt
    | none => d
  | .function head body, d =>
    let (behind, d) := d.newLabel
    let d := (d.jump .jump behind).define head
    let d := emitAll (.body head.isTail) body d
    let d := if bodyReturns body then d else d.giveBackNothing head.returns
    d.bind behind
  | .giveBack none, d => d.emit .retVoid
  | .giveBack (some e), d => (d.lastExpr l.isTail e).emit .ret
  | .exit, d => d.emit .halt
  | .unset name, d => d.emit (.unset name)
  | .uses _, d => d
  | .block body, d => (emitAll l.inBlock body (d.emit .enterScope)).emit .exitScope
  | .eval e, d => (d.expr e).emit .pop

/-- Adds the code of some statements, in order. -/
def Stmt.emitAll (l : Layout) : List Stmt → Draft → Draft
  | [], d => d
  | s :: ss, d => emitAll l ss (s.emit l d)

end

/-- The code of a program, with its functions. -/
def Program.draft (p : Program) : Draft :=
  Stmt.emitAll .top p .new

end Scriptlet
