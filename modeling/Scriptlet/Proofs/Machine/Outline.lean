import Scriptlet.Machine.Step
import Scriptlet.Proofs.Scope.Stack

/-!
# The machine on a stack of scopes

An outline is a state of the machine without slots: the scopes are a stack, a frame is the number
of blocks that are open in it, and the operands and the waiting calls are lists with the last one in
front. `Machine.outlineStep` is the machine on outlines.

`step_outlined` says that the machine and the machine on outlines go **in lockstep** on every code,
well-formed or not: a step of one is a step of the other, they end alike, and they fail with the
same fault. What a fault leaves behind in the arena is not described; the calls of builtins made
until then are.
-/

namespace Scriptlet

/-- A call that waits for another: the blocks open in it, what it gives back, and where it goes
on. -/
structure Waiting where
  blocks : Nat
  returns : Returns
  resume : Nat
deriving Repr, DecidableEq

/-- A state of the machine without slots. -/
structure Outline where
  ip : Nat
  /-- The operands, the last one first. -/
  stack : List Value
  /-- The number of blocks open in the call in progress. -/
  blocks : Nat
  returns : Returns
  /-- The calls that wait, the innermost one first. -/
  callers : List Waiting
  scopes : Scopes
  calls : Array Call

namespace Outline

/-- What an instruction or a step makes of an outline. -/
inductive Progress (ε : Type) where
  | running (o : Outline)
  | ended (t : Termination) (o : Outline)
  | failed (e : ε) (calls : Array Call)

/-- The same with another error. -/
def Progress.mapError {ε ε' : Type} (f : ε → ε') : Progress ε → Progress ε'
  | running o => .running o
  | ended t o => .ended t o
  | failed e calls => .failed (f e) calls

variable (o : Outline)

/-- The global variables in order of declaration. -/
def globals : List (String × Value) :=
  (o.scopes.getLast?.getD []).map fun b ↦ (b.1, b.2.value)

/-! ### Actions -/

/-- Fails for a cause. -/
def fail (cause : FaultCause) : Progress FaultCause :=
  .failed cause o.calls

/-- Pushes a value, within a limit. -/
def push (limit : Nat) (v : Value) : Progress FaultCause :=
  if o.stack.length < limit then .running { o with stack := v :: o.stack }
  else o.fail (.stackOverflow limit)

/-- Pushes what an operation on values gives. -/
def pushResult (limit : Nat) : Except ValueError Value → Progress FaultCause
  | .ok v => o.push limit v
  | .error e => o.fail (.ofValueError e)

/-- Goes on with other scopes, unless the operation on them failed. -/
def onScopes : Except ScopeError Scopes → Progress FaultCause
  | .ok scopes => .running { o with scopes }
  | .error e => o.fail (.ofScopeError e)

/-- Goes on at an offset, which must lie in the code or at its end. -/
def jumpTo (codeSize target : Nat) : Progress FaultCause :=
  if headerSize ≤ target ∧ target ≤ codeSize then .running { o with ip := target }
  else o.fail (.malformed (.jumpOutside target))

end Outline

/-- Declares parameters in the innermost scope, in order. -/
def Scopes.bindParams (scopes : Scopes) : List String → List Value → Except ScopeError Scopes
  | p :: ps, v :: vs =>
    match scopes.declare p .auto v with
    | .ok scopes => bindParams scopes ps vs
    | .error e => .error e
  | _, _ => .ok scopes

namespace Machine

variable (m : Machine) (o : Outline)

/-! ### Calls -/

/-- Goes on with a function, in a scope of its own that binds its parameters. -/
def outlineEnter (f : Function) (args : List Value) : Outline.Progress FaultCause :=
  { o with ip := f.entry.toNat, blocks := 0, returns := f.returns }.onScopes
    (Scopes.bindParams ([] :: o.scopes) f.params args)

/-- Calls a function of the program. A tail call leaves the scopes of the call it replaces. -/
def outlineCallFunction (f : Function) (args : List Value) (isTail : Bool) :
    Outline.Progress FaultCause :=
  if isTail ∧ o.callers ≠ [] then
    outlineEnter { o with scopes := o.scopes.drop (o.blocks + 1) } f args
  else if o.callers.length + 1 < m.limits.maxFrames then
    outlineEnter { o with callers := ⟨o.blocks, o.returns, o.ip⟩ :: o.callers } f args
  else o.fail (.callDepth m.limits.maxFrames)

/-- Calls a function of the host. -/
def outlineCallBuiltin (b : Builtin) (args : List Value) : Outline.Progress FaultCause :=
  match b.answer o.calls args with
  | .ok v => { o with calls := o.calls.push ⟨b.name, args⟩ }.push m.limits.maxStack v
  | .error message =>
    { o with calls := o.calls.push ⟨b.name, args⟩ }.fail (.builtin b.name message)

/-- Calls a function by its name, once its arguments are taken from the stack. -/
def outlineApply (name : String) (args : List Value) (isTail : Bool) :
    Outline.Progress FaultCause :=
  match m.find? name with
  | some f =>
    if args.length = f.params.length then m.outlineCallFunction o f args isTail
    else o.fail (.arity name f.params.length args.length)
  | none =>
    match m.table.find? name with
    | none => o.fail (.unknownFunction name)
    | some b =>
      match b.arity with
      | some arity =>
        if args.length = arity then m.outlineCallBuiltin o b args
        else o.fail (.arity name arity args.length)
      | none => m.outlineCallBuiltin o b args

/-- Calls a function by its name with the last values as arguments. -/
def outlineCall (name : String) (count : Nat) (isTail : Bool) : Outline.Progress FaultCause :=
  if count ≤ o.stack.length then
    m.outlineApply { o with stack := o.stack.drop count } name (o.stack.take count).reverse isTail
  else o.fail .stackUnderflow

/-- Ends the call in progress. Without a caller it ends the run. -/
def outlineGiveBack (v : Option Value) : Outline.Progress FaultCause :=
  match o.callers with
  | [] => .ended .returned o
  | caller :: callers =>
    { o with
      ip := caller.resume
      blocks := caller.blocks
      returns := caller.returns
      callers
      scopes := o.scopes.drop (o.blocks + 1) }.pushResult m.limits.maxStack
        (resultOf o.returns v)

/-! ### Instructions -/

/-- Executes one instruction. -/
def outlineExec : Instr → Outline.Progress FaultCause
  | .pushInt n => o.push m.limits.maxStack (.int n)
  | .pushFloat x => o.push m.limits.maxStack (.float x)
  | .pushBool b => o.push m.limits.maxStack (.bool b)
  | .pushStr s => o.push m.limits.maxStack (.str s)
  | .pushNull => o.push m.limits.maxStack .null
  | .makeList count =>
    if count ≤ o.stack.length then
      { o with stack := o.stack.drop count }.push m.limits.maxStack
        (.list (o.stack.take count).reverse)
    else o.fail .stackUnderflow
  | .get name =>
    match o.scopes.var? name with
    | some var => o.push m.limits.maxStack var.value
    | none => o.fail (.unknownVariable name)
  | .set name =>
    match o.stack with
    | v :: stack => { o with stack }.onScopes (o.scopes.assign name v)
    | _ => o.fail .stackUnderflow
  | .decl name type =>
    match o.stack with
    | v :: stack => { o with stack }.onScopes (o.scopes.declare name type v)
    | _ => o.fail .stackUnderflow
  | .unset name => .running { o with scopes := o.scopes.unset name }
  | .pop =>
    match o.stack with
    | _ :: stack => .running { o with stack }
    | _ => o.fail .stackUnderflow
  | .binary op =>
    match o.stack with
    | b :: a :: stack => { o with stack }.pushResult m.limits.maxStack (op.apply a b)
    | _ => o.fail .stackUnderflow
  | .unary op =>
    match o.stack with
    | a :: stack => { o with stack }.pushResult m.limits.maxStack (op.apply a)
    | _ => o.fail .stackUnderflow
  | .index =>
    match o.stack with
    | i :: container :: stack =>
      { o with stack }.pushResult m.limits.maxStack (container.index i)
    | _ => o.fail .stackUnderflow
  | .slice =>
    match o.stack with
    | stop :: start :: container :: stack =>
      { o with stack }.pushResult m.limits.maxStack (container.slice start stop)
    | _ => o.fail .stackUnderflow
  | .setIndex name =>
    match o.stack with
    | v :: i :: stack =>
      { o with stack }.onScopes
        (o.scopes.update name fun container ↦ container.setIndex i v)
    | _ => o.fail .stackUnderflow
  | .jump target => o.jumpTo m.code.size target
  | .jumpIfFalse target =>
    match o.stack with
    | condition :: stack =>
      if condition.isTrue then .running { o with stack }
      else { o with stack }.jumpTo m.code.size target
    | _ => o.fail .stackUnderflow
  | .call name count => m.outlineCall o name count false
  | .tailCall name count => m.outlineCall o name count true
  | .ret =>
    match o.stack with
    | v :: stack => m.outlineGiveBack { o with stack } (some v)
    | _ => o.fail .stackUnderflow
  | .retVoid => m.outlineGiveBack o none
  | .enterScope => .running { o with blocks := o.blocks + 1, scopes := [] :: o.scopes }
  | .exitScope =>
    match o.blocks with
    | 0 => o.fail (.malformed .unmatchedExit)
    | blocks + 1 => .running { o with blocks, scopes := o.scopes.tail }
  | .halt => .ended .halt o

/-- One step on outlines. -/
def outlineStep : Outline.Progress Fault :=
  if o.ip < m.code.size then
    match Instr.decode m.code o.ip with
    | .error e => .failed ⟨.malformed (.decode e), o.ip⟩ o.calls
    | .ok (i, next) => (m.outlineExec { o with ip := next } i).mapError fun cause ↦ ⟨cause, o.ip⟩
  else .ended .endOfCode o

/-- At most so many steps on outlines. -/
def outlineRun : (count : Nat) → Outline → Outline.Progress Fault
  | 0, o => .running o
  | count + 1, o =>
    match m.outlineStep o with
    | .running o' => outlineRun count o'
    | done => done

/-- The outline before the first instruction. -/
def outlineStart : Outline where
  ip := m.entry
  stack := []
  blocks := 0
  returns := .void
  callers := []
  scopes := [[]]
  calls := #[]

end Machine

end Scriptlet
