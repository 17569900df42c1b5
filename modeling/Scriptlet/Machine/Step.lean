import Scriptlet.Machine.Action

/-!
# One instruction

Executing an instruction is a sequence of actions. Their order matters where two things are wrong:
operands are taken before they are used, arguments before the function is looked up, and a frame is
left before its value is coerced.

A step decodes the instruction at the present offset and executes it. A run is a sequence of steps;
`runFor` makes at most so many of them.
-/

namespace Scriptlet

namespace Machine

open Exec

variable (m : Machine)

/-- Calls a function of the program. A tail call replaces the present frame where it has a caller,
and so needs no room for another. -/
def callFunction (f : Function) (args : List Value) (isTail : Bool) : Exec Unit := do
  match ← (if isTail then replaceFrame? f else pure none) with
  | some id => bindParams id f.params args
  | none =>
    let id ← openFrame m.limits.maxFrames f
    bindParams id f.params args
  goTo f

/-- Calls a function of the host. -/
def callBuiltin (b : Builtin) (args : List Value) : Exec Unit := do
  let before ← note ⟨b.name, args⟩
  match b.answer before args with
  | .ok v => push m.limits.maxStack v
  | .error message => throw (.builtin b.name message)

/-- Calls a function by its name with the last values as arguments. The program's own functions come
before those of the host. -/
def call (name : String) (count : Nat) (isTail : Bool) : Exec Unit := do
  let args ← popMany count
  match m.find? name with
  | some f =>
    if count = f.params.length then m.callFunction f args isTail
    else throw (.arity name f.params.length count)
  | none =>
    match m.table.find? name with
    | none => throw (.unknownFunction name)
    | some b =>
      match b.arity with
      | some arity =>
        if args.length = arity then m.callBuiltin b args
        else throw (.arity name arity args.length)
      | none => m.callBuiltin b args

/-- What a call gives back for the value that its body gives back. -/
def resultOf (r : Returns) (v : Option Value) : Except ValueError Value :=
  match r, v with
  | .void, _ => .ok .null
  | .typed t, some v => v.coerce t
  | _, some v => .ok v
  | _, none => .ok .null

/-- Ends the call in progress. Without a caller it ends the run. -/
def giveBack (v : Option Value) : Exec (Option Termination) := do
  match ← leaveFrame? with
  | none => return some .returned
  | some (frame, resume) =>
    let v ← ofValue (resultOf frame.returns v)
    closeFrame frame resume
    push m.limits.maxStack v
    return none

/-- Executes one instruction, and tells whether it ends the run. -/
def execute : Instr → Exec (Option Termination)
  | .pushInt n => do push m.limits.maxStack (.int n); return none
  | .pushFloat x => do push m.limits.maxStack (.float x); return none
  | .pushBool b => do push m.limits.maxStack (.bool b); return none
  | .pushStr s => do push m.limits.maxStack (.str s); return none
  | .pushNull => do push m.limits.maxStack .null; return none
  | .makeList count => do
    let items ← popMany count
    push m.limits.maxStack (.list items)
    return none
  | .get name => do
    let v ← read name
    push m.limits.maxStack v
    return none
  | .set name => do
    let v ← pop
    let id ← scope
    onArena fun a ↦ a.assign id name v
    return none
  | .decl name type => do
    let v ← pop
    let id ← scope
    onArena fun a ↦ a.declare id name type v
    return none
  | .unset name => do
    let id ← scope
    onArena fun a ↦ (.ok (), (a.unset id name).2)
    return none
  | .pop => do
    let _ ← pop
    return none
  | .binary op => do
    let b ← pop
    let a ← pop
    let v ← ofValue (op.apply a b)
    push m.limits.maxStack v
    return none
  | .unary op => do
    let a ← pop
    let v ← ofValue (op.apply a)
    push m.limits.maxStack v
    return none
  | .index => do
    let i ← pop
    let container ← pop
    let v ← ofValue (container.index i)
    push m.limits.maxStack v
    return none
  | .slice => do
    let stop ← pop
    let start ← pop
    let container ← pop
    let v ← ofValue (container.slice start stop)
    push m.limits.maxStack v
    return none
  | .setIndex name => do
    let v ← pop
    let i ← pop
    let id ← scope
    onArena fun a ↦ a.update id name fun container ↦ container.setIndex i v
    return none
  | .jump target => do
    jumpTo m.code.size target
    return none
  | .jumpIfFalse target => do
    let condition ← pop
    if condition.isTrue then return none
    else
      jumpTo m.code.size target
      return none
  | .call name count => do
    m.call name count false
    return none
  | .tailCall name count => do
    m.call name count true
    return none
  | .ret => do
    let v ← pop
    m.giveBack (some v)
  | .retVoid => m.giveBack none
  | .enterScope => do
    enterScope
    return none
  | .exitScope => do
    exitScope
    return none
  | .halt => return some .halt

/-- What one step makes of a state. -/
inductive Progress where
  | running (s : State)
  | ended (t : Termination) (s : State)
  | failed (f : Fault) (s : State)
deriving Repr

/-- One step: the instruction at the present offset, or the end of the run behind the code. -/
def step (s : State) : Progress :=
  let offset := s.ip
  if offset < m.code.size then
    match Instr.decode m.code offset with
    | .error e => .failed ⟨.malformed (.decode e), offset⟩ s
    | .ok (i, next) =>
      match m.execute i { s with ip := next } with
      | .ok none s' => .running s'
      | .ok (some t) s' => .ended t s'
      | .error cause s' => .failed ⟨cause, offset⟩ s'
  else .ended .endOfCode s

/-- At most so many steps; a run that is not over by then is still running. -/
def runFor : (count : Nat) → State → Progress
  | 0, s => .running s
  | count + 1, s =>
    match m.step s with
    | .running s' => runFor count s'
    | done => done

end Machine

end Scriptlet
