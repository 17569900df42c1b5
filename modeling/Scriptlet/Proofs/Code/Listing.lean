import Scriptlet.Proofs.Code.Codec
import Scriptlet.Tree.Emit

/-!
# Listings

A listing is code as one would read it: instructions with their offsets, the targets of jumps
filled in, and beside each instruction **what is known there**: the function whose body it is in,
the number of operands, and the blocks open in the body with the names declared in them.

`Stmt.Listed` says which listing the code of a statement is, for the offsets at which it starts and
stops. It has no labels: where the code of a loop or a condition refers to an offset behind it, that
offset is one of those between which its parts are listed.
-/

namespace Scriptlet

/-! ### Straight code -/

mutual

/-- The instructions of an expression. -/
def Expr.code : Expr → List Instr
  | .int n => [.pushInt n]
  | .float x => [.pushFloat x]
  | .str s => [.pushStr s]
  | .bool b => [.pushBool b]
  | .null => [.pushNull]
  | .var name => [.get name]
  | .call name args => codeAll args ++ [.call name args.length]
  | .list items => codeAll items ++ [.makeList items.length]
  | .unary op e => e.code ++ [.unary op]
  | .binary op left right => left.code ++ right.code ++ [.binary op]
  | .index container i => container.code ++ i.code ++ [.index]
  | .slice container start stop => container.code ++ start.code ++ stop.code ++ [.slice]

/-- The instructions of some expressions, in order. -/
def Expr.codeAll : List Expr → List Instr
  | [] => []
  | e :: es => e.code ++ codeAll es

end

/-- The instructions of an expression whose value is given back. -/
def Expr.lastCode (isTail : Bool) (e : Expr) : List Instr :=
  match isTail, e with
  | true, .call name args => Expr.codeAll args ++ [.tailCall name args.length]
  | _, e => e.code

namespace Instr

/-- The number of operands an instruction takes. -/
def pops : Instr → Nat
  | makeList n | call _ n | tailCall _ n => n
  | set _ | decl _ _ | pop | unary _ | jumpIfFalse _ | ret => 1
  | binary _ | index | setIndex _ => 2
  | slice => 3
  | pushInt _ | pushFloat _ | pushBool _ | pushStr _ | pushNull | get _ | unset _ | jump _ | retVoid
  | enterScope | exitScope | halt => 0

/-- The number of operands an instruction leaves. -/
def pushes : Instr → Nat
  | pushInt _ | pushFloat _ | pushBool _ | pushStr _ | pushNull | get _ | makeList _ | binary _
  | unary _ | index | slice | call _ _ | tailCall _ _ => 1
  | set _ | decl _ _ | pop | unset _ | jumpIfFalse _ | ret | setIndex _ | jump _ | retVoid
  | enterScope | exitScope | halt => 0

/-- The number of bytes of some instructions. -/
def size (is : List Instr) : Nat :=
  (is.map width).sum

@[simp]
theorem size_nil : size [] = 0 :=
  rfl

@[simp]
theorem size_cons (i : Instr) (is : List Instr) : size (i :: is) = i.width + size is := by
  simp [size]

/-- Instructions one after the other take the room of both. -/
@[simp]
theorem size_append (is is' : List Instr) : size (is ++ is') = size is + size is' := by
  simp [size]

end Instr

/-- What is known at an instruction. -/
structure Point where
  /-- The function whose body it is in, if any. -/
  owner : Option Head
  /-- The names declared in the open blocks of the body, the innermost block first. The last one is
  that of the parameters, or of the global variables. -/
  blocks : List (List String)
  /-- The number of operands that the body has on the stack. -/
  height : Nat
deriving DecidableEq

namespace Point

/-- Blocks behind an instruction. -/
def blocksAfter (blocks : List (List String)) : Instr → List (List String)
  | .enterScope => [] :: blocks
  | .exitScope => blocks.tail
  | .decl name _ => blocks.modifyHead (name :: ·)
  | _ => blocks

/-- What is known behind an instruction. -/
def after (p : Point) (i : Instr) : Point :=
  { p with height := p.height - i.pops + i.pushes, blocks := blocksAfter p.blocks i }

/-- What is known behind some instructions. -/
def afterAll (p : Point) (is : List Instr) : Point :=
  is.foldl after p

/-- With some more operands. -/
def push (p : Point) (count : Nat) : Point :=
  { p with height := p.height + count }

end Point

/-- A line of a listing. -/
structure Entry where
  offset : Nat
  instr : Instr
  point : Point

/-- The offset behind a line. -/
def Entry.next (e : Entry) : Nat :=
  e.offset + e.instr.width

/-- The lines of instructions that follow each other. -/
def entriesOf (offset : Nat) (p : Point) : List Instr → List Entry
  | [] => []
  | i :: is => ⟨offset, i, p⟩ :: entriesOf (offset + i.width) (p.after i) is

/-- Lines go on where the ones before them end, with what is known there. -/
theorem entriesOf_append (offset : Nat) (p : Point) (is is' : List Instr) :
    entriesOf offset p (is ++ is') =
      entriesOf offset p is ++ entriesOf (offset + Instr.size is) (p.afterAll is) is' := by
  induction is generalizing offset p with
  | nil => rfl
  | cons i is ih =>
    rw [List.cons_append, entriesOf, entriesOf, ih, List.cons_append, Instr.size_cons,
      Nat.add_assoc, Point.afterAll, Point.afterAll, List.foldl_cons]

/-! ### Spots -/

/-- A loop around a statement: where it goes on, where it ends, and the blocks outside it. -/
structure Loop where
  again : Nat
  done : Nat
  blocks : List (List String)

/-- Where a statement stands. -/
structure Spot where
  owner : Option Head
  blocks : List (List String)
  /-- The loops around the statement in the present body, innermost first. -/
  loops : List Loop

namespace Spot

/-- At the top of a program. -/
def top : Spot :=
  ⟨none, [[]], []⟩

/-- At the start of the body of a function. -/
def body (head : Head) : Spot :=
  ⟨some head, [head.params], []⟩

variable (spot : Spot)

/-- What is known between two statements. -/
def point : Point :=
  ⟨spot.owner, spot.blocks, 0⟩

/-- The body is that of a function whose last calls take its place. -/
def isTail : Bool :=
  spot.owner.any (·.isTail)

/-- Inside one more block. -/
def inBlock : Spot :=
  { spot with blocks := [] :: spot.blocks }

/-- Inside one more loop. -/
def inLoop (again done : Nat) : Spot :=
  { spot with loops := ⟨again, done, spot.blocks⟩ :: spot.loops }

/-- The loop so many loops out, one being the innermost. -/
def loop? : (depth : Nat) → Option Loop
  | 0 => none
  | depth + 1 => spot.loops[depth]?

/-- Behind a statement. -/
def after : Stmt → Spot
  | .declare _ _ name _ => { spot with blocks := spot.blocks.modifyHead (name :: ·) }
  | _ => spot

/-- Behind some statements. -/
def afterAll (ss : List Stmt) : Spot :=
  ss.foldl after spot

/-- The instructions that leave the blocks inside a loop and go on somewhere. -/
def leave (loop : Loop) (target : Nat) : List Instr :=
  List.replicate (spot.blocks.length - loop.blocks.length) .exitScope ++ [.jump target]

end Spot

/-! ### Statements -/

/-- The instructions of a statement that has no parts but expressions. -/
def Stmt.flat? (spot : Spot) : Stmt → Option (List Instr)
  | .declare _ type name (some e) => some (e.code ++ [.decl name type])
  | .declare _ type name none => some [type.pushDefault, .decl name type]
  | .assign name value => some (value.code ++ [.set name])
  | .assignAt name i value => some (i.code ++ value.code ++ [.setIndex name])
  | .step op name => some [.get name, .pushInt 1, .binary op, .set name]
  | .breakLoop depth => some ((spot.loop? depth).elim [] fun loop ↦ spot.leave loop loop.done)
  | .continueLoop => some ((spot.loop? 1).elim [] fun loop ↦ spot.leave loop loop.again)
  | .giveBack none => some [.retVoid]
  | .giveBack (some e) => some (e.lastCode spot.isTail ++ [.ret])
  | .exit => some [.halt]
  | .unset name => some [.unset name]
  | .uses _ => some []
  | .eval e => some (e.code ++ [.pop])
  | .ifElse _ _ _ | .whileLoop _ _ | .function _ _ | .block _ => none

/-- The instructions behind the body of a function, if it does not end with a `return`. -/
def Head.closing (head : Head) (body : List Stmt) : List Instr :=
  if bodyReturns body then []
  else match head.returns with
    | .void => [.retVoid]
    | _ => [.pushNull, .ret]

/-- A function with the offset of its first instruction and the one behind its last. -/
structure Located where
  head : Head
  body : List Stmt
  entry : Nat
  stop : Nat

/-- The entry of a function in the function table. -/
def Located.function (f : Located) : Function :=
  .ofReturns f.head.name f.entry.toUInt64 f.head.returns f.head.params

namespace Located

variable (f : Located)

/-- A function is entered in the table under its own name. -/
@[simp]
theorem name_function : f.function.name = f.head.name := by
  rw [function]
  cases f.head.returns <;> rfl

/-- The table has the offset of the first instruction, as a word. -/
@[simp]
theorem entry_function : f.function.entry = f.entry.toUInt64 := by
  rw [function]
  cases f.head.returns <;> rfl

@[simp]
theorem params_function : f.function.params = f.head.params := by
  rw [function]
  cases f.head.returns <;> rfl

/-- The table tells what a function gives back. -/
@[simp]
theorem returns_function : f.function.returns = f.head.returns := by
  rw [function]
  cases f.head.returns <;> rfl

end Located

/-- Lines of code, and the functions defined in them. -/
structure Listing where
  entries : List Entry
  functions : List Located

namespace Listing

instance : Append Listing where
  append L L' := ⟨L.entries ++ L'.entries, L.functions ++ L'.functions⟩

/-- A listing without lines. -/
def empty : Listing :=
  ⟨[], []⟩

@[simp]
theorem entries_append (L L' : Listing) : (L ++ L').entries = L.entries ++ L'.entries :=
  rfl

@[simp]
theorem functions_append (L L' : Listing) : (L ++ L').functions = L.functions ++ L'.functions :=
  rfl

end Listing

/-- Instructions in a row at a spot. -/
def Spot.line (spot : Spot) (offset : Nat) (is : List Instr) : Listing :=
  ⟨entriesOf offset spot.point is, []⟩

mutual

/-- The code of a statement between two offsets is a listing. -/
inductive Stmt.Listed : Spot → Stmt → (start stop : Nat) → Listing → Prop where
  | flat {spot : Spot} {s : Stmt} {start : Nat} {is : List Instr} (h : s.flat? spot = some is) :
      Listed spot s start (start + Instr.size is) (spot.line start is)
  | ifElse {spot : Spot} {c : Expr} {body otherwise : List Stmt} {start p q next stop : Nat}
      {L L' : Listing} (hp : p = start + Instr.size (c.code ++ [.jumpIfFalse next, .enterScope]))
      (hbody : ListedAll spot.inBlock body p q L)
      (hnext : next = q + Instr.size [.exitScope, .jump stop])
      (hotherwise : ListedAll spot otherwise next stop L') :
      Listed spot (.ifElse c body otherwise) start stop
        (spot.line start (c.code ++ [.jumpIfFalse next, .enterScope]) ++ L ++
          (spot.inBlock.afterAll body).line q [.exitScope, .jump stop] ++ L')
  | whileLoop {spot : Spot} {c : Expr} {body : List Stmt} {start p q stop : Nat} {L : Listing}
      (hp : p = start + Instr.size (c.code ++ [.jumpIfFalse stop, .enterScope]))
      (hbody : ListedAll (spot.inLoop start stop).inBlock body p q L)
      (hstop : stop = q + Instr.size [.exitScope, .jump start]) :
      Listed spot (.whileLoop c body) start stop
        (spot.line start (c.code ++ [.jumpIfFalse stop, .enterScope]) ++ L ++
          ((spot.inLoop start stop).inBlock.afterAll body).line q [.exitScope, .jump start])
  | function {spot : Spot} {head : Head} {body : List Stmt} {start p q stop : Nat} {L : Listing}
      (hp : p = start + Instr.size [.jump stop])
      (hbody : ListedAll (.body head) body p q L)
      (hstop : stop = q + Instr.size (head.closing body)) :
      Listed spot (.function head body) start stop
        (spot.line start [.jump stop] ++ ⟨[], [⟨head, body, p, stop⟩]⟩ ++ L ++
          ((Spot.body head).afterAll body).line q (head.closing body))
  | block {spot : Spot} {body : List Stmt} {start q : Nat} {L : Listing}
      (hbody : ListedAll spot.inBlock body (start + Instr.size [.enterScope]) q L) :
      Listed spot (.block body) start (q + Instr.size [.exitScope])
        (spot.line start [.enterScope] ++ L ++ (spot.inBlock.afterAll body).line q [.exitScope])

/-- The code of some statements between two offsets is a listing. -/
inductive Stmt.ListedAll : Spot → List Stmt → (start stop : Nat) → Listing → Prop where
  | nil {spot : Spot} {start : Nat} : ListedAll spot [] start start .empty
  | cons {spot : Spot} {s : Stmt} {ss : List Stmt} {start mid stop : Nat} {L L' : Listing}
      (h : Listed spot s start mid L) (hs : ListedAll (spot.after s) ss mid stop L') :
      ListedAll spot (s :: ss) start stop (L ++ L')

end

end Scriptlet
