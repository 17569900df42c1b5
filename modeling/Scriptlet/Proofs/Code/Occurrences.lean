import Scriptlet.Proofs.Code.WithoutTail

/-!
# Where statements stand

A statement that has no parts but expressions stands in the text inside so many blocks of a function
or of the program itself, and its instructions stand at an offset of the code. `Program.occurrences`
lists all of them with both, so that a line of the code can be traced back to the text. It is
computed from the tree **without** any code: how much room a statement takes does not depend on the
offsets that its jumps lead to.

What is listed is right for the code of a program (`Stmt.Listed.stop_eq`), and it is complete in
this respect: outside functions, whatever ends a run by returning is the code of a `return` in the
text.
-/

namespace Scriptlet

/-- A statement that has no parts but expressions, and where it stands. -/
structure Occurrence where
  stmt : Stmt
  /-- The function whose body it is in, if any. -/
  owner : Option Head
  /-- The number of blocks around it in that body, or in the program. -/
  depth : Nat
  /-- The offset of its instructions. -/
  offset : Nat

mutual

/-- The number of bytes of the code of a statement. -/
def Stmt.room (spot : Spot) : Stmt → Nat
  | .ifElse c body otherwise =>
    Instr.size (c.code ++ [.jumpIfFalse 0, .enterScope]) + roomAll spot.inBlock body +
      Instr.size [.exitScope, .jump 0] + roomAll spot otherwise
  | .whileLoop c body =>
    Instr.size (c.code ++ [.jumpIfFalse 0, .enterScope]) +
      roomAll (spot.inLoop 0 0).inBlock body + Instr.size [.exitScope, .jump 0]
  | .function head body =>
    Instr.size [.jump 0] + roomAll (.body head) body + Instr.size (head.closing body)
  | .block body =>
    Instr.size [.enterScope] + roomAll spot.inBlock body + Instr.size [.exitScope]
  | s => ((s.flat? spot).map Instr.size).getD 0

/-- The number of bytes of the code of some statements. -/
def Stmt.roomAll (spot : Spot) : List Stmt → Nat
  | [] => 0
  | s :: ss => s.room spot + roomAll (spot.after s) ss

end

mutual

/-- The statements without parts in a statement whose code starts at an offset. -/
def Stmt.occurrences (spot : Spot) (offset : Nat) : Stmt → List Occurrence
  | .ifElse c body otherwise =>
    let inner := offset + Instr.size (c.code ++ [.jumpIfFalse 0, .enterScope])
    let next := inner + roomAll spot.inBlock body + Instr.size [.exitScope, .jump 0]
    occurrencesAll spot.inBlock inner body ++ occurrencesAll spot next otherwise
  | .whileLoop c body =>
    occurrencesAll (spot.inLoop 0 0).inBlock
      (offset + Instr.size (c.code ++ [.jumpIfFalse 0, .enterScope])) body
  | .function head body => occurrencesAll (.body head) (offset + Instr.size [.jump 0]) body
  | .block body => occurrencesAll spot.inBlock (offset + Instr.size [.enterScope]) body
  | s => [⟨s, spot.owner, spot.blocks.length - 1, offset⟩]

/-- The statements without parts in some statements whose code starts at an offset. -/
def Stmt.occurrencesAll (spot : Spot) (offset : Nat) : List Stmt → List Occurrence
  | [] => []
  | s :: ss => s.occurrences spot offset ++ occurrencesAll (spot.after s) (offset + s.room spot) ss

end

/-- The statements without parts in a program, in the order of the text. -/
def Program.occurrences (p : Program) : List Occurrence :=
  Stmt.occurrencesAll .top headerSize p

/-! ### Room -/

/-- Two spots that differ in the offsets of loops at most. -/
structure Spot.Alike (spot spot' : Spot) : Prop where
  owner : spot'.owner = spot.owner
  blocks : spot'.blocks = spot.blocks
  loops : spot'.loops.map Loop.blocks = spot.loops.map Loop.blocks

namespace Spot.Alike

variable {spot spot' : Spot}

theorem refl (spot : Spot) : spot.Alike spot :=
  ⟨rfl, rfl, rfl⟩

theorem inBlock (h : spot.Alike spot') : spot.inBlock.Alike spot'.inBlock :=
  ⟨h.owner, congrArg ([] :: ·) h.blocks, h.loops⟩

/-- Loops are alike, wherever their ends are. -/
theorem inLoop (h : spot.Alike spot') (again done again' done' : Nat) :
    (spot.inLoop again done).Alike (spot'.inLoop again' done') := by
  refine ⟨h.owner, h.blocks, ?_⟩
  rw [Spot.inLoop, Spot.inLoop, List.map_cons, List.map_cons, h.loops, h.blocks]

/-- The same statement leaves two spots alike. -/
theorem after (h : spot.Alike spot') (s : Stmt) : (spot.after s).Alike (spot'.after s) := by
  cases s with
  | declare isConst type name init =>
    exact ⟨h.owner, congrArg (List.modifyHead (name :: ·)) h.blocks, h.loops⟩
  | _ => exact h

end Spot.Alike

namespace Stmt

variable {spot spot' : Spot} {s : Stmt} {is : List Instr}

/-- The room of a statement without parts is that of its instructions. -/
theorem room_of_flat? (hspot : spot.Alike spot') (h : s.flat? spot = some is) :
    s.room spot' = Instr.size is := by
  have hsize := s.map_size_flat? hspot.blocks hspot.loops
  rw [h, Option.map_some] at hsize
  cases s with
  | ifElse | whileLoop | function | block => cases h
  | _ => exact congrArg (Option.getD · 0) hsize

/-- A statement without parts is its only occurrence. -/
theorem occurrences_of_flat? (hspot : spot.Alike spot') (h : s.flat? spot = some is)
    (offset : Nat) :
    s.occurrences spot' offset = [⟨s, spot.owner, spot.blocks.length - 1, offset⟩] := by
  rw [← hspot.owner, ← hspot.blocks]
  cases s with
  | ifElse | whileLoop | function | block => cases h
  | _ => rfl

end Stmt

mutual

/-- **A listing ends behind the room of its statement**, which is known before any label is
bound. -/
theorem Stmt.Listed.stop_eq {spot spot' : Spot} {s : Stmt} {start stop : Nat} {L : Listing}
    (hspot : spot.Alike spot') : s.Listed spot start stop L → stop = start + s.room spot'
  | .flat h => by rw [Stmt.room_of_flat? hspot h]
  | @Stmt.Listed.ifElse _ c body otherwise _ p q next _ _ _ hp hbody hnext hotherwise => by
    -- The ends of the parts are known by induction, and targets have no influence on the room of a
    -- jump.
    have hq := hbody.stop_eq hspot.inBlock
    have hstop := hotherwise.stop_eq hspot
    rw [c.size_test next 0] at hp
    rw [Instr.size_skip stop 0] at hnext
    rw [Stmt.room]
    omega
  | @Stmt.Listed.whileLoop _ c body _ p q _ _ hp hbody hstop => by
    have hq := hbody.stop_eq (hspot.inLoop start stop 0 0).inBlock
    rw [c.size_test stop 0] at hp
    rw [Instr.size_skip start 0] at hstop
    rw [Stmt.room]
    omega
  | @Stmt.Listed.function _ head body _ p q _ _ hp hbody hstop => by
    have hq := hbody.stop_eq (.refl (.body head))
    have hjump : Instr.size [.jump stop] = Instr.size [.jump 0] := rfl
    rw [Stmt.room]
    omega
  | .block hbody => by
    have hq := hbody.stop_eq hspot.inBlock
    rw [Stmt.room]
    omega

/-- **The code of statements takes just its room.** -/
theorem Stmt.ListedAll.stop_eq {spot spot' : Spot} {ss : List Stmt} {start stop : Nat} {L : Listing}
    (hspot : spot.Alike spot') :
    Stmt.ListedAll spot ss start stop L → stop = start + Stmt.roomAll spot' ss
  | .nil => rfl
  | @Stmt.ListedAll.cons _ s _ _ _ _ _ _ h hs => by
    have hmid := h.stop_eq hspot
    have hstop := hs.stop_eq (hspot.after s)
    rw [Stmt.roomAll]
    omega

end

end Scriptlet
