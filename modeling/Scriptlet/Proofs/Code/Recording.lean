import Scriptlet.Proofs.Code.Checks
import Scriptlet.Proofs.Tree.Names

/-!
# Code with the names that the reader recorded

A recording is code as in a listing, with what a reader **has recorded** beside each instruction:
the names in the open blocks when the statement was read that the instruction belongs to.
`Stmt.Recorded` follows the statements with the context of the reader, so both of its ends are
contexts.

Recorded names say what is bound at run time, in two different ways. Outside functions they are
**exactly** the names that are bound. In the body of a function, which sees the scopes of its
callers, an assignment may bind a name that was not recorded; but then it is not a name that the
body declares. So what is recorded is right for the names that the body declares, and these are kept
in the note.

Stepping a variable has the code of an assignment but is not recorded as one. It reads the variable
first, so the name is bound wherever the assignment is reached. A note has room for that one name.
-/

namespace Scriptlet

/-! ### Notes -/

/-- What is recorded at an instruction. -/
structure Note where
  /-- In the body of a function, the names that the body declares. -/
  lets : Option (List String)
  /-- The names in the open blocks of the body, the innermost block first. -/
  names : List (List String)
  /-- A name that is bound, in these blocks or further out. -/
  bound : Option String

/-- What a reader has recorded between two statements. -/
def Context.note (c : Context) (lets : Option (List String)) : Note :=
  ⟨lets, c.names, none⟩

/-- Only the names of a context are noted. -/
theorem Context.note_congr {c c' : Context} (h : c'.names = c.names)
    (lets : Option (List String)) : c'.note lets = c.note lets := by
  rw [note, h, note]

namespace Note

/-- The instruction changes no scope. -/
def keepsBound : Instr → Bool
  | .pushInt _ | .binary _ => true
  | _ => false

variable (n : Note)

/-- The names behind an instruction. -/
def namesAfter : Instr → List (List String)
  | .enterScope => [] :: n.names
  | .exitScope => n.names.tail
  | .decl name _ => n.names.modifyHead (· ++ [name])
  | .set name =>
    if n.lets.isSome ∨ n.bound = some name ∨ name ∈ n.names.flatten then n.names
    else n.names.modifyHead (· ++ [name])
  | _ => n.names

/-- What is recorded behind an instruction. -/
def after (i : Instr) : Note :=
  ⟨n.lets, n.namesAfter i, if keepsBound i then n.bound else none⟩

/-- Behind an instruction reading a variable. -/
def binding (name : String) : Note :=
  { n with bound := some name }

/-- Behind the instruction, another note is right. -/
structure Leads (i : Instr) (n' : Note) : Prop where
  lets : n'.lets = n.lets
  names : n'.names = n.namesAfter i
  bound : ∀ name, n'.bound = some name →
    i = .get name ∨ keepsBound i = true ∧ n.bound = some name

/-- The instruction agrees with what is recorded: a name is declared once, and the names that the
body of a function declares are not assigned to unless they are bound. -/
def Admits : Instr → Prop
  | .decl name _ =>
    (∀ block ∈ n.names.head?, name ∉ block) ∧ ∀ lets, n.lets = some lets → name ∈ lets
  | .set name => n.bound = some name ∨ ∀ lets, n.lets = some lets → name ∉ lets
  | .exitScope => 2 ≤ n.names.length
  | .unset _ => False
  | _ => True

variable {n : Note}

/-- A name that is bound is not added. -/
theorem after_set_of_bound {name : String} (h : n.bound = some name) :
    n.after (.set name) = { n with bound := none } := by
  rw [after, namesAfter, if_pos (.inr (.inl h))]
  rfl

/-- What an instruction leads to is right behind it. -/
theorem leads_after (i : Instr) : n.Leads i (n.after i) := by
  refine ⟨rfl, rfl, fun name h ↦ .inr ?_⟩
  rw [after] at h
  split at h
  · exact ⟨‹_›, h⟩
  · cases h

end Note

/-- An instruction with its offset and what is recorded at it. -/
structure Record where
  offset : Nat
  instr : Instr
  note : Note

/-- The offset behind an instruction. -/
def Record.next (r : Record) : Nat :=
  r.offset + r.instr.width

/-- The records of instructions that follow each other. -/
def recordsOf (offset : Nat) (n : Note) : List Instr → List Record
  | [] => []
  | i :: is => ⟨offset, i, n⟩ :: recordsOf (offset + i.width) (n.after i) is

/-- Code with what is recorded, and the functions defined in it. -/
structure Recording where
  records : List Record
  functions : List Located

namespace Recording

instance : Append Recording where
  append R R' := ⟨R.records ++ R'.records, R.functions ++ R'.functions⟩

/-- No code. -/
def empty : Recording :=
  ⟨[], []⟩

/-- Instructions in a row. -/
def line (offset : Nat) (n : Note) (is : List Instr) : Recording :=
  ⟨recordsOf offset n is, []⟩

@[simp]
theorem records_append (R R' : Recording) : (R ++ R').records = R.records ++ R'.records :=
  rfl

@[simp]
theorem functions_append (R R' : Recording) : (R ++ R').functions = R.functions ++ R'.functions :=
  rfl

end Recording

/-! ### Statements -/

/-- The statement steps a variable. -/
def Stmt.isStep : Stmt → Bool
  | .step _ _ => true
  | _ => false

mutual

/-- The code of a statement between two offsets, with what is recorded in it, given what is known to
the reader before it and behind it. -/
inductive Stmt.Recorded :
    Option (List String) → Spot → Context → Stmt → (start stop : Nat) → Recording → Context → Prop
    where
  | flat {lets : Option (List String)} {spot : Spot} {c c' : Context} {s : Stmt} {start : Nat}
      {is : List Instr} (h : s.flat? spot = some is) (hchecked : s.Checked c c')
      (hstep : s.isStep = false) :
      Recorded lets spot c s start (start + Instr.size is) (.line start (c.note lets) is) c'
  | step {lets : Option (List String)} {spot : Spot} {c : Context} {op : BinaryOp} {name : String}
      {start : Nat} (h : c.assignable name = .ok ()) :
      Recorded lets spot c (.step op name) start
        (start + Instr.size [.get name, .pushInt 1, .binary op, .set name])
        (.line start (c.note lets) [.get name] ++
          .line (start + Instr.size [.get name]) ((c.note lets).binding name)
            [.pushInt 1, .binary op, .set name]) c
  | ifElse {lets : Option (List String)} {spot : Spot} {c c₁ c' : Context} {e : Expr}
      {body otherwise : List Stmt} {start p q next stop : Nat} {R R' : Recording}
      (hp : p = start + Instr.size (e.code ++ [.jumpIfFalse next, .enterScope]))
      (hbody : RecordedAll lets spot.inBlock c.enterBlock body p q R c₁)
      (hnext : next = q + Instr.size [.exitScope, .jump stop])
      (hotherwise : RecordedAll lets spot c₁.exitBlock otherwise next stop R' c') :
      Recorded lets spot c (.ifElse e body otherwise) start stop
        (.line start (c.note lets) (e.code ++ [.jumpIfFalse next, .enterScope]) ++ R ++
          .line q (c₁.note lets) [.exitScope, .jump stop] ++ R') c'
  | whileLoop {lets : Option (List String)} {spot : Spot} {c c₁ : Context} {e : Expr}
      {body : List Stmt} {start p q stop : Nat} {R : Recording}
      (hp : p = start + Instr.size (e.code ++ [.jumpIfFalse stop, .enterScope]))
      (hbody : RecordedAll lets (spot.inLoop start stop).inBlock c.enterLoop.enterBlock body p q R
        c₁)
      (hstop : stop = q + Instr.size [.exitScope, .jump start]) :
      Recorded lets spot c (.whileLoop e body) start stop
        (.line start (c.note lets) (e.code ++ [.jumpIfFalse stop, .enterScope]) ++ R ++
          .line q (c₁.note lets) [.exitScope, .jump start]) c₁.exitBlock.exitLoop
  | function {lets : Option (List String)} {spot : Spot} {c inner : Context} {head : Head}
      {body : List Stmt} {start p q stop : Nat} {R : Recording} (hname : head.name ∉ c.functions)
      (hparams : head.params.Nodup) (hp : p = start + Instr.size [.jump stop])
      (hbody : RecordedAll (some (Stmt.declaredAll body)) (.body head)
        (c.enterFunction head.name (head.returns == .void) head.params) body p q R inner)
      (hstop : stop = q + Instr.size (head.closing body)) :
      Recorded lets spot c (.function head body) start stop
        (.line start (c.note lets) [.jump stop] ++ ⟨[], [⟨head, body, p, stop⟩]⟩ ++ R ++
          .line q (inner.note (some (Stmt.declaredAll body))) (head.closing body))
        (c.exitFunction inner)
  | block {lets : Option (List String)} {spot : Spot} {c c₁ : Context} {body : List Stmt}
      {start q : Nat} {R : Recording}
      (hbody : RecordedAll lets spot.inBlock c.enterBlock body (start + Instr.size [.enterScope]) q R
        c₁) :
      Recorded lets spot c (.block body) start (q + Instr.size [.exitScope])
        (.line start (c.note lets) [.enterScope] ++ R ++ .line q (c₁.note lets) [.exitScope])
        c₁.exitBlock

/-- The code of some statements between two offsets, with what is recorded in it. -/
inductive Stmt.RecordedAll :
    Option (List String) → Spot → Context → List Stmt → (start stop : Nat) → Recording → Context →
      Prop where
  | nil {lets : Option (List String)} {spot : Spot} {c : Context} {start : Nat} :
      RecordedAll lets spot c [] start start .empty c
  | cons {lets : Option (List String)} {spot : Spot} {c c₁ c' : Context} {s : Stmt}
      {ss : List Stmt} {start mid stop : Nat} {R R' : Recording}
      (h : Recorded lets spot c s start mid R c₁)
      (hs : RecordedAll lets (spot.after s) c₁ ss mid stop R' c') :
      RecordedAll lets spot c (s :: ss) start stop (R ++ R') c'

end

/-! ### From listings to recordings -/

/-- The lines of records are those of the same instructions in a listing. -/
theorem map_recordsOf (offset : Nat) (n : Note) (p : Point) (is : List Instr) :
    (recordsOf offset n is).map (fun r ↦ (r.offset, r.instr)) =
      (entriesOf offset p is).map fun e ↦ (e.offset, e.instr) := by
  induction is generalizing offset n p with
  | nil => rfl
  | cons i is ih => rw [recordsOf, List.map_cons, entriesOf, List.map_cons, ih]

/-- A recording is of the code of a listing. -/
structure Recording.Covers (R : Recording) (L : Listing) : Prop where
  lines : R.records.map (fun r ↦ (r.offset, r.instr)) = L.entries.map fun e ↦ (e.offset, e.instr)
  functions : R.functions = L.functions

namespace Recording.Covers

variable {R R' : Recording} {L L' : Listing}

/-- Recordings cover listings one after the other. -/
theorem append (h : R.Covers L) (h' : R'.Covers L') : (R ++ R').Covers (L ++ L') := by
  refine ⟨?_, ?_⟩
  · rw [records_append, List.map_append, h.lines, h'.lines, Listing.entries_append,
      List.map_append]
  · rw [functions_append, h.functions, h'.functions, Listing.functions_append]

/-- Instructions in a row are recorded as they are listed. -/
theorem line (offset : Nat) (n : Note) (spot : Spot) (is : List Instr) :
    (Recording.line offset n is).Covers (spot.line offset is) :=
  ⟨map_recordsOf offset n spot.point is, rfl⟩

/-- Instructions in a row may be recorded in two parts. -/
theorem line_append (offset : Nat) (n n' : Note) (spot : Spot) (is is' : List Instr) :
    (Recording.line offset n is ++ Recording.line (offset + Instr.size is) n' is').Covers
      (spot.line offset (is ++ is')) := by
  refine ⟨?_, rfl⟩
  rw [records_append, List.map_append, Spot.line, entriesOf_append, List.map_append,
    Recording.line, Recording.line, map_recordsOf, map_recordsOf]

end Recording.Covers

mutual

/-- The listing of a statement that passes its checks can be recorded. -/
theorem Stmt.Listed.exists_recorded {spot : Spot} {c c' : Context} {s : Stmt} {start stop : Nat}
    {L : Listing} (lets : Option (List String)) (hc : s.Checked c c') :
    s.Listed spot start stop L → ∃ R, s.Recorded lets spot c start stop R c' ∧ R.Covers L
  | .flat h => by
    -- A step reads its variable first, and what is recorded behind that is that the variable is
    -- bound.
    by_cases hstep : s.isStep = true
    · cases s with
      | step op name =>
        cases h
        cases hc with
        | step hc => exact ⟨_, .step hc, .line_append start _ _ spot [.get name] _⟩
      | _ => cases hstep
    · rw [Bool.not_eq_true] at hstep
      exact ⟨_, .flat h hc hstep, .line ..⟩
  | .ifElse hp hbody hnext hotherwise => by
    cases hc with
    | ifElse hcbody hc =>
      obtain ⟨R, hR, hcovers⟩ := hbody.exists_recorded lets hcbody
      obtain ⟨R', hR', hcovers'⟩ := hotherwise.exists_recorded lets hc
      exact ⟨_, .ifElse hp hR hnext hR',
        (((Recording.Covers.line ..).append hcovers).append (.line ..)).append hcovers'⟩
  | .whileLoop hp hbody hstop => by
    cases hc with
    | whileLoop hcbody =>
      obtain ⟨R, hR, hcovers⟩ := hbody.exists_recorded lets hcbody
      exact ⟨_, .whileLoop hp hR hstop,
        ((Recording.Covers.line ..).append hcovers).append (.line ..)⟩
  | @Stmt.Listed.function _ head body _ p _ _ _ hp hbody hstop => by
    cases hc with
    | function hname hparams hcbody =>
      obtain ⟨R, hR, hcovers⟩ := hbody.exists_recorded (some (Stmt.declaredAll body)) hcbody
      have hhead : Recording.Covers ⟨[], [⟨head, body, p, stop⟩]⟩ ⟨[], [⟨head, body, p, stop⟩]⟩ :=
        ⟨rfl, rfl⟩
      exact ⟨_, .function hname hparams hp hR hstop,
        (((Recording.Covers.line ..).append hhead).append hcovers).append (.line ..)⟩
  | .block hbody => by
    cases hc with
    | block hcbody =>
      obtain ⟨R, hR, hcovers⟩ := hbody.exists_recorded lets hcbody
      exact ⟨_, .block hR, ((Recording.Covers.line ..).append hcovers).append (.line ..)⟩

/-- **Listed statements that pass their checks have a recording.** -/
theorem Stmt.ListedAll.exists_recorded {spot : Spot} {c c' : Context} {ss : List Stmt}
    {start stop : Nat} {L : Listing} (lets : Option (List String))
    (hc : Stmt.CheckedAll c ss c') :
    Stmt.ListedAll spot ss start stop L →
      ∃ R, Stmt.RecordedAll lets spot c ss start stop R c' ∧ R.Covers L
  | .nil => by
    cases hc
    exact ⟨_, .nil, rfl, rfl⟩
  | .cons h hs => by
    cases hc with
    | cons hc hcs =>
      obtain ⟨R, hR, hcovers⟩ := h.exists_recorded lets hc
      obtain ⟨R', hR', hcovers'⟩ := hs.exists_recorded lets hcs
      exact ⟨_, .cons hR hR', hcovers.append hcovers'⟩

end

mutual

/-- What is recorded has passed its checks. -/
theorem Stmt.Recorded.checked {lets : Option (List String)} {spot : Spot} {c c' : Context}
    {s : Stmt} {start stop : Nat} {R : Recording} :
    s.Recorded lets spot c start stop R c' → s.Checked c c'
  | .flat _ h _ => h
  | .step h => .step h
  | .ifElse _ hbody _ hotherwise => .ifElse hbody.checked hotherwise.checked
  | .whileLoop _ hbody _ => .whileLoop hbody.checked
  | .function hname hparams _ hbody _ => .function hname hparams hbody.checked
  | .block hbody => .block hbody.checked

/-- A recording is of statements that pass their checks. -/
theorem Stmt.RecordedAll.checked {lets : Option (List String)} {spot : Spot} {c c' : Context}
    {ss : List Stmt} {start stop : Nat} {R : Recording} :
    Stmt.RecordedAll lets spot c ss start stop R c' → Stmt.CheckedAll c ss c'
  | .nil => .nil
  | .cons h hs => .cons h.checked hs.checked

end

end Scriptlet
