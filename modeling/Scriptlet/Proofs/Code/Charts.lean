import Scriptlet.Proofs.Code.Checks
import Scriptlet.Proofs.Code.Occurrences
import Scriptlet.Proofs.Tree.Covers

/-!
# Covers along the code

A chart is the code of statements with the **cover** of one name beside each instruction, as it is
where the statement stands in the text. A line of it is right if what the instruction may do to the
name agrees with the cover, and if wherever the machine can go on from it some constants are
uncovered at most.

The lines of a chart are right if no `del` in a loop uncovers a constant
(`Stmt.ListedAll.exists_chart`). Where branches come together, the text behind them may know less
covers than there are. Where a loop begins again, there is no text behind, so the cover must be the
one that the loop began with, and this is what the `del`s are restricted for.

There are no functions here: the body of a function sees the scopes of whoever calls it, and the
reader knows nothing of these.
-/

namespace Scriptlet

/-! ### Lines -/

namespace Cover

/-- What an instruction may make of the cover of a name. What it changes or removes is not a
constant, and what it declares is one if it should be. -/
def Leads (x : String) (isConst : Bool) (i : Instr) (k k' : Cover) : Prop :=
  match i with
  | .enterScope => Fades (none :: k) k'
  | .exitScope => Fades k.tail k'
  | .decl name _ =>
    if name = x then ∃ b, (isConst = true → b = some .constant) ∧ Fades (b :: k.tail) k'
    else k.Fades k'
  | .set name | .setIndex name => (name = x → first? k ≠ some .constant) ∧ k.Fades k'
  | .unset name =>
    if name = x then first? k ≠ some .constant ∧ Fades (forget k) k' else k.Fades k'
  | _ => k.Fades k'

/-- The cover behind an instruction that binds and unbinds nothing. -/
def after (k : Cover) : Instr → Cover
  | .enterScope => none :: k
  | .exitScope => k.tail
  | _ => k

end Cover

/-- An instruction with its offset and the cover of a name before it. -/
structure Line where
  offset : Nat
  instr : Instr
  cover : Cover
  /-- It belongs to the declaration of a constant. -/
  isConst : Bool

/-- A line is right: wherever the machine can go on, there is a line with a cover that it may lead
to. -/
structure Line.Sound (Marks : Nat → Cover → Prop) (x : String) (l : Line) : Prop where
  next : l.instr.fallsThrough = true →
    ∃ k, Marks (l.offset + l.instr.width) k ∧ l.cover.Leads x l.isConst l.instr k
  target : ∀ t, l.instr.target? = some t → ∃ k, Marks t k ∧ l.cover.Leads x l.isConst l.instr k

/-- The lines of instructions that follow each other. -/
def linesOf (isConst : Bool) (offset : Nat) (k : Cover) : List Instr → List Line
  | [] => []
  | i :: is => ⟨offset, i, k, isConst⟩ :: linesOf isConst (offset + i.width) (k.after i) is

/-- Lines and entries of the same instructions differ in what they note, not in where they stand. -/
theorem map_linesOf (isConst : Bool) (offset : Nat) (k : Cover) (p : Point) (is : List Instr) :
    (linesOf isConst offset k is).map (fun l ↦ (l.offset, l.instr)) =
      (entriesOf offset p is).map fun e ↦ (e.offset, e.instr) := by
  induction is generalizing offset k p with
  | nil => rfl
  | cons i is ih => rw [linesOf, List.map_cons, entriesOf, List.map_cons, ih]

variable {Marks : Nat → Cover → Prop} {x : String} {b : Bool} {offset : Nat} {i : Instr}
  {is : List Instr} {k k' : Cover}

/-- There is a line where the lines start. -/
theorem marks_of_linesOf (hmarks : ∀ l ∈ linesOf b offset k is, Marks l.offset l.cover)
    (his : is ≠ []) : Marks offset k := by
  obtain ⟨i, is, rfl⟩ := List.exists_cons_of_ne_nil his
  exact hmarks _ (List.mem_cons_self ..)

/-- Instructions in a row that bind and unbind nothing lead from one cover to another. -/
inductive Cover.Passes (x : String) (isConst : Bool) : Cover → List Instr → Cover → Prop where
  | nil {k : Cover} : Passes x isConst k [] k
  | cons {k k' : Cover} {i : Instr} {is : List Instr} (h : k.Leads x isConst i (k.after i))
      (ht : i.target? = none) (rest : Passes x isConst (k.after i) is k') :
      Passes x isConst k (i :: is) k'

namespace Cover.Passes

/-- Lines go on where the ones before them end, with the cover that those leave. -/
theorem linesOf_append (h : k.Passes x b is k') (offset : Nat) (is' : List Instr) :
    linesOf b offset k (is ++ is') =
      linesOf b offset k is ++ linesOf b (offset + Instr.size is) k' is' := by
  induction h generalizing offset with
  | nil => rfl
  | cons _ _ _ ih =>
    rw [List.cons_append, linesOf, ih, linesOf, List.cons_append, Instr.size_cons, Nat.add_assoc]

/-- Instructions that lead from one cover to another are right if there is a line behind them. -/
theorem sound (h : k.Passes x b is k')
    (hmarks : ∀ l ∈ linesOf b offset k is, Marks l.offset l.cover)
    (hexit : Marks (offset + Instr.size is) k') :
    ∀ l ∈ linesOf b offset k is, l.Sound Marks x := by
  induction h generalizing offset with
  | nil => simp [linesOf]
  | @cons k k' i is h ht rest ih =>
    rw [linesOf, List.forall_mem_cons] at hmarks ⊢
    rw [Instr.size_cons, ← Nat.add_assoc] at hexit
    refine ⟨⟨fun _ ↦ ⟨k.after i, ?_, h⟩, fun t ht' ↦ ?_⟩, ih hmarks.2 hexit⟩
    · cases rest with
      | nil => exact hexit
      | cons => exact marks_of_linesOf hmarks.2 (List.cons_ne_nil _ _)
    · rw [ht] at ht'
      cases ht'

/-- With more instructions behind them. -/
theorem sound_append (h : k.Passes x b is k') {is' : List Instr} (his' : is' ≠ [])
    (hmarks : ∀ l ∈ linesOf b offset k (is ++ is'), Marks l.offset l.cover)
    (hrest : (∀ l ∈ linesOf b (offset + Instr.size is) k' is', Marks l.offset l.cover) →
      ∀ l ∈ linesOf b (offset + Instr.size is) k' is', l.Sound Marks x) :
    Marks offset k ∧ ∀ l ∈ linesOf b offset k (is ++ is'), l.Sound Marks x := by
  refine ⟨marks_of_linesOf hmarks (by simp [his']), ?_⟩
  rw [h.linesOf_append, List.forall_mem_append] at hmarks ⊢
  exact ⟨h.sound hmarks.1 (marks_of_linesOf hmarks.2 his'), hrest hmarks.2⟩

end Cover.Passes

/-! ### Expressions -/

mutual

/-- Every instruction of an expression leaves a value. -/
theorem Expr.pushes_code : ∀ e : Expr, ∀ i ∈ e.code, i.pushes = 1
  | .int _ | .float _ | .str _ | .bool _ | .null | .var _ => by simp [Expr.code, Instr.pushes]
  | .call _ args => by
    simp only [Expr.code, List.forall_mem_append, List.forall_mem_singleton]
    exact ⟨Expr.pushes_codeAll args, rfl⟩
  | .list items => by
    simp only [Expr.code, List.forall_mem_append, List.forall_mem_singleton]
    exact ⟨Expr.pushes_codeAll items, rfl⟩
  | .unary _ e => by
    simp only [Expr.code, List.forall_mem_append, List.forall_mem_singleton]
    exact ⟨e.pushes_code, rfl⟩
  | .binary _ left right => by
    simp only [Expr.code, List.forall_mem_append, List.forall_mem_singleton]
    exact ⟨⟨left.pushes_code, right.pushes_code⟩, rfl⟩
  | .index container j => by
    simp only [Expr.code, List.forall_mem_append, List.forall_mem_singleton]
    exact ⟨⟨container.pushes_code, j.pushes_code⟩, rfl⟩
  | .slice container start stop => by
    simp only [Expr.code, List.forall_mem_append, List.forall_mem_singleton]
    exact ⟨⟨⟨container.pushes_code, start.pushes_code⟩, stop.pushes_code⟩, rfl⟩

/-- Each instruction of some expressions leaves one value. -/
theorem Expr.pushes_codeAll : ∀ es : List Expr, ∀ i ∈ Expr.codeAll es, i.pushes = 1
  | [] => nofun
  | e :: es => by
    simp only [Expr.codeAll, List.forall_mem_append]
    exact ⟨e.pushes_code, Expr.pushes_codeAll es⟩

end

/-- A last call counts as one value too. -/
theorem Expr.pushes_lastCode (isTail : Bool) (e : Expr) :
    ∀ i ∈ e.lastCode isTail, i.pushes = 1 := by
  cases isTail with
  | false => exact e.pushes_code
  | true =>
    cases e with
    | call name args =>
      simp only [Expr.lastCode, List.forall_mem_append, List.forall_mem_singleton]
      exact ⟨Expr.pushes_codeAll args, rfl⟩
    | _ => exact Expr.pushes_code _

/-- Instructions that leave a value each do nothing else. -/
theorem Cover.passes_values (k : Cover) (his : ∀ i ∈ is, i.pushes = 1) : k.Passes x b is k := by
  induction is with
  | nil => exact .nil
  | cons i is ih =>
    rw [List.forall_mem_cons] at his
    have hafter : k.after i = k := by
      cases i <;> first | rfl | cases his.1
    have hleads : k.Leads x b i k := by
      cases i <;> first | exact Fades.refl k | cases his.1
    have htarget : i.target? = none := by
      cases i <;> first | rfl | cases his.1
    refine .cons (hafter.symm ▸ hleads) htarget ?_
    rw [hafter]
    exact ih his.2

/-- Leaving blocks. -/
theorem Cover.passes_exits (k : Cover) (count : Nat) :
    k.Passes x b (List.replicate count .exitScope) (k.drop count) := by
  induction count generalizing k with
  | zero => exact .nil
  | succ count ih =>
    rw [← List.drop_tail]
    exact .cons (Fades.refl _) rfl (ih k.tail)

/-- The instructions that give a variable its first value. -/
def Tag.initCode (type : Tag) : Option Expr → List Instr
  | some e => e.code
  | none => [type.pushDefault]

/-- The value that a declaration starts with is computed like any other. -/
theorem Tag.pushes_initCode (type : Tag) (init : Option Expr) :
    ∀ i ∈ type.initCode init, i.pushes = 1 := by
  cases init with
  | some e => exact e.pushes_code
  | none =>
    rw [initCode, List.forall_mem_singleton]
    cases type <;> rfl

theorem Stmt.flat?_declare (spot : Spot) (isConst : Bool) (type : Tag) (name : String)
    (init : Option Expr) :
    (Stmt.declare isConst type name init).flat? spot =
      some (type.initCode init ++ [.decl name type]) := by
  cases init <;> rfl

/-! ### Loops -/

/-- The loops around a statement have lines where they begin and end, with the cover outside all
blocks that were opened since. `inner` is the number of blocks inside the innermost loop. -/
structure Spot.Charts (Marks : Nat → Cover → Prop) (x : String) (spot : Spot) (c : Context)
    (inner : Option Nat) : Prop where
  length : spot.blocks.length = c.blocks.length
  inner : ∀ loop ∈ spot.loops,
    ∃ count, inner = some count ∧ 1 ≤ count ∧ count + loop.blocks.length ≤ c.blocks.length
  marks : ∀ loop ∈ spot.loops, ∀ target ∈ [loop.again, loop.done],
    Marks target ((c.cover x).drop (c.blocks.length - loop.blocks.length))

namespace Spot.Charts

variable {spot spot' : Spot} {c c' : Context} {inner : Option Nat}

theorem top : Spot.top.Charts Marks x .start none :=
  ⟨rfl, by simp [Spot.top], by simp [Spot.top]⟩

/-- A block is one more block inside the innermost loop. -/
theorem inBlock (h : spot.Charts Marks x c inner) :
    spot.inBlock.Charts Marks x c.enterBlock (inner.map (· + 1)) := by
  have hlength : c.enterBlock.blocks.length = c.blocks.length + 1 := rfl
  refine ⟨congrArg (· + 1) h.length, fun loop hl ↦ ?_, fun loop hl ↦ ?_⟩
  · obtain ⟨count, rfl, hpos, hle⟩ := h.inner loop hl
    exact ⟨count + 1, rfl, Nat.succ_pos _, by omega⟩
  · obtain ⟨count, -, -, hle⟩ := h.inner loop hl
    rw [hlength, Nat.succ_sub (by omega), c.cover_enterBlock, List.drop_succ_cons]
    exact h.marks loop hl

/-- A loop has lines at both of its ends, with the cover outside of it. -/
theorem inLoop (h : spot.Charts Marks x c inner) {again done : Nat}
    (hagain : Marks again (c.cover x)) (hdone : Marks done (c.cover x)) :
    (spot.inLoop again done).inBlock.Charts Marks x c.enterLoop.enterBlock (some 1) := by
  have hlength : c.enterLoop.enterBlock.blocks.length = c.blocks.length + 1 := rfl
  have hcover : c.enterLoop.enterBlock.cover x = none :: c.cover x :=
    c.enterLoop.cover_enterBlock x
  refine ⟨congrArg (· + 1) h.length, fun loop hl ↦ ⟨1, rfl, Nat.le_refl 1, ?_⟩, fun loop hl ↦ ?_⟩
    <;> rcases List.mem_cons.1 hl with rfl | hl
  · have hspot := h.length
    show 1 + spot.blocks.length ≤ c.blocks.length + 1
    omega
  · obtain ⟨count, -, -, hle⟩ := h.inner loop hl
    omega
  · rw [hlength, ← h.length, Nat.add_sub_cancel_left, hcover, List.drop_succ_cons, List.drop_zero]
    simpa using ⟨hagain, hdone⟩
  · exact h.inBlock.marks loop hl

/-- Further on in the same blocks. -/
theorem advance (h : spot.Charts Marks x c inner) (hc : c.Advances x c')
    (hdrop : ∀ count, inner = some count → 1 ≤ count →
      (c'.cover x).drop count = (c.cover x).drop count)
    (hlength : spot'.blocks.length = spot.blocks.length) (hloops : spot'.loops = spot.loops) :
    spot'.Charts Marks x c' inner := by
  refine ⟨by rw [hlength, h.length, hc.length], ?_, ?_⟩ <;> rw [hloops, hc.length]
  · exact h.inner
  · intro loop hl
    obtain ⟨count, hinner, hpos, hle⟩ := h.inner loop hl
    -- The loop is outside all the blocks of which nothing is known.
    obtain ⟨m, hm⟩ : ∃ m, c.blocks.length - loop.blocks.length = count + m :=
      ⟨c.blocks.length - loop.blocks.length - count, by omega⟩
    have hmarks := h.marks loop hl
    rw [hm, ← List.drop_drop] at hmarks ⊢
    rw [hdrop count hinner hpos]
    exact hmarks

/-- A loop is left through the blocks inside it, to a line with the cover outside of it. -/
theorem sound_leave (h : spot.Charts Marks x c inner) {loop : Loop} {target : Nat}
    (hloop : loop ∈ spot.loops) (htarget : target ∈ [loop.again, loop.done])
    (hmarks : ∀ l ∈ linesOf b offset (c.cover x) (spot.leave loop target),
      Marks l.offset l.cover) :
    Marks offset (c.cover x) ∧
      ∀ l ∈ linesOf b offset (c.cover x) (spot.leave loop target), l.Sound Marks x := by
  refine (Cover.passes_exits _ _).sound_append (List.cons_ne_nil _ _) hmarks fun _ ↦ ?_
  rw [linesOf, linesOf, List.forall_mem_singleton]
  refine ⟨nofun, fun t ht ↦ ?_⟩
  cases ht
  exact ⟨_, h.marks loop hloop target htarget, .of_eq (by rw [h.length])⟩

end Spot.Charts

/-! ### Statements without parts -/

/-- The statement declares a constant. -/
def Stmt.isConst : Stmt → Bool
  | .declare isConst _ _ _ => isConst
  | _ => false

variable {spot : Spot} {c c' : Context} {inner : Option Nat} {start : Nat}

/-- A declaration that a reader accepts puts a binding into the innermost block of the cover. -/
theorem Context.leads_declare {name : String} {type : Tag} {isConst : Bool}
    (h : c.declare name (if isConst then .constant else .mutable) = .ok c') :
    (c.cover x).Leads x isConst (.decl name type) (c'.cover x) := by
  rw [Cover.Leads]
  by_cases hne : name = x
  · subst hne
    obtain ⟨-, b, hcover, hconst⟩ := cover_declare h
    rw [if_pos rfl]
    exact ⟨b, fun hc ↦ hconst (if_pos hc), .of_eq hcover⟩
  · rw [if_neg hne]
    exact .of_eq (cover_declare_of_ne h hne)

/-- A removal that a reader accepts removes no constant that is in sight. -/
theorem Context.leads_unset {name : String} (h : c.assignable name = .ok ()) :
    (c.cover x).Leads x b (.unset name) ((c.forget name).cover x) := by
  rw [Cover.Leads]
  by_cases hne : name = x
  · subst hne
    rw [if_pos rfl]
    exact ⟨first?_cover_ne h, .of_eq (cover_forget h)⟩
  · rw [if_neg hne]
    exact .of_eq (c.cover_forget_of_ne hne)

/-- Of a name that may be assigned to, the first binding is no constant. -/
theorem Context.first?_cover_ne_of_eq {name : String} (h : c.assignable name = .ok ()) :
    name = x → Cover.first? (c.cover x) ≠ some .constant := by
  rintro rfl
  exact first?_cover_ne h

/-- The lines of a statement without parts are right if there is a line behind it. -/
theorem Stmt.sound_linesOf {s : Stmt} (hspot : spot.Charts Marks x c inner)
    (h : s.flat? spot = some is) (hchecked : s.Checked c c')
    (hmarks : ∀ l ∈ linesOf s.isConst start (c.cover x) is, Marks l.offset l.cover)
    (hexit : Marks (start + Instr.size is) (c'.cover x)) :
    Marks start (c.cover x) ∧
      ∀ l ∈ linesOf s.isConst start (c.cover x) is, l.Sound Marks x := by
  -- Values, and one more instruction, which does not jump.
  have hlast (is' : List Instr) {i : Instr} (heq : is = is' ++ [i])
      (his' : ∀ j ∈ is', j.pushes = 1) (ht : i.target? = none)
      (hleads : (c.cover x).Leads x s.isConst i (c'.cover x)) :
      Marks start (c.cover x) ∧
        ∀ l ∈ linesOf s.isConst start (c.cover x) is, l.Sound Marks x := by
    subst heq
    refine (Cover.passes_values _ his').sound_append (List.cons_ne_nil _ _) hmarks fun _ ↦ ?_
    rw [linesOf, linesOf, List.forall_mem_singleton]
    refine ⟨fun _ ↦ ⟨_, ?_, hleads⟩, fun t ht' ↦ ?_⟩
    · rwa [Instr.size_append, Instr.size_cons, Instr.size_nil, Nat.add_zero, ← Nat.add_assoc]
        at hexit
    · rw [ht] at ht'
      cases ht'
  have hnothing (heq : is = []) (hc : c' = c) : Marks start (c.cover x) ∧
      ∀ l ∈ linesOf s.isConst start (c.cover x) is, l.Sound Marks x := by
    subst heq hc
    exact ⟨hexit, by simp [linesOf]⟩
  cases hchecked with
  | declare hc =>
    rw [Stmt.flat?_declare] at h
    exact hlast _ (Option.some.inj h).symm (Tag.pushes_initCode _ _) rfl (Context.leads_declare hc)
  | @assign _ name value hc =>
    cases h
    exact hlast _ rfl value.pushes_code rfl
      ⟨Context.first?_cover_ne_of_eq hc, .of_eq (c.cover_assigned name x)⟩
  | @assignAt _ name i value hc =>
    cases h
    exact hlast _ rfl (List.forall_mem_append.2 ⟨i.pushes_code, value.pushes_code⟩) rfl
      ⟨Context.first?_cover_ne_of_eq hc, .refl _⟩
  | @step _ op name hc =>
    cases h
    exact hlast [.get name, .pushInt 1, .binary op] rfl (by simp [Instr.pushes]) rfl
      ⟨Context.first?_cover_ne_of_eq hc, .refl _⟩
  | @breakLoop _ depth =>
    cases h
    rcases hloop : spot.loop? depth with - | loop
    · rw [hloop] at hnothing
      exact hnothing rfl rfl
    · rw [hloop] at hmarks
      exact hspot.sound_leave (Spot.mem_loops_of_loop? hloop) (by simp) hmarks
  | continueLoop =>
    cases h
    rcases hloop : spot.loop? 1 with - | loop
    · rw [hloop] at hnothing
      exact hnothing rfl rfl
    · rw [hloop] at hmarks
      exact hspot.sound_leave (Spot.mem_loops_of_loop? hloop) (by simp) hmarks
  | @giveBack _ value =>
    cases value with
    | none =>
      cases h
      exact hlast [] rfl nofun rfl (.refl _)
    | some e =>
      cases h
      exact hlast _ rfl (e.pushes_lastCode spot.isTail) rfl (.refl _)
  | exit =>
    cases h
    exact hlast [] rfl nofun rfl (.refl _)
  | unset hc =>
    cases h
    exact hlast [] rfl nofun rfl (Context.leads_unset hc)
  | uses =>
    cases h
    exact hnothing rfl rfl
  | @eval _ e =>
    cases h
    exact hlast _ rfl e.pushes_code rfl (.refl _)
  | ifElse => cases h
  | whileLoop => cases h
  | function => cases h
  | block => cases h

/-! ### Conditions and jumps -/

/-- Entering a block puts an empty one in front of the cover. -/
theorem Context.passes_enterScope (c : Context) :
    (c.cover x).Passes x b [.enterScope] (c.enterBlock.cover x) := by
  rw [c.cover_enterBlock]
  exact .cons (Cover.Fades.refl _) rfl .nil

/-- Leaving a block takes it off the cover. -/
theorem Context.passes_exitScope (c : Context) :
    (c.cover x).Passes x b [.exitScope] (c.exitBlock.cover x) := by
  rw [c.cover_exitBlock]
  exact .cons (Cover.Fades.refl _) rfl .nil

/-- A condition and the jump for the case that it is false. -/
theorem Context.sound_testLines {e : Expr} {next : Nat}
    (hmarks : ∀ l ∈ linesOf b start (c.cover x) (e.code ++ [.jumpIfFalse next, .enterScope]),
      Marks l.offset l.cover)
    (hbody : Marks (start + Instr.size (e.code ++ [.jumpIfFalse next, .enterScope]))
      (c.enterBlock.cover x))
    (hnext : Marks next k) (hfades : (c.cover x).Fades k) :
    Marks start (c.cover x) ∧
      ∀ l ∈ linesOf b start (c.cover x) (e.code ++ [.jumpIfFalse next, .enterScope]),
        l.Sound Marks x := by
  refine (Cover.passes_values _ e.pushes_code).sound_append (List.cons_ne_nil _ _) hmarks
    fun hmarks' ↦ ?_
  rw [linesOf, linesOf, linesOf, List.forall_mem_cons, List.forall_mem_singleton] at hmarks' ⊢
  refine ⟨⟨fun _ ↦ ⟨_, hmarks'.2, .refl _⟩, fun t ht ↦ ?_⟩,
    fun _ ↦ ⟨c.enterBlock.cover x, ?_, ?_⟩, nofun⟩
  · cases ht
    exact ⟨k, hnext, hfades⟩
  · rw [Instr.size_append, Instr.size_cons, Instr.size_cons] at hbody
    simpa [Nat.add_assoc] using hbody
  · exact .of_eq (c.cover_enterBlock x)

/-- The end of a block and the jump behind it. -/
theorem Context.sound_skipLines {target : Nat}
    (hmarks : ∀ l ∈ linesOf b start (c.cover x) [.exitScope, .jump target],
      Marks l.offset l.cover)
    (htarget : Marks target k) (hfades : (c.exitBlock.cover x).Fades k) :
    Marks start (c.cover x) ∧
      ∀ l ∈ linesOf b start (c.cover x) [.exitScope, .jump target], l.Sound Marks x := by
  refine c.passes_exitScope.sound_append (List.cons_ne_nil _ _) hmarks fun _ ↦ ?_
  rw [linesOf, linesOf, List.forall_mem_singleton]
  refine ⟨nofun, fun t ht ↦ ?_⟩
  cases ht
  exact ⟨k, htarget, hfades⟩

/-! ### Charts are right -/

/-- The lines of the code between two offsets are right, if there are lines wherever the code may be
left. -/
def Charted (x : String) (spot : Spot) (inner : Option Nat) (c : Context) (start stop : Nat)
    (c' : Context) (C : List Line) : Prop :=
  ∀ Marks, spot.Charts Marks x c inner → (∀ l ∈ C, Marks l.offset l.cover) →
    Marks stop (c'.cover x) → Marks start (c.cover x) ∧ ∀ l ∈ C, l.Sound Marks x

namespace Charted

variable {c₁ : Context} {e : Expr} {p q next mid stop : Nat} {C C' : List Line}

/-- The cover may fade where the body is left out, and in the alternatives. -/
theorem ifElse (hp : p = start + Instr.size (e.code ++ [.jumpIfFalse next, .enterScope]))
    (hbody : Charted x spot.inBlock (inner.map (· + 1)) c.enterBlock p q c₁ C)
    (hotherwise : Charted x spot inner c₁.exitBlock next stop c' C')
    (hspot : ∀ Marks, spot.Charts Marks x c inner → spot.Charts Marks x c₁.exitBlock inner)
    (hfades : (c.cover x).Fades (c₁.exitBlock.cover x))
    (hfades' : (c₁.exitBlock.cover x).Fades (c'.cover x)) :
    Charted x spot inner c start stop c'
      (linesOf false start (c.cover x) (e.code ++ [.jumpIfFalse next, .enterScope]) ++ C ++
        linesOf false q (c₁.cover x) [.exitScope, .jump stop] ++ C') := by
  intro Marks hcharts hmarks hexit
  simp only [List.forall_mem_append] at hmarks ⊢
  obtain ⟨⟨⟨hmarks₁, hmarks₂⟩, hmarks₃⟩, hmarks₄⟩ := hmarks
  obtain ⟨hnext, hsound₄⟩ := hotherwise Marks (hspot Marks hcharts) hmarks₄ hexit
  obtain ⟨hq, hsound₃⟩ := Context.sound_skipLines hmarks₃ hexit hfades'
  obtain ⟨hp', hsound₂⟩ := hbody Marks hcharts.inBlock hmarks₂ hq
  obtain ⟨hstart, hsound₁⟩ := Context.sound_testLines hmarks₁ (hp ▸ hp') hnext hfades
  exact ⟨hstart, ⟨⟨hsound₁, hsound₂⟩, hsound₃⟩, hsound₄⟩

/-- Each time around, the loop has the cover that it began with. -/
theorem whileLoop (hp : p = start + Instr.size (e.code ++ [.jumpIfFalse stop, .enterScope]))
    (hbody : Charted x (spot.inLoop start stop).inBlock (some 1) c.enterLoop.enterBlock p q c₁ C)
    (hcover : c₁.exitBlock.cover x = c.cover x) :
    Charted x spot inner c start stop c₁.exitBlock.exitLoop
      (linesOf false start (c.cover x) (e.code ++ [.jumpIfFalse stop, .enterScope]) ++ C ++
        linesOf false q (c₁.cover x) [.exitScope, .jump start]) := by
  intro Marks hcharts hmarks hexit
  simp only [List.forall_mem_append] at hmarks ⊢
  obtain ⟨⟨hmarks₁, hmarks₂⟩, hmarks₃⟩ := hmarks
  -- The loop is left with the cover that it began with, by its condition and by a `break`.
  replace hexit : Marks stop (c.cover x) := hcover ▸ hexit
  have hagain : Marks start (c.cover x) := marks_of_linesOf hmarks₁ (by simp)
  obtain ⟨hq, hsound₃⟩ := Context.sound_skipLines hmarks₃ hagain (.of_eq hcover.symm)
  obtain ⟨hp', hsound₂⟩ := hbody Marks (hcharts.inLoop hagain hexit) hmarks₂ hq
  obtain ⟨hstart, hsound₁⟩ := Context.sound_testLines hmarks₁ (hp ▸ hp') hexit (.refl _)
  exact ⟨hstart, ⟨hsound₁, hsound₂⟩, hsound₃⟩

/-- A block around charted statements is charted. -/
theorem block
    (hbody : Charted x spot.inBlock (inner.map (· + 1)) c.enterBlock
      (start + Instr.size [.enterScope]) q c₁ C) :
    Charted x spot inner c start (q + Instr.size [.exitScope]) c₁.exitBlock
      (linesOf false start (c.cover x) [.enterScope] ++ C ++
        linesOf false q (c₁.cover x) [.exitScope]) := by
  intro Marks hcharts hmarks hexit
  simp only [List.forall_mem_append] at hmarks ⊢
  obtain ⟨⟨hmarks₁, hmarks₂⟩, hmarks₃⟩ := hmarks
  have hq : Marks q (c₁.cover x) := marks_of_linesOf hmarks₃ (List.cons_ne_nil _ _)
  obtain ⟨hp', hsound₂⟩ := hbody Marks hcharts.inBlock hmarks₂ hq
  exact ⟨marks_of_linesOf hmarks₁ (List.cons_ne_nil _ _),
    ⟨c.passes_enterScope.sound hmarks₁ hp', hsound₂⟩, c₁.passes_exitScope.sound hmarks₃ hexit⟩

/-- Charts of stretches one after the other are put together. -/
theorem append {spot' : Spot} (h : Charted x spot inner c start mid c₁ C)
    (h' : Charted x spot' inner c₁ mid stop c' C')
    (hspot : ∀ Marks, spot.Charts Marks x c inner → spot'.Charts Marks x c₁ inner) :
    Charted x spot inner c start stop c' (C ++ C') := by
  intro Marks hcharts hmarks hexit
  rw [List.forall_mem_append] at hmarks ⊢
  obtain ⟨hmid, hsound'⟩ := h' Marks (hspot Marks hcharts) hmarks.2 hexit
  obtain ⟨hstart, hsound⟩ := h Marks hcharts hmarks.1 hmid
  exact ⟨hstart, hsound, hsound'⟩

end Charted

/-! ### From listings to charts -/

/-- The lines of a chart are those of a listing, and the declarations of the name as a constant are
among them. -/
structure Plots (x : String) (C : List Line) (L : Listing) (os : List Occurrence) : Prop where
  lines : C.map (fun l ↦ (l.offset, l.instr)) = L.entries.map fun e ↦ (e.offset, e.instr)
  constants : ∀ o ∈ os, ∀ type init, o.stmt = .declare true type x init →
    ∃ l ∈ C, l.offset = o.offset + Instr.size (type.initCode init) ∧ l.instr = .decl x type ∧
      l.isConst = true

namespace Plots

variable {C C' : List Line} {L L' : Listing} {os os' : List Occurrence}

/-- What is plotted one after the other is plotted together. -/
theorem append (h : Plots x C L os) (h' : Plots x C' L' os') :
    Plots x (C ++ C') (L ++ L') (os ++ os') := by
  refine ⟨?_, fun o ho type init hstmt ↦ ?_⟩
  · rw [List.map_append, h.lines, h'.lines, Listing.entries_append, List.map_append]
  · rcases List.mem_append.1 ho with ho | ho
    · obtain ⟨l, hl, hat⟩ := h.constants o ho type init hstmt
      exact ⟨l, List.mem_append_left _ hl, hat⟩
    · obtain ⟨l, hl, hat⟩ := h'.constants o ho type init hstmt
      exact ⟨l, List.mem_append_right _ hl, hat⟩

/-- Lines without an occurrence may follow. -/
theorem append_of_nil (h : Plots x C L os) (h' : Plots x C' L' []) :
    Plots x (C ++ C') (L ++ L') os :=
  List.append_nil os ▸ h.append h'

/-- Lines of no statement without parts. -/
theorem line (spot : Spot) (offset : Nat) (k : Cover) (is : List Instr) :
    Plots x (linesOf b offset k is) (spot.line offset is) [] :=
  ⟨map_linesOf b offset k spot.point is, nofun⟩

/-- A statement without parts is one occurrence, and its lines are those of its instructions. -/
theorem flat {s : Stmt} {owner : Option Head} {depth : Nat} (h : s.flat? spot = some is)
    (start : Nat) (k : Cover) :
    Plots x (linesOf s.isConst start k is) (spot.line start is) [⟨s, owner, depth, start⟩] := by
  refine ⟨map_linesOf _ start k spot.point is, fun o ho type init hstmt ↦ ?_⟩
  obtain rfl := List.mem_singleton.1 ho
  replace hstmt : s = .declare true type x init := hstmt
  subst hstmt
  rw [Stmt.flat?_declare] at h
  have hvalues := Cover.passes_values (x := x) (b := true) k (type.pushes_initCode init)
  rw [← Option.some.inj h, Stmt.isConst, hvalues.linesOf_append]
  exact ⟨_, List.mem_append_right _ (List.mem_cons_self ..), rfl, rfl, rfl⟩

end Plots

/-- The spot behind a statement that passes its checks. -/
theorem Stmt.Checked.charts_after {s : Stmt} {loops : Nat} {place : Place} (hc : s.Checked c c')
    (hvalid : s.valid loops place = true) (hspare : Unset.Spare (s.unsets c inner) x)
    (h : spot.Charts Marks x c inner) : (spot.after s).Charts Marks x c' inner := by
  obtain ⟨hlength, -⟩ : (spot.after s).blocks.length = spot.blocks.length ∧ _ :=
    (spot.tail_blocks_afterAll [s]).2
  have hloops : (spot.after s).loops = spot.loops := by
    cases s with
    | _ => rfl
  refine h.advance (hc.advances x hvalid).1 (fun count hinner hpos ↦ ?_) hlength hloops
  subst hinner
  exact hc.drop_cover hpos hspare

mutual

/-- The code of a statement without functions has a chart of a constant, if none of its removals
uncovers that one. -/
theorem Stmt.Listed.exists_chart {spot spot' : Spot} {inner : Option Nat} {c c' : Context}
    {s : Stmt} {start stop loops : Nat} {place : Place} {L : Listing} (hspot : spot.Alike spot')
    (hc : s.Checked c c') (hfunctions : s.functions = []) (hvalid : s.valid loops place = true)
    (hspare : Unset.Spare (s.unsets c inner) x) :
    s.Listed spot start stop L → ∃ C, Plots x C L (s.occurrences spot' start) ∧
      Charted x spot inner c start stop c' C
  | .flat h => by
    rw [Stmt.occurrences_of_flat? hspot h]
    exact ⟨_, .flat h start (c.cover x), fun Marks hcharts ↦ Stmt.sound_linesOf hcharts h hc⟩
  | @Stmt.Listed.ifElse _ e body otherwise _ p q next _ _ _ hp hbody hnext hotherwise => by
    cases hc with
    | @ifElse _ c₁ _ _ _ _ hcbody hc =>
      rw [Stmt.functions, List.append_eq_nil_iff] at hfunctions
      rw [Stmt.valid, Bool.and_eq_true, Bool.and_eq_true] at hvalid
      rw [Stmt.unsets, Unset.spare_append, hcbody.behindAll_eq] at hspare
      have hq := hbody.stop_eq hspot.inBlock
      obtain ⟨C, hplots, hcharted⟩ :=
        hbody.exists_chart hspot.inBlock hcbody hfunctions.1 hvalid.1.1 hspare.1
      obtain ⟨C', hplots', hcharted'⟩ :=
        hotherwise.exists_chart hspot hc hfunctions.2 hvalid.1.2 hspare.2
      have hfades := (hcbody.advances x hvalid.1.1).1.fades_exitBlock
      have hfades' := (hc.advances x hvalid.1.2).2 hvalid.2
      refine ⟨_, ?_, hcharted.ifElse hp hcharted' (fun Marks hcharts ↦ ?_) hfades hfades'⟩
      · rw [e.size_test next 0] at hp
        rw [Instr.size_skip stop 0, hq, hp] at hnext
        rw [hnext] at hplots'
        rw [hp] at hplots
        rw [Stmt.occurrences]
        exact (((Plots.line ..).append hplots).append_of_nil (.line ..)).append hplots'
      · refine hcharts.advance (.of_fades hfades) (fun count hinner hpos ↦ ?_) rfl rfl
        subst hinner
        exact Context.drop_cover_exitBlock
          (hcbody.drop_cover (Nat.le_add_left 1 count) hspare.1)
  | @Stmt.Listed.whileLoop _ e body _ p q _ _ hp hbody hstop => by
    cases hc with
    | @whileLoop _ c₁ _ _ hcbody =>
      obtain ⟨C, hplots, hcharted⟩ := hbody.exists_chart (hspot.inLoop start stop 0 0).inBlock
        hcbody hfunctions hvalid hspare
      -- The loop begins again as it began, since no `del` in it uncovers anything outside.
      have hback := hcbody.drop_cover (Nat.le_refl 1) hspare
      have hcover : c₁.exitBlock.cover x = c.cover x := Context.drop_cover_exitBlock hback
      refine ⟨_, ?_, hcharted.whileLoop hp hcover⟩
      rw [e.size_test stop 0] at hp
      rw [hp] at hplots
      rw [Stmt.occurrences]
      exact ((Plots.line ..).append hplots).append_of_nil (.line ..)
  | .function _ _ _ => by cases hfunctions
  | .block hbody => by
    cases hc with
    | block hcbody =>
      obtain ⟨C, hplots, hcharted⟩ :=
        hbody.exists_chart hspot.inBlock hcbody hfunctions hvalid hspare
      refine ⟨_, ?_, hcharted.block⟩
      rw [Stmt.occurrences]
      exact ((Plots.line ..).append hplots).append_of_nil (.line ..)

/-- **Listed statements have a chart that is right**, if they define no functions and no `del` in a
loop uncovers a constant. -/
theorem Stmt.ListedAll.exists_chart {spot spot' : Spot} {inner : Option Nat} {c c' : Context}
    {ss : List Stmt} {start stop loops : Nat} {place : Place} {L : Listing}
    (hspot : spot.Alike spot') (hc : Stmt.CheckedAll c ss c')
    (hfunctions : Stmt.functionsAll ss = []) (hvalid : Stmt.validAll loops place ss = true)
    (hspare : Unset.Spare (Stmt.unsetsAll c inner ss) x) :
    Stmt.ListedAll spot ss start stop L → ∃ C, Plots x C L (Stmt.occurrencesAll spot' start ss) ∧
      Charted x spot inner c start stop c' C
  | .nil => by
    cases hc
    exact ⟨[], ⟨rfl, nofun⟩, fun Marks _ _ hexit ↦ ⟨hexit, nofun⟩⟩
  | @Stmt.ListedAll.cons _ s ss _ mid _ _ _ h hs => by
    cases hc with
    | cons hc hcs =>
      rw [Stmt.functionsAll, List.append_eq_nil_iff] at hfunctions
      rw [Stmt.validAll, Bool.and_eq_true] at hvalid
      rw [Stmt.unsetsAll, Unset.spare_append, hc.behind_eq] at hspare
      obtain ⟨C, hplots, hcharted⟩ :=
        h.exists_chart hspot hc hfunctions.1 hvalid.1 hspare.1
      obtain ⟨C', hplots', hcharted'⟩ :=
        hs.exists_chart (hspot.after s) hcs hfunctions.2 hvalid.2 hspare.2
      rw [h.stop_eq hspot] at hplots'
      exact ⟨_, hplots.append hplots', hcharted.append hcharted' fun Marks ↦
        hc.charts_after hvalid.1 hspare.1⟩

end

end Scriptlet
