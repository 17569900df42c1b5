import Scriptlet.Proofs.Code.LastCalls
import Scriptlet.Proofs.Tree.ReadStmt

/-!
# How code ends

Two decisions depend on how the code before them ends. A `return` makes a last call of the call that
its value ends with, and a function gives back nothing where its body does not end with a `return`.
Both are made from the tree: an expression **is** a call, and a body has a `return` behind which no
statement has code (`bodyReturns`).

They can also be made from offsets alone, without a look at the tree, if two are noted while code is
written: where the last call stands and ends, and where the last `return` ends. A call is rewritten
if it ends where the code ends, and a `return` is left out if the last one ends there. The two ways
write the same code (`Program.noted_draft`), since every operator stands behind its operands and
every block ends with an instruction of its own.
-/

namespace Scriptlet

/-! ### The last call -/

/-- Where a call stands, and where it ends. -/
structure CallNote where
  start : Nat
  stop : Nat

mutual

/-- The last call of the code that an expression adds to a buffer, or the one noted before. -/
def Expr.noteCall : Expr → Buffer → Option CallNote → Option CallNote
  | .int _, _, last | .float _, _, last | .str _, _, last | .bool _, _, last | .null, _, last
  | .var _, _, last => last
  | .call name args, b, _ =>
    let b := emitAll args b
    some ⟨b.size, (b.emit (.call name args.length)).size⟩
  | .list items, b, last => noteCallAll items b last
  | .unary _ e, b, last => e.noteCall b last
  | .binary _ left right, b, last => right.noteCall (left.emit b) (left.noteCall b last)
  | .index container i, b, last => i.noteCall (container.emit b) (container.noteCall b last)
  | .slice container start stop, b, last =>
    stop.noteCall (start.emit (container.emit b))
      (start.noteCall (container.emit b) (container.noteCall b last))

/-- The last call of the code that some expressions add, or the one noted before. -/
def Expr.noteCallAll : List Expr → Buffer → Option CallNote → Option CallNote
  | [], _, last => last
  | e :: es, b, last => noteCallAll es (e.emit b) (e.noteCall b last)

end

/-- An expression is a call. -/
def Expr.isCall : Expr → Bool
  | .call _ _ => true
  | _ => false

/-! ### Code with notes -/

/-- Makes the call at an offset a last call. -/
def Draft.rewriteCall (d : Draft) (offset : Nat) : Draft :=
  { d with buffer := d.buffer.replaceOp offset .tailCall }

/-- Code so far, with the last call and the end of the last `return` in it. -/
structure NotedDraft where
  draft : Draft
  lastCall : Option CallNote
  lastReturn : Option Nat

namespace NotedDraft

/-- Nothing is noted before there is code. -/
def new : NotedDraft :=
  ⟨.new, none, none⟩

/-- The offset of the next byte. -/
def size (n : NotedDraft) : Nat :=
  n.draft.buffer.size

/-- Code without a call or a `return` is added. -/
def on (f : Draft → Draft) (n : NotedDraft) : NotedDraft :=
  { n with draft := f n.draft }

/-- Adds an instruction. -/
def emit (n : NotedDraft) (i : Instr) : NotedDraft :=
  n.on (·.emit i)

/-- Adds the code of an expression. -/
def expr (n : NotedDraft) (e : Expr) : NotedDraft :=
  { n with draft := n.draft.expr e, lastCall := e.noteCall n.draft.buffer n.lastCall }

/-- Adds the code of an expression whose value is given back. A call that ends it **becomes** a last
call, in a body whose last calls take its place. -/
def lastExpr (n : NotedDraft) (isTail : Bool) (e : Expr) : NotedDraft :=
  let n' := n.expr e
  match n'.lastCall with
  | none => n'
  | some call =>
    if isTail ∧ n.size ≤ call.start ∧ call.stop = n'.size then
      n'.on (·.rewriteCall call.start)
    else n'

/-- Notes that a `return` ends here. -/
def noteReturn (n : NotedDraft) : NotedDraft :=
  { n with lastReturn := some n.size }

/-- Makes a label. -/
def newLabel (n : NotedDraft) : Label × NotedDraft :=
  (n.draft.newLabel.1, n.on fun d ↦ d.newLabel.2)

/-- Binds a label to the end of the code. -/
def bind (n : NotedDraft) (l : Label) : NotedDraft :=
  n.on (·.bind l)

/-- Adds a jump to a label. -/
def jump (n : NotedDraft) (op : Opcode) (l : Label) : NotedDraft :=
  n.on (·.jump op l)

end NotedDraft

mutual

/-- Adds the code of a statement. A function gives back nothing at its end unless the last `return`
ends there. -/
def Stmt.emitNoted (l : Layout) : Stmt → NotedDraft → NotedDraft
  | .declare _ type name init, n =>
    let n := match init with
      | some e => n.expr e
      | none => n.emit type.pushDefault
    n.emit (.decl name type)
  | .assign name value, n => (n.expr value).emit (.set name)
  | .assignAt name i value, n => ((n.expr i).expr value).emit (.setIndex name)
  | .step op name, n =>
    (((n.emit (.get name)).emit (.pushInt 1)).emit (.binary op)).emit (.set name)
  | .ifElse condition body otherwise, n =>
    let (done, n) := n.newLabel
    let n := n.expr condition
    let (next, n) := n.newLabel
    let n := n.jump .jumpIfFalse next
    let n := (emitAllNoted l.inBlock body (n.emit .enterScope)).emit .exitScope
    let n := (n.jump .jump done).bind next
    (emitAllNoted l otherwise n).bind done
  | .whileLoop condition body, n =>
    let (again, n) := n.newLabel
    let n := (n.bind again).expr condition
    let (done, n) := n.newLabel
    let n := n.jump .jumpIfFalse done
    let inside := (l.inLoop again done).inBlock
    let n := (emitAllNoted inside body (n.emit .enterScope)).emit .exitScope
    (n.jump .jump again).bind done
  | .breakLoop depth, n =>
    match l.loop? depth with
    | some loop => (n.on (·.exitScopes (l.depth - loop.depth))).jump .jump loop.breakAt
    | none => n
  | .continueLoop, n =>
    match l.loop? 1 with
    | some loop => (n.on (·.exitScopes (l.depth - loop.depth))).jump .jump loop.continueAt
    | none => n
  | .function head body, n =>
    let (behind, n) := n.newLabel
    let n := (n.jump .jump behind).on (·.define head)
    let n := emitAllNoted (.body head.isTail) body n
    let n := if n.lastReturn = some n.size then n else n.on (·.giveBackNothing head.returns)
    { n.bind behind with lastReturn := none }
  | .giveBack none, n => (n.emit .retVoid).noteReturn
  | .giveBack (some e), n => ((n.lastExpr l.isTail e).emit .ret).noteReturn
  | .exit, n => n.emit .halt
  | .unset name, n => n.emit (.unset name)
  | .uses _, n => n
  | .block body, n => (emitAllNoted l.inBlock body (n.emit .enterScope)).emit .exitScope
  | .eval e, n => (n.expr e).emit .pop

/-- Adds the code of some statements, in order. -/
def Stmt.emitAllNoted (l : Layout) : List Stmt → NotedDraft → NotedDraft
  | [], n => n
  | s :: ss, n => emitAllNoted l ss (s.emitNoted l n)

end

/-! ### A call ends the code of an expression -/

/-- A call that was noted ends where the buffer ends, or before. -/
def CallNote.Within (b : Buffer) (last : Option CallNote) : Prop :=
  ∀ call ∈ last, call.stop ≤ b.size

theorem Buffer.size_lt_emit (b : Buffer) (i : Instr) : b.size < (b.emit i).size := by
  rw [emit, size_append, Instr.encode, List.length_cons]
  omega

/-- An instruction ends behind the calls noted before it. -/
theorem CallNote.Within.lt_emit {b : Buffer} {last : Option CallNote} (h : Within b last)
    (i : Instr) {P : Prop} :
    ∀ call ∈ last, call.stop < (b.emit i).size ∨ P ∧ call.stop = (b.emit i).size :=
  fun call hcall ↦ .inl (Nat.lt_of_le_of_lt (h call hcall) (b.size_lt_emit i))

theorem CallNote.within_of_lt_or {b : Buffer} {last : Option CallNote} {P : Prop}
    (h : ∀ call ∈ last, call.stop < b.size ∨ P ∧ call.stop = b.size) : Within b last :=
  fun call hcall ↦ (h call hcall).elim Nat.le_of_lt fun hend ↦ Nat.le_of_eq hend.2

mutual

/-- **Only a call ends with a call**: what is done with operands stands behind them. -/
theorem Expr.stop_noteCall {b : Buffer} {last : Option CallNote} (h : CallNote.Within b last) :
    ∀ e : Expr, ∀ call ∈ e.noteCall b last,
      call.stop < (e.emit b).size ∨ e.isCall = true ∧ call.stop = (e.emit b).size
  | .int _ | .float _ | .str _ | .bool _ | .null | .var _ => h.lt_emit _
  | .call _ _ => fun call hcall ↦ by
    cases hcall
    exact .inr ⟨rfl, rfl⟩
  | .list items => (Expr.within_noteCallAll h items).lt_emit _
  | .unary _ e => (CallNote.within_of_lt_or (e.stop_noteCall h)).lt_emit _
  | .binary _ left right =>
    have hleft := CallNote.within_of_lt_or (left.stop_noteCall h)
    (CallNote.within_of_lt_or (right.stop_noteCall hleft)).lt_emit _
  | .index container i =>
    have hcontainer := CallNote.within_of_lt_or (container.stop_noteCall h)
    (CallNote.within_of_lt_or (i.stop_noteCall hcontainer)).lt_emit _
  | .slice container start stop =>
    have hcontainer := CallNote.within_of_lt_or (container.stop_noteCall h)
    have hstart := CallNote.within_of_lt_or (start.stop_noteCall hcontainer)
    (CallNote.within_of_lt_or (stop.stop_noteCall hstart)).lt_emit _

/-- Some expressions note no call behind their end. -/
theorem Expr.within_noteCallAll {b : Buffer} {last : Option CallNote}
    (h : CallNote.Within b last) : ∀ es : List Expr,
    CallNote.Within (Expr.emitAll es b) (Expr.noteCallAll es b last)
  | [] => h
  | e :: es => Expr.within_noteCallAll (CallNote.within_of_lt_or (e.stop_noteCall h)) es

end

/-- A call and a last call differ in their first byte. -/
theorem Buffer.replaceOp_emit_call (b : Buffer) (name : String) (count : Nat) :
    (b.emit (.call name count)).replaceOp b.size .tailCall = b.emit (.tailCall name count) := by
  have hset : (b.bytes ++ (Instr.call name count).encode).setIfInBounds b.size
      Opcode.tailCall.byte = b.bytes ++ (Instr.tailCall name count).encode := by
    apply Array.toList_inj.1
    rw [Array.toList_setIfInBounds, Array.toList_appendList, Array.toList_appendList, size,
      ← Array.length_toList, List.set_append_right _ _ (Nat.le_refl _), Nat.sub_self]
    rfl
  rw [replaceOp, emit, append, hset]
  rfl

/-- A call that is rewritten is a last call from the start. -/
theorem Draft.rewriteCall_expr (d : Draft) (name : String) (args : List Expr) :
    (d.expr (.call name args)).rewriteCall (Expr.emitAll args d.buffer).size =
      d.lastExpr true (.call name args) :=
  congrArg (Draft.mk · d.functions) (Buffer.replaceOp_emit_call _ name args.length)

/-! ### The two ways to write code -/

/-- Code with notes is this draft, nothing in its notes lies behind its end, and whether it ends
with a `return` can be told from them. -/
structure NotedDraft.Follows (n : NotedDraft) (d : Draft) (ends : Bool) : Prop where
  draft_eq : n.draft = d
  call : CallNote.Within d.buffer n.lastCall
  ret_le : ∀ stop ∈ n.lastReturn, stop ≤ d.buffer.size
  ret_eq : n.lastReturn = some d.buffer.size ↔ ends = true

namespace NotedDraft.Follows

variable {n : NotedDraft} {d : Draft} {ends : Bool}

/-- Nothing is noted in a new draft, which is right. -/
theorem new : NotedDraft.new.Follows .new false := by
  refine ⟨rfl, fun call h ↦ ?_, fun stop h ↦ ?_, iff_of_false ?_ Bool.false_ne_true⟩
  · cases h
  · cases h
  · exact Option.some_ne_none _ ∘ Eq.symm

/-- What has no code changes nothing. -/
theorem keep (h : n.Follows d ends) {f : Draft → Draft}
    (hf : (f d).buffer.size = d.buffer.size) : (n.on f).Follows (f d) ends := by
  obtain ⟨rfl, hcall, hle, hends⟩ := h
  refine ⟨rfl, ?_, ?_, ?_⟩
  · rwa [CallNote.Within, hf]
  · rwa [hf]
  · rwa [hf]

/-- What has code ends behind the last `return`. -/
theorem grow (h : n.Follows d ends) {f : Draft → Draft}
    (hf : d.buffer.size < (f d).buffer.size) : (n.on f).Follows (f d) false := by
  obtain ⟨rfl, hcall, hle, -⟩ := h
  refine ⟨rfl, fun call hmem ↦ ?_, fun stop hmem ↦ ?_, ?_⟩
  · exact Nat.le_trans (hcall call hmem) (Nat.le_of_lt hf)
  · exact Nat.le_trans (hle stop hmem) (Nat.le_of_lt hf)
  -- What ended the code before ends before its new end.
  · refine iff_of_false (fun hends ↦ ?_) Bool.false_ne_true
    exact Nat.not_le_of_lt hf (hle _ hends)

theorem emit (h : n.Follows d ends) (i : Instr) : (n.emit i).Follows (d.emit i) false :=
  h.grow (d.buffer.size_lt_emit i)

/-- A jump has code, whatever its label. -/
theorem jump (h : n.Follows d ends) (op : Opcode) (l : Label) :
    (n.jump op l).Follows (d.jump op l) false :=
  h.grow (by rw [Draft.size_jump]; exact Nat.lt_add_of_pos_right (by decide))

theorem bind (h : n.Follows d ends) (l : Label) : (n.bind l).Follows (d.bind l) ends :=
  h.keep (d.size_bind l)

theorem define (h : n.Follows d ends) (head : Head) :
    (n.on (·.define head)).Follows (d.define head) ends :=
  h.keep (d.size_define head)

/-- Both make the same label. -/
theorem exists_newLabel (h : n.Follows d ends) :
    ∃ l n' d', n.newLabel = (l, n') ∧ d.newLabel = (l, d') ∧ n'.Follows d' ends := by
  have hkeep := h.keep (f := fun d ↦ d.newLabel.2) (Draft.size_of_newLabel rfl)
  obtain ⟨rfl, -, -, -⟩ := h
  exact ⟨_, _, _, rfl, rfl, hkeep⟩

/-- Leaving blocks may have no code, but the jump behind it has. -/
theorem exitScopes_jump (h : n.Follows d ends) (count : Nat) (l : Label) :
    ((n.on (·.exitScopes count)).jump .jump l).Follows ((d.exitScopes count).jump .jump l) false :=
  h.grow (f := fun d ↦ (d.exitScopes count).jump .jump l) (by
    rw [Draft.size_jump, Draft.size_exitScopes, Nat.add_assoc]
    exact Nat.lt_add_of_pos_right (Nat.add_pos_right _ (by decide)))

/-- What is added at the end of a function has code. -/
theorem giveBackNothing (h : n.Follows d ends) (returns : Returns) :
    (n.on (·.giveBackNothing returns)).Follows (d.giveBackNothing returns) false := by
  cases returns with
  | void => exact h.emit _
  | any | typed => exact (h.emit _).emit _

/-- The code of an expression is added, and its last call is noted. -/
theorem expr (h : n.Follows d ends) (e : Expr) : (n.expr e).Follows (d.expr e) false := by
  have hgrow := h.grow (f := (·.expr e)) (by
    rw [Draft.size_expr]
    exact Nat.lt_add_of_pos_right (Instr.size_pos (by cases e <;> simp [Expr.code])))
  obtain ⟨rfl, hcall, -, -⟩ := h
  exact ⟨rfl, CallNote.within_of_lt_or (e.stop_noteCall hcall), hgrow.ret_le, hgrow.ret_eq⟩

/-- A `return` that ends here is noted. -/
theorem noteReturn (h : n.Follows d ends) : n.noteReturn.Follows d true := by
  obtain ⟨rfl, hcall, -, -⟩ := h
  refine ⟨rfl, hcall, fun stop hstop ↦ ?_, iff_of_true rfl rfl⟩
  cases hstop
  exact Nat.le_refl _

/-- Behind a function no `return` is noted. -/
theorem forget (h : n.Follows d ends) : Follows { n with lastReturn := none } d false := by
  refine ⟨h.draft_eq, h.call, fun stop hstop ↦ ?_, iff_of_false ?_ Bool.false_ne_true⟩
  · cases hstop
  · exact Option.some_ne_none _ ∘ Eq.symm

/-- **The end of a function is told from its offset**: it is added where no `return` ends. -/
theorem closing (h : n.Follows d ends) (returns : Returns) :
    (if n.lastReturn = some n.size then n else n.on (·.giveBackNothing returns)).Follows
      (if ends then d else d.giveBackNothing returns) ends := by
  have hends : n.lastReturn = some n.size ↔ ends = true := by
    rw [size, h.draft_eq]
    exact h.ret_eq
  cases ends with
  | true =>
    rw [if_pos (hends.2 rfl)]
    exact h
  | false =>
    rw [if_neg (mt hends.1 Bool.false_ne_true)]
    exact h.giveBackNothing returns

/-- **The last call of a value is told from its offset**: it ends the code if and only if the value
is that call. -/
theorem lastExpr (h : n.Follows d ends) (isTail : Bool) (e : Expr) :
    (n.lastExpr isTail e).Follows (d.lastExpr isTail e) false := by
  have hexpr := h.expr e
  obtain ⟨rfl, hcall, -, -⟩ := h
  -- Behind a value that is no call, the call noted last is over.
  have hother (he : e.isCall = false) : n.lastExpr isTail e = n.expr e := by
    rw [NotedDraft.lastExpr]
    split
    · rfl
    · rename_i call hlast
      refine if_neg fun hif ↦ ?_
      obtain hlt | ⟨htrue, -⟩ := e.stop_noteCall hcall call hlast
      · exact Nat.ne_of_lt hlt hif.2.2
      · exact Bool.false_ne_true (he.symm.trans htrue)
  cases e with
  | call name args =>
    -- The value is the call that was noted last, and it stands behind its arguments.
    have hstart : n.size ≤ (Expr.emitAll args n.draft.buffer).size := by
      rw [Expr.emitAll_eq_append, Buffer.size_append]
      exact Nat.le_add_right _ _
    cases isTail with
    | false => exact hexpr
    | true =>
      have hlast : n.lastExpr true (.call name args) = _ := if_pos ⟨rfl, hstart, rfl⟩
      rw [hlast, ← Draft.rewriteCall_expr]
      exact hexpr.keep Array.size_setIfInBounds
  | _ =>
    rw [hother rfl]
    cases isTail <;> exact hexpr

end NotedDraft.Follows

/-! ### Statements -/

/-- The loop that a `break` leaves is there. -/
theorem Layout.exists_loop? {l : Layout} {depth : Nat} (hpos : 1 ≤ depth)
    (h : depth ≤ l.loops.length) : ∃ loop, l.loop? depth = some loop := by
  obtain ⟨depth, rfl⟩ := Nat.exists_eq_add_of_le' hpos
  exact ⟨_, List.getElem?_eq_getElem h⟩

/-- The alternative of a condition has no `return` outside a block. -/
theorem Stmt.foldl_endsInReturn_of_isAlternative {ss : List Stmt}
    (h : ss.all isAlternative = true) : ss.foldl endsInReturn false = false := by
  induction ss with
  | nil => rfl
  | cons s ss ih =>
    rw [List.all_cons, Bool.and_eq_true] at h
    have hs : s.endsInReturn false = false := by
      cases s <;> first | rfl | exact absurd h.1 Bool.false_ne_true
    rw [List.foldl_cons, hs, ih h.2]

mutual

/-- **One statement**: the code is the same, and the notes tell whether it ends with a `return`. -/
theorem Stmt.follows_emitNoted {loops : Nat} {place : Place} (l : Layout)
    (hloops : l.loops.length = loops) : ∀ (s : Stmt), s.valid loops place = true →
    ∀ {n : NotedDraft} {d : Draft} {ends : Bool}, n.Follows d ends →
      (s.emitNoted l n).Follows (s.emit l d) (s.endsInReturn ends)
  | .declare _ _ _ (some _), _, _, _, _, h => (h.expr _).emit _
  | .declare _ _ _ none, _, _, _, _, h => (h.emit _).emit _
  | .assign _ _, _, _, _, _, h => (h.expr _).emit _
  | .assignAt _ _ _, _, _, _, _, h => ((h.expr _).expr _).emit _
  | .step _ _, _, _, _, _, h => (((h.emit _).emit _).emit _).emit _
  | .ifElse c body otherwise, hvalid, _, _, _, h => by
    rw [Stmt.valid, Bool.and_eq_true, Bool.and_eq_true] at hvalid
    obtain ⟨⟨hbody, hotherwise⟩, halternative⟩ := hvalid
    obtain ⟨done, n₁, d₁, hn₁, hd₁, h₁⟩ := h.exists_newLabel
    obtain ⟨next, n₂, d₂, hn₂, hd₂, h₂⟩ := (h₁.expr c).exists_newLabel
    rw [Stmt.emitNoted, Stmt.emit]
    simp only [hn₁, hd₁, hn₂, hd₂]
    have hthen := Stmt.follows_emitAllNoted l.inBlock hloops body hbody
      ((h₂.jump .jumpIfFalse next).emit .enterScope)
    have helse := Stmt.follows_emitAllNoted l hloops otherwise hotherwise
      (((hthen.emit .exitScope).jump .jump done).bind next)
    rw [Stmt.foldl_endsInReturn_of_isAlternative halternative] at helse
    exact helse.bind done
  | .whileLoop c body, hvalid, _, _, _, h => by
    obtain ⟨again, n₁, d₁, hn₁, hd₁, h₁⟩ := h.exists_newLabel
    obtain ⟨done, n₂, d₂, hn₂, hd₂, h₂⟩ := ((h₁.bind again).expr c).exists_newLabel
    rw [Stmt.emitNoted, Stmt.emit]
    simp only [hn₁, hd₁, hn₂, hd₂]
    have hbody := Stmt.follows_emitAllNoted (l.inLoop again done).inBlock
      (congrArg (· + 1) hloops) body hvalid ((h₂.jump .jumpIfFalse done).emit .enterScope)
    exact ((hbody.emit .exitScope).jump .jump again).bind done
  | .breakLoop depth, hvalid, _, _, _, h => by
    rw [Stmt.valid, Bool.and_eq_true, decide_eq_true_eq, decide_eq_true_eq, ← hloops] at hvalid
    obtain ⟨loop, hloop⟩ := Layout.exists_loop? hvalid.1 hvalid.2
    rw [Stmt.emitNoted, Stmt.emit, hloop]
    exact h.exitScopes_jump _ _
  | .continueLoop, hvalid, _, _, _, h => by
    rw [Stmt.valid, decide_eq_true_eq, ← hloops] at hvalid
    obtain ⟨loop, hloop⟩ := Layout.exists_loop? (Nat.le_refl 1) hvalid
    rw [Stmt.emitNoted, Stmt.emit, hloop]
    exact h.exitScopes_jump _ _
  | .function head body, hvalid, _, _, _, h => by
    rw [Stmt.valid, Bool.and_eq_true] at hvalid
    obtain ⟨behind, n₁, d₁, hn₁, hd₁, h₁⟩ := h.exists_newLabel
    rw [Stmt.emitNoted, Stmt.emit]
    simp only [hn₁, hd₁]
    -- A function is jumped over, so no `return` ends where its body starts.
    have hbody := Stmt.follows_emitAllNoted (.body head.isTail) rfl body hvalid.1
      ((h₁.jump .jump behind).define head)
    exact ((hbody.closing head.returns).bind behind).forget
  | .giveBack none, _, _, _, _, h => (h.emit _).noteReturn
  | .giveBack (some _), _, _, _, _, h => ((h.lastExpr _ _).emit _).noteReturn
  | .exit, _, _, _, _, h => h.emit _
  | .unset _, _, _, _, _, h => h.emit _
  | .uses _, _, _, _, _, h => h
  | .block body, hvalid, _, _, _, h =>
    (Stmt.follows_emitAllNoted l.inBlock hloops body hvalid (h.emit _)).emit _
  | .eval _, _, _, _, _, h => (h.expr _).emit _

/-- **A list of statements**, by a fold of what each of them does. -/
theorem Stmt.follows_emitAllNoted {loops : Nat} {place : Place} (l : Layout)
    (hloops : l.loops.length = loops) : ∀ (ss : List Stmt),
    Stmt.validAll loops place ss = true → ∀ {n : NotedDraft} {d : Draft} {ends : Bool},
      n.Follows d ends →
      (Stmt.emitAllNoted l ss n).Follows (Stmt.emitAll l ss d) (ss.foldl Stmt.endsInReturn ends)
  | [], _, _, _, _, h => h
  | s :: ss, hvalid, _, _, _, h =>
    have hvalid := Bool.and_eq_true_iff.1 hvalid
    Stmt.follows_emitAllNoted l hloops ss hvalid.2 (s.follows_emitNoted l hloops hvalid.1 h)

end

/-- **Offsets decide like trees**: the code of a program that was read is written alike. -/
theorem Program.noted_draft {ts : Tokens} {p : Program} (h : Program.ofTokens ts = .ok p) :
    (Stmt.emitAllNoted .top p .new).draft = p.draft :=
  (Stmt.follows_emitAllNoted .top rfl p (spelled_and_valid_of_ofTokens h).2 .new).draft_eq

end Scriptlet
