import Scriptlet.Proofs.Code.Occurrences

/-!
# Last calls in code

A `return` that gives back the value of a call, in the body of a function declared with `tail`, is
written with a last call. `Program.lastCalls` has the offsets of these, from the tree alone.

Without `tail` **one byte** changes for each of them, the operation of the last call. Two things are
shown for it. While the code is written, all other bytes are the same (`Draft.AgreesBut`), and jumps
and the table are then filled in alike. In the finished code, the lines of each statement stand at
the offset at which it occurs (`Stmt.ListedAll.has_occurrence`), which tells what the byte is.
-/

namespace Scriptlet

/-- The offset of the call, if the statement gives back the value of one in the body of a function
whose last calls take its place. -/
def Occurrence.lastCallAt? (o : Occurrence) : Option Nat :=
  match o.stmt with
  | .giveBack (some (.call _ args)) =>
    if o.owner.any (·.isTail) then some (o.offset + Instr.size (Expr.codeAll args)) else none
  | _ => none

/-- The offsets of the last calls of a program, in the order of the text. -/
def Program.lastCalls (p : Program) : List Nat :=
  p.occurrences.filterMap Occurrence.lastCallAt?

/-! ### Room -/

namespace Draft

variable (d : Draft)

theorem size_emit (i : Instr) : (d.emit i).buffer.size = d.buffer.size + i.width :=
  Buffer.size_append ..

theorem size_expr (e : Expr) : (d.expr e).buffer.size = d.buffer.size + Instr.size e.code := by
  rw [expr, e.emit_eq_append, Buffer.size_append, List.length_flatMap]
  rfl

theorem size_lastExpr (isTail : Bool) (e : Expr) :
    (d.lastExpr isTail e).buffer.size = d.buffer.size + Instr.size (e.lastCode isTail) := by
  rw [lastExpr, e.emitLast_eq_append, Buffer.size_append, List.length_flatMap]
  rfl

theorem size_jump (op : Opcode) (l : Label) :
    (d.jump op l).buffer.size = d.buffer.size + Instr.width (.jump 0) := by
  show ((d.buffer.op op).append (Code.word 0)).size = _
  rw [Buffer.size_append, Buffer.op, Buffer.size_append]
  rfl

theorem size_bind (l : Label) : (d.bind l).buffer.size = d.buffer.size :=
  rfl

theorem size_define (head : Head) : (d.define head).buffer.size = d.buffer.size :=
  rfl

theorem size_exitScopes (count : Nat) :
    (d.exitScopes count).buffer.size = d.buffer.size + count * Instr.exitScope.width := by
  induction count generalizing d with
  | zero => rw [exitScopes, Nat.zero_mul, Nat.add_zero]
  | succ count ih =>
    rw [exitScopes, ih, size_emit, Nat.add_mul, Nat.one_mul, Nat.add_assoc,
      Nat.add_comm (count * _)]

/-- What is added at the end of a function takes the room of its instructions. -/
theorem size_closing (head : Head) (body : List Stmt) :
    (if bodyReturns body then d else d.giveBackNothing head.returns).buffer.size =
      d.buffer.size + Instr.size (head.closing body) := by
  rw [Head.closing]
  by_cases hreturns : bodyReturns body
  · rw [if_pos hreturns, if_pos hreturns, Instr.size_nil, Nat.add_zero]
  · rw [if_neg hreturns, if_neg hreturns]
    cases head.returns with
    | void => exact size_emit ..
    | any | typed => exact (size_emit ..).trans (congrArg (· + _) (size_emit ..))

end Draft

namespace Draft

variable {d d' : Draft} {l : Label}

theorem size_of_newLabel (h : d.newLabel = (l, d')) : d'.buffer.size = d.buffer.size := by
  cases h
  rfl

/-- A condition takes the same room wherever its jump goes. -/
theorem size_of_test {c : Expr} (h : d.test c = (l, d')) :
    d'.buffer.size = d.buffer.size + Instr.size (c.code ++ [.jumpIfFalse 0, .enterScope]) := by
  cases h
  rw [size_emit, size_jump, size_of_newLabel rfl, size_expr, Instr.size_append, Nat.add_assoc,
    Nat.add_assoc]
  rfl

/-- So does the end of a block with the jump behind it. -/
theorem size_skip (d : Draft) (l : Label) :
    (d.skip l).buffer.size = d.buffer.size + Instr.size [.exitScope, .jump 0] := by
  rw [skip, size_jump, size_emit, Nat.add_assoc]
  rfl

end Draft

namespace Stmt

variable {l : Layout} {d d₁ d₂ : Draft} {c : Expr} {body otherwise : List Stmt}

/-- A condition in four parts: the test, the body, the way past the alternative, and the
alternative. -/
theorem emit_ifElse {done next : Label} (hmake : d.newLabel = (done, d₁))
    (htest : d₁.test c = (next, d₂)) :
    (Stmt.ifElse c body otherwise).emit l d =
      (emitAll l otherwise (((emitAll l.inBlock body d₂).skip done).bind next)).bind done := by
  cases hmake
  cases htest
  rfl

/-- A loop in three parts: the test, the body, and the way back. -/
theorem emit_whileLoop {again done : Label} (hmake : d.newLabel = (again, d₁))
    (htest : (d₁.bind again).test c = (done, d₂)) :
    (Stmt.whileLoop c body).emit l d =
      ((emitAll (l.inLoop again done).inBlock body d₂).skip again).bind done := by
  cases hmake
  cases htest
  rfl

end Stmt

namespace Stmt

variable {l : Layout} {spot : Spot}

/-- The room that it takes to leave a loop does not depend on where its ends are. -/
theorem size_leave (hl : l.Resolves (fun _ ↦ 0) spot) {labels : LoopLabels} {loop : Loop}
    (hdepth : labels.depth + 1 = loop.blocks.length) (d : Draft) (label : Label) (target : Nat) :
    ((d.exitScopes (l.depth - labels.depth)).jump .jump label).buffer.size =
      d.buffer.size + Instr.size (spot.leave loop target) := by
  have hcount : spot.blocks.length - loop.blocks.length = l.depth - labels.depth := by
    have := hl.depth
    omega
  rw [Draft.size_jump, Draft.size_exitScopes, Spot.size_leave, hcount, Nat.add_assoc]

/-- A statement without parts takes the room of its instructions. -/
theorem size_emit_of_flat? {s : Stmt} {is : List Instr} (hl : l.Resolves (fun _ ↦ 0) spot)
    (h : s.flat? spot = some is) (d : Draft) :
    (s.emit l d).buffer.size = d.buffer.size + Instr.size is := by
  -- To leave loops is the one thing whose room depends on what is around the statement.
  cases s with
  | ifElse | whileLoop | function | block => cases h
  | breakLoop depth =>
    cases h
    rw [Stmt.emit]
    rcases hl.loop?_cases depth with ⟨hnone, hnone'⟩ | ⟨labels, loop, hsome, hsome', -, -, hdepth⟩
    · rw [hnone, hnone']
      rfl
    · rw [hsome, hsome']
      exact size_leave hl hdepth d _ _
  | continueLoop =>
    cases h
    rw [Stmt.emit]
    rcases hl.loop?_cases 1 with ⟨hnone, hnone'⟩ | ⟨labels, loop, hsome, hsome', -, -, hdepth⟩
    · rw [hnone, hnone']
      rfl
    · rw [hsome, hsome']
      exact size_leave hl hdepth d _ _
  | declare isConst type name init =>
    cases init <;> cases h <;>
      simp [Stmt.emit, Draft.size_emit, Draft.size_expr, Nat.add_assoc]
  | giveBack value =>
    cases value <;> cases h <;>
      simp [Stmt.emit, Draft.size_emit, Draft.size_lastExpr, Nat.add_assoc, hl.isTail]
  | _ =>
    cases h
    simp [Stmt.emit, Draft.size_emit, Draft.size_expr, Nat.add_assoc]

end Stmt

mutual

/-- The code of a statement takes its room, whatever is written before it. -/
theorem Stmt.size_emit {l : Layout} {spot : Spot} (hl : l.Resolves (fun _ ↦ 0) spot) :
    ∀ (s : Stmt) (d : Draft), (s.emit l d).buffer.size = d.buffer.size + s.room spot
  | .ifElse c body otherwise, d => by
    -- Each part adds its room to what is there, and labels take none.
    obtain ⟨done, d₁, hmake⟩ : ∃ done d₁, d.newLabel = (done, d₁) := ⟨_, _, rfl⟩
    obtain ⟨next, d₂, htest⟩ : ∃ next d₂, d₁.test c = (next, d₂) := ⟨_, _, rfl⟩
    rw [Stmt.emit_ifElse hmake htest, Draft.size_bind, Stmt.size_emitAll hl, Draft.size_bind,
      Draft.size_skip, Stmt.size_emitAll hl.inBlock, Draft.size_of_test htest,
      Draft.size_of_newLabel hmake, Stmt.room]
    omega
  | .whileLoop c body, d => by
    obtain ⟨again, d₁, hmake⟩ : ∃ again d₁, d.newLabel = (again, d₁) := ⟨_, _, rfl⟩
    obtain ⟨done, d₂, htest⟩ : ∃ done d₂, (d₁.bind again).test c = (done, d₂) := ⟨_, _, rfl⟩
    rw [Stmt.emit_whileLoop hmake htest, Draft.size_bind, Draft.size_skip,
      Stmt.size_emitAll (hl.inLoop again done).inBlock, Draft.size_of_test htest, Draft.size_bind,
      Draft.size_of_newLabel hmake, Stmt.room]
    omega
  | .function head body, d => by
    obtain ⟨behind, d₁, hmake⟩ : ∃ behind d₁, d.newLabel = (behind, d₁) := ⟨_, _, rfl⟩
    have hjump : Instr.size [.jump 0] = Instr.width (.jump 0) := rfl
    rw [Stmt.emit]
    simp only [hmake]
    rw [Draft.size_bind, Draft.size_closing, Stmt.size_emitAll (.body head), Draft.size_define,
      Draft.size_jump, Draft.size_of_newLabel hmake, Stmt.room]
    omega
  | .block body, d => by
    have henter : Instr.size [.enterScope] = Instr.enterScope.width := rfl
    have hexit : Instr.size [.exitScope] = Instr.exitScope.width := rfl
    rw [Stmt.emit, Draft.size_emit, Stmt.size_emitAll hl.inBlock, Draft.size_emit, Stmt.room]
    omega
  | .declare _ _ _ none, d | .declare _ _ _ (some _), d | .assign _ _, d | .assignAt _ _ _, d
  | .step _ _, d | .breakLoop _, d | .continueLoop, d | .giveBack none, d | .giveBack (some _), d
  | .exit, d | .unset _, d | .uses _, d | .eval _, d => Stmt.size_emit_of_flat? hl rfl d

/-- Some statements take the room of all of them. -/
theorem Stmt.size_emitAll {l : Layout} {spot : Spot} (hl : l.Resolves (fun _ ↦ 0) spot) :
    ∀ (ss : List Stmt) (d : Draft),
      (Stmt.emitAll l ss d).buffer.size = d.buffer.size + Stmt.roomAll spot ss
  | [], _ => rfl
  | s :: ss, d => by
    rw [Stmt.emitAll, Stmt.size_emitAll (hl.after s) ss, s.size_emit hl, Stmt.roomAll,
      Nat.add_assoc]

end

/-! ### All other bytes -/

/-- Two drafts that differ in some of their bytes at most, and only at these offsets. -/
structure Draft.AgreesBut (K : Nat → Prop) (d d' : Draft) : Prop extends Draft.Twin d d' where
  bytes : ∀ k, ¬K k → d'.buffer.bytes[k]? = d.buffer.bytes[k]?

/-- Bytes put behind buffers of the same size, alike but at some offsets. -/
theorem Buffer.getElem?_append_of_not {K : Nat → Prop} {b b' : Buffer} {xs xs' : List UInt8}
    (hsize : b'.size = b.size) (h : ∀ k, ¬K k → b'.bytes[k]? = b.bytes[k]?)
    (hxs : ∀ k, ¬K (b.size + k) → xs'[k]? = xs[k]?) (k : Nat) (hk : ¬K k) :
    (b'.append xs').bytes[k]? = (b.append xs).bytes[k]? := by
  rw [getElem?_append, getElem?_append, hsize]
  by_cases hlt : k < b.size
  · rw [if_pos hlt, if_pos hlt, h k hk]
  · rw [if_neg hlt, if_neg hlt]
    refine hxs _ ?_
    rwa [Nat.add_sub_cancel' (Nat.le_of_not_lt hlt)]

namespace Draft.AgreesBut

variable {K : Nat → Prop} {d d' : Draft}

theorem emit (h : d.AgreesBut K d') (i : Instr) : (d.emit i).AgreesBut K (d'.emit i) :=
  ⟨h.toTwin.emit i, Buffer.getElem?_append_of_not h.buffer.size h.bytes fun _ _ ↦ rfl⟩

theorem expr (h : d.AgreesBut K d') (e : Expr) : (d.expr e).AgreesBut K (d'.expr e) := by
  refine ⟨h.toTwin.expr e, ?_⟩
  rw [Draft.expr, Draft.expr, e.emit_eq_append, e.emit_eq_append]
  exact Buffer.getElem?_append_of_not h.buffer.size h.bytes fun _ _ ↦ rfl

/-- A call and a last call differ in the byte of the operation. -/
theorem lastCall (h : d.AgreesBut K d') (name : String) (args : List Expr)
    (hK : K (d.buffer.size + Instr.size (Expr.codeAll args))) :
    (d.lastExpr true (.call name args)).AgreesBut K (d'.lastExpr false (.call name args)) := by
  refine ⟨h.toTwin.lastExpr true _, ?_⟩
  rw [Draft.lastExpr, Draft.lastExpr, Expr.emitLast_eq_append, Expr.emitLast_eq_append]
  refine Buffer.getElem?_append_of_not h.buffer.size h.bytes fun k hk ↦ ?_
  -- Before the operation are the arguments, and behind it the operands.
  have hne : k ≠ ((Expr.codeAll args).flatMap Instr.encode).length := by
    rintro rfl
    refine hk ?_
    rwa [List.length_flatMap]
  simp only [Expr.lastCode, Expr.code, List.flatMap_append, List.flatMap_singleton, Instr.encode]
  rcases Nat.lt_or_gt_of_ne hne with hlt | hgt
  · rw [List.getElem?_append_left hlt, List.getElem?_append_left hlt]
  · obtain ⟨n, hn⟩ : ∃ n, k - ((Expr.codeAll args).flatMap Instr.encode).length = n + 1 :=
      ⟨_, (Nat.succ_pred_eq_of_pos (Nat.sub_pos_of_lt hgt)).symm⟩
    rw [List.getElem?_append_right (Nat.le_of_lt hgt),
      List.getElem?_append_right (Nat.le_of_lt hgt)]
    simp only [hn, List.getElem?_cons_succ, Instr.operands]

/-- Of a value that is given back, **the first byte of its last call** may differ and nothing
else. -/
theorem lastExpr (h : d.AgreesBut K d') (isTail : Bool) (e : Expr)
    (hK : ∀ name args, isTail = true → e = .call name args →
      K (d.buffer.size + Instr.size (Expr.codeAll args))) :
    (d.lastExpr isTail e).AgreesBut K (d'.lastExpr false e) := by
  cases isTail with
  | false => exact h.expr e
  | true =>
    cases e with
    | call name args => exact h.lastCall name args (hK name args rfl rfl)
    | _ => exact h.expr _

theorem bind (h : d.AgreesBut K d') (l : Label) : (d.bind l).AgreesBut K (d'.bind l) :=
  ⟨h.toTwin.bind l, h.bytes⟩

/-- Both wait for the same label at the same offset. -/
theorem jump (h : d.AgreesBut K d') (op : Opcode) (l : Label) :
    (d.jump op l).AgreesBut K (d'.jump op l) := by
  have hop (k : Nat) (hk : ¬K k) : (d'.buffer.op op).bytes[k]? = (d.buffer.op op).bytes[k]? :=
    Buffer.getElem?_append_of_not h.buffer.size h.bytes (fun _ _ ↦ rfl) k hk
  have hsize : (d'.buffer.op op).size = (d.buffer.op op).size := (h.buffer.append rfl).size
  exact ⟨h.toTwin.jump op l, Buffer.getElem?_append_of_not hsize hop fun _ _ ↦ rfl⟩

/-- The same label is made in both. -/
theorem exists_newLabel (h : d.AgreesBut K d') :
    ∃ l d₁ d₁', d.newLabel = (l, d₁) ∧ d'.newLabel = (l, d₁') ∧ d₁.AgreesBut K d₁' := by
  obtain ⟨l, d₁, d₁', hmake, hmake', h₁⟩ := h.toTwin.exists_newLabel
  obtain rfl : d.newLabel.2 = d₁ := congrArg Prod.snd hmake
  obtain rfl : d'.newLabel.2 = d₁' := congrArg Prod.snd hmake'
  exact ⟨l, _, _, hmake, hmake', h₁, h.bytes⟩

/-- Both have the same condition and make the same label for it. -/
theorem exists_test (h : d.AgreesBut K d') (c : Expr) :
    ∃ l d₁ d₁', d.test c = (l, d₁) ∧ d'.test c = (l, d₁') ∧ d₁.AgreesBut K d₁' := by
  obtain ⟨l, d₁, d₁', hmake, hmake', h₁⟩ := (h.expr c).exists_newLabel
  refine ⟨l, _, _, ?_, ?_, (h₁.jump .jumpIfFalse l).emit .enterScope⟩
  · rw [test, hmake]
  · rw [test, hmake']

theorem skip (h : d.AgreesBut K d') (l : Label) : (d.skip l).AgreesBut K (d'.skip l) :=
  (h.emit _).jump _ _

theorem exitScopes (h : d.AgreesBut K d') (count : Nat) :
    (d.exitScopes count).AgreesBut K (d'.exitScopes count) := by
  induction count generalizing d d' with
  | zero => exact h
  | succ count ih => exact ih (h.emit _)

/-- The entries of the table do not tell whether a function has last calls. -/
theorem define (h : d.AgreesBut K d') (head : Head) :
    (d.define head).AgreesBut K (d'.define head.withoutTail) :=
  ⟨h.toTwin.define head, h.bytes⟩

theorem giveBackNothing (h : d.AgreesBut K d') (returns : Returns) :
    (d.giveBackNothing returns).AgreesBut K (d'.giveBackNothing returns) := by
  cases returns with
  | void => exact h.emit _
  | any | typed => exact (h.emit _).emit _

end Draft.AgreesBut

/-- All last calls among some statements are at these offsets. -/
def LastCallsIn (K : Nat → Prop) (os : List Occurrence) : Prop :=
  ∀ o ∈ os, ∀ k, o.lastCallAt? = some k → K k

theorem lastCallsIn_append {K : Nat → Prop} {os os' : List Occurrence} :
    LastCallsIn K (os ++ os') ↔ LastCallsIn K os ∧ LastCallsIn K os' :=
  List.forall_mem_append

mutual

/-- Without `tail`, the code of a statement is the same but for its last calls. -/
theorem Stmt.agreesBut_emit {K : Nat → Prop} {l : Layout} {spot : Spot}
    (hl : l.Resolves (fun _ ↦ 0) spot) : ∀ (s : Stmt) {d d' : Draft}, d.AgreesBut K d' →
      LastCallsIn K (s.occurrences spot d.buffer.size) →
      (s.emit l d).AgreesBut K (s.withoutTail.emit l.withoutTail d')
  | .declare _ _ _ (some _), _, _, h, _ => (h.expr _).emit _
  | .declare _ _ _ none, _, _, h, _ => (h.emit _).emit _
  | .assign _ _, _, _, h, _ => (h.expr _).emit _
  | .assignAt _ _ _, _, _, h, _ => ((h.expr _).expr _).emit _
  | .step _ _, _, _, h, _ => (((h.emit _).emit _).emit _).emit _
  | .ifElse c body otherwise, d, d', h, hK => by
    obtain ⟨done, d₁, d₁', hmake, hmake', h₁⟩ := h.exists_newLabel
    obtain ⟨next, d₂, d₂', htest, htest', h₂⟩ := h₁.exists_test c
    -- Occurrences are counted from the tree: turned into sizes of the drafts on the way.
    rw [Stmt.occurrences, lastCallsIn_append, ← Draft.size_of_newLabel hmake,
      ← Draft.size_of_test htest, ← Stmt.size_emitAll hl.inBlock, ← Draft.size_skip _ done] at hK
    rw [Stmt.withoutTail, Stmt.emit_ifElse hmake htest, Stmt.emit_ifElse hmake' htest']
    have hbody := Stmt.agreesBut_emitAll hl.inBlock body h₂ hK.1
    exact (Stmt.agreesBut_emitAll hl otherwise ((hbody.skip _).bind _) hK.2).bind _
  | .whileLoop c body, _, _, h, hK => by
    obtain ⟨again, d₁, d₁', hmake, hmake', h₁⟩ := h.exists_newLabel
    obtain ⟨done, d₂, d₂', htest, htest', h₂⟩ := (h₁.bind again).exists_test c
    rw [Stmt.occurrences, ← Draft.size_of_newLabel hmake, ← Draft.size_bind _ again,
      ← Draft.size_of_test htest] at hK
    rw [Stmt.withoutTail, Stmt.emit_whileLoop hmake htest, Stmt.emit_whileLoop hmake' htest']
    have hbody := Stmt.agreesBut_emitAll (hl.inLoop again done).inBlock body h₂ hK
    exact (hbody.skip _).bind _
  | .breakLoop depth, _, _, h, _ => by
    have hloop : l.withoutTail.loop? depth = l.loop? depth := by cases depth <;> rfl
    change (Stmt.emit l _ _).AgreesBut K (Stmt.emit l.withoutTail (.breakLoop depth) _)
    rw [Stmt.emit, Stmt.emit, hloop]
    split
    · exact (h.exitScopes _).jump _ _
    · exact h
  | .continueLoop, _, _, h, _ => by
    have hloop : l.withoutTail.loop? 1 = l.loop? 1 := rfl
    change (Stmt.emit l _ _).AgreesBut K (Stmt.emit l.withoutTail .continueLoop _)
    rw [Stmt.emit, Stmt.emit, hloop]
    split
    · exact (h.exitScopes _).jump _ _
    · exact h
  | .function head body, _, _, h, hK => by
    obtain ⟨behind, d₁, d₁', hmake, hmake', h₁⟩ := h.exists_newLabel
    have hjump : Instr.size [.jump 0] = Instr.width (.jump 0) := rfl
    rw [Stmt.occurrences, ← Draft.size_of_newLabel hmake, hjump,
      ← Draft.size_jump _ .jump behind] at hK
    rw [Stmt.withoutTail, Stmt.emit, Stmt.emit]
    simp only [hmake, hmake', bodyReturns_withoutTail]
    have hbody := Stmt.agreesBut_emitAll (.body head) body ((h₁.jump .jump behind).define head) hK
    refine Draft.AgreesBut.bind ?_ behind
    split
    · exact hbody
    · exact hbody.giveBackNothing _
  | .giveBack none, _, _, h, _ => h.emit _
  | .giveBack (some e), d, _, h, hK => by
    refine (h.lastExpr l.isTail e fun name args htail he ↦ ?_).emit _
    refine hK _ (List.mem_singleton.2 rfl) _ ?_
    rw [hl.isTail, Spot.isTail] at htail
    rw [he, Occurrence.lastCallAt?]
    exact if_pos htail
  | .exit, _, _, h, _ => h.emit _
  | .unset _, _, _, h, _ => h.emit _
  | .uses _, _, _, h, _ => h
  | .block body, _, _, h, hK => by
    refine (Stmt.agreesBut_emitAll hl.inBlock body (h.emit _) ?_).emit _
    rw [Draft.size_emit]
    exact hK
  | .eval _, _, _, h, _ => (h.expr _).emit _

/-- With `tail` and without, the code of some statements differs at the last calls at most. -/
theorem Stmt.agreesBut_emitAll {K : Nat → Prop} {l : Layout} {spot : Spot}
    (hl : l.Resolves (fun _ ↦ 0) spot) : ∀ (ss : List Stmt) {d d' : Draft}, d.AgreesBut K d' →
      LastCallsIn K (Stmt.occurrencesAll spot d.buffer.size ss) →
      (Stmt.emitAll l ss d).AgreesBut K
        (Stmt.emitAll l.withoutTail (Stmt.withoutTailAll ss) d')
  | [], _, _, h, _ => h
  | s :: ss, _, _, h, hK => by
    rw [Stmt.occurrencesAll, lastCallsIn_append, ← s.size_emit hl] at hK
    exact Stmt.agreesBut_emitAll (hl.after s) ss (s.agreesBut_emit hl h hK.1) hK.2

end

/-- With `tail` and without, the code of a program differs at its last calls at most. -/
theorem Program.agreesBut_draft (p : Program) :
    p.draft.AgreesBut (· ∈ p.lastCalls) (Program.draft (Stmt.withoutTailAll p)) := by
  refine Stmt.agreesBut_emitAll .top p ⟨⟨.refl _, rfl⟩, fun _ _ ↦ rfl⟩ fun o ho k hk ↦ ?_
  exact List.mem_filterMap.2 ⟨o, ho, hk⟩

namespace Buffer

variable {b b' : Buffer} {k : Nat}

/-- A byte that is the same before a word is written is the same behind it. -/
theorem getElem?_patch_congr {offset : Nat} (hsize : offset + 8 ≤ b.size)
    (hsize' : b'.size = b.size) (h : b'.bytes[k]? = b.bytes[k]?) (n : Nat) :
    (b'.patch offset n).bytes[k]? = (b.patch offset n).bytes[k]? := by
  have hle : offset + 8 ≤ b'.size := hsize' ▸ hsize
  rw [bytes_patch, bytes_patch, getElem?_overwrite _ _ _ _ (by rwa [Code.length_word]),
    getElem?_overwrite _ _ _ _ (by rwa [Code.length_word]), h]

theorem Twin.patch (h : b.Twin b') (offset n : Nat) :
    (b.patch offset n).Twin (b'.patch offset n) := by
  refine ⟨by rw [size_patch, size_patch, h.size], ?_, ?_⟩ <;> rw [Buffer.patch, Buffer.patch]
  · exact h.labels
  · exact h.sites

/-- The table and the header are the same, since the offsets are. -/
theorem Twin.getElem?_withTable (h : b.Twin b') (hb : b.Tidy) (hk : b'.bytes[k]? = b.bytes[k]?)
    (fs : List Function) : (b'.withTable fs).bytes[k]? = (b.withTable fs).bytes[k]? := by
  have hheader := (hb.append (fs.flatMap Function.encode)).header
  rw [headerSize] at hheader
  have happend : (b'.append (fs.flatMap Function.encode)).bytes[k]? =
      (b.append (fs.flatMap Function.encode)).bytes[k]? := by
    rw [getElem?_append, getElem?_append, h.size, hk]
  have htwin : (b.append (fs.flatMap Function.encode)).Twin
      (b'.append (fs.flatMap Function.encode)) := h.append rfl
  rw [withTable, withTable, h.size]
  generalize b.append _ = t at *
  generalize b'.append _ = t' at *
  refine getElem?_patch_congr (by simp only [size_patch]; omega)
    ((htwin.patch _ _).patch _ _).size (getElem?_patch_congr (by simp only [size_patch]; omega)
      (htwin.patch _ _).size (getElem?_patch_congr (by omega) htwin.size happend _) _) _

/-- Where the bytes of two buffers are the same, those of their images are. -/
theorem Twin.getElem?_assemble (h : b.Twin b') (hb : b.Tidy) (hk : b'.bytes[k]? = b.bytes[k]?)
    {fs : List Function} {image image' : Image} (himage : Image.assemble b fs = .ok image)
    (himage' : Image.assemble b' fs = .ok image') : image'.bytes[k]? = image.bytes[k]? := by
  have hoffsets : b'.offsets = b.offsets := by
    funext l
    rw [offsets, offsets, target?, target?, h.labels]
  have hsize : (b.withTable fs).bytes.size = b.size + (fs.flatMap Function.encode).length :=
    b.size_withTable fs
  have hsize' : (b'.withTable fs).bytes.size = b'.size + (fs.flatMap Function.encode).length :=
    b'.size_withTable fs
  rw [Image.bytes_of_assemble himage, Image.bytes_of_assemble himage', hoffsets, h.sites]
  refine getElem?_fill_congr (fun s hs ↦ ?_) (h.getElem?_withTable hb hk fs)
  have := (hb.sites s hs).2
  have := h.size
  omega

end Buffer

/-! ### Lines of statements -/

/-- The lines of a statement stand at the offset at which it occurs. -/
def Listing.Has (L : Listing) (o : Occurrence) : Prop :=
  ∃ spot is, spot.owner = o.owner ∧ o.stmt.flat? spot = some is ∧
    entriesOf o.offset spot.point is ⊆ L.entries

theorem Listing.Has.mono {L L' : Listing} {o : Occurrence} (h : L.Has o)
    (hsub : L.entries ⊆ L'.entries) : L'.Has o := by
  obtain ⟨spot, is, howner, hflat, hentries⟩ := h
  exact ⟨spot, is, howner, hflat, fun _ he ↦ hsub (hentries he)⟩

mutual

/-- Each statement without parts stands in the listing, at the offset at which it occurs. -/
theorem Stmt.Listed.has_occurrence {spot spot' : Spot} {s : Stmt} {start stop : Nat} {L : Listing}
    (hspot : spot.Alike spot') :
    s.Listed spot start stop L → ∀ o ∈ s.occurrences spot' start, L.Has o
  | .flat h => by
    rw [Stmt.occurrences_of_flat? hspot h, List.forall_mem_singleton]
    exact ⟨spot, _, rfl, h, fun _ he ↦ he⟩
  | @Stmt.Listed.ifElse _ c body otherwise _ p q next _ _ _ hp hbody hnext hotherwise => by
    -- The offsets of a listing are those that the room of the parts gives, since its jumps have a
    -- fixed width.
    have hq := hbody.stop_eq hspot.inBlock
    rw [c.size_test next 0] at hp
    rw [Instr.size_skip stop 0] at hnext
    have hbody' := hbody.has_occurrence hspot.inBlock
    have hotherwise' := hotherwise.has_occurrence hspot
    rw [hnext, hq, hp] at hotherwise'
    rw [hp] at hbody'
    rw [Stmt.occurrences, List.forall_mem_append]
    exact ⟨fun o ho ↦ (hbody' o ho).mono (by simp),
      fun o ho ↦ (hotherwise' o ho).mono (List.subset_append_right _ _)⟩
  | @Stmt.Listed.whileLoop _ c body _ p q _ _ hp hbody hstop => by
    rw [c.size_test stop 0] at hp
    have hbody' := hbody.has_occurrence (hspot.inLoop start stop 0 0).inBlock
    rw [hp] at hbody'
    rw [Stmt.occurrences]
    exact fun o ho ↦ (hbody' o ho).mono (by simp)
  | @Stmt.Listed.function _ head body _ p q _ _ hp hbody hstop => by
    have hbody' := hbody.has_occurrence (.refl (.body head))
    rw [hp] at hbody'
    rw [Stmt.occurrences]
    exact fun o ho ↦ (hbody' o ho).mono (by simp)
  | .block hbody => by
    have hbody' := hbody.has_occurrence hspot.inBlock
    rw [Stmt.occurrences]
    exact fun o ho ↦ (hbody' o ho).mono (by simp)

/-- **Each statement is found in the code** at the offset at which it occurs. -/
theorem Stmt.ListedAll.has_occurrence {spot spot' : Spot} {ss : List Stmt} {start stop : Nat}
    {L : Listing} (hspot : spot.Alike spot') :
    Stmt.ListedAll spot ss start stop L → ∀ o ∈ Stmt.occurrencesAll spot' start ss, L.Has o
  | .nil => by simp [Stmt.occurrencesAll]
  | @Stmt.ListedAll.cons _ s ss _ mid _ _ _ h hs => by
    have hs' := hs.has_occurrence (hspot.after s)
    rw [h.stop_eq hspot] at hs'
    rw [Stmt.occurrencesAll, List.forall_mem_append]
    exact ⟨fun o ho ↦ (h.has_occurrence hspot o ho).mono (by simp),
      fun o ho ↦ (hs' o ho).mono (by simp)⟩

end

/-- A last call is the value of a `return` in a function whose last calls take its place. -/
theorem Occurrence.exists_of_lastCallAt? {o : Occurrence} {k : Nat} (h : o.lastCallAt? = some k) :
    ∃ name args, o.stmt = .giveBack (some (.call name args)) ∧ o.owner.any (·.isTail) = true ∧
      k = o.offset + Instr.size (Expr.codeAll args) := by
  rw [lastCallAt?] at h
  split at h
  · rename_i name args hstmt
    by_cases htail : o.owner.any (·.isTail)
    · rw [if_pos htail] at h
      exact ⟨name, args, hstmt, htail, (Option.some.inj h).symm⟩
    · rw [if_neg htail] at h
      cases h
  · cases h

/-- A last call is a line of its own, and the `return` of its statement is the next one. -/
theorem Listing.Has.exists_lastCall {L : Listing} {o : Occurrence} {k : Nat} (h : L.Has o)
    (hk : o.lastCallAt? = some k) :
    ∃ name args q q', o.stmt = .giveBack (some (.call name args)) ∧
      (⟨k, .tailCall name args.length, q⟩ : Entry) ∈ L.entries ∧
      (⟨k + Instr.width (.tailCall name args.length), .ret, q'⟩ : Entry) ∈ L.entries := by
  obtain ⟨name, args, hstmt, htail, rfl⟩ := Occurrence.exists_of_lastCallAt? hk
  obtain ⟨spot, is, howner, hflat, hentries⟩ := h
  have hspot : spot.isTail = true := by
    rw [Spot.isTail, howner]
    exact htail
  rw [hstmt, Stmt.flat?, hspot, Option.some.injEq] at hflat
  subst hflat
  rw [Expr.lastCode, List.append_assoc, entriesOf_append] at hentries
  exact ⟨name, args, _, _, hstmt,
    hentries (List.mem_append_right _ (List.mem_cons_self ..)),
    hentries (List.mem_append_right _ (List.mem_cons_of_mem _ (List.mem_cons_self ..)))⟩

/-! ### One offset for each -/

/-- Offsets ascend, from one offset on and up to another. -/
structure Ascends (start stop : Nat) (ks : List Nat) : Prop where
  le : start ≤ stop
  pairwise : ks.Pairwise (· < ·)
  bounds : ∀ k ∈ ks, start ≤ k ∧ k < stop

namespace Ascends

variable {start mid stop : Nat} {ks ks' : List Nat}

theorem nil (h : start ≤ stop) : Ascends start stop [] :=
  ⟨h, .nil, by simp⟩

/-- Offsets that ascend to the middle and from there ascend together. -/
theorem append (h : Ascends start mid ks) (h' : Ascends mid stop ks') :
    Ascends start stop (ks ++ ks') := by
  refine ⟨Nat.le_trans h.le h'.le, List.pairwise_append.2 ⟨h.pairwise, h'.pairwise, ?_⟩,
    List.forall_mem_append.2 ⟨fun k hk ↦ ?_, fun k hk ↦ ?_⟩⟩
  · intro k hk k' hk'
    exact Nat.lt_of_lt_of_le (h.bounds k hk).2 (h'.bounds k' hk').1
  · exact ⟨(h.bounds k hk).1, Nat.lt_of_lt_of_le (h.bounds k hk).2 h'.le⟩
  · exact ⟨Nat.le_trans h.le (h'.bounds k hk).1, (h'.bounds k hk).2⟩

theorem mono (h : Ascends start mid ks) {start' : Nat} (hstart : start' ≤ start)
    (hstop : mid ≤ stop) : Ascends start' stop ks := by
  refine ⟨by have := h.le; omega, h.pairwise, fun k hk ↦ ?_⟩
  have := h.bounds k hk
  omega

end Ascends

/-- A last call stands inside the code of its statement. -/
theorem Stmt.ascends_lastCall (spot : Spot) (offset : Nat) (name : String) (args : List Expr) :
    Ascends offset (offset + (Stmt.giveBack (some (.call name args))).room spot)
      (((Stmt.giveBack (some (.call name args))).occurrences spot offset).filterMap
        Occurrence.lastCallAt?) := by
  have hroom : (Stmt.giveBack (some (.call name args))).room spot =
      Instr.size (Expr.codeAll args) + Instr.width (.call name args.length) +
        Instr.ret.width := by
    rw [Stmt.room_of_flat? (.refl spot) rfl, Instr.size_append, Expr.size_lastCode, Expr.code,
      Instr.size_append]
    rfl
  have hpos := Instr.width_pos .ret
  -- The `return` behind the call has a byte, so the call stands before the end.
  by_cases htail : spot.owner.any (·.isTail) = true
  · have hlast : (((Stmt.giveBack (some (.call name args))).occurrences spot offset).filterMap
        Occurrence.lastCallAt?) = [offset + Instr.size (Expr.codeAll args)] := by
      simp [Stmt.occurrences, Occurrence.lastCallAt?, htail]
    rw [hlast]
    refine ⟨Nat.le_add_right .., List.pairwise_singleton .., ?_⟩
    rw [List.forall_mem_singleton, hroom]
    omega
  · have hnone : (((Stmt.giveBack (some (.call name args))).occurrences spot offset).filterMap
        Occurrence.lastCallAt?) = [] := by
      simp [Stmt.occurrences, Occurrence.lastCallAt?, htail]
    rw [hnone]
    exact .nil (Nat.le_add_right ..)

/-- A `return` has at most one last call, which stands before its end. -/
theorem Stmt.ascends_giveBack (spot : Spot) (offset : Nat) (value : Option Expr) :
    Ascends offset (offset + (Stmt.giveBack value).room spot)
      (((Stmt.giveBack value).occurrences spot offset).filterMap Occurrence.lastCallAt?) := by
  cases value with
  | none => exact .nil (Nat.le_add_right ..)
  | some e =>
    cases e with
    | call name args => exact Stmt.ascends_lastCall spot offset name args
    | _ => exact .nil (Nat.le_add_right ..)

mutual

/-- The last calls of a statement ascend from its start to its end. -/
theorem Stmt.ascends_lastCalls (spot : Spot) : ∀ (s : Stmt) (offset : Nat),
    Ascends offset (offset + s.room spot)
      ((s.occurrences spot offset).filterMap Occurrence.lastCallAt?)
  | .ifElse c body otherwise, offset => by
    -- The parts follow each other, and so do the last calls in them.
    have hbody := Stmt.ascends_lastCallsAll spot.inBlock body
      (offset + Instr.size (c.code ++ [.jumpIfFalse 0, .enterScope]))
    have hotherwise := Stmt.ascends_lastCallsAll spot otherwise
      (offset + Instr.size (c.code ++ [.jumpIfFalse 0, .enterScope]) +
        Stmt.roomAll spot.inBlock body + Instr.size [.exitScope, .jump 0])
    rw [Stmt.occurrences, List.filterMap_append, Stmt.room]
    exact (hbody.mono (Nat.le_add_right ..) (Nat.le_add_right ..)).append
      (hotherwise.mono (Nat.le_refl _) (by omega))
  | .whileLoop c body, offset => by
    have hbody := Stmt.ascends_lastCallsAll (spot.inLoop 0 0).inBlock body
      (offset + Instr.size (c.code ++ [.jumpIfFalse 0, .enterScope]))
    rw [Stmt.occurrences, Stmt.room]
    exact hbody.mono (Nat.le_add_right ..) (by omega)
  | .function head body, offset => by
    have hbody := Stmt.ascends_lastCallsAll (.body head) body (offset + Instr.size [.jump 0])
    rw [Stmt.occurrences, Stmt.room]
    exact hbody.mono (Nat.le_add_right ..) (by omega)
  | .block body, offset => by
    have hbody := Stmt.ascends_lastCallsAll spot.inBlock body (offset + Instr.size [.enterScope])
    rw [Stmt.occurrences, Stmt.room]
    exact hbody.mono (Nat.le_add_right ..) (by omega)
  | .giveBack value, offset => Stmt.ascends_giveBack spot offset value
  | .declare _ _ _ _, _ | .assign _ _, _ | .assignAt _ _ _, _ | .step _ _, _ | .breakLoop _, _
  | .continueLoop, _ | .exit, _ | .unset _, _ | .uses _, _ | .eval _, _ =>
    .nil (Nat.le_add_right ..)

/-- Last calls follow each other in the code as they do in the text. -/
theorem Stmt.ascends_lastCallsAll (spot : Spot) : ∀ (ss : List Stmt) (offset : Nat),
    Ascends offset (offset + Stmt.roomAll spot ss)
      ((Stmt.occurrencesAll spot offset ss).filterMap Occurrence.lastCallAt?)
  | [], _ => .nil (Nat.le_refl _)
  | s :: ss, offset => by
    rw [Stmt.occurrencesAll, List.filterMap_append, Stmt.roomAll, ← Nat.add_assoc]
    exact (s.ascends_lastCalls spot offset).append (Stmt.ascends_lastCallsAll (spot.after s) ss _)

end

/-- No two last calls stand at one offset. -/
theorem Program.nodup_lastCalls (p : Program) : p.lastCalls.Nodup :=
  (Stmt.ascends_lastCallsAll .top p headerSize).pairwise.imp Nat.ne_of_lt

/-! ### The byte of an operation -/

/-- A byte is that of the operation that it is read as. -/
theorem Opcode.byte_of_ofByte? {b : UInt8} {op : Opcode} (h : Opcode.ofByte? b = some op) :
    op.byte = b := by
  unfold Opcode.ofByte? at h
  split at h <;> cases h <;> rfl

namespace Instr

open Code

variable {code : Array UInt8} {offset next : Nat} {i : Instr}

/-- What is read is an instruction of this operation, if it is one. -/
def Reading (op : Opcode) (r : Except DecodeError (Instr × Nat)) : Prop :=
  ∀ i next, r = .ok (i, next) → i.opcode = op

namespace Reading

variable {op : Opcode}

theorem ok (h : i.opcode = op) : Reading op (.ok (i, next)) := by
  rintro _ _ ⟨⟩
  exact h

theorem bind {α : Type} (r : Except DecodeError α) {f : α → Except DecodeError (Instr × Nat)}
    (hf : ∀ a, Reading op (f a)) : Reading op (r >>= f) := by
  cases r with
  | ok a => exact hf a
  | error e => rintro _ _ ⟨⟩

end Reading

/-- Operands do not change the operation that was read. -/
theorem reading_decodeOperands (op : Opcode) : Reading op (decodeOperands code offset op) := by
  cases op with
  | pushInt | pushFloat | makeList | jump | jumpIfFalse | pushBool | pushStr | get | set | unset
  | setIndex => exact .bind _ fun _ ↦ .ok rfl
  | decl =>
    refine .bind _ fun _ ↦ .bind _ fun _ ↦ ?_
    dsimp only
    split
    · exact .ok rfl
    · rintro _ _ ⟨⟩
  | call | tailCall => exact .bind _ fun _ ↦ .bind _ fun _ ↦ .ok rfl
  | _ => exact .ok rfl

/-- An instruction starts with the byte of its operation. -/
theorem getElem?_of_decode (h : decode code offset = .ok (i, next)) :
    code[offset]? = some i.opcode.byte := by
  by_cases hlt : offset + 1 ≤ code.size
  · rw [decode, byteAt, if_pos hlt] at h
    have hbyte : code[offset]? = some (code.getD offset 0) := by
      rw [Array.getD_eq_getD_getElem?, Array.getElem?_eq_getElem hlt]
      rfl
    dsimp only [bind, Except.bind] at h
    rcases hop : Opcode.ofByte? (code.getD offset 0) with - | op
    · rw [hop] at h
      cases h
    · rw [hop] at h
      rw [hbyte, reading_decodeOperands op i next h, Opcode.byte_of_ofByte? hop]
  · rw [decode, byteAt, if_neg hlt] at h
    cases h

end Instr

/-! ### Images -/

/-- At an offset there is a last call in one image and a call in the other, of the same function
with as many arguments, and the next instruction in both is a `return`. -/
structure Image.CallsBeforeReturn (image image' : Image) (k : Nat) (name : String) (count : Nat) :
    Prop where
  byte : image.bytes[k]? = some 0x39
  byte' : image'.bytes[k]? = some 0x38
  exists_next : ∃ next,
    Instr.decode image.code k = .ok (.tailCall name count, next) ∧
    Instr.decode image'.code k = .ok (.call name count, next) ∧
    Instr.decode image.code next = .ok (.ret, next + 1) ∧
    Instr.decode image'.code next = .ok (.ret, next + 1)

/-- Two images of a program, with last calls and without. They have the same length and differ at
the last calls only, by one byte each. -/
structure Image.DiffersInLastCalls (p : Program) (image image' : Image) : Prop where
  size : image'.bytes.size = image.bytes.size
  differs : ∀ k, image'.bytes[k]? ≠ image.bytes[k]? ↔ k ∈ p.lastCalls
  lastCall : ∀ o ∈ p.occurrences, ∀ k, o.lastCallAt? = some k →
    ∃ name args, o.stmt = .giveBack (some (.call name args)) ∧
      image.CallsBeforeReturn image' k name args.length

/-- An instruction that is read stands there with the byte of its operation. -/
theorem Image.getElem?_bytes_of_decode {image : Image} {k next : Nat} {i : Instr}
    (h : Instr.decode image.code k = .ok (i, next)) : image.bytes[k]? = some i.opcode.byte := by
  have hcode := Instr.getElem?_of_decode h
  rw [Image.code, Array.getElem?_extract, Nat.zero_add] at hcode
  split at hcode
  · exact hcode
  · cases hcode

/-- **Without `tail` one byte changes for each last call.** -/
theorem Program.exists_differsInLastCalls {p : Program} {stop : Span} {image : Image}
    (h : p.assemble stop = .ok image) (stop' : Span) :
    ∃ image', Program.assemble (Stmt.withoutTailAll p) stop' = .ok image' ∧
      image.DiffersInLastCalls p image' := by
  obtain ⟨L, hL⟩ := Program.exists_lists h
  obtain ⟨image', h', -, -, -, hstands⟩ := hL.exists_withoutTail h stop'
  obtain ⟨himage, -⟩ := Program.assemble_eq_ok.1 h
  obtain ⟨himage', -⟩ := Program.assemble_eq_ok.1 h'
  have htwin := p.twin_draft
  rw [htwin.functions] at himage'
  -- The lines of the listing say what stands at a last call, in both images.
  have hlast (o : Occurrence) (ho : o ∈ p.occurrences) (k : Nat) (hk : o.lastCallAt? = some k) :
      ∃ name args, o.stmt = .giveBack (some (.call name args)) ∧
        image.CallsBeforeReturn image' k name args.length := by
    obtain ⟨name, args, q, q', hstmt, hcall, hret⟩ :=
      (hL.listed.has_occurrence (.refl .top) o ho).exists_lastCall hk
    have hdecode := hL.stands _ hcall
    have hdecode' := hstands _ hcall
    exact ⟨name, args, hstmt, Image.getElem?_bytes_of_decode hdecode,
      Image.getElem?_bytes_of_decode hdecode', _, hdecode, hdecode', hL.stands _ hret,
      hstands _ hret⟩
  refine ⟨image', h', ?_, fun k ↦ ⟨fun hne ↦ ?_, fun hk ↦ ?_⟩, hlast⟩
  · obtain ⟨image'', himage'', -, hsize⟩ := htwin.buffer.exists_assemble himage
    obtain rfl : image'' = image' := Except.ok.inj (himage''.symm.trans himage')
    exact hsize
  · by_contra hk
    exact hne (htwin.buffer.getElem?_assemble p.tidy_draft (p.agreesBut_draft.bytes k hk) himage
      himage')
  · obtain ⟨o, ho, hk⟩ := List.mem_filterMap.1 hk
    obtain ⟨name, args, -, hcalls⟩ := hlast o ho k hk
    rw [hcalls.byte, hcalls.byte']
    decide

end Scriptlet
