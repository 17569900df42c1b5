import Scriptlet.Proofs.Machine.Tracks

/-!
# Code follows the tree

The code of an expression pushes its value, and the code of a statement gets the machine to where
the statement leads: behind it, behind or back to a loop around it, or to an instruction that leaves
the body. `Arrives` says where that is for each way in which a statement can end. The proofs follow
the listing of the code, one case for each form of statement, and take for granted that calls go
right.

The interpreter closes the scopes of blocks one by one on its way out of them, while the machine
closes them all at once before it jumps. That is why `Outline.outside` and `GivesBack` count blocks.
-/

namespace Scriptlet

open Machine

variable {m : Machine} {fuel : Nat} {call : String → List Value → Interp Value}

/-! ### Expressions -/

/-- The calls of the machine keep track of those of the interpreter. -/
def Machine.TracksCalls (m : Machine) (fuel : Nat) (call : String → List Value → Interp Value) :
    Prop :=
  ∀ ⦃name : String⦄ ⦃args : List Value⦄ ⦃offset : Nat⦄, m.HasAt offset (.call name args.length) →
    ∀ (o : Outline) (stack : List Value) (st : Store),
      Tracks m fuel
        (fun v st' o' ↦ o' = o.moved (offset + (Instr.call name args.length).width) (v :: stack) st')
        (o.moved offset (args.reverse ++ stack) st) (call name args st)

/-- A variable is read. -/
theorem Tracks.read {offset : Nat} {name : String} (h : m.HasAt offset (.get name)) (o : Outline)
    (stack : List Value) (st : Store) :
    Tracks m fuel
      (fun v st' o' ↦ o' = o.moved (offset + (Instr.get name).width) (v :: stack) st')
      (o.moved offset stack st) (Interp.read name st) := by
  rw [Interp.read]
  cases hvar : st.scopes.var? name with
  | none =>
    refine .fail h rfl ?_
    simp only [outlineExec, Outline.moved, hvar]
    rfl
  | some var =>
    refine .push h ?_
    simp only [outlineExec, Outline.moved, hvar]

/-- The values on top are the last ones left. -/
theorem take_reverse_append (vs stack : List Value) :
    (vs.reverse ++ stack).take vs.length = vs.reverse := by
  rw [← List.length_reverse, List.take_left]

theorem drop_reverse_append (vs stack : List Value) :
    (vs.reverse ++ stack).drop vs.length = stack := by
  rw [← List.length_reverse, List.drop_left]

/-- A list is made of the values on top, in the order in which they were left. -/
theorem outlineExec_makeList {o : Outline} {ip : Nat} {stack : List Value} (st : Store)
    (vs : List Value) :
    m.outlineExec (o.moved ip (vs.reverse ++ stack) st) (.makeList vs.length) =
      (o.moved ip stack st).push m.limits.maxStack (.list vs) := by
  rw [outlineExec, if_pos (by simp [Outline.moved])]
  simp only [Outline.moved, take_reverse_append, drop_reverse_append, List.reverse_reverse]

mutual

/-- The code of an expression pushes its value. -/
theorem Expr.tracks (hcall : m.TracksCalls fuel call) : ∀ (e : Expr) {offset : Nat},
    m.Holds offset e.code → ∀ (o : Outline) (stack : List Value) (st : Store),
      Tracks m fuel (fun v st' o' ↦ o' = o.moved (offset + Instr.size e.code) (v :: stack) st')
        (o.moved offset stack st) (e.eval call st)
  | .int n, _, h, _, _, _ | .float n, _, h, _, _, _ | .str n, _, h, _, _, _
  | .bool n, _, h, _, _, _ => .push h.1 rfl
  | .null, _, h, _, _, _ => .push h.1 rfl
  -- Operands first and from left to right, then the one instruction for the operator.
  | .var name, _, h, o, stack, st => .read h.1 o stack st
  | .call name args, _, h, o, stack, st => by
    rw [Expr.code, holds_snoc] at h
    rw [Expr.code, Instr.add_size_snoc]
    refine .bind (Expr.tracks_all hcall args h.1 o stack st) ?_
    rintro vs st' _ - ⟨hlength, rfl⟩
    rw [← hlength] at h ⊢
    exact hcall h.2 o stack st'
  | .list items, _, h, o, stack, st => by
    rw [Expr.code, holds_snoc] at h
    rw [Expr.code, Instr.add_size_snoc]
    refine .bind (Expr.tracks_all hcall items h.1 o stack st) ?_
    rintro vs st' _ - ⟨hlength, rfl⟩
    rw [← hlength] at h ⊢
    exact .push h.2 (outlineExec_makeList _ vs)
  | .unary op e, _, h, o, stack, st => by
    rw [Expr.code, holds_snoc] at h
    rw [Expr.code, Instr.add_size_snoc]
    refine .bind (Expr.tracks hcall e h.1 o stack st) ?_
    rintro v st' _ - rfl
    exact .pushResult h.2 rfl
  | .binary op left right, _, h, o, stack, st => by
    rw [Expr.code, holds_snoc, holds_append, Instr.add_size_append] at h
    rw [Expr.code, Instr.add_size_snoc, Instr.add_size_append]
    refine .bind (Expr.tracks hcall left h.1.1 o stack st) ?_
    rintro v st' _ - rfl
    refine .bind (Expr.tracks hcall right h.1.2 o (v :: stack) st') ?_
    rintro w st'' _ - rfl
    exact .pushResult h.2 rfl
  | .index container i, _, h, o, stack, st => by
    rw [Expr.code, holds_snoc, holds_append, Instr.add_size_append] at h
    rw [Expr.code, Instr.add_size_snoc, Instr.add_size_append]
    refine .bind (Expr.tracks hcall container h.1.1 o stack st) ?_
    rintro v st' _ - rfl
    refine .bind (Expr.tracks hcall i h.1.2 o (v :: stack) st') ?_
    rintro w st'' _ - rfl
    exact .pushResult h.2 rfl
  | .slice container start stop, _, h, o, stack, st => by
    simp only [Expr.code, holds_append, holds_singleton, Instr.add_size_append] at h
    rw [Expr.code, Instr.add_size_snoc, Instr.add_size_append, Instr.add_size_append]
    refine .bind (Expr.tracks hcall container h.1.1.1 o stack st) ?_
    rintro v st₁ _ - rfl
    refine .bind (Expr.tracks hcall start h.1.1.2 o (v :: stack) st₁) ?_
    rintro w st₂ _ - rfl
    refine .bind (Expr.tracks hcall stop h.1.2 o (w :: v :: stack) st₂) ?_
    rintro w' st₃ _ - rfl
    exact .pushResult h.2 rfl

/-- The code of some expressions pushes their values, the last one on top. -/
theorem Expr.tracks_all (hcall : m.TracksCalls fuel call) : ∀ (es : List Expr) {offset : Nat},
    m.Holds offset (Expr.codeAll es) → ∀ (o : Outline) (stack : List Value) (st : Store),
      Tracks m fuel (fun vs st' o' ↦ vs.length = es.length ∧
          o' = o.moved (offset + Instr.size (Expr.codeAll es)) (vs.reverse ++ stack) st')
        (o.moved offset stack st) (Expr.evalAll call es st)
  | [], _, _, _, _, _ => .here ⟨rfl, rfl⟩
  | e :: es, _, h, o, stack, st => by
    rw [Expr.codeAll, holds_append] at h
    rw [Expr.codeAll, Instr.add_size_append]
    refine .bind (Expr.tracks hcall e h.1 o stack st) ?_
    rintro v st' _ - rfl
    refine .bind (Expr.tracks_all hcall es h.2 o (v :: stack) st') ?_
    rintro vs st'' _ - ⟨hlength, rfl⟩
    refine .here ⟨by rw [List.length_cons, List.length_cons, hlength], ?_⟩
    rw [List.reverse_cons, List.append_assoc]
    rfl

end

/-! ### Where statements end -/

/-- The instruction at an outline gives back a value, in a call that has gone on from `o`. -/
def GivesBack (m : Machine) (o : Outline) (stack : List Value) (v : Option Value) (st : Store)
    (o' : Outline) : Prop :=
  ∃ (last : Outline) (offset k : Nat),
    m.outlineStep o' = (m.outlineGiveBack last v).mapError (fun cause ↦ ⟨cause, offset⟩) ∧
      last.callers = o.callers ∧ last.returns = o.returns ∧ last.stack = stack ∧
      last.calls = st.calls ∧ last.blocks = o.blocks + k ∧ last.scopes.drop k = st.scopes

/-- Behind a loop, or at its start, without the blocks opened inside it. -/
def Outline.outside (o : Outline) (loop : Loop) (target : Nat) (stack : List Value) (st : Store) :
    Outline :=
  { o with blocks := loop.blocks.length - 1 }.moved target stack
    { st with scopes := st.scopes.drop (o.blocks + 1 - loop.blocks.length) }

/-- Where the machine is when a statement has ended in some way. -/
def Arrives (m : Machine) (loop? : Nat → Option Loop) (o : Outline) (stack : List Value)
    (stop : Nat) : Flow → Store → Outline → Prop
  | .next, st, o' => o' = o.moved stop stack st
  | .breaks depth, st, o' =>
    ∃ loop, loop? depth = some loop ∧ o' = o.outside loop loop.done stack st
  | .continues, st, o' => ∃ loop, loop? 1 = some loop ∧ o' = o.outside loop loop.again stack st
  | .returns v, st, o' => GivesBack m o stack v st o'

/-- The outline inside one more block. -/
def Outline.inBlock (o : Outline) : Outline :=
  { o with blocks := o.blocks + 1 }

/-- What a statement at a spot relies on. -/
structure Spot.Suits (spot : Spot) (o : Outline) : Prop where
  blocks : spot.blocks.length = o.blocks + 1
  loops : ∀ {depth : Nat} {loop : Loop}, spot.loop? depth = some loop →
    1 ≤ loop.blocks.length ∧ loop.blocks.length ≤ o.blocks + 1
  isTail : spot.isTail = false

namespace Spot

variable {spot : Spot} {o : Outline}

/-- A statement leaves the loops around the next one as they are. -/
@[simp]
theorem loop?_after (s : Stmt) : (spot.after s).loop? = spot.loop? := by
  cases s <;> rfl

/-- What a statement relies on does not change from one to the next. -/
theorem Suits.after (h : spot.Suits o) (s : Stmt) : (spot.after s).Suits o := by
  refine ⟨?_, fun hloop ↦ h.loops (by rwa [loop?_after] at hloop), ?_⟩
  · cases s <;> first | exact h.blocks | exact (List.length_modifyHead ..).trans h.blocks
  · cases s <;> exact h.isTail

/-- It holds inside a block, with the block open in the outline, too. -/
theorem Suits.inBlock (h : spot.Suits o) : spot.inBlock.Suits o.inBlock :=
  ⟨congrArg (· + 1) h.blocks, fun hloop ↦ ⟨(h.loops hloop).1, Nat.le_succ_of_le (h.loops hloop).2⟩,
    h.isTail⟩

/-- It holds inside a loop: the blocks around the loop are open. -/
theorem Suits.inLoop (h : spot.Suits o) (again done : Nat) : (spot.inLoop again done).Suits o := by
  refine ⟨h.blocks, fun {depth loop} hloop ↦ ?_, h.isTail⟩
  match depth with
  | 1 =>
    cases hloop
    rw [h.blocks]
    exact ⟨Nat.le_add_left _ _, Nat.le_refl _⟩
  | depth + 2 =>
    have hloop' : spot.loop? (depth + 1) = some loop := hloop
    exact h.loops hloop'

end Spot

section

variable {o : Outline} {stack : List Value} {st : Store} {a q : Nat}

/-- To go from inside a block to a loop around it closes that block first. -/
theorem Outline.outside_inBlock {loop : Loop} {target : Nat}
    (h : loop.blocks.length ≤ o.blocks + 1) :
    o.inBlock.outside loop target stack st =
      o.outside loop target stack { st with scopes := st.scopes.tail } := by
  have hdrop : o.blocks + 1 + 1 - loop.blocks.length = (o.blocks + 1 - loop.blocks.length) + 1 := by
    omega
  rw [Outline.outside, Outline.outside, Outline.inBlock]
  simp only [hdrop, List.drop_tail]

/-- A value may be given back from inside a block. -/
theorem GivesBack.ofBlock {v : Option Value} {o' : Outline}
    (h : GivesBack m o.inBlock stack v st o') :
    GivesBack m o stack v { st with scopes := st.scopes.tail } o' := by
  obtain ⟨last, offset, k, hstep, hcallers, hreturns, hstack, hcalls, hblocks, hscopes⟩ := h
  refine ⟨last, offset, k + 1, hstep, hcallers, hreturns, hstack, hcalls, ?_, ?_⟩
  · exact hblocks.trans (Nat.add_right_comm _ _ _)
  · rw [← hscopes, List.tail_drop]

/-- Machine and interpreter enter a block together. -/
theorem Tracks.enterScope (h : m.HasAt a .enterScope) :
    Tracks m fuel (fun _ st' o' ↦ o' = o.inBlock.moved (a + Instr.enterScope.width) stack st')
      (o.moved a stack st) (Interp.enterScope st) :=
  .step' h rfl rfl (.here rfl)

/-- They leave it together. -/
theorem Tracks.exitScope (h : m.HasAt q .exitScope) :
    Tracks m fuel (fun _ st' o' ↦ o' = o.moved (q + Instr.exitScope.width) stack st')
      (o.inBlock.moved q stack st) (Interp.exitScope st) :=
  .step' h rfl rfl (.here rfl)

/-- A block of statements between two instructions that open and close its scope. -/
theorem tracks_inBlock {x : Interp Flow} {loop? : Nat → Option Loop}
    (henter : m.HasAt a .enterScope) (hexit : m.HasAt q .exitScope)
    (hloops : ∀ {depth loop}, loop? depth = some loop → loop.blocks.length ≤ o.blocks + 1)
    (hx : ∀ st, Tracks m fuel (Arrives m loop? o.inBlock stack q)
      (o.inBlock.moved (a + Instr.enterScope.width) stack st) (x st)) :
    Tracks m fuel (Arrives m loop? o stack (q + Instr.exitScope.width)) (o.moved a stack st)
      (Interp.inBlock x st) := by
  refine .bind (.enterScope henter) ?_
  rintro _ st₁ _ - rfl
  refine .bind (hx st₁) ?_
  rintro flow st₂ o' - harrives
  cases flow with
  | next =>
    obtain rfl := harrives
    refine .bind (.exitScope hexit) ?_
    rintro _ st₃ _ - rfl
    exact .here rfl
  | breaks depth =>
    obtain ⟨loop, hloop, rfl⟩ := harrives
    exact .here ⟨loop, hloop, Outline.outside_inBlock (hloops hloop)⟩
  | continues =>
    obtain ⟨loop, hloop, rfl⟩ := harrives
    exact .here ⟨loop, hloop, Outline.outside_inBlock (hloops hloop)⟩
  | returns v => exact .here (GivesBack.ofBlock harrives)

/-- A branch on the last value. -/
theorem Tracks.branch {α : Type} {Fits : α → Store → Outline → Prop}
    {r : EStateM.Result Stop Store α} {v : Value} {target : Nat}
    (h : m.HasAt a (.jumpIfFalse target))
    (htrue : v.isTrue = true →
      Tracks m fuel Fits (o.moved (a + (Instr.jumpIfFalse target).width) stack st) r)
    (hfalse : ¬v.isTrue = true → Tracks m fuel Fits (o.moved target stack st) r) :
    Tracks m (fuel + 1) Fits (o.moved a (v :: stack) st) r := by
  by_cases hv : v.isTrue = true
  · refine .step h rfl ?_ (htrue hv)
    simp only [outlineExec, Outline.moved, hv, if_true]
  · refine .jump h rfl ?_ (hfalse hv)
    simp only [outlineExec, Outline.moved, hv]
    rfl

/-- Leaving blocks and going on somewhere. -/
theorem Tracks.leave {α : Type} {Fits : α → Store → Outline → Prop}
    {r : EStateM.Result Stop Store α} {k target : Nat}
    (h : m.Holds a (List.replicate k .exitScope ++ [.jump target])) (hk : k ≤ o.blocks)
    (hr : Tracks m fuel Fits ({ o with blocks := o.blocks - k }.moved target stack
      { st with scopes := st.scopes.drop k }) r) :
    Tracks m fuel Fits (o.moved a stack st) r := by
  induction k generalizing a o st with
  | zero => exact (Tracks.jump h.1 rfl rfl hr).mono (Nat.le_succ _)
  | succ k ih =>
    obtain ⟨b, hb⟩ : ∃ b, o.blocks = b + 1 := ⟨o.blocks - 1, by omega⟩
    have hexec : m.outlineExec (o.moved (a + Instr.exitScope.width) stack st) .exitScope =
        .running ({ o with blocks := b }.moved (a + Instr.exitScope.width) stack
          { st with scopes := st.scopes.tail }) := by
      simp only [outlineExec, Outline.moved, hb]
    refine .step' h.1 rfl hexec (ih (o := { o with blocks := b }) h.2 (by simp only; omega) ?_)
    have hsub : o.blocks - (k + 1) = b - k := by omega
    rw [hsub] at hr
    simp only [List.drop_tail]
    exact hr

end

/-! ### Statements -/

/-- A variable without a value starts from the default of its type. -/
theorem Tag.outlineExec_pushDefault (type : Tag) (o : Outline) :
    m.outlineExec o type.pushDefault = o.push m.limits.maxStack type.default := by
  cases type <;> rfl

/-- A value that is not the last one of a function with last calls has its ordinary code. -/
@[simp]
theorem Expr.lastCode_false (e : Expr) : e.lastCode false = e.code := by
  cases e <;> rfl

/-- A loop that is left is there. -/
theorem Spot.exists_loop? {spot : Spot} {depth : Nat} (hpos : 1 ≤ depth)
    (h : depth ≤ spot.loops.length) : ∃ loop, spot.loop? depth = some loop := by
  obtain ⟨depth, rfl⟩ := Nat.exists_eq_add_of_le' hpos
  exact ⟨_, List.getElem?_eq_getElem h⟩

variable {o : Outline} {spot : Spot} {start stop : Nat} {place : Place}

/-- Leaving a loop, or going back to its start. -/
theorem Spot.Suits.tracks_leave (hspot : spot.Suits o) {loop : Loop} {target depth : Nat}
    (hloop : spot.loop? depth = some loop) (hcode : m.Holds start (spot.leave loop target))
    {stack : List Value} {st : Store} {flow : Flow}
    (harrives : Arrives m spot.loop? o stack stop flow st (o.outside loop target stack st)) :
    Tracks m fuel (Arrives m spot.loop? o stack stop) (o.moved start stack st) (.ok flow st) := by
  obtain ⟨hpos, hle⟩ := hspot.loops hloop
  rw [Spot.leave, hspot.blocks] at hcode
  refine Tracks.leave hcode (by omega) (.here ?_)
  have hblocks : o.blocks - (o.blocks + 1 - loop.blocks.length) = loop.blocks.length - 1 := by
    omega
  rw [hblocks]
  exact harrives

/-- The machine keeps track of a statement that holds no other ones. -/
theorem Stmt.tracks_flat {s : Stmt} {is : List Instr} (h : s.flat? spot = some is)
    (hcode : m.Holds start is) (hcall : m.TracksCalls fuel call)
    (hvalid : s.valid spot.loops.length place = true) (hspot : spot.Suits o) (stack : List Value)
    (st : Store) :
    Tracks m fuel (Arrives m spot.loop? o stack (start + Instr.size is))
      (o.moved start stack st) (s.run call fuel st) := by
  -- Each case runs through the code of the statement, with one `bind` for each part.
  cases s with
  | declare isConst type name init =>
    cases init with
    | none =>
      cases h
      simp only [Instr.add_size_cons, Instr.size_nil, Nat.add_zero]
      refine .pushed hcode.1 (type.outlineExec_pushDefault _) (.bind (.onScopes hcode.2.1 rfl) ?_)
      rintro _ st' _ - rfl
      exact .here rfl
    | some e =>
      cases h
      rw [holds_snoc] at hcode
      rw [Instr.add_size_snoc]
      refine .bind (e.tracks hcall hcode.1 o stack st) ?_
      rintro v st' _ - rfl
      refine .bind (.onScopes hcode.2 rfl) ?_
      rintro _ st'' _ - rfl
      exact .here rfl
  | assign name value =>
    cases h
    rw [holds_snoc] at hcode
    rw [Instr.add_size_snoc]
    refine .bind (value.tracks hcall hcode.1 o stack st) ?_
    rintro v st' _ - rfl
    refine .bind (.onScopes hcode.2 rfl) ?_
    rintro _ st'' _ - rfl
    exact .here rfl
  | assignAt name i value =>
    cases h
    rw [holds_snoc, holds_append, Instr.add_size_append] at hcode
    rw [Instr.add_size_snoc, Instr.add_size_append]
    refine .bind (i.tracks hcall hcode.1.1 o stack st) ?_
    rintro v st₁ _ - rfl
    refine .bind (value.tracks hcall hcode.1.2 o (v :: stack) st₁) ?_
    rintro w st₂ _ - rfl
    refine .bind (.onScopes hcode.2 rfl) ?_
    rintro _ st₃ _ - rfl
    exact .here rfl
  | step op name =>
    cases h
    simp only [Instr.add_size_cons, Instr.size_nil, Nat.add_zero]
    refine .bind (.read hcode.1 o stack st) ?_
    rintro v st₁ _ - rfl
    refine .pushed hcode.2.1 rfl (.bind (.pushResult hcode.2.2.1 rfl) ?_)
    rintro w st₂ _ - rfl
    refine .bind (.onScopes hcode.2.2.2.1 rfl) ?_
    rintro _ st₃ _ - rfl
    exact .here rfl
  | breakLoop depth =>
    rw [Stmt.valid, Bool.and_eq_true, decide_eq_true_iff, decide_eq_true_iff] at hvalid
    obtain ⟨loop, hloop⟩ := Spot.exists_loop? hvalid.1 hvalid.2
    rw [Stmt.flat?, hloop] at h
    cases h
    refine hspot.tracks_leave hloop hcode ?_
    exact ⟨loop, hloop, rfl⟩
  | continueLoop =>
    rw [Stmt.valid, decide_eq_true_iff] at hvalid
    obtain ⟨loop, hloop⟩ := Spot.exists_loop? (Nat.le_refl 1) hvalid
    rw [Stmt.flat?, hloop] at h
    cases h
    refine hspot.tracks_leave hloop hcode ?_
    exact ⟨loop, hloop, rfl⟩
  | giveBack value =>
    cases value with
    | none =>
      cases h
      refine .here ⟨o.moved (start + Instr.retVoid.width) stack st, start, 0, ?_, rfl, rfl, rfl,
        rfl, rfl, rfl⟩
      exact hcode.1.outlineStep_eq rfl
    | some e =>
      rw [Stmt.flat?, hspot.isTail, Expr.lastCode_false] at h
      cases h
      rw [holds_snoc] at hcode
      refine .bind (e.tracks hcall hcode.1 o stack st) ?_
      rintro v st' _ - rfl
      refine .here ⟨o.moved (start + Instr.size e.code + Instr.ret.width) stack st',
        start + Instr.size e.code, 0, ?_, rfl, rfl, rfl, rfl, rfl, rfl⟩
      exact hcode.2.outlineStep_eq rfl
  | exit =>
    cases h
    have hrun : m.outlineRun 1 (o.moved start stack st) =
        .ended .halt (o.moved (start + Instr.halt.width) stack st) := by
      rw [outlineRun, hcode.1.outlineStep_eq rfl]
      rfl
    exact .exit hrun rfl rfl
  | unset name =>
    cases h
    exact .step' hcode.1 rfl rfl (.here rfl)
  | uses target =>
    cases h
    exact .here rfl
  | eval e =>
    cases h
    rw [holds_snoc] at hcode
    rw [Instr.add_size_snoc]
    refine .bind (e.tracks hcall hcode.1 o stack st) ?_
    rintro v st' _ - rfl
    exact .step' hcode.2 rfl rfl (.here rfl)
  | ifElse c body otherwise => cases h
  | whileLoop c body => cases h
  | function head body => cases h
  | block body => cases h

/-- A loop goes around as often as the interpreter does. -/
theorem tracks_loop {condition : Expr} {body : Interp Flow} {a q : Nat}
    (hcall : m.TracksCalls fuel call) (hcondition : m.Holds start condition.code)
    (hjump : m.HasAt (start + Instr.size condition.code) (.jumpIfFalse stop))
    (ha : a = start + Instr.size condition.code + (Instr.jumpIfFalse stop).width)
    (hback : m.HasAt q (.jump start)) (hspot : spot.Suits o) (stack : List Value)
    (hbody : ∀ st, Tracks m fuel (Arrives m (spot.inLoop start stop).loop? o stack q)
      (o.moved a stack st) (body st)) {n : Nat} (hn : n ≤ fuel) (st : Store) :
    Tracks m n (Arrives m spot.loop? o stack stop) (o.moved start stack st)
      (Interp.loop n (condition.eval call) body st) := by
  subst ha
  have houtside (target : Nat) (st : Store) :
      o.outside ⟨start, stop, spot.blocks⟩ target stack st = o.moved target stack st := by
    simp only [Outline.outside, hspot.blocks, Nat.sub_self, Nat.add_sub_cancel, List.drop_zero]
  -- The induction is on the fuel, of which each round spends a step.
  induction n generalizing st with
  | zero => exact .outOfFuel (Nat.le_refl 0) rfl
  | succ n ih =>
    have hagain := ih (Nat.le_of_succ_le hn)
    refine .bind ((condition.tracks hcall hcondition o stack st).mono hn) ?_
    rintro v st₁ _ - rfl
    refine .branch hjump (fun hv ↦ ?_) (fun hv ↦ ?_)
    · rw [if_pos hv]
      refine .bind ((hbody st₁).mono (Nat.le_of_succ_le hn)) ?_
      rintro flow st₂ o' - harrives
      -- A `break` of more than one loop leaves this one and goes on outside.
      match flow, harrives with
      | .next, harrives =>
        obtain rfl := harrives
        exact (Tracks.jump hback rfl rfl (hagain st₂)).mono (Nat.le_succ _)
      | .continues, harrives =>
        obtain ⟨loop, hloop, rfl⟩ := harrives
        cases hloop
        rw [houtside]
        exact hagain st₂
      | .breaks 1, harrives =>
        obtain ⟨loop, hloop, rfl⟩ := harrives
        cases hloop
        exact .here (houtside stop st₂)
      | .breaks (depth + 2), harrives => exact .here harrives
      | .returns v, harrives => exact .here harrives
    · rw [if_neg hv]
      exact .here rfl

mutual

/-- The code of a statement does what the statement means. -/
theorem Stmt.Listed.tracks {spot : Spot} {s : Stmt} {start stop : Nat} {L : Listing} {loops : Nat}
    {place : Place} {o : Outline} (hcall : m.TracksCalls fuel call)
    (hcode : ∀ e ∈ L.entries, m.HasAt e.offset e.instr)
    (hspot : spot.Suits o) (hloops : spot.loops.length = loops)
    (hvalid : s.valid loops place = true) (stack : List Value) (st : Store) :
    s.Listed spot start stop L →
      Tracks m fuel (Arrives m spot.loop? o stack stop) (o.moved start stack st)
        (s.run call fuel st)
  | .flat h => Stmt.tracks_flat h (holds_of_entriesOf hcode) hcall (hloops ▸ hvalid) hspot stack st
  | @Stmt.Listed.ifElse _ c body otherwise _ p q next _ L₁ L₂ hp hbody hnext hotherwise => by
    simp only [Listing.entries_append, List.forall_mem_append] at hcode
    obtain ⟨⟨⟨htest, hcode₁⟩, hskip⟩, hcode₂⟩ := hcode
    rw [Stmt.valid, Bool.and_eq_true, Bool.and_eq_true] at hvalid
    obtain ⟨hcondition, hjump, henter, -⟩ := holds_append.1 (holds_of_entriesOf htest)
    obtain ⟨hexit, hover, -⟩ := holds_of_entriesOf hskip
    refine .bind (c.tracks hcall hcondition o stack st) ?_
    rintro v st₁ _ - rfl
    refine (Tracks.branch hjump (fun hv ↦ ?_) (fun hv ↦ ?_)).mono (Nat.le_succ fuel)
    · have hp' : p = start + Instr.size c.code + (Instr.jumpIfFalse next).width +
          Instr.enterScope.width := by
        rw [hp, Instr.add_size_append, Instr.add_size_cons, Instr.add_size_cons]
        rfl
      have hbody' (st : Store) : Tracks m fuel (Arrives m spot.loop? o.inBlock stack q)
          (o.inBlock.moved p stack st) (Stmt.runAll call fuel body st) :=
        hbody.tracks hcall hcode₁ hspot.inBlock hloops hvalid.1.1 stack st
      rw [if_pos hv]
      refine (tracks_inBlock henter hexit (fun h ↦ (hspot.loops h).2) (hp' ▸ hbody')).trans ?_
      rintro flow st₂ o' harrives
      cases flow with
      | next =>
        obtain rfl := harrives
        exact (Tracks.jump hover rfl rfl (.here rfl)).mono (Nat.le_succ fuel)
      | breaks depth => exact .here harrives
      | continues => exact .here harrives
      | returns v => exact .here harrives
    · rw [if_neg hv]
      exact hotherwise.tracks hcall hcode₂ hspot hloops hvalid.1.2 stack st₁
  | @Stmt.Listed.whileLoop _ c body _ p q _ L₁ hp hbody hstop => by
    simp only [Listing.entries_append, List.forall_mem_append] at hcode
    obtain ⟨⟨htest, hcode₁⟩, hskip⟩ := hcode
    obtain ⟨hcondition, hjump, henter, -⟩ := holds_append.1 (holds_of_entriesOf htest)
    obtain ⟨hexit, hback, -⟩ := holds_of_entriesOf hskip
    refine tracks_loop hcall hcondition hjump rfl hback hspot stack (fun st ↦ ?_)
      (Nat.le_refl fuel) st
    have hloop := hspot.inLoop start stop
    have hp' : p = start + Instr.size c.code + (Instr.jumpIfFalse stop).width +
        Instr.enterScope.width := by
      rw [hp, Instr.add_size_append, Instr.add_size_cons, Instr.add_size_cons]
      rfl
    have hbody' (st : Store) : Tracks m fuel
        (Arrives m (spot.inLoop start stop).loop? o.inBlock stack q) (o.inBlock.moved p stack st)
        (Stmt.runAll call fuel body st) :=
      hbody.tracks hcall hcode₁ hloop.inBlock (congrArg (· + 1) hloops) hvalid stack st
    exact tracks_inBlock henter hexit (fun h ↦ (hloop.loops h).2) (hp' ▸ hbody')
  | @Stmt.Listed.function _ head body _ p q _ L₁ hp hbody hstop => by
    simp only [Listing.entries_append, List.forall_mem_append] at hcode
    obtain ⟨⟨⟨hskip, -⟩, -⟩, -⟩ := hcode
    exact (Tracks.jump (holds_of_entriesOf hskip).1 rfl rfl (.here rfl)).mono (Nat.le_succ fuel)
  | @Stmt.Listed.block _ body _ q L₁ hbody => by
    simp only [Listing.entries_append, List.forall_mem_append] at hcode
    obtain ⟨⟨henter, hcode₁⟩, hexit⟩ := hcode
    have hbody' (st : Store) : Tracks m fuel (Arrives m spot.loop? o.inBlock stack q)
        (o.inBlock.moved (start + Instr.enterScope.width) stack st)
        (Stmt.runAll call fuel body st) :=
      hbody.tracks hcall hcode₁ hspot.inBlock hloops hvalid stack st
    exact tracks_inBlock (holds_of_entriesOf henter).1 (holds_of_entriesOf hexit).1
      (fun h ↦ (hspot.loops h).2) hbody'

/-- The code of some statements does what they mean. -/
theorem Stmt.ListedAll.tracks {spot : Spot} {ss : List Stmt} {start stop : Nat} {L : Listing}
    {loops : Nat} {place : Place} {o : Outline} (hcall : m.TracksCalls fuel call)
    (hcode : ∀ e ∈ L.entries, m.HasAt e.offset e.instr) (hspot : spot.Suits o)
    (hloops : spot.loops.length = loops) (hvalid : Stmt.validAll loops place ss = true)
    (stack : List Value) (st : Store) : Stmt.ListedAll spot ss start stop L →
      Tracks m fuel (Arrives m spot.loop? o stack stop) (o.moved start stack st)
        (Stmt.runAll call fuel ss st)
  | .nil => .here rfl
  | @Stmt.ListedAll.cons _ s ss _ mid _ L₁ L₂ h hs => by
    rw [Listing.entries_append, List.forall_mem_append] at hcode
    rw [Stmt.validAll, Bool.and_eq_true] at hvalid
    have hloops' : (spot.after s).loops.length = loops := by cases s <;> exact hloops
    refine .bind (h.tracks hcall hcode.1 hspot hloops hvalid.1 stack st) ?_
    rintro flow st₁ o' - harrives
    cases flow with
    | next =>
      obtain rfl := harrives
      have := hs.tracks hcall hcode.2 (hspot.after s) hloops' hvalid.2 stack st₁
      rwa [Spot.loop?_after] at this
    | breaks depth => exact .here harrives
    | continues => exact .here harrives
    | returns v => exact .here harrives

end

end Scriptlet
