import Scriptlet.Proofs.Code.Leaving
import Scriptlet.Proofs.Code.Occurrences
import Scriptlet.Proofs.Code.RecordingChecks
import Scriptlet.Proofs.Machine.Isolation
import Scriptlet.Proofs.Machine.Ownership

/-!
# What is left when a run is over

Nothing is unwound when a run ends, so whatever is still on the stack, in frames or in scopes then
is there to be seen. For a compiled program this is **nothing but the blocks around the last
statement**: a run that comes to the end of the code has left all of them, and one that is ended by
a `return` has those open that stand around that `return` in the text.

A run ends at a line that is noted to belong to no function, since the frames have their owners. No
call waits there, so the operands are those of the note, and the scopes are as many as the blocks of
the note. That these are the blocks of the text is a fact about listings: a line outside functions
that returns is an occurrence of `return`.
-/

namespace Scriptlet

/-! ### Returning outside functions -/

/-- A `return` leaves the call. -/
theorem Instr.leaves_of_isReturn {i : Instr} (h : i.isReturn = true) : i.leaves = true := by
  cases i with
  | ret | retVoid => rfl
  | _ => cases h

/-- Expressions do not return. -/
theorem Expr.not_isReturn_of_mem_code {e : Expr} {i : Instr} (h : i ∈ e.code) :
    i.isReturn = false := by
  refine Bool.eq_false_iff.2 fun hreturn ↦ ?_
  exact absurd ((e.reads_code i h).leaves.symm.trans (Instr.leaves_of_isReturn hreturn)) nofun

/-- The line is a `return` of the text outside functions, with as many blocks around it as are open
at the line. -/
structure Occurrence.IsReturn (o : Occurrence) (e : Entry) : Prop where
  stmt : o.stmt = .giveBack none
  owner : o.owner = none
  offset : o.offset = e.offset
  depth : e.point.blocks.length = o.depth + 1

/-- Each line outside functions that returns is one of these occurrences. -/
def Listing.ReturnsAt (L : Listing) (os : List Occurrence) : Prop :=
  ∀ e ∈ L.entries, e.instr.isReturn = true → e.point.owner = none → ∃ o ∈ os, o.IsReturn e

namespace Listing.ReturnsAt

variable {L L' : Listing} {os os' : List Occurrence}

/-- Lines and occurrences are put together alike. -/
theorem append (h : L.ReturnsAt os) (h' : L'.ReturnsAt os') : (L ++ L').ReturnsAt (os ++ os') := by
  intro e he hreturn howner
  rcases List.mem_append.1 he with he | he
  · obtain ⟨o, ho, hat⟩ := h e he hreturn howner
    exact ⟨o, List.mem_append_left _ ho, hat⟩
  · obtain ⟨o, ho, hat⟩ := h' e he hreturn howner
    exact ⟨o, List.mem_append_right _ ho, hat⟩

/-- A listing without such lines in front of another one. -/
theorem of_nil_append (h : L.ReturnsAt []) (h' : L'.ReturnsAt os) : (L ++ L').ReturnsAt os :=
  h.append h'

theorem append_of_nil (h : L.ReturnsAt os) (h' : L'.ReturnsAt []) : (L ++ L').ReturnsAt os :=
  List.append_nil os ▸ h.append h'

theorem empty {fs : List Located} : Listing.ReturnsAt ⟨[], fs⟩ [] :=
  fun _ he ↦ absurd he List.not_mem_nil

/-- Lines that do not return. -/
theorem line {spot : Spot} {offset : Nat} {is : List Instr}
    (h : ∀ i ∈ is, i.isReturn = false) : (spot.line offset is).ReturnsAt [] := by
  intro e he hreturn
  rw [h e.instr (owner_of_mem_entriesOf he).2] at hreturn
  cases hreturn

/-- Lines in the body of a function. -/
theorem line_of_owner {spot : Spot} (howner : spot.owner ≠ none) (offset : Nat)
    (is : List Instr) : (spot.line offset is).ReturnsAt [] := by
  intro e he _ hnone
  exact absurd ((owner_of_mem_entriesOf he).1.symm.trans hnone) howner

/-- A condition and the jump for the case that it is false. -/
theorem test (spot : Spot) (offset target : Nat) (c : Expr) :
    (spot.line offset (c.code ++ [.jumpIfFalse target, .enterScope])).ReturnsAt [] := by
  refine line fun i hi ↦ ?_
  rcases List.mem_append.1 hi with hi | hi
  · exact Expr.not_isReturn_of_mem_code hi
  · simp only [List.mem_cons, List.not_mem_nil, or_false] at hi
    rcases hi with rfl | rfl <;> rfl

/-- The end of a block and the jump behind it. -/
theorem skip (spot : Spot) (offset target : Nat) :
    (spot.line offset [.exitScope, .jump target]).ReturnsAt [] := by
  refine line fun i hi ↦ ?_
  simp only [List.mem_cons, List.not_mem_nil, or_false] at hi
  rcases hi with rfl | rfl <;> rfl

/-- A line that is no `return` stands for no occurrence. -/
theorem single (spot : Spot) (offset : Nat) {i : Instr} (hi : i.isReturn = false) :
    (spot.line offset [i]).ReturnsAt [] :=
  line fun _ hj ↦ List.mem_singleton.1 hj ▸ hi

end Listing.ReturnsAt

/-- A statement without parts. Outside functions a `return` has no value. -/
theorem Stmt.returnsAt_line {spot : Spot} {s : Stmt} {is : List Instr} {loops : Nat} {place : Place}
    (hpos : 0 < spot.blocks.length) (hplace : spot.owner = none → place = .top)
    (hvalid : s.valid loops place = true) (h : s.flat? spot = some is) (offset : Nat) :
    (spot.line offset is).ReturnsAt [⟨s, spot.owner, spot.blocks.length - 1, offset⟩] := by
  intro e he hreturn howner
  obtain ⟨howner', hmem⟩ := owner_of_mem_entriesOf he
  have hnone : spot.owner = none := howner'.symm.trans howner
  obtain ⟨value, rfl⟩ := Stmt.exists_eq_giveBack h hmem (Instr.leaves_of_isReturn hreturn)
  rw [hplace hnone] at hvalid
  cases value with
  | some v => cases hvalid
  | none =>
    cases h
    obtain rfl := List.mem_singleton.1 he
    refine ⟨_, List.mem_singleton.2 rfl, rfl, hnone, rfl, ?_⟩
    show spot.blocks.length = spot.blocks.length - 1 + 1
    omega

mutual

theorem Stmt.Listed.returnsAt {spot spot' : Spot} {s : Stmt} {start stop loops : Nat}
    {place : Place} {L : Listing} (hspot : spot.Alike spot') (hpos : 0 < spot.blocks.length)
    (hplace : spot.owner = none → place = .top) (hvalid : s.valid loops place = true) :
    s.Listed spot start stop L → L.ReturnsAt (s.occurrences spot' start)
  | .flat h => by
    rw [Stmt.occurrences_of_flat? hspot h]
    exact Stmt.returnsAt_line hpos hplace hvalid h start
  | @Stmt.Listed.ifElse _ c body otherwise _ p q next _ _ _ hp hbody hnext hotherwise => by
    rw [Stmt.valid, Bool.and_eq_true, Bool.and_eq_true] at hvalid
    have hq := hbody.stop_eq hspot.inBlock
    rw [c.size_test next 0] at hp
    rw [Instr.size_skip stop 0] at hnext
    have hbody' := hbody.returnsAt hspot.inBlock (Nat.succ_pos _) hplace hvalid.1.1
    have hotherwise' := hotherwise.returnsAt hspot hpos hplace hvalid.1.2
    rw [hnext, hq, hp] at hotherwise'
    rw [hp] at hbody'
    rw [Stmt.occurrences]
    exact (((Listing.ReturnsAt.test _ _ _ c).of_nil_append hbody').append_of_nil
      (.skip _ _ _)).append hotherwise'
  | @Stmt.Listed.whileLoop _ c body _ p q _ _ hp hbody hstop => by
    rw [Stmt.valid] at hvalid
    rw [c.size_test stop 0] at hp
    have hbody' := hbody.returnsAt (hspot.inLoop start stop 0 0).inBlock (Nat.succ_pos _) hplace
      hvalid
    rw [hp] at hbody'
    rw [Stmt.occurrences]
    exact ((Listing.ReturnsAt.test _ _ _ c).of_nil_append hbody').append_of_nil (.skip _ _ _)
  | @Stmt.Listed.function _ head body _ p q _ _ hp hbody hstop => by
    rw [Stmt.valid, Bool.and_eq_true] at hvalid
    have hbody' := hbody.returnsAt (.refl (.body head)) Nat.one_pos nofun hvalid.1
    rw [hp] at hbody'
    have hhead : Listing.ReturnsAt ⟨[], [⟨head, body, p, stop⟩]⟩ [] := .empty
    have hclosing : ((Spot.body head).afterAll body).owner ≠ none := by
      rw [((Spot.body head).tail_blocks_afterAll body).2.2]
      exact nofun
    rw [Stmt.occurrences]
    exact ((((Listing.ReturnsAt.single _ _ rfl).of_nil_append hhead).of_nil_append
      hbody').append_of_nil (.line_of_owner hclosing _ _))
  | .block hbody => by
    rw [Stmt.valid] at hvalid
    have hbody' := hbody.returnsAt hspot.inBlock (Nat.succ_pos _) hplace hvalid
    rw [Stmt.occurrences]
    exact ((Listing.ReturnsAt.single _ _ rfl).of_nil_append hbody').append_of_nil (.single _ _ rfl)

/-- **What returns outside functions is a `return` of the text.** -/
theorem Stmt.ListedAll.returnsAt {spot spot' : Spot} {ss : List Stmt} {start stop loops : Nat}
    {place : Place} {L : Listing} (hspot : spot.Alike spot') (hpos : 0 < spot.blocks.length)
    (hplace : spot.owner = none → place = .top) (hvalid : Stmt.validAll loops place ss = true) :
    Stmt.ListedAll spot ss start stop L → L.ReturnsAt (Stmt.occurrencesAll spot' start ss)
  | .nil => .empty
  | @Stmt.ListedAll.cons _ s ss _ mid _ _ _ h hs => by
    rw [Stmt.validAll, Bool.and_eq_true] at hvalid
    have hafter : (spot.after s).blocks.length = spot.blocks.length ∧
        (spot.after s).owner = spot.owner :=
      (spot.tail_blocks_afterAll [s]).2
    have hmid := h.stop_eq hspot
    have hs' := hs.returnsAt (hspot.after s) (by omega) (hafter.2 ▸ hplace) hvalid.2
    rw [hmid] at hs'
    rw [Stmt.occurrencesAll]
    exact (h.returnsAt hspot hpos hplace hvalid.1).append hs'

end

/-! ### The last step -/

namespace Outline

variable {o o' : Outline} {t : Termination}

theorem push_ne_ended (limit : Nat) (v : Value) : o.push limit v ≠ .ended t o' := by
  rw [push]
  split <;> rintro ⟨⟩

theorem pushResult_ne_ended (limit : Nat) (r : Except ValueError Value) :
    o.pushResult limit r ≠ .ended t o' := by
  cases r with
  | ok v => exact push_ne_ended limit v
  | error e => rintro ⟨⟩

theorem onScopes_ne_ended (r : Except ScopeError Scopes) : o.onScopes r ≠ .ended t o' := by
  cases r <;> rintro ⟨⟩

theorem jumpTo_ne_ended (codeSize target : Nat) : o.jumpTo codeSize target ≠ .ended t o' := by
  rw [jumpTo]
  split <;> rintro ⟨⟩

end Outline

namespace Machine

variable {m : Machine} {o o' : Outline} {t : Termination} {i : Instr}

/-- The call of a built-in function ends no run. -/
theorem outlineCallBuiltin_ne_ended (b : Builtin) (args : List Value) :
    m.outlineCallBuiltin o b args ≠ .ended t o' := by
  rw [outlineCallBuiltin]
  split
  · exact Outline.push_ne_ended _ _
  · rintro ⟨⟩

/-- No call ends a run. -/
theorem outlineCall_ne_ended (name : String) (count : Nat) (isTail : Bool) :
    m.outlineCall o name count isTail ≠ .ended t o' := by
  rw [outlineCall]
  split
  · rw [outlineApply]
    split
    · split
      · rw [outlineCallFunction]
        split
        · exact Outline.onScopes_ne_ended _
        · split
          · exact Outline.onScopes_ne_ended _
          · rintro ⟨⟩
      · rintro ⟨⟩
    · split
      · rintro ⟨⟩
      · split
        · split
          · exact outlineCallBuiltin_ne_ended _ _
          · rintro ⟨⟩
        · exact outlineCallBuiltin_ne_ended _ _
  · rintro ⟨⟩

/-- A `return` ends a run only where no call waits, and it changes nothing then. -/
theorem outlineGiveBack_eq_ended {v : Option Value} (h : m.outlineGiveBack o v = .ended t o') :
    t = .returned ∧ o.callers = [] ∧ o' = o := by
  rw [outlineGiveBack] at h
  split at h
  · rename_i hcallers
    cases h
    exact ⟨rfl, hcallers, rfl⟩
  · exact absurd h (Outline.pushResult_ne_ended _ _)

/-- **Only `exit` and a `return` without a caller end a run.** -/
theorem outlineExec_eq_ended (h : m.outlineExec o i = .ended t o') :
    t = .halt ∨ t = .returned ∧ i.isReturn = true ∧ o.callers = [] ∧
      o' = { o with stack := o.stack.drop i.pops } := by
  -- Whatever leaves a value, changes the scopes or jumps goes on or fails.
  cases i with
  | halt =>
    cases h
    exact .inl rfl
  | ret =>
    rw [outlineExec] at h
    split at h
    · rename_i v stack hstack
      obtain ⟨rfl, hcallers, rfl⟩ := outlineGiveBack_eq_ended h
      exact .inr ⟨rfl, rfl, hcallers, by rw [hstack]; rfl⟩
    · cases h
  | retVoid =>
    obtain ⟨rfl, hcallers, rfl⟩ := outlineGiveBack_eq_ended h
    exact .inr ⟨rfl, rfl, hcallers, rfl⟩
  | pushInt n | pushFloat x | pushBool b | pushStr s | pushNull =>
    exact absurd h (Outline.push_ne_ended _ _)
  | jump target => exact absurd h (Outline.jumpTo_ne_ended _ _)
  | call name count | tailCall name count => exact absurd h (outlineCall_ne_ended _ _ _)
  | unset name | enterScope => cases h
  | makeList count | get name =>
    rw [outlineExec] at h
    split at h
    · exact absurd h (Outline.push_ne_ended _ _)
    · cases h
  | set name | decl name type | setIndex name =>
    rw [outlineExec] at h
    split at h
    · exact absurd h (Outline.onScopes_ne_ended _)
    · cases h
  | binary op | unary op | index | slice =>
    rw [outlineExec] at h
    split at h
    · exact absurd h (Outline.pushResult_ne_ended _ _)
    · cases h
  | pop | exitScope =>
    rw [outlineExec] at h
    split at h <;> cases h
  | jumpIfFalse target =>
    rw [outlineExec] at h
    split at h
    · split at h
      · cases h
      · exact absurd h (Outline.jumpTo_ne_ended _ _)
    · cases h

/-- How a step ends a run. -/
theorem outlineStep_eq_ended (h : m.outlineStep o = .ended t o') :
    t = .halt ∨ t = .endOfCode ∧ m.code.size ≤ o.ip ∧ o' = o ∨
      t = .returned ∧ o.callers = [] ∧ o.ip < m.code.size ∧
        ∃ i next, Instr.decode m.code o.ip = .ok (i, next) ∧ i.isReturn = true ∧
          o' = { o with ip := next, stack := o.stack.drop i.pops } := by
  rw [outlineStep] at h
  split at h
  · rename_i hlt
    rcases hdecode : Instr.decode m.code o.ip with e | ⟨i, next⟩
    · rw [hdecode] at h
      cases h
    · rw [hdecode] at h
      have hexec : m.outlineExec { o with ip := next } i = .ended t o' := by
        dsimp only at h
        generalize m.outlineExec { o with ip := next } i = r at h
        cases r with
        | ended => cases h; rfl
        | running | failed => cases h
      rcases outlineExec_eq_ended hexec with rfl | ⟨rfl, hreturn, hcallers, rfl⟩
      · exact .inl rfl
      · exact .inr (.inr ⟨rfl, hcallers, hlt, i, next, rfl, hreturn, rfl⟩)
  · rename_i hge
    cases h
    exact .inr (.inl ⟨rfl, Nat.le_of_not_lt hge, rfl⟩)

/-- A run and its outline end by the same step. -/
theorem exists_outlineStep_of_ended {s s' : State} (hout : s.Outlined o)
    (h : m.step s = .ended t s') : ∃ o', s'.Outlined o' ∧ m.outlineStep o = .ended t o' := by
  have hstep := m.step_outlined hout
  rw [h] at hstep
  generalize m.outlineStep o = r at hstep
  cases hstep with
  | ended hout' => exact ⟨_, hout', rfl⟩

/-- The end of the code leaves the state as it is. -/
theorem step_eq_endOfCode {s s' : State} (hout : s.Outlined o)
    (h : m.step s = .ended .endOfCode s') : m.code.size ≤ s.ip ∧ s' = s := by
  obtain ⟨o', -, hstep⟩ := exists_outlineStep_of_ended hout h
  obtain ⟨-, hge, -⟩ := ((outlineStep_eq_ended hstep).resolve_left nofun).resolve_right nofun
  rw [← hout.ip] at hge
  rw [step, if_neg (Nat.not_lt.2 hge)] at h
  cases h
  exact ⟨hge, rfl⟩

/-- A step from a state that is reached leads to one that is reached. -/
theorem Reaches.step {s s' : State} (hs : m.Reaches s) (hstep : m.step s = .running s') :
    m.Reaches s' := by
  obtain ⟨n, hn⟩ := hs
  refine ⟨n + 1, ?_⟩
  rw [runFor_add hn, runFor, hstep]
  rfl

/-- A run that ended had a last step. -/
theorem exists_reaches_of_ended {count : Nat} {s : State}
    (h : m.runFor count m.start = .ended t s) : ∃ s₀, m.Reaches s₀ ∧ m.step s₀ = .ended t s := by
  -- Along the steps that are left, from any state that the run comes to.
  have hfrom (k : Nat) (s₀ : State) (hs₀ : m.Reaches s₀) (hrun : m.runFor k s₀ = .ended t s) :
      ∃ s₁, m.Reaches s₁ ∧ m.step s₁ = .ended t s := by
    induction k generalizing s₀ with
    | zero => cases hrun
    | succ k ih =>
      rw [runFor] at hrun
      split at hrun
      · rename_i s₁ hstep
        exact ih s₁ (hs₀.step hstep) hrun
      · exact ⟨s₀, hs₀, hrun⟩
  exact hfrom count m.start ⟨0, rfl⟩ h

end Machine

/-! ### Compiled programs -/

/-- While no call waits, the operands are those of the program itself, and there are as many scopes
as blocks are open, with one for the program. -/
theorem State.Outlined.alone {s : State} {o : Outline} (h : s.Outlined o)
    (hcallers : o.callers = []) :
    s.stack.size = o.stack.length ∧ s.frameDepth = 1 ∧ s.liveScopes = o.blocks + 1 := by
  refine ⟨h.size_stack, ?_, ?_⟩
  · rw [State.frameDepth, h.size_callers, hcallers]
    rfl
  · obtain ⟨ids, hstacked, hframed⟩ := h.frames
    rw [hcallers] at hframed
    generalize s.callers.toList.reverse = cs at hframed
    cases hframed with
    | top hspans => rw [State.liveScopes, hstacked.live_eq, hspans.length]

/-- While no call waits, a point has all operands. -/
theorem Outline.At.length_stack {Marks : Nat → Point → Prop} {o : Outline} {q : Point}
    (h : o.At Marks q) (hcallers : o.callers = []) : o.stack.length = q.height := by
  obtain ⟨n, hlength, hwaits⟩ := h.stack
  rw [hcallers] at hwaits
  cases hwaits
  exact hlength

namespace Image.Compiled

variable {image : Image} {p : Program} {L : Listing} {table : Table} {limits : Limits} {s : State}

/-- What is noted where a run is holds, and it is a line of the program itself just if no call
waits. -/
theorem exists_at_of_reaches (h : image.Compiled p L)
    (hs : (Machine.ofImage image table limits).Reaches s) :
    ∃ o q, s.Outlined o ∧ h.lists.Notes o.ip q ∧ o.At h.lists.Notes q ∧
      (q.owner = none ↔ o.callers = []) := by
  obtain ⟨o, hout, q, hnotes, hat⟩ :=
    (h.lists.noted h.valid table limits).exists_safe_of_reaches hs
  refine ⟨o, q, hout, hnotes, hat, ?_⟩
  obtain ⟨count, hrun⟩ := hs
  obtain ⟨o', hout', hframes⟩ := h.frames_runFor (Machine.start_outlined _) h.frames_start hrun
  have hip : o'.ip = o.ip := hout'.ip.symm.trans hout.ip
  have hlength : o.callers.length = o'.callers.length :=
    hout.size_callers.symm.trans hout'.size_callers
  rw [hip] at hframes
  generalize o'.callers = ws at hframes hlength
  generalize (Machine.ofImage image table limits).ownersFor count _ _ = owners at hframes
  -- The frames name the owner of the line, and there is one note at it.
  cases hframes with
  | top hnotes' howner =>
    rw [h.lists.onePoint hnotes hnotes', howner]
    exact ⟨fun _ ↦ List.eq_nil_of_length_eq_zero hlength, fun _ ↦ rfl⟩
  | inner hnotes' _ howner _ =>
    rw [h.lists.onePoint hnotes hnotes', howner]
    refine ⟨nofun, fun hnil ↦ ?_⟩
    rw [hnil] at hlength
    cases hlength

/-- Where no call waits and the code is at its end, nothing is left but the global scope. -/
theorem finalState_of_endOfCode (h : image.Compiled p L)
    (hs : (Machine.ofImage image table limits).Reaches s) (hend : image.code.size ≤ s.ip) :
    s.stack = #[] ∧ s.frameDepth = 1 ∧ s.liveScopes = 1 := by
  obtain ⟨o, q, hout, hnotes, hat, howner⟩ := h.exists_at_of_reaches hs
  rw [hout.ip] at hend
  -- No line is there, so what is noted is what is known behind the program.
  obtain ⟨-, rfl⟩ := hnotes.resolve_left fun ⟨e, he, hip, _⟩ ↦ by
    have := (h.lists.divided.adjoin.bounds.2 e he).2
    have := e.offset_lt_next
    omega
  obtain ⟨-, hblocks, hnone⟩ := Spot.top.tail_blocks_afterAll p
  have hcallers := howner.1 hnone
  obtain ⟨hsize, hdepth, hlive⟩ := hout.alone hcallers
  refine ⟨Array.size_eq_zero_iff.1 (hsize.trans (hat.length_stack hcallers)), hdepth, ?_⟩
  rw [hlive, ← hat.blocks]
  exact hblocks

/-- A `return` without a caller has taken all operands. It is one of the text, and the blocks around
it there are open. -/
theorem finalState_of_returned (h : image.Compiled p L) {s₀ : State}
    (hs : (Machine.ofImage image table limits).Reaches s₀)
    (hstep : (Machine.ofImage image table limits).step s₀ = .ended .returned s) :
    s.stack = #[] ∧ s.frameDepth = 1 ∧ ∃ o ∈ p.occurrences, o.stmt = .giveBack none ∧
      o.owner = none ∧ o.offset = s₀.ip ∧ s.liveScopes = 1 + o.depth := by
  obtain ⟨o, q, hout, hnotes, hat, howner⟩ := h.exists_at_of_reaches hs
  obtain ⟨o', hout', hstep'⟩ := Machine.exists_outlineStep_of_ended hout hstep
  obtain ⟨-, hcallers, hlt, i, next, hdecode, hreturn, rfl⟩ :=
    ((Machine.outlineStep_eq_ended hstep').resolve_left nofun).resolve_left nofun
  obtain ⟨e, he, hip, rfl, rfl⟩ := h.exists_entry hnotes hlt hdecode
  have hleaves : e.instr.leaves = true := by
    revert hreturn
    cases e.instr <;> first | exact fun _ ↦ rfl | nofun
  -- A `return` of the program itself finds no operand below those that it takes.
  have hheight : o.stack.length = e.instr.pops :=
    (hat.length_stack hcallers).trans
      (((h.lists.sound h.valid).2.entries e he).admits.height_eq hleaves)
  obtain ⟨hsize, hdepth, hlive⟩ := hout'.alone hcallers
  obtain ⟨occ, hocc, hat'⟩ := h.lists.listed.returnsAt (.refl .top) Nat.one_pos (fun _ ↦ rfl)
    h.valid e he hreturn (howner.2 hcallers)
  refine ⟨Array.size_eq_zero_iff.1 ?_, hdepth, occ, hocc, hat'.stmt, hat'.owner, ?_, ?_⟩
  · rw [hsize, ← hheight, List.drop_length]
    rfl
  · rw [hat'.offset, hip, hout.ip]
  · have hblocks := hat.blocks
    rw [hat'.depth] at hblocks
    rw [hlive]
    show o.blocks + 1 = 1 + occ.depth
    omega

end Image.Compiled

/-- **A run leaves nothing behind but open blocks.** Take a compiled program, any host and any
limits. A run that comes to the end of the code leaves no operands, no frame but that of the program
and no scope but the global one. A run that is ended by a `return` was ended by one that stands in
the text outside functions. It leaves no operands and no other frame either, and one more scope for
each block that stands around this `return` in the text. -/
theorem finalState_of_compile {source : String} {ts : Tokens} {p : Program} {image : Image}
    (hts : Tokens.ofText source = .ok ts) (hp : Program.ofTokens ts = .ok p)
    (h : compile source = .ok image) (table : Table) (limits : Limits) {count : Nat}
    {t : Termination} {s : State} (hrun : (Machine.ofImage image table limits).runFor count
      (Machine.ofImage image table limits).start = .ended t s) :
    (t = .endOfCode → s.stack = #[] ∧ s.frameDepth = 1 ∧ s.liveScopes = 1) ∧
    (t = .returned → s.stack = #[] ∧ s.frameDepth = 1 ∧
      ∃ s₀, (Machine.ofImage image table limits).Reaches s₀ ∧
        (Machine.ofImage image table limits).step s₀ = .ended .returned s ∧
        ∃ o ∈ p.occurrences, o.stmt = .giveBack none ∧ o.owner = none ∧ o.offset = s₀.ip ∧
          s.liveScopes = 1 + o.depth) := by
  obtain ⟨p', hp', hassemble⟩ := exists_program_of_compileTokens (compileTokens_of_compile hts h)
  obtain rfl : p = p' := Except.ok.inj (hp.symm.trans hp')
  obtain ⟨L, hc⟩ := Program.exists_compiled hp hassemble
  obtain ⟨s₀, hs₀, hstep⟩ := Machine.exists_reaches_of_ended hrun
  constructor
  · rintro rfl
    obtain ⟨o, hout⟩ := hs₀.exists_outline
    obtain ⟨hge, rfl⟩ := Machine.step_eq_endOfCode hout hstep
    exact hc.finalState_of_endOfCode hs₀ hge
  · rintro rfl
    obtain ⟨hstack, hdepth, hreturn⟩ := hc.finalState_of_returned hs₀ hstep
    exact ⟨hstack, hdepth, s₀, hs₀, hstep, hreturn⟩

/-- A `return` inside two blocks, behind a call of a function that returns from inside a block of
its own. -/
def returnsFromBlocks : String :=
  "func f(n) \x7b \x7b return n; \x7d \x7d let i = 0; " ++
    "while (true) \x7b if (f(i)) \x7b return; \x7d i = i + 1; \x7d"

/-- The function has given back its scopes; the two blocks of the program are left open. -/
theorem finalState_returnsFromBlocks :
    ∃ ts p image s, Tokens.ofText returnsFromBlocks = .ok ts ∧ Program.ofTokens ts = .ok p ∧
      compile returnsFromBlocks = .ok image ∧
      (Machine.ofImage image .empty {}).runFor 50 (Machine.ofImage image .empty {}).start =
        .ended .returned s ∧ s.liveScopes = 3 ∧ s.stack = #[] ∧ s.frameDepth = 1 ∧
      ∃ s₀, (Machine.ofImage image .empty {}).Reaches s₀ ∧
        (Machine.ofImage image .empty {}).step s₀ = .ended .returned s ∧
        ∃ o ∈ p.occurrences, o.stmt = .giveBack none ∧ o.owner = none ∧ o.offset = s₀.ip ∧
          s.liveScopes = 1 + o.depth := by
  have hruns : testRun returnsFromBlocks {} 50
      (fun _ r ↦ r.endsIn .returned (fun s ↦ decide (s.liveScopes = 3))) = true := by
    decide +kernel
  obtain ⟨ts, p, image, hts, hp, h, hruns⟩ := exists_of_testRun hruns
  obtain ⟨s, hrun, hscopes⟩ := Machine.Progress.exists_of_endsIn hruns
  obtain ⟨hstack, hdepth, hreturn⟩ := (finalState_of_compile hts hp h .empty {} hrun).2 rfl
  exact ⟨ts, p, image, s, hts, hp, h, hrun, of_decide_eq_true hscopes, hstack, hdepth, hreturn⟩

end Scriptlet
