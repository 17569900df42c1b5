import Scriptlet.Proofs.Machine.Moves
import Scriptlet.Proofs.Machine.ScopeChain

/-!
# Calls leave the operands below their own alone

All calls keep their operands on one stack, and no frame says where its own begin. That a call stays
above the operands that were there before it has two parts.

* An action that finds its operands among the last ones does **not depend on** what is below them,
  only on how much it is. `Exec.Acts` says so for one action, and `Machine.step_onto` for a step.
* A call of a compiled program always finds its operands among its own. The notes of a listing give
  their number, and the calls that wait have as many operands as their notes say, so the total
  tells how many belong to the call.

Together they give more than that the operands below are still there when the call ends: with other
operands below, the run would have been the same.
-/

namespace Scriptlet

/-! ### States on top of other operands -/

/-- The state with more operands below its own. -/
def State.onto (under : Array Value) (s : State) : State :=
  { s with stack := under ++ s.stack }

/-- The same with more operands below in the state. -/
def Machine.Progress.onto (under : Array Value) : Machine.Progress → Machine.Progress
  | running s => .running (s.onto under)
  | ended t s => .ended t (s.onto under)
  | failed f s => .failed f (s.onto under)

namespace Exec

variable {α β : Type} {n : Nat} {u u' : State}

/-- The same with more operands below in the state. -/
def ontoResult (under : Array Value) :
    EStateM.Result FaultCause State α → EStateM.Result FaultCause State α
  | .ok a s => .ok a (s.onto under)
  | .error e s => .error e (s.onto under)

/-- What an action does on top of so many operands, whichever they are. -/
def Acts (n : Nat) (u : State) (x : Exec α) (r : EStateM.Result FaultCause State α) : Prop :=
  ∀ under : Array Value, under.size = n → x (u.onto under) = ontoResult under r

/-- The action does not depend on the operands below those of a state. -/
def Spares (n : Nat) (u : State) (x : Exec α) : Prop :=
  ∃ r, Acts n u x r

/-- The action takes no operands at all. -/
def TakesNone (x : Exec α) : Prop :=
  ∀ n u, Spares n u x

/-- What goes on after success spares the operands below if it does so from there. -/
theorem Acts.bind_ok {x : Exec α} {f : α → Exec β} {a : α} (hx : Acts n u x (.ok a u'))
    (hf : Spares n u' (f a)) : Spares n u (x >>= f) := by
  obtain ⟨r, hr⟩ := hf
  refine ⟨r, fun under hunder ↦ ?_⟩
  show EStateM.bind x f (u.onto under) = _
  rw [EStateM.bind, hx under hunder]
  exact hr under hunder

/-- An action that takes no operands may follow. -/
theorem Spares.bind {x : Exec α} {f : α → Exec β} (hx : Spares n u x)
    (hf : ∀ a, TakesNone (f a)) : Spares n u (x >>= f) := by
  obtain ⟨r, hr⟩ := hx
  cases r with
  | ok a u' => exact hr.bind_ok (hf a n u')
  | error e u' =>
    refine ⟨.error e u', fun under hunder ↦ ?_⟩
    show EStateM.bind x f (u.onto under) = _
    rw [EStateM.bind, hr under hunder]
    rfl

namespace TakesNone

/-- Two actions that take no operands do not take any together. -/
theorem bind {x : Exec α} {f : α → Exec β} (hx : TakesNone x) (hf : ∀ a, TakesNone (f a)) :
    TakesNone (x >>= f) :=
  fun n u ↦ (hx n u).bind hf

/-- The action does not look at the stack. -/
theorem ofBlind {x : Exec α} (hx : ∀ u under, x (u.onto under) = ontoResult under (x u)) :
    TakesNone x :=
  fun _ u ↦ ⟨x u, fun under _ ↦ hx u under⟩

theorem pure (a : α) : TakesNone (Pure.pure a) :=
  ofBlind fun _ _ ↦ rfl

theorem throw (e : FaultCause) : TakesNone (MonadExcept.throw e : Exec α) :=
  ofBlind fun _ _ ↦ rfl

theorem ofValue (r : Except ValueError α) : TakesNone (Exec.ofValue r) := by
  cases r with
  | ok a => exact pure a
  | error e => exact throw _

/-- Pushing looks at the number of operands only. -/
theorem push (limit : Nat) (v : Value) : TakesNone (Exec.push limit v) := by
  intro n u
  refine ⟨if n + u.stack.size < limit then .ok () { u with stack := u.stack.push v }
    else .error (.stackOverflow limit) u, fun under hunder ↦ ?_⟩
  rw [Exec.push, State.onto, Array.size_append, hunder]
  split
  · rw [ontoResult, State.onto, Array.append_push]
  · rfl

theorem scope : TakesNone Exec.scope :=
  ofBlind fun _ _ ↦ rfl

theorem onArena (f : Arena → Except ScopeError Unit × Arena) : TakesNone (Exec.onArena f) := by
  refine ofBlind fun u under ↦ ?_
  rw [Exec.onArena, Exec.onArena, State.onto]
  rcases f u.arena with ⟨- | -, arena⟩ <;> rfl

theorem read (name : String) : TakesNone (Exec.read name) := by
  refine ofBlind fun u under ↦ ?_
  rw [Exec.read, Exec.read, State.onto]
  rcases u.arena.get u.frame.scope name with - | - <;> rfl

theorem jumpTo (codeSize target : Nat) : TakesNone (Exec.jumpTo codeSize target) := by
  refine ofBlind fun u under ↦ ?_
  rw [Exec.jumpTo, Exec.jumpTo]
  split <;> rfl

theorem enterScope : TakesNone Exec.enterScope :=
  ofBlind fun _ _ ↦ rfl

theorem exitScope : TakesNone Exec.exitScope := by
  refine ofBlind fun u under ↦ ?_
  rw [Exec.exitScope, Exec.exitScope, State.onto]
  dsimp only
  split
  · rfl
  · rcases u.arena.release u.frame.scope with ⟨- | -, arena⟩ <;> rfl

/-- Parameters are bound to values that have been taken already. -/
theorem bindParams (id : ScopeId) (ps : List String) (vs : List Value) :
    TakesNone (Exec.bindParams id ps vs) := by
  induction ps generalizing vs with
  | nil => exact pure ()
  | cons p ps ih =>
    cases vs with
    | nil => exact pure ()
    | cons v vs => exact (onArena _).bind fun _ ↦ ih vs

theorem goTo (f : Function) : TakesNone (Exec.goTo f) :=
  ofBlind fun _ _ ↦ rfl

/-- A frame is opened or not without a look at the operands. -/
theorem openFrame (limit : Nat) (f : Function) : TakesNone (Exec.openFrame limit f) := by
  refine ofBlind fun u under ↦ ?_
  rw [Exec.openFrame, Exec.openFrame, State.onto]
  dsimp only
  split <;> rfl

theorem replaceFrame? (f : Function) : TakesNone (Exec.replaceFrame? f) := by
  refine ofBlind fun u under ↦ ?_
  rw [Exec.replaceFrame?, Exec.replaceFrame?, State.onto]
  dsimp only
  rcases u.callers.back? with - | caller <;> rfl

theorem note (c : Call) : TakesNone (Exec.note c) :=
  ofBlind fun _ _ ↦ rfl

/-- A frame is left with the operands as they are. -/
theorem leaveFrame? : TakesNone Exec.leaveFrame? := by
  refine ofBlind fun u under ↦ ?_
  rw [Exec.leaveFrame?, Exec.leaveFrame?, State.onto]
  dsimp only
  rcases u.callers.back? with - | caller <;> rfl

theorem closeFrame (f : Frame) (resume : Nat) : TakesNone (Exec.closeFrame f resume) :=
  ofBlind fun _ _ ↦ rfl

end TakesNone

/-! ### Taking operands -/

namespace Spares

variable {f : Value → Exec β}

/-- An operand of the state itself is taken. -/
theorem pop_bind (h : 1 ≤ u.stack.size)
    (hf : ∀ v, Spares n { u with stack := u.stack.pop } (f v)) : Spares n u (pop >>= f) := by
  obtain ⟨own, v, hown⟩ := Array.exists_push_of_size_pos h
  have hpop : Acts n u pop (.ok v { u with stack := u.stack.pop }) := by
    intro under _
    rw [pop, State.onto, hown, ← Array.push_append, Array.back?_push, Array.pop_push]
    dsimp only
    rw [Array.pop_push]
    rfl
  exact hpop.bind_ok (hf v)

/-- Operands of the state itself are taken. -/
theorem popMany_bind {count : Nat} {f : List Value → Exec β} (h : count ≤ u.stack.size)
    (hf : ∀ vs, Spares n { u with stack := u.stack.extract 0 (u.stack.size - count) } (f vs)) :
    Spares n u (popMany count >>= f) := by
  have hpop : Acts n u (popMany count) (.ok (u.stack.extract (u.stack.size - count)).toList
      { u with stack := u.stack.extract 0 (u.stack.size - count) }) := by
    intro under _
    have hle : count ≤ under.size + u.stack.size := by omega
    have hrest : under.size + u.stack.size - count = under.size + (u.stack.size - count) := by omega
    have htaken : (under ++ u.stack).extract (under.size + (u.stack.size - count))
        (under.size + u.stack.size) = u.stack.extract (u.stack.size - count) := by
      rw [Array.extract_append, Nat.add_sub_cancel_left, Nat.add_sub_cancel_left,
        Array.extract_eq_empty_of_le (by omega), Array.empty_append]
    have hkept : (under ++ u.stack).extract 0 (under.size + (u.stack.size - count)) =
        under ++ u.stack.extract 0 (u.stack.size - count) := by
      rw [Array.extract_append, Nat.zero_sub, Nat.add_sub_cancel_left,
        Array.extract_eq_self_of_le (Nat.le_add_right _ _)]
    rw [popMany, State.onto]
    dsimp only
    rw [Array.size_append, if_pos hle, hrest, htaken, hkept]
    rfl
  exact hpop.bind_ok (hf _)

end Spares

end Exec

namespace Machine

open Exec

variable (m : Machine) {n : Nat} {u : State}

/-- A function is entered when its arguments have been taken. -/
theorem takesNone_callFunction (f : Function) (args : List Value) (isTail : Bool) :
    TakesNone (m.callFunction f args isTail) := by
  have hplace : TakesNone (if isTail then replaceFrame? f else pure none) := by
    split
    · exact .replaceFrame? f
    · exact .pure none
  have henter (id : ScopeId) : TakesNone (do Exec.bindParams id f.params args; Exec.goTo f) :=
    (TakesNone.bindParams id _ _).bind fun _ ↦ .goTo f
  refine hplace.bind fun id ↦ ?_
  cases id with
  | some id => exact henter id
  | none => exact (TakesNone.openFrame _ f).bind henter

/-- A built-in function leaves at most one result. -/
theorem takesNone_callBuiltin (b : Builtin) (args : List Value) :
    TakesNone (m.callBuiltin b args) := by
  refine (TakesNone.note _).bind fun _ ↦ ?_
  split
  · exact .push _ _
  · exact .throw _

/-- A call takes its arguments, and nothing below them. -/
theorem spares_call {name : String} {count : Nat} {isTail : Bool} (h : count ≤ u.stack.size) :
    Spares n u (m.call name count isTail) := by
  refine Spares.popMany_bind h fun args ↦ ?_
  split
  · split
    · exact m.takesNone_callFunction _ _ _ _ _
    · exact TakesNone.throw _ _ _
  · split
    · exact TakesNone.throw _ _ _
    · split
      · split
        · exact m.takesNone_callBuiltin _ _ _ _
        · exact TakesNone.throw _ _ _
      · exact m.takesNone_callBuiltin _ _ _ _

/-- To give a value back takes nothing more. -/
theorem takesNone_giveBack (v : Option Value) : TakesNone (m.giveBack v) := by
  refine TakesNone.leaveFrame?.bind fun left ↦ ?_
  cases left with
  | none => exact .pure _
  | some left =>
    exact (TakesNone.ofValue _).bind fun v ↦ (TakesNone.closeFrame _ _).bind fun _ ↦
      (TakesNone.push _ v).bind fun _ ↦ .pure none

/-- Pushing ends most instructions. -/
theorem takesNone_push (v : Value) :
    TakesNone (do push m.limits.maxStack v; return (none : Option Termination)) :=
  (TakesNone.push _ v).bind fun _ ↦ .pure none

theorem takesNone_pushResult (r : Except ValueError Value) :
    TakesNone (do
      let v ← ofValue r
      push m.limits.maxStack v
      return (none : Option Termination)) :=
  (TakesNone.ofValue r).bind fun v ↦ m.takesNone_push v

theorem takesNone_onArena (f : ScopeId → Arena → Except ScopeError Unit × Arena) :
    TakesNone (do
      let id ← scope
      onArena (f id)
      return (none : Option Termination)) :=
  TakesNone.scope.bind fun _ ↦ (TakesNone.onArena _).bind fun _ ↦ .pure none

/-- **An instruction that finds its operands does not depend on those below.** -/
theorem spares_execute (i : Instr) (h : i.pops ≤ u.stack.size) : Spares n u (m.execute i) := by
  -- What it takes it takes first, so the rest of it takes no operands.
  cases i with
  | pushInt k => exact m.takesNone_push _ n u
  | pushFloat x => exact m.takesNone_push _ n u
  | pushBool b => exact m.takesNone_push _ n u
  | pushStr s => exact m.takesNone_push _ n u
  | pushNull => exact m.takesNone_push _ n u
  | makeList count => exact Spares.popMany_bind h fun items ↦ m.takesNone_push _ n _
  | get name => exact (TakesNone.read name).bind (fun v ↦ m.takesNone_push v) n u
  | set name =>
    exact Spares.pop_bind h fun v ↦ takesNone_onArena (fun id a ↦ a.assign id name v) n _
  | decl name type =>
    exact Spares.pop_bind h fun v ↦ takesNone_onArena (fun id a ↦ a.declare id name type v) n _
  | unset name => exact takesNone_onArena (fun id a ↦ (.ok (), (a.unset id name).2)) n u
  | pop => exact Spares.pop_bind h fun _ ↦ TakesNone.pure none n _
  | binary op =>
    have htwo : 2 ≤ u.stack.size := h
    refine Spares.pop_bind (by omega) fun b ↦ Spares.pop_bind ?_ fun a ↦ ?_
    · simp only [Array.size_pop]
      omega
    · exact m.takesNone_pushResult _ n _
  | unary op => exact Spares.pop_bind h fun a ↦ m.takesNone_pushResult _ n _
  | index =>
    have htwo : 2 ≤ u.stack.size := h
    refine Spares.pop_bind (by omega) fun b ↦ Spares.pop_bind ?_ fun a ↦ ?_
    · simp only [Array.size_pop]
      omega
    · exact m.takesNone_pushResult _ n _
  | slice =>
    have hthree : 3 ≤ u.stack.size := h
    refine Spares.pop_bind (by omega) fun c ↦ Spares.pop_bind ?_ fun b ↦
      Spares.pop_bind ?_ fun a ↦ ?_
    · simp only [Array.size_pop]
      omega
    · simp only [Array.size_pop]
      omega
    · exact m.takesNone_pushResult _ n _
  | setIndex name =>
    have htwo : 2 ≤ u.stack.size := h
    refine Spares.pop_bind (by omega) fun v ↦ Spares.pop_bind ?_ fun i ↦ ?_
    · simp only [Array.size_pop]
      omega
    · exact takesNone_onArena
        (fun id a ↦ a.update id name fun container ↦ container.setIndex i v) n _
  | jump target => exact (TakesNone.jumpTo _ target).bind (fun _ ↦ .pure none) n u
  | jumpIfFalse target =>
    refine Spares.pop_bind h fun condition ↦ ?_
    split
    · exact TakesNone.pure none n _
    · exact (TakesNone.jumpTo _ target).bind (fun _ ↦ .pure none) n _
  | call name count => exact (m.spares_call h).bind fun _ ↦ .pure none
  | tailCall name count => exact (m.spares_call h).bind fun _ ↦ .pure none
  | ret => exact Spares.pop_bind h fun v ↦ m.takesNone_giveBack _ n _
  | retVoid => exact m.takesNone_giveBack _ n u
  | enterScope => exact TakesNone.enterScope.bind (fun _ ↦ .pure none) n u
  | exitScope => exact TakesNone.exitScope.bind (fun _ ↦ .pure none) n u
  | halt => exact TakesNone.pure _ n u

/-- **A step that finds its operands does not depend on those below.** -/
theorem step_onto
    (h : u.ip < m.code.size → ∀ i next, Instr.decode m.code u.ip = .ok (i, next) →
      i.pops ≤ u.stack.size) :
    ∃ r : Progress, ∀ under : Array Value, under.size = n →
      m.step (u.onto under) = r.onto under := by
  -- Neither the end of the code nor the instruction depends on operands.
  by_cases hlt : u.ip < m.code.size
  · rcases hdecode : Instr.decode m.code u.ip with e | ⟨i, next⟩
    · refine ⟨.failed ⟨.malformed (.decode e), u.ip⟩ u, fun under _ ↦ ?_⟩
      rw [step, State.onto]
      simp only [hlt, if_true, hdecode]
      rfl
    · obtain ⟨r, hr⟩ := m.spares_execute (n := n) (u := { u with ip := next }) i
        (h hlt i next hdecode)
      have hexecute (under : Array Value) (hunder : under.size = n) :
          m.execute i ⟨next, under ++ u.stack, u.frame, u.callers, u.arena, u.calls⟩ =
            ontoResult under r := hr under hunder
      rcases r with ⟨- | t, u'⟩ | ⟨cause, u'⟩
      · refine ⟨.running u', fun under hunder ↦ ?_⟩
        simp only [step, State.onto, hlt, if_true, hdecode, hexecute under hunder]
        rfl
      · refine ⟨.ended t u', fun under hunder ↦ ?_⟩
        simp only [step, State.onto, hlt, if_true, hdecode, hexecute under hunder]
        rfl
      · refine ⟨.failed ⟨cause, u.ip⟩ u', fun under hunder ↦ ?_⟩
        simp only [step, State.onto, hlt, if_true, hdecode, hexecute under hunder]
        rfl
  · refine ⟨.ended .endOfCode u, fun under _ ↦ ?_⟩
    rw [step, State.onto]
    simp only [hlt, if_false]
    rfl

end Machine

/-! ### The operands of the calls that wait -/

/-- At most one point is noted at an offset. -/
def OnePoint (Marks : Nat → Point → Prop) : Prop :=
  ∀ ⦃offset : Nat⦄ ⦃q q' : Point⦄, Marks offset q → Marks offset q' → q = q'

/-- A listing notes one point at an offset, since its lines have different offsets. -/
theorem Image.Lists.onePoint {image : Image} {p : Program} {L : Listing} (h : image.Lists p L) :
    OnePoint h.Notes := by
  intro offset q q' hq hq'
  have hadjoin := h.divided.adjoin
  -- No line is at the end of the code.
  have hlt (e : Entry) (he : e ∈ L.entries) : e.offset < image.code.size :=
    Nat.lt_of_lt_of_le e.offset_lt_next (hadjoin.bounds.2 e he).2
  rcases hq with ⟨e, he, rfl, rfl⟩ | ⟨rfl, rfl⟩ <;> rcases hq' with ⟨e', he', heq, rfl⟩ | ⟨heq, rfl⟩
  · rw [hadjoin.eq_of_offset_eq he he' heq.symm]
  · exact absurd heq (Nat.ne_of_lt (hlt e he))
  · exact absurd heq (Nat.ne_of_lt (hlt e' he'))
  · rfl

variable {Marks : Nat → Point → Prop} {ws inner base : List Waiting} {n n' : Nat}

namespace Waits

/-- Where one point is noted at an offset, the number of operands is determined. -/
theorem unique (hunique : OnePoint Marks) (h : Waits Marks ws n) (h' : Waits Marks ws n') :
    n = n' := by
  induction h generalizing n' with
  | nil =>
    cases h'
    rfl
  | @cons w ws p n hresume _ _ ih =>
    cases h' with
    | @cons _ _ p' n' hresume' _ rest' =>
      have hheight : p.height + 1 = p'.height + 1 :=
        congrArg Point.height (hunique hresume hresume')
      rw [ih rest', Nat.succ.inj hheight]

/-- The calls that wait further out have no more operands than all of them. -/
theorem le_of_append (hunique : OnePoint Marks) (h : Waits Marks (inner ++ base) n)
    (hbase : Waits Marks base n') : n' ≤ n := by
  induction inner generalizing n with
  | nil => exact Nat.le_of_eq (hbase.unique hunique h)
  | cons w inner ih =>
    cases h with
    | cons _ _ rest =>
      have := ih rest
      omega

end Waits

/-! ### The course of a call -/

/-- The operands below the last ones, in a state and in its outline. -/
theorem State.Outlined.reverse_drop_stack {s : State} {o : Outline} (h : s.Outlined o)
    {pre own : Array Value} (hstack : s.stack = pre ++ own) :
    (o.stack.drop own.size).reverse = pre.toList := by
  have hlength : o.stack.length - own.size = pre.toList.length := by
    rw [← h.size_stack, hstack, Array.size_append, Nat.add_sub_cancel, Array.length_toList]
  rw [List.reverse_drop, ← h.stack, hstack, Array.toList_append, hlength, List.take_left]

/-- A state in the course of a call. The calls that wait are those that waited when it began, the
one that made it included, and maybe others inside it. -/
structure InCall (Marks : Nat → Point → Prop) (base : List Waiting) (s : State) (o : Outline) :
    Prop where
  outlined : s.Outlined o
  safe : o.Safe Marks
  callers : ∃ inner, o.callers = inner ++ base

namespace Machine.Noted

variable {m : Machine} {o o' : Outline} {s s' : State} {i : Instr} {next : Nat}

/-- An instruction has its operands on top of those of the calls that wait. Where it leaves the
call, it has no others. -/
theorem pops_add_le (h : m.Noted Marks) (hunique : OnePoint Marks) (ho : o.Safe Marks)
    (hcallers : o.callers = inner ++ base) (hbase : Waits Marks base n)
    (hlt : o.ip < m.code.size) (hdecode : Instr.decode m.code o.ip = .ok (i, next)) :
    i.pops + n ≤ o.stack.length ∧
      (inner = [] → i.leaves = true → i.pops + n = o.stack.length) := by
  obtain ⟨q, hmarks, -, total, hstack, hwaits⟩ := ho
  obtain ⟨i', hstands, hsound⟩ := h.line hmarks hlt
  obtain ⟨rfl, -⟩ := Prod.mk.inj (Except.ok.inj (hdecode.symm.trans hstands))
  rw [hcallers] at hwaits
  have hpops : i.pops ≤ q.height := hsound.admits.pops_le
  have hle := hwaits.le_of_append hunique hbase
  refine ⟨by omega, fun hinner hleaves ↦ ?_⟩
  subst hinner
  have hheight : q.height = i.pops := hsound.admits.height_eq hleaves
  have := hbase.unique hunique hwaits
  omega

/-- A step from an outline that agrees with a point leads to such an outline. -/
theorem safe_of_outlineStep (h : m.Noted Marks) (ho : o.Safe Marks)
    (hstep : m.outlineStep o = .running o') : o'.Safe Marks := by
  have hsafe := h.outlineStep_safe ho
  rw [hstep] at hsafe
  exact hsafe

/-- **A step in the course of a call stays in it or returns from it.** On return just the operands
that were there before the call are left, and one more. -/
theorem inCall_step (h : m.Noted Marks) (hunique : OnePoint Marks) {w : Waiting}
    (hbase : Waits Marks (w :: ws) n) (hs : InCall Marks (w :: ws) s o)
    (hstep : m.step s = .running s') :
    ∃ o', InCall Marks (w :: ws) s' o' ∨
      s'.Outlined o' ∧ o'.callers = ws ∧ o'.ip = w.resume ∧
        ∃ v k, k + n = o.stack.length ∧ o'.stack = v :: o.stack.drop k := by
  obtain ⟨o', hout', hstep'⟩ := exists_outlineStep_of_step hs.outlined hstep
  have hsafe := h.safe_of_outlineStep hs.safe hstep'
  obtain ⟨i, next, hlt, hdecode, hmoves⟩ := exists_moves_of_outlineStep hstep'
  obtain ⟨inner, hcallers⟩ := hs.callers
  refine ⟨o', ?_⟩
  -- Only a `return` ends the call, and only if no other call is in progress inside it.
  cases hmoves with
  | goesOn _ _ _ hsame => exact .inl ⟨hout', hsafe, inner, hsame.trans hcallers⟩
  | enters => exact .inl ⟨hout', hsafe, _ :: inner, congrArg (_ :: ·) hcallers⟩
  | replaced => exact .inl ⟨hout', hsafe, inner, hcallers⟩
  | @givesBack w' ws' v hreturn hpopped =>
    replace hpopped : inner ++ w :: ws = w' :: ws' := hcallers.symm.trans hpopped
    cases inner with
    | cons _ inner => exact .inl ⟨hout', hsafe, inner, (List.cons.inj hpopped).2.symm⟩
    | nil =>
      obtain ⟨rfl, rfl⟩ := List.cons.inj hpopped
      have hleaves : i.leaves = true := by
        cases i with
        | ret | retVoid => rfl
        | _ => cases hreturn
      have htotal := (h.pops_add_le hunique hs.safe hcallers hbase hlt hdecode).2 rfl hleaves
      exact .inr ⟨hout', rfl, rfl, v, i.pops, htotal, rfl⟩

/-- **The course of a call does not depend on the operands below.** -/
theorem inCall_runFor (h : m.Noted Marks) (hunique : OnePoint Marks) {w : Waiting}
    {pre : Array Value} (hbase : Waits Marks (w :: ws) pre.size) {u : State}
    (hu : InCall Marks (w :: ws) (u.onto pre) o) (k : Nat)
    (hactive : ∀ j < k, ∀ t, m.runFor j (u.onto pre) = .running t → ws.length < t.callers.size) :
    (∃ r : Progress, ∀ under : Array Value, under.size = pre.size →
      m.runFor k (u.onto under) = r.onto under) ∧
    ∀ s', m.runFor k (u.onto pre) = .running s' → s'.callers.size ≤ ws.length →
      s'.callers.size = ws.length ∧ s'.ip = w.resume ∧ ∃ v, s'.stack = pre.push v := by
  -- The induction is on the number of steps; that the call is in progress is what it carries.
  induction k generalizing u o with
  | zero =>
    refine ⟨⟨.running u, fun _ _ ↦ rfl⟩, fun s' hrun hle ↦ ?_⟩
    cases hrun
    obtain ⟨inner, hcallers⟩ := hu.callers
    rw [hu.outlined.size_callers, hcallers, List.length_append, List.length_cons] at hle
    omega
  | succ k ih =>
    obtain ⟨inner, hcallers⟩ := hu.callers
    have htotal : pre.size + u.stack.size = o.stack.length := by
      rw [← hu.outlined.size_stack, State.onto, Array.size_append]
    -- The operands that belong to the call are enough for the instruction.
    have hpops (hlt : u.ip < m.code.size) (i : Instr) (next : Nat)
        (hdecode : Instr.decode m.code u.ip = .ok (i, next)) : i.pops ≤ u.stack.size := by
      have hip : u.ip = o.ip := hu.outlined.ip
      rw [hip] at hlt hdecode
      have := (h.pops_add_le hunique hu.safe hcallers hbase hlt hdecode).1
      omega
    obtain ⟨r, hr⟩ := m.step_onto (n := pre.size) hpops
    have hstep := hr pre rfl
    cases r with
    | running u' =>
      have hrun (under : Array Value) (hunder : under.size = pre.size) :
          m.runFor (k + 1) (u.onto under) = m.runFor k (u'.onto under) := by
        simp only [runFor, hr under hunder, Progress.onto]
      obtain ⟨o', hin | ⟨hout', hback, hip, v, taken, htaken, hstack⟩⟩ :=
        h.inCall_step hunique hbase hu hstep
      · have hactive' (j : Nat) (hj : j < k) (t : State)
            (ht : m.runFor j (u'.onto pre) = .running t) : ws.length < t.callers.size :=
          hactive (j + 1) (Nat.succ_lt_succ hj) t (by rw [runFor, hstep]; exact ht)
        obtain ⟨⟨r', hr'⟩, hreturn⟩ := ih hin hactive'
        refine ⟨⟨r', fun under hunder ↦ (hrun under hunder).trans (hr' under hunder)⟩, ?_⟩
        rw [hrun pre rfl]
        exact hreturn
      · -- The call is over, so this was the last step.
        have hsize : (u'.onto pre).callers.size = ws.length := by
          rw [hout'.size_callers, hback]
        obtain rfl : k = 0 := by
          by_contra hk
          have := hactive 1 (by omega) (u'.onto pre) (by rw [runFor, hstep]; rfl)
          omega
        refine ⟨⟨.running u', hrun⟩, fun s' hs' _ ↦ ?_⟩
        rw [hrun pre rfl] at hs'
        obtain rfl : u'.onto pre = s' := Progress.running.inj hs'
        refine ⟨hsize, hout'.ip.trans hip, v, Array.toList_inj.1 ?_⟩
        obtain rfl : taken = u.stack.size := by omega
        rw [hout'.stack, hstack, List.reverse_cons, hu.outlined.reverse_drop_stack rfl,
          Array.toList_push]
    | ended t u' =>
      have hrun (under : Array Value) (hunder : under.size = pre.size) :
          m.runFor (k + 1) (u.onto under) = (Progress.ended t u').onto under := by
        simp only [runFor, hr under hunder, Progress.onto]
      refine ⟨⟨.ended t u', hrun⟩, fun s' hs' ↦ ?_⟩
      rw [hrun pre rfl] at hs'
      cases hs'
    | failed f u' =>
      have hrun (under : Array Value) (hunder : under.size = pre.size) :
          m.runFor (k + 1) (u.onto under) = (Progress.failed f u').onto under := by
        simp only [runFor, hr under hunder, Progress.onto]
      refine ⟨⟨.failed f u', hrun⟩, fun s' hs' ↦ ?_⟩
      rw [hrun pre rfl] at hs'
      cases hs'

/-- Every state that a run comes to is safe. -/
theorem exists_safe_of_reaches (h : m.Noted Marks) (hs : m.Reaches s) :
    ∃ o, s.Outlined o ∧ o.Safe Marks := by
  obtain ⟨count, hrun⟩ := hs
  have hout := m.runFor_outlined count m.start_outlined
  have hsafe := h.outlineRun_safe h.outlineStart_safe count
  rw [hrun] at hout
  generalize m.outlineRun count m.outlineStart = r at hout hsafe
  cases hout with
  | running hout => exact ⟨_, hout, hsafe⟩

/-- A call begins on top of the operands that are left when its arguments are taken. -/
theorem inCall_start (h : m.Noted Marks) (hunique : OnePoint Marks) {name : String} {f : Function}
    (hs : m.Reaches s) {count : Nat}
    (hdecode : Instr.decode m.code s.ip = .ok (.call name count, next))
    (hf : m.find? name = some f) {pre args : Array Value} (hstack : s.stack = pre ++ args)
    (hargs : args.size = count) (hstep : m.step s = .running s') :
    s'.stack = pre ∧ s'.callers.size = s.callers.size + 1 ∧
      ∃ o' w ws, w.resume = next ∧ ws.length = s.callers.size ∧ InCall Marks (w :: ws) s' o' ∧
        Waits Marks (w :: ws) pre.size := by
  obtain ⟨o, hout, hsafe⟩ := h.exists_safe_of_reaches hs
  obtain ⟨o', hout', hstep'⟩ := exists_outlineStep_of_step hout hstep
  have hsafe' := h.safe_of_outlineStep hsafe hstep'
  obtain ⟨i, next', hlt, hdecode', hmoves⟩ := exists_moves_of_outlineStep hstep'
  rw [hout.ip, hdecode'] at hdecode
  obtain ⟨rfl, rfl⟩ := Prod.mk.inj (Except.ok.inj hdecode)
  cases hmoves with
  | goesOn hcallee => exact absurd (hcallee.symm.trans hf) nofun
  | replaced _ hleaves => cases hleaves
  | givesBack hreturn => cases hreturn
  | @enters f' scopes hcallee =>
    obtain rfl : f = f' := Option.some.inj (hf.symm.trans hcallee)
    have hpre : s'.stack = pre := by
      refine Array.toList_inj.1 ?_
      rw [hout'.stack, ← hout.reverse_drop_stack hstack, hargs]
      rfl
    have hdeeper : s'.callers.size = s.callers.size + 1 := by
      rw [hout'.size_callers, hout.size_callers]
      rfl
    refine ⟨hpre, hdeeper, _, ⟨o.blocks, o.returns, next'⟩, o.callers, rfl,
      hout.size_callers.symm, ⟨hout', hsafe', [], rfl⟩, ?_⟩
    -- The function begins without operands, so all of them belong to the calls that wait.
    obtain ⟨q, hmarks, -, total, htotal, hwaits⟩ := hsafe'
    obtain ⟨head, hentry⟩ := h.function hf
    obtain rfl : q = (Spot.body head).point := hunique hmarks hentry
    rw [← hout'.size_stack, hpre] at htotal
    have hzero : (Spot.body head).point.height = 0 := rfl
    obtain rfl : pre.size = total := by omega
    exact hwaits

end Machine.Noted

/-- **Calls leave the operands below their own alone.** In a run of a compiled program, on any host
and with any limits, let a call of one of its functions take its arguments and begin. For as long as
the call lasts, the run is the same on top of any other operands, as many as there were: those below
are never read, changed or taken. When the call returns, they are followed by one value. -/
theorem exists_runFor_eq_onto_of_call_of_compile {source : String} {image : Image}
    (h : compile source = .ok image) (table : Table) (limits : Limits) {s s₁ : State}
    (hs : (Machine.ofImage image table limits).Reaches s) {name : String} {count next : Nat}
    (hdecode : Instr.decode image.code s.ip = .ok (.call name count, next)) {f : Function}
    (hf : (Machine.ofImage image table limits).find? name = some f) {pre args : Array Value}
    (hstack : s.stack = pre ++ args) (hargs : args.size = count)
    (hstep : (Machine.ofImage image table limits).step s = .running s₁) :
    s₁.stack = pre ∧ s₁.callers.size = s.callers.size + 1 ∧
    ∀ k, (∀ j < k, ∀ t, (Machine.ofImage image table limits).runFor j s₁ = .running t →
        s.callers.size < t.callers.size) →
      (∃ r : Machine.Progress, (Machine.ofImage image table limits).runFor k s₁ = r.onto pre ∧
        ∀ under : Array Value, under.size = pre.size →
          (Machine.ofImage image table limits).runFor k { s₁ with stack := under } =
            r.onto under) ∧
      ∀ s', (Machine.ofImage image table limits).runFor k s₁ = .running s' →
        s'.callers.size ≤ s.callers.size →
          s'.callers.size = s.callers.size ∧ s'.ip = next ∧ ∃ v, s'.stack = pre.push v := by
  obtain ⟨ts, h⟩ := exists_tokens_of_compile h
  obtain ⟨p, hp, hassemble⟩ := exists_program_of_compileTokens h
  obtain ⟨L, hL⟩ := Program.exists_lists hassemble
  obtain ⟨-, hvalid⟩ := Program.spelled_and_valid_of_ofTokens hp
  have hnoted := hL.noted hvalid table limits
  obtain ⟨hpre, hdeeper, o, w, ws, rfl, hws, hin, hwaits⟩ :=
    hnoted.inCall_start hL.onePoint hs hdecode hf hstack hargs hstep
  have honto (under : Array Value) :
      { s₁ with stack := #[] }.onto under = { s₁ with stack := under } := by
    rw [State.onto, Array.append_empty]
  have hself : { s₁ with stack := #[] }.onto pre = s₁ := by
    rw [honto, ← hpre]
  refine ⟨hpre, hdeeper, fun k hactive ↦ ?_⟩
  rw [← hws] at hactive ⊢
  rw [← hself] at hactive hin
  obtain ⟨⟨r, hr⟩, hreturn⟩ := hnoted.inCall_runFor hL.onePoint hwaits hin k hactive
  rw [hself] at hreturn
  refine ⟨⟨r, ?_, fun under hunder ↦ ?_⟩, hreturn⟩
  · rw [← hr pre rfl, hself]
  · rw [← honto, hr under hunder]

/-- A call on top of an operand, into a function that calls another one, which returns out of a
loop. -/
def returnFromLoop : String :=
  "func g(n) \x7b while (n) \x7b return n * 2; \x7d \x7d " ++
    "func f(n) \x7b return g(n) + 1; \x7d 10 + f(2);"

/-- A program is compiled, and after so many steps it calls a function with one argument, on top of
one operand. The call is over after so many steps more, and not before. -/
def callsOnOperand (source : String) (before inside : Nat) : Bool :=
  trial source {} fun _ m ↦
    match m.runFor before m.start with
    | .running s =>
      match Instr.decode m.code s.ip with
      | .ok (.call name count, _) =>
        match m.find? name, m.step s with
        | some _, .running s₁ =>
          match m.runFor inside s₁ with
          | .running s' =>
            decide (count = 1 ∧ s.stack.size = 2 ∧ s.callers.size = 0 ∧ s'.callers.size = 0) &&
            (List.range inside).all fun j ↦
              match m.runFor j s₁ with
              | .running t => decide (0 < t.callers.size)
              | _ => true
          | _ => false
        | _, _ => false
      | _ => false
    | _ => false

/-- The call and all it does, the loop and the call inside it, leave the operand alone. -/
theorem exists_runFor_eq_onto_returnFromLoop :
    ∃ image s s₁ s' pre v, compile returnFromLoop = .ok image ∧
      (Machine.ofImage image .empty {}).runFor 4 (Machine.ofImage image .empty {}).start =
        .running s ∧ s.stack = pre ++ #[v] ∧ pre.size = 1 ∧
      (Machine.ofImage image .empty {}).step s = .running s₁ ∧ s₁.stack = pre ∧
      (Machine.ofImage image .empty {}).runFor 12 s₁ = .running s' ∧
      (∃ r : Machine.Progress, .running s' = r.onto pre ∧
        ∀ under : Array Value, under.size = pre.size →
          (Machine.ofImage image .empty {}).runFor 12 { s₁ with stack := under } = r.onto under) ∧
      ∃ w, s'.stack = pre.push w := by
  have hruns : callsOnOperand returnFromLoop 4 12 = true := by decide +kernel
  obtain ⟨_, _, image, -, -, h, hruns⟩ := exists_of_trial hruns
  split at hruns <;> [skip; cases hruns]
  rename_i s hrun
  split at hruns <;> [skip; cases hruns]
  rename_i name count next hdecode
  split at hruns <;> [skip; cases hruns]
  rename_i f s₁ hf hstep
  split at hruns <;> [skip; cases hruns]
  rename_i s' hrun'
  obtain ⟨hsizes, hdeeper⟩ := Bool.and_eq_true_iff.1 hruns
  obtain ⟨rfl, hsize, hnone, hback⟩ := of_decide_eq_true hsizes
  have hpos : 0 < s.stack.size := by omega
  obtain ⟨pre, v, hpush⟩ := Array.exists_push_of_size_pos hpos
  have hpre : pre.size = 1 := by
    rw [hpush, Array.size_push] at hsize
    omega
  have hstack : s.stack = pre ++ #[v] := hpush
  obtain ⟨hstack₁, -, hcall⟩ := exists_runFor_eq_onto_of_call_of_compile h .empty {} ⟨4, hrun⟩
    hdecode hf hstack rfl hstep
  obtain ⟨hspares, hreturn⟩ := hcall 12 fun j hj t ht ↦ by
    have := List.all_eq_true.1 hdeeper j (List.mem_range.2 hj)
    rw [ht] at this
    rw [hnone]
    exact of_decide_eq_true this
  rw [hrun'] at hspares
  exact ⟨image, s, s₁, s', pre, v, h, hrun, hstack, hpre, hstep, hstack₁, hrun', hspares,
    (hreturn s' hrun' (by omega)).2.2⟩

end Scriptlet
