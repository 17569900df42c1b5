import Scriptlet.Proofs.Machine.Moves
import Scriptlet.Proofs.Machine.ScopeChain
import Scriptlet.Proofs.Machine.ScopeNames

/-!
# Why an instruction fails

`Machine.Moves` says what an instruction does if the run goes on behind it. `Machine.Fails` says
what is known if it fails: there is a case for each thing that can be wrong, with the state of
affairs that is to blame. It holds of **any code**, so it tells as well what an instruction never
fails for.
-/

namespace Scriptlet

/-- A variable is unknown only if it is bound in no scope. -/
theorem FaultCause.eq_of_ofScopeError_eq_unknownVariable {e : ScopeError} {name : String}
    (h : ofScopeError e = .unknownVariable name) : e = .unknown name := by
  rcases e with name' | name' | e
  · cases h
    rfl
  · cases h
  · cases e <;> cases h

/-! ### Causes -/

/-- The operation on variables that an instruction makes is refused in these scopes. -/
def Instr.Refused (i : Instr) (scopes : Scopes) (e : ScopeError) : Prop :=
  match i with
  | .set name => ∃ v, scopes.assign name v = .error e
  | .decl name type => ∃ v, scopes.declare name type v = .error e
  | .setIndex name => ∃ f, scopes.update name f = .error e
  | _ => False

/-- What an instruction fails for in an outline that stands behind it already. -/
inductive Machine.Fails (m : Machine) (i : Instr) (o : Outline) : FaultCause → Prop where
  | operands : Fails m i o .stackUnderflow
  | noRoom : Fails m i o (.stackOverflow m.limits.maxStack)
  | value (e : ValueError) : Fails m i o (.ofValueError e)
  | unbound {name : String} (hi : i = .get name) (h : o.scopes.var? name = none) :
      Fails m i o (.unknownVariable name)
  | refused {e : ScopeError} (h : i.Refused o.scopes e) : Fails m i o (.ofScopeError e)
  | params {f : Function} {scopes : Scopes} {args : List Value} {e : ScopeError}
      (hcallee : m.callee? i = some f)
      (h : Scopes.bindParams ([] :: scopes) f.params args = .error e) :
      Fails m i o (.ofScopeError e)
  | outside {target : Nat} (htarget : i.target? = some target)
      (h : ¬(headerSize ≤ target ∧ target ≤ m.code.size)) :
      Fails m i o (.malformed (.jumpOutside target))
  | unmatched (hi : i = .exitScope) (h : o.blocks = 0) : Fails m i o (.malformed .unmatchedExit)
  | tooDeep {f : Function} (hcallee : m.callee? i = some f)
      (hcallers : i.leaves = true → o.callers = [])
      (h : m.limits.maxFrames ≤ o.callers.length + 1) :
      Fails m i o (.callDepth m.limits.maxFrames)
  | unknown (name : String) : Fails m i o (.unknownFunction name)
  | arity (name : String) (expected got : Nat) : Fails m i o (.arity name expected got)
  | builtin (name message : String) : Fails m i o (.builtin name message)

/-- If it fails, then for such a cause. -/
def Outline.Progress.FailsFor (P : FaultCause → Prop) : Outline.Progress FaultCause → Prop
  | failed cause _ => P cause
  | _ => True

namespace Machine

variable {m : Machine} {o o' : Outline} {i : Instr}

/-! ### Actions -/

/-- To push fails for want of room. -/
theorem failsFor_push (v : Value) : (o'.push m.limits.maxStack v).FailsFor (m.Fails i o) := by
  rw [Outline.push]
  split
  · trivial
  · exact .noRoom

/-- A result fails for its values, or for want of room. -/
theorem failsFor_pushResult (r : Except ValueError Value) :
    (o'.pushResult m.limits.maxStack r).FailsFor (m.Fails i o) := by
  cases r with
  | ok v => exact failsFor_push v
  | error e => exact .value e

/-- What is done to variables fails if it is refused. -/
theorem failsFor_onScopes {r : Except ScopeError Scopes}
    (h : ∀ e, r = .error e → m.Fails i o (.ofScopeError e)) :
    (o'.onScopes r).FailsFor (m.Fails i o) := by
  cases r with
  | ok scopes => trivial
  | error e => exact h e rfl

/-- A jump fails if its target is outside the code. -/
theorem failsFor_jumpTo {target : Nat} (htarget : i.target? = some target) :
    (o'.jumpTo m.code.size target).FailsFor (m.Fails i o) := by
  rw [Outline.jumpTo]
  split
  · trivial
  · rename_i hbounds
    exact .outside htarget hbounds

/-! ### Calls -/

/-- To enter a function fails if its parameters cannot be bound. -/
theorem failsFor_outlineEnter {f : Function} (hcallee : m.callee? i = some f) (args : List Value) :
    (outlineEnter o' f args).FailsFor (m.Fails i o) :=
  failsFor_onScopes fun _ he ↦ .params hcallee he

/-- A call of a function fails for the number of its arguments or for want of a frame, or when it is
entered. -/
theorem failsFor_outlineCallFunction {f : Function} {isTail : Bool}
    (hcallee : m.callee? i = some f) (hleaves : i.leaves = isTail)
    (hcallers : o'.callers = o.callers) (args : List Value) :
    (m.outlineCallFunction o' f args isTail).FailsFor (m.Fails i o) := by
  rw [outlineCallFunction]
  split
  · exact failsFor_outlineEnter hcallee args
  · rename_i htail
    split
    · exact failsFor_outlineEnter hcallee args
    · rename_i hlimit
      -- A last call comes here only if there was no frame to put its own in the place of.
      refine .tooDeep hcallee (fun hl ↦ ?_) ?_
      · by_contra hne
        exact htail ⟨hleaves ▸ hl, hcallers ▸ hne⟩
      · rw [← hcallers]
        exact Nat.le_of_not_lt hlimit

/-- A call of the host fails if the host says so, or for want of room. -/
theorem failsFor_outlineCallBuiltin (b : Builtin) (args : List Value) :
    (m.outlineCallBuiltin o' b args).FailsFor (m.Fails i o) := by
  rw [outlineCallBuiltin]
  split
  · exact failsFor_push _
  · exact .builtin _ _

/-- A call fails for want of arguments, or if nothing has that name, or when it is made. -/
theorem failsFor_outlineCall {name : String} {isTail : Bool} (count : Nat)
    (hcallee : m.callee? i = m.find? name) (hleaves : i.leaves = isTail) :
    (m.outlineCall o name count isTail).FailsFor (m.Fails i o) := by
  rw [outlineCall]
  split
  · rw [outlineApply]
    split
    · rename_i f hf
      split
      · refine failsFor_outlineCallFunction (hcallee.trans hf) hleaves ?_ _
        rfl
      · exact .arity _ _ _
    · split
      · exact .unknown _
      · split
        · split
          · exact failsFor_outlineCallBuiltin _ _
          · exact .arity _ _ _
        · exact failsFor_outlineCallBuiltin _ _
  · exact .operands

/-- A `return` fails if the value does not have the type that is asked for, or for want of room. -/
theorem failsFor_outlineGiveBack (v : Option Value) :
    (m.outlineGiveBack o' v).FailsFor (m.Fails i o) := by
  rw [outlineGiveBack]
  split
  · trivial
  · exact failsFor_pushResult _

/-! ### Instructions -/

/-- **Why an instruction fails**, whatever the code is. -/
theorem failsFor_outlineExec (m : Machine) (o : Outline) (i : Instr) :
    (m.outlineExec o i).FailsFor (m.Fails i o) := by
  -- Each instruction takes its operands first; what it can fail for then is said by the lemma on
  -- what it does with them.
  cases i with
  | pushInt n | pushFloat x | pushBool b | pushStr s | pushNull => exact failsFor_push _
  | makeList count =>
    rw [outlineExec]
    split
    · exact failsFor_push _
    · exact .operands
  | get name =>
    rw [outlineExec]
    split
    · exact failsFor_push _
    · rename_i hnone
      exact .unbound rfl hnone
  | set name =>
    rw [outlineExec]
    split
    · exact failsFor_onScopes fun e he ↦ .refused ⟨_, he⟩
    · exact .operands
  | decl name type =>
    rw [outlineExec]
    split
    · exact failsFor_onScopes fun e he ↦ .refused ⟨_, he⟩
    · exact .operands
  | setIndex name =>
    rw [outlineExec]
    split
    · exact failsFor_onScopes fun e he ↦ .refused ⟨_, he⟩
    · exact .operands
  | unset name | enterScope | halt => trivial
  | pop =>
    rw [outlineExec]
    split
    · trivial
    · exact .operands
  | binary op | unary op | index | slice =>
    rw [outlineExec]
    split
    · exact failsFor_pushResult _
    · exact .operands
  | jump target => exact failsFor_jumpTo rfl
  | jumpIfFalse target =>
    rw [outlineExec]
    split
    · split
      · trivial
      · exact failsFor_jumpTo rfl
    · exact .operands
  | call name count => exact failsFor_outlineCall count rfl rfl
  | tailCall name count => exact failsFor_outlineCall count rfl rfl
  | ret =>
    rw [outlineExec]
    split
    · exact failsFor_outlineGiveBack _
    · exact .operands
  | retVoid => exact failsFor_outlineGiveBack _
  | exitScope =>
    rw [outlineExec]
    split
    · rename_i hblocks
      exact .unmatched rfl hblocks
    · trivial

/-! ### What is never to blame -/

/-- A name is unknown only to an instruction that reads its variable: a declaration has a scope to
go into, and so has a parameter. -/
theorem Fails.reads_of_unknownVariable {cause : FaultCause} {name : String}
    (h : m.Fails i o cause) (hcause : cause = .unknownVariable name) (hscopes : o.scopes ≠ []) :
    i = .get name ∨ i = .setIndex name := by
  cases h with
  | unbound hi =>
    cases hcause
    exact .inl hi
  | refused h =>
    obtain rfl := FaultCause.eq_of_ofScopeError_eq_unknownVariable hcause
    -- Declarations and assignments never miss a name.
    cases i with
    | set x =>
      obtain ⟨v, hv⟩ := h
      exact absurd hv (Scopes.assign_ne_unknown hscopes name)
    | decl x type =>
      obtain ⟨v, hv⟩ := h
      exact absurd hv (Scopes.declare_ne_unknown hscopes name)
    | setIndex x =>
      obtain ⟨f, hf⟩ := h
      exact .inr (congrArg _ (Scopes.eq_of_update_eq_unknown hf).symm)
    | _ => exact h.elim
  | params _ h =>
    obtain rfl := FaultCause.eq_of_ofScopeError_eq_unknownVariable hcause
    exact absurd h (Scopes.bindParams_ne_unknown (List.cons_ne_nil _ _) name)
  | value e => cases e <;> cases hcause
  | _ => cases hcause

/-- Of the instructions, only a jump and the end of a block can be malformed. -/
theorem Fails.jumpOutside_or_unmatchedExit {cause : FaultCause} {x : Malformed}
    (h : m.Fails i o cause) (hcause : cause = .malformed x) :
    (∃ target, x = .jumpOutside target) ∨ x = .unmatchedExit := by
  cases h with
  | outside =>
    cases hcause
    exact .inl ⟨_, rfl⟩
  | unmatched =>
    cases hcause
    exact .inr rfl
  | @refused e | @params _ _ _ e =>
    rcases e with name | name | e
    · cases hcause
    · cases hcause
    · cases e <;> cases hcause
  | value e => cases e <;> cases hcause
  | _ => cases hcause

/-- Frames run out only where one is opened. -/
theorem Fails.opens_of_callDepth {cause : FaultCause} {limit : Nat} (h : m.Fails i o cause)
    (hcause : cause = .callDepth limit) :
    (∃ f, m.callee? i = some f) ∧ (i.leaves = true → o.callers = []) ∧
      m.limits.maxFrames ≤ o.callers.length + 1 := by
  cases h with
  | tooDeep hcallee hcallers h => exact ⟨⟨_, hcallee⟩, hcallers, h⟩
  | @refused e | @params _ _ _ e =>
    rcases e with name | name | e
    · cases hcause
    · cases hcause
    · cases e <;> cases hcause
  | value e => cases e <;> cases hcause
  | _ => cases hcause

/-! ### Steps and runs -/

/-- What a step fails for: the code at the offset of the fault is no instruction, or it is one that
fails for this cause. -/
theorem exists_fails_of_outlineStep {f : Fault} {calls : Array Call}
    (h : m.outlineStep o = .failed f calls) :
    f.offset = o.ip ∧ o.ip < m.code.size ∧
      ((∃ e, f.cause = .malformed (.decode e)) ∨
        ∃ i next, Instr.decode m.code o.ip = .ok (i, next) ∧
          m.Fails i { o with ip := next } f.cause) := by
  rw [outlineStep] at h
  split at h
  · rename_i hlt
    rcases hdecode : Instr.decode m.code o.ip with e | ⟨i, next⟩ <;> rw [hdecode] at h
    · cases h
      exact ⟨rfl, hlt, .inl ⟨e, rfl⟩⟩
    · have hfails := m.failsFor_outlineExec { o with ip := next } i
      dsimp only at h
      generalize m.outlineExec { o with ip := next } i = p at h hfails
      cases p with
      | running | ended => cases h
      | failed cause calls =>
        cases h
        exact ⟨rfl, hlt, .inr ⟨i, next, rfl, hfails⟩⟩
  · cases h

/-- A step of a state that fails is a step of its outline. -/
theorem outlineStep_of_step_failed {s s' : State} {f : Fault} (hout : s.Outlined o)
    (h : m.step s = .failed f s') : m.outlineStep o = .failed f s'.calls := by
  have hstep := m.step_outlined hout
  rw [h] at hstep
  generalize m.outlineStep o = r at hstep
  cases hstep
  rfl

/-- A run that fails has come to a state in which the next step fails. -/
theorem exists_step_of_runFor_failed {s s' : State} {f : Fault} {count : Nat}
    (h : m.runFor count s = .failed f s') :
    ∃ n s₀, m.runFor n s = .running s₀ ∧ m.step s₀ = .failed f s' := by
  induction count generalizing s with
  | zero => cases h
  | succ count ih =>
    rw [runFor] at h
    rcases hstep : m.step s with s₁ | ⟨t, s₁⟩ | ⟨f', s₁⟩ <;> rw [hstep] at h
    · obtain ⟨n, s₀, hrun, hfails⟩ := ih h
      exact ⟨n + 1, s₀, (runFor_succ hstep n).trans hrun, hfails⟩
    · cases h
    · cases h
      exact ⟨0, s, rfl, hstep⟩

/-- **What a run fails for**, and where. -/
theorem exists_fails_of_runFor {s' : State} {f : Fault} {count : Nat}
    (h : m.runFor count m.start = .failed f s') :
    ∃ s o, m.Reaches s ∧ s.Outlined o ∧ f.offset = s.ip ∧ s.ip < m.code.size ∧
      ((∃ e, f.cause = .malformed (.decode e)) ∨
        ∃ i next, Instr.decode m.code s.ip = .ok (i, next) ∧
          m.Fails i { o with ip := next } f.cause) := by
  obtain ⟨n, s, hrun, hstep⟩ := exists_step_of_runFor_failed h
  have hreaches : m.Reaches s := ⟨n, hrun⟩
  obtain ⟨o, hout⟩ := hreaches.exists_outline
  have hfails := exists_fails_of_outlineStep (outlineStep_of_step_failed hout hstep)
  rw [← hout.ip] at hfails
  exact ⟨s, o, hreaches, hout, hfails⟩

end Machine

end Scriptlet
