import Scriptlet.Proofs.Code.Extents
import Scriptlet.Proofs.Machine.Safety

/-!
# What a step can do

A step that neither ends a run nor fails does one of four things. The call in progress **goes on**,
and its instruction changes at most the operands and the scopes; it **enters** a function and waits
for it; it is **replaced** by a function; or it **gives back** a value to the call that waits for
it. `Machine.Moves` says so once for all instructions, so that whatever is kept along a run is shown
for these four.
-/

namespace Scriptlet

/-! ### Instructions that go on -/

/-- What an instruction does to the scopes and to the number of open blocks, if the call in progress
goes on behind it. -/
def Instr.Rebinds (i : Instr) (o o' : Outline) : Prop :=
  match i with
  | .get name => o'.blocks = o.blocks ∧ o'.scopes = o.scopes ∧ (o.scopes.var? name).isSome
  | .set name => o'.blocks = o.blocks ∧ ∃ v, o.scopes.assign name v = .ok o'.scopes
  | .decl name type => o'.blocks = o.blocks ∧ ∃ v, o.scopes.declare name type v = .ok o'.scopes
  | .unset name => o'.blocks = o.blocks ∧ o'.scopes = o.scopes.unset name
  | .setIndex name => o'.blocks = o.blocks ∧ ∃ f, o.scopes.update name f = .ok o'.scopes
  | .enterScope => o'.blocks = o.blocks + 1 ∧ o'.scopes = [] :: o.scopes
  | .exitScope => o.blocks = o'.blocks + 1 ∧ o'.scopes = o.scopes.tail
  | _ => o'.blocks = o.blocks ∧ o'.scopes = o.scopes

/-- The function of the program that an instruction calls, if any. -/
def Machine.callee? (m : Machine) : Instr → Option Function
  | .call name _ | .tailCall name _ => m.find? name
  | _ => none

/-- The instruction is a `return`. -/
def Instr.isReturn : Instr → Bool
  | ret | retVoid => true
  | _ => false

/-- What an instruction makes of an outline that stands behind it already. -/
inductive Machine.Moves (m : Machine) (i : Instr) (o : Outline) : Outline → Prop where
  | goesOn {o' : Outline} (hcallee : m.callee? i = none) (hreturn : i.isReturn = false)
      (hip : i.fallsThrough = true ∧ o'.ip = o.ip ∨ i.target? = some o'.ip)
      (hcallers : o'.callers = o.callers) (hreturns : o'.returns = o.returns)
      (hscopes : i.Rebinds o o') : Moves m i o o'
  | enters {f : Function} {scopes : Scopes} (hcallee : m.callee? i = some f)
      (hcallers : i.leaves = true → o.callers = [])
      (hscopes : Scopes.bindParams ([] :: o.scopes) f.params (o.stack.take i.pops).reverse =
        .ok scopes) :
      Moves m i o
        { o with
          ip := f.entry.toNat
          stack := o.stack.drop i.pops
          blocks := 0
          returns := f.returns
          callers := ⟨o.blocks, o.returns, o.ip⟩ :: o.callers
          scopes }
  | replaced {f : Function} {scopes : Scopes} (hcallee : m.callee? i = some f)
      (hleaves : i.leaves = true) (hcallers : o.callers ≠ [])
      (hscopes : Scopes.bindParams ([] :: o.scopes.drop (o.blocks + 1)) f.params
        (o.stack.take i.pops).reverse = .ok scopes) :
      Moves m i o
        { o with
          ip := f.entry.toNat
          stack := o.stack.drop i.pops
          blocks := 0
          returns := f.returns
          scopes }
  | givesBack {w : Waiting} {ws : List Waiting} {v : Value} (hreturn : i.isReturn = true)
      (hcallers : o.callers = w :: ws) :
      Moves m i o
        { o with
          ip := w.resume
          stack := v :: o.stack.drop i.pops
          blocks := w.blocks
          returns := w.returns
          callers := ws
          scopes := o.scopes.drop (o.blocks + 1) }

namespace Outline

variable {o o' : Outline} {limit codeSize target : Nat} {v : Value}

/-- After success the value is on top of the operands. -/
theorem push_eq_running (h : o.push limit v = .running o') :
    o' = { o with stack := v :: o.stack } := by
  rw [push] at h
  split at h <;> cases h
  rfl

theorem pushResult_eq_running {r : Except ValueError Value}
    (h : o.pushResult limit r = .running o') :
    ∃ v, r = .ok v ∧ o' = { o with stack := v :: o.stack } := by
  cases r with
  | ok v => exact ⟨v, rfl, push_eq_running h⟩
  | error e => cases h

/-- After success just the scopes are other ones. -/
theorem onScopes_eq_running {r : Except ScopeError Scopes} (h : o.onScopes r = .running o') :
    ∃ scopes, r = .ok scopes ∧ o' = { o with scopes } := by
  cases r with
  | ok scopes =>
    cases h
    exact ⟨scopes, rfl, rfl⟩
  | error e => cases h

theorem jumpTo_eq_running (h : o.jumpTo codeSize target = .running o') :
    o' = { o with ip := target } := by
  rw [jumpTo] at h
  split at h <;> cases h
  rfl

end Outline

namespace Machine

variable {m : Machine} {o o' : Outline} {i : Instr}

/-- An instruction after which only the operands are others. -/
theorem Moves.ofStack {stack : List Value} {calls : Array Call} (hcallee : m.callee? i = none)
    (hreturn : i.isReturn = false) (hfalls : i.fallsThrough = true)
    (hscopes : i.Rebinds o { o with stack, calls }) : m.Moves i o { o with stack, calls } :=
  .goesOn hcallee hreturn (.inl ⟨hfalls, rfl⟩) rfl rfl hscopes

/-- A function that is entered has its parameters bound in a scope of its own. -/
theorem moves_of_outlineEnter {f : Function} {args : List Value}
    (h : outlineEnter o f args = .running o') :
    ∃ scopes, Scopes.bindParams ([] :: o.scopes) f.params args = .ok scopes ∧
      o' = { o with ip := f.entry.toNat, blocks := 0, returns := f.returns, scopes } :=
  Outline.onScopes_eq_running h

/-- A function that is called takes the place of its caller, or lets it wait. -/
theorem moves_of_outlineCallFunction {f : Function} {isTail : Bool}
    (hcallee : m.callee? i = some f) (hleaves : i.leaves = isTail)
    (h : m.outlineCallFunction { o with stack := o.stack.drop i.pops } f
      (o.stack.take i.pops).reverse isTail = .running o') : m.Moves i o o' := by
  rw [outlineCallFunction] at h
  split at h
  · rename_i htail
    obtain ⟨scopes, hscopes, rfl⟩ := moves_of_outlineEnter h
    exact .replaced hcallee (hleaves.trans htail.1) htail.2 hscopes
  · rename_i htail
    split at h
    · obtain ⟨scopes, hscopes, rfl⟩ := moves_of_outlineEnter h
      refine .enters hcallee (fun hl ↦ ?_) hscopes
      by_contra hne
      exact htail ⟨hleaves ▸ hl, hne⟩
    · cases h

/-- A call enters a function of the program, or goes on behind a built-in one. -/
theorem moves_of_outlineCall {name : String} {isTail : Bool}
    (hcallee : m.callee? i = m.find? name) (hleaves : i.leaves = isTail)
    (hreturn : i.isReturn = false) (hfalls : i.fallsThrough = true)
    (hscopes : ∀ stack calls, i.Rebinds o { o with stack, calls })
    (h : m.outlineCall o name i.pops isTail = .running o') : m.Moves i o o' := by
  rw [outlineCall] at h
  split at h
  · rw [outlineApply] at h
    split at h
    · rename_i f hf
      split at h
      · exact moves_of_outlineCallFunction (hcallee.trans hf) hleaves h
      · cases h
    · rename_i hf
      have hbuiltin {b : Builtin} {args : List Value}
          (h : m.outlineCallBuiltin { o with stack := o.stack.drop i.pops } b args = .running o') :
          m.Moves i o o' := by
        rw [outlineCallBuiltin] at h
        split at h
        · obtain rfl := Outline.push_eq_running h
          exact .ofStack (hcallee.trans hf) hreturn hfalls (hscopes _ _)
        · cases h
      split at h
      · cases h
      · split at h
        · split at h
          · exact hbuiltin h
          · cases h
        · exact hbuiltin h
  · cases h

/-- After a `return` the caller goes on with the value. -/
theorem moves_of_outlineGiveBack {v : Option Value} (hreturn : i.isReturn = true)
    (h : m.outlineGiveBack { o with stack := o.stack.drop i.pops } v = .running o') :
    m.Moves i o o' := by
  rw [outlineGiveBack] at h
  split at h
  · cases h
  · rename_i w ws hcallers
    obtain ⟨v, -, rfl⟩ := Outline.pushResult_eq_running h
    exact .givesBack hreturn hcallers

/-- **What an instruction can do.** -/
theorem moves_of_outlineExec (h : m.outlineExec o i = .running o') : m.Moves i o o' := by
  -- One case for each way to go on; where the instruction fails there is nothing to show.
  cases i with
  | pushInt n | pushFloat x | pushBool b | pushStr s | pushNull =>
    obtain rfl := Outline.push_eq_running h
    exact .ofStack rfl rfl rfl ⟨rfl, rfl⟩
  | makeList count =>
    rw [outlineExec] at h
    split at h
    · obtain rfl := Outline.push_eq_running h
      exact .ofStack rfl rfl rfl ⟨rfl, rfl⟩
    · cases h
  | get name =>
    rw [outlineExec] at h
    split at h
    · rename_i var hvar
      obtain rfl := Outline.push_eq_running h
      exact .ofStack rfl rfl rfl ⟨rfl, rfl, by rw [hvar]; rfl⟩
    · cases h
  | set name =>
    rw [outlineExec] at h
    split at h
    · obtain ⟨scopes, hscopes, rfl⟩ := Outline.onScopes_eq_running h
      exact .goesOn rfl rfl (.inl ⟨rfl, rfl⟩) rfl rfl ⟨rfl, _, hscopes⟩
    · cases h
  | decl name type =>
    rw [outlineExec] at h
    split at h
    · obtain ⟨scopes, hscopes, rfl⟩ := Outline.onScopes_eq_running h
      exact .goesOn rfl rfl (.inl ⟨rfl, rfl⟩) rfl rfl ⟨rfl, _, hscopes⟩
    · cases h
  | unset name =>
    cases h
    exact .goesOn rfl rfl (.inl ⟨rfl, rfl⟩) rfl rfl ⟨rfl, rfl⟩
  | pop =>
    rw [outlineExec] at h
    split at h
    · cases h
      exact .ofStack rfl rfl rfl ⟨rfl, rfl⟩
    · cases h
  | binary op | unary op | index | slice =>
    rw [outlineExec] at h
    split at h
    · obtain ⟨v, -, rfl⟩ := Outline.pushResult_eq_running h
      exact .ofStack rfl rfl rfl ⟨rfl, rfl⟩
    · cases h
  | setIndex name =>
    rw [outlineExec] at h
    split at h
    · obtain ⟨scopes, hscopes, rfl⟩ := Outline.onScopes_eq_running h
      exact .goesOn rfl rfl (.inl ⟨rfl, rfl⟩) rfl rfl ⟨rfl, _, hscopes⟩
    · cases h
  | jump target =>
    obtain rfl := Outline.jumpTo_eq_running h
    exact .goesOn rfl rfl (.inr rfl) rfl rfl ⟨rfl, rfl⟩
  | jumpIfFalse target =>
    rw [outlineExec] at h
    split at h
    · split at h
      · cases h
        exact .ofStack rfl rfl rfl ⟨rfl, rfl⟩
      · obtain rfl := Outline.jumpTo_eq_running h
        exact .goesOn rfl rfl (.inr rfl) rfl rfl ⟨rfl, rfl⟩
    · cases h
  | call name count => exact moves_of_outlineCall rfl rfl rfl rfl (fun _ _ ↦ ⟨rfl, rfl⟩) h
  | tailCall name count => exact moves_of_outlineCall rfl rfl rfl rfl (fun _ _ ↦ ⟨rfl, rfl⟩) h
  | ret =>
    rw [outlineExec] at h
    split at h
    · rename_i v stack hstack
      refine moves_of_outlineGiveBack rfl (v := some v) ?_
      rw [hstack]
      exact h
    · cases h
  | retVoid => exact moves_of_outlineGiveBack rfl h
  | enterScope =>
    cases h
    exact .goesOn rfl rfl (.inl ⟨rfl, rfl⟩) rfl rfl ⟨rfl, rfl⟩
  | exitScope =>
    rw [outlineExec] at h
    split at h
    · cases h
    · rename_i blocks hblocks
      cases h
      exact .goesOn rfl rfl (.inl ⟨rfl, rfl⟩) rfl rfl ⟨hblocks, rfl⟩
  | halt => cases h

/-- A step that goes on executes an instruction. -/
theorem exists_outlineExec_of_outlineStep (h : m.outlineStep o = .running o') :
    ∃ i next, o.ip < m.code.size ∧ Instr.decode m.code o.ip = .ok (i, next) ∧
      m.outlineExec { o with ip := next } i = .running o' := by
  rw [outlineStep] at h
  split at h
  · rename_i hlt
    rcases hdecode : Instr.decode m.code o.ip with e | ⟨i, next⟩
    · rw [hdecode] at h
      cases h
    · rw [hdecode] at h
      simp only at h
      rcases hexec : m.outlineExec { o with ip := next } i with o₁ | ⟨t, o₁⟩ | ⟨cause, calls⟩
      · rw [hexec] at h
        cases h
        exact ⟨i, next, hlt, rfl, hexec⟩
      · rw [hexec] at h
        cases h
      · rw [hexec] at h
        cases h
  · cases h

/-- A step reads an instruction and does what it says. -/
theorem exists_moves_of_outlineStep (h : m.outlineStep o = .running o') :
    ∃ i next, o.ip < m.code.size ∧ Instr.decode m.code o.ip = .ok (i, next) ∧
      m.Moves i { o with ip := next } o' := by
  obtain ⟨i, next, hlt, hdecode, hexec⟩ := exists_outlineExec_of_outlineStep h
  exact ⟨i, next, hlt, hdecode, moves_of_outlineExec hexec⟩

/-- A step of a state that goes on is a step of its outline. -/
theorem exists_outlineStep_of_step {s s' : State} (hout : s.Outlined o)
    (h : m.step s = .running s') : ∃ o', s'.Outlined o' ∧ m.outlineStep o = .running o' := by
  have hstep := m.step_outlined hout
  rw [h] at hstep
  generalize m.outlineStep o = r at hstep
  cases hstep with
  | running hout' => exact ⟨_, hout', rfl⟩

/-- A call of a function of the program enters it, and waits behind the call. -/
theorem exists_entered_of_call {s s₁ : State} (hout : s.Outlined o) {name : String}
    {count next : Nat} (hdecode : Instr.decode m.code s.ip = .ok (.call name count, next))
    {f : Function} (hf : m.find? name = some f) (hstep : m.step s = .running s₁) :
    ∃ o₁, s₁.Outlined o₁ ∧ o.ip < m.code.size ∧
      m.Moves (.call name count) { o with ip := next } o₁ ∧ o₁.returns = f.returns ∧
      o₁.callers = ⟨o.blocks, o.returns, next⟩ :: o.callers := by
  obtain ⟨o₁, hout₁, houtline⟩ := exists_outlineStep_of_step hout hstep
  obtain ⟨i, next', hlt, hdecode', hmoves⟩ := exists_moves_of_outlineStep houtline
  rw [← hout.ip, hdecode] at hdecode'
  cases hdecode'
  refine ⟨o₁, hout₁, hlt, hmoves, ?_⟩
  cases hmoves with
  | goesOn hcallee =>
    rw [callee?, hf] at hcallee
    cases hcallee
  | enters hcallee =>
    rw [callee?, hf] at hcallee
    cases hcallee
    exact ⟨rfl, rfl⟩
  | replaced _ hleaves => cases hleaves
  | givesBack hreturn => cases hreturn

/-- A run that goes on for one step more begins with a step. -/
theorem exists_step_of_runFor {s s' : State} {count : Nat}
    (h : m.runFor (count + 1) s = .running s') :
    ∃ s₁, m.step s = .running s₁ ∧ m.runFor count s₁ = .running s' := by
  rw [runFor] at h
  split at h
  · rename_i s₁ hstep
    exact ⟨s₁, hstep, h⟩
  · rename_i hstep
    exact absurd h (hstep s')

theorem runFor_succ {s s₁ : State} (h : m.step s = .running s₁) (count : Nat) :
    m.runFor (count + 1) s = m.runFor count s₁ := by
  rw [runFor, h]

/-- A run goes on from where it is. -/
theorem runFor_add {s s' : State} {n : Nat} (h : m.runFor n s = .running s') (k : Nat) :
    m.runFor (n + k) s = m.runFor k s' := by
  induction n generalizing s with
  | zero =>
    cases h
    rw [Nat.zero_add]
  | succ n ih =>
    obtain ⟨s₁, hstep, hrest⟩ := exists_step_of_runFor h
    rw [Nat.succ_add, runFor_succ hstep]
    exact ih hrest

end Machine

end Scriptlet
