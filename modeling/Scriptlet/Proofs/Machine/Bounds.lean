import Scriptlet.Proofs.Image.Decoding
import Scriptlet.Proofs.Image.Format
import Scriptlet.Proofs.Machine.Causes
import Scriptlet.Proofs.Machine.Shifts

/-!
# A run stays within its bounds

The loader looks at the header and the table of an image and not at its code, which may be any
bytes. Even so **every state of a run is within bounds**: the operands and the frames are within the
limits, and the run goes on inside the code or right behind it, now and once the calls in progress
are over. A fault names an offset inside the code, and what is reported about malformed code is
never about frames and scopes that are not there.

Each action keeps the bounds, so each instruction does, whether it fails or not.
-/

namespace Scriptlet

/-! ### Properties that actions keep -/

/-- A property of states that has nothing to do with scopes, and to which fewer operands do no
harm. -/
def State.Coarse (P : State → Prop) : Prop :=
  ∀ ⦃s s' : State⦄, P s → s'.stack.size ≤ s.stack.size → s'.ip = s.ip →
    s'.callers = s.callers → P s'

namespace Exec

variable {α β : Type} {P : State → Prop}

/-- The action keeps a property of the state, whether it fails or not. -/
def Keeps (P : State → Prop) (x : Exec α) : Prop :=
  ∀ s, P s → P (x.after s)

namespace Keeps

/-- Actions one after the other keep what each of them keeps. -/
theorem bind {x : Exec α} {f : α → Exec β} (hx : Keeps P x) (hf : ∀ a, Keeps P (f a)) :
    Keeps P (x >>= f) := by
  intro s hs
  have hs' := hx s hs
  rcases h : x s with ⟨a, s'⟩ | ⟨e, s'⟩
  · rw [after_of_ok h] at hs'
    rw [after_bind_of_ok h]
    exact hf a s' hs'
  · rw [after_of_error h] at hs'
    rw [after_bind_of_error h]
    exact hs'

theorem pure (a : α) : Keeps P (Pure.pure a) :=
  fun _ hs ↦ hs

theorem throw (e : FaultCause) : Keeps P (MonadExcept.throw e : Exec α) :=
  fun _ hs ↦ hs

theorem ofValue (r : Except ValueError α) : Keeps P (Exec.ofValue r) := by
  cases r with
  | ok a => exact pure a
  | error e => exact throw _

theorem scope : Keeps P Exec.scope :=
  fun _ hs ↦ hs

theorem read (name : String) : Keeps P (Exec.read name) := by
  intro s hs
  rcases h : s.arena.get s.frame.scope name with e | v
  · rw [after_of_error (by rw [Exec.read, h])]
    exact hs
  · rw [after_of_ok (by rw [Exec.read, h])]
    exact hs

/-- To take an operand leaves fewer of them. -/
theorem pop (hP : State.Coarse P) : Keeps P Exec.pop := by
  intro s hs
  rcases h : s.stack.back? with - | v
  · rw [after_of_error (by rw [Exec.pop, h])]
    exact hs
  · rw [after_of_ok (by rw [Exec.pop, h])]
    exact hP hs (by simp) rfl rfl

theorem popMany (hP : State.Coarse P) (count : Nat) : Keeps P (Exec.popMany count) := by
  intro s hs
  by_cases hcount : count ≤ s.stack.size
  · rw [after_of_ok (by rw [Exec.popMany, if_pos hcount])]
    exact hP hs (by simp) rfl rfl
  · rw [after_of_error (by rw [Exec.popMany, if_neg hcount])]
    exact hs

/-- What is done to scopes is of no concern. -/
theorem onArena (hP : State.Coarse P) (f : Arena → Except ScopeError Unit × Arena) :
    Keeps P (Exec.onArena f) := by
  intro s hs
  rcases h : f s.arena with ⟨e | u, a⟩
  · rw [after_of_error (by rw [Exec.onArena, h])]
    exact hP hs (Nat.le_refl _) rfl rfl
  · rw [after_of_ok (by rw [Exec.onArena, h])]
    exact hP hs (Nat.le_refl _) rfl rfl

theorem enterScope (hP : State.Coarse P) : Keeps P Exec.enterScope :=
  fun _ hs ↦ hP hs (Nat.le_refl _) rfl rfl

/-- To leave a block changes scopes, and the frame only in its scope. -/
theorem exitScope (hP : State.Coarse P) : Keeps P Exec.exitScope := by
  intro s hs
  by_cases hbase : s.frame.scope = s.frame.base
  · rw [after_of_error (by rw [Exec.exitScope, if_pos hbase])]
    exact hs
  · rcases h : s.arena.release s.frame.scope with ⟨- | parent, a⟩
    · rw [after_of_error (by rw [Exec.exitScope, if_neg hbase, h])]
      exact hP hs (Nat.le_refl _) rfl rfl
    · rw [after_of_ok (by rw [Exec.exitScope, if_neg hbase, h])]
      exact hP hs (Nat.le_refl _) rfl rfl

/-- Parameters are bound in scopes. -/
theorem bindParams (hP : State.Coarse P) (id : ScopeId) (params : List String)
    (args : List Value) : Keeps P (Exec.bindParams id params args) := by
  induction params generalizing args with
  | nil => exact .pure ()
  | cons p ps ih =>
    cases args with
    | nil => exact .pure ()
    | cons v vs => exact (onArena hP _).bind fun _ ↦ ih vs

/-- To take the place of a frame drops operands at most. -/
theorem replaceFrame? (hP : State.Coarse P) (f : Function) : Keeps P (Exec.replaceFrame? f) := by
  intro s hs
  rcases h : s.callers.back? with - | caller
  · rw [after_of_ok (by rw [Exec.replaceFrame?, h])]
    exact hs
  · rw [after_of_ok (by rw [Exec.replaceFrame?, h])]
    exact hP hs (Nat.le_refl _) rfl rfl

theorem note (hP : State.Coarse P) (c : Call) : Keeps P (Exec.note c) :=
  fun _ hs ↦ hP hs (Nat.le_refl _) rfl rfl

end Keeps

end Exec

namespace Machine

open Exec

variable {m : Machine} {P : State → Prop}

/-- A call of the host takes operands and pushes one. -/
theorem keeps_callBuiltin (hP : State.Coarse P) (hpush : ∀ v, Keeps P (push m.limits.maxStack v))
    (b : Builtin) (args : List Value) : Keeps P (m.callBuiltin b args) := by
  refine (Keeps.note hP _).bind fun _ ↦ ?_
  split
  · exact hpush _
  · exact .throw _

/-- A call is one of a function or one of the host. -/
theorem keeps_call (hP : State.Coarse P) (hpush : ∀ v, Keeps P (push m.limits.maxStack v))
    {name : String} {isTail : Bool}
    (hcall : ∀ f, m.find? name = some f → ∀ args, Keeps P (m.callFunction f args isTail))
    (count : Nat) : Keeps P (m.call name count isTail) := by
  refine (Keeps.popMany hP count).bind fun args ↦ ?_
  split
  · rename_i f hf
    split
    · exact hcall f hf args
    · exact .throw _
  · split
    · exact .throw _
    · split
      · split
        · exact keeps_callBuiltin hP hpush _ _
        · exact .throw _
      · exact keeps_callBuiltin hP hpush _ _

/-- A call is over once its frame is left, and before its value is given back. -/
theorem keeps_giveBack (hP : State.Coarse P) (hpush : ∀ v, Keeps P (push m.limits.maxStack v))
    (hleave : ∀ s caller, s.callers.back? = some caller → P s →
      P { s with frame := caller.frame, callers := s.callers.pop } ∧
        P { s with frame := caller.frame, callers := s.callers.pop, ip := caller.resume })
    (v : Option Value) : Keeps P (m.giveBack v) := by
  intro s hs
  rw [giveBack]
  rcases hback : s.callers.back? with - | caller
  · rw [after_bind_of_ok (by rw [leaveFrame?, hback])]
    exact hs
  · rw [after_bind_of_ok (by rw [leaveFrame?, hback])]
    dsimp only
    obtain ⟨hleft, hresumed⟩ := hleave s caller hback hs
    rcases resultOf s.frame.returns v with e | w
    · exact hleft
    · exact (hpush w).bind (fun _ ↦ .pure none) _ (hP hresumed (Nat.le_refl _) rfl rfl)

/-- **What actions keep, an instruction keeps.** -/
theorem keeps_execute (hP : State.Coarse P) (hpush : ∀ v, Keeps P (push m.limits.maxStack v))
    (hjump : ∀ target, Keeps P (jumpTo m.code.size target)) {i : Instr}
    (hcall : ∀ f, m.callee? i = some f → ∀ args, Keeps P (m.callFunction f args i.leaves))
    (hgiveBack : ∀ v, Keeps P (m.giveBack v)) : Keeps P (m.execute i) := by
  have hpop := Keeps.pop hP
  have hdone {x : Exec Unit} (hx : Keeps P x) :
      Keeps P (do x; return (none : Option Termination)) :=
    hx.bind fun _ ↦ .pure none
  have hresult (r : Except ValueError Value) : Keeps P (do
      let v ← ofValue r
      push m.limits.maxStack v
      return (none : Option Termination)) :=
    (Keeps.ofValue r).bind fun v ↦ hdone (hpush v)
  have hscope (f : ScopeId → Arena → Except ScopeError Unit × Arena) : Keeps P (do
      let id ← scope
      onArena (f id)
      return (none : Option Termination)) :=
    Keeps.scope.bind fun id ↦ hdone (.onArena hP (f id))
  -- Four actions are parameters: to push, to jump, to call and to give back. All others are coarse.
  cases i with
  | pushInt n | pushFloat x | pushBool b | pushStr s | pushNull => exact hdone (hpush _)
  | makeList count => exact (Keeps.popMany hP count).bind fun items ↦ hdone (hpush _)
  | get name => exact (Keeps.read name).bind fun v ↦ hdone (hpush v)
  | set name => exact hpop.bind fun v ↦ hscope fun id a ↦ a.assign id name v
  | decl name type => exact hpop.bind fun v ↦ hscope fun id a ↦ a.declare id name type v
  | unset name => exact hscope fun id a ↦ (.ok (), (a.unset id name).2)
  | pop => exact hpop.bind fun _ ↦ .pure none
  | binary op => exact hpop.bind fun b ↦ hpop.bind fun a ↦ hresult _
  | unary op => exact hpop.bind fun a ↦ hresult _
  | index => exact hpop.bind fun i ↦ hpop.bind fun container ↦ hresult _
  | slice =>
    exact hpop.bind fun stop ↦ hpop.bind fun start ↦ hpop.bind fun container ↦ hresult _
  | setIndex name =>
    exact hpop.bind fun v ↦ hpop.bind fun i ↦
      hscope fun id a ↦ a.update id name fun container ↦ container.setIndex i v
  | jump target => exact hdone (hjump target)
  | jumpIfFalse target =>
    refine hpop.bind fun condition ↦ ?_
    split
    · exact .pure none
    · exact hdone (hjump target)
  | call name count => exact hdone (keeps_call hP hpush hcall count)
  | tailCall name count => exact hdone (keeps_call hP hpush hcall count)
  | ret => exact hpop.bind fun v ↦ hgiveBack (some v)
  | retVoid => exact hgiveBack none
  | enterScope => exact hdone (.enterScope hP)
  | exitScope => exact hdone (.exitScope hP)
  | halt => exact .pure _

end Machine

/-! ### Bounds -/

/-- An offset inside the code or right behind it. -/
def InCode (codeSize offset : Nat) : Prop :=
  headerSize ≤ offset ∧ offset ≤ codeSize

/-- The state is within bounds. -/
structure State.Bounded (codeSize : Nat) (limits : Limits) (s : State) : Prop where
  stack : s.stack.size ≤ limits.maxStack
  /-- The program itself has a frame, whatever the limit is. -/
  depth : s.frameDepth ≤ max 1 limits.maxFrames
  ip : InCode codeSize s.ip
  resumes : ∀ c ∈ s.callers, InCode codeSize c.resume

/-- The program and its functions start inside the code or right behind it. -/
structure Machine.StartsInCode (m : Machine) : Prop where
  entry : InCode m.code.size m.entry
  functions : ∀ f ∈ m.functions, InCode m.code.size f.entry.toNat

namespace State.Bounded

variable {s s' : State} {codeSize : Nat} {limits : Limits}

/-- Bounds have nothing to do with scopes. -/
theorem coarse : State.Coarse (State.Bounded codeSize limits) := by
  intro s s' h hstack hip hcallers
  refine ⟨Nat.le_trans hstack h.stack, ?_, hip ▸ h.ip, hcallers ▸ h.resumes⟩
  rw [frameDepth, hcallers]
  exact h.depth

theorem goTo (h : s.Bounded codeSize limits) {offset : Nat} (hoffset : InCode codeSize offset) :
    ({ s with ip := offset } : State).Bounded codeSize limits :=
  ⟨h.stack, h.depth, hoffset, h.resumes⟩

end State.Bounded

namespace Machine

open Exec

variable {m : Machine} {codeSize : Nat} {limits : Limits}

/-- An operand is pushed only if there is room for it. -/
theorem bounded_push (v : Value) :
    Keeps (State.Bounded codeSize limits) (push limits.maxStack v) := by
  intro s hs
  by_cases hroom : s.stack.size < limits.maxStack
  · rw [after_of_ok (by rw [push, if_pos hroom])]
    refine ⟨?_, hs.depth, hs.ip, hs.resumes⟩
    rw [Array.size_push]
    exact hroom
  · rw [after_of_error (by rw [push, if_neg hroom])]
    exact hs

/-- A jump goes only to where there is code, or right behind it. -/
theorem bounded_jumpTo (target : Nat) :
    Keeps (State.Bounded codeSize limits) (jumpTo codeSize target) := by
  intro s hs
  by_cases htarget : headerSize ≤ target ∧ target ≤ codeSize
  · rw [after_of_ok (by rw [jumpTo, if_pos htarget])]
    exact hs.goTo htarget
  · rw [after_of_error (by rw [jumpTo, if_neg htarget])]
    exact hs

/-- A frame is opened only where there is room for it, and the call goes on behind itself. -/
theorem bounded_openFrame (f : Function) :
    Keeps (State.Bounded codeSize limits) (openFrame limits.maxFrames f) := by
  intro s hs
  by_cases hroom : s.callers.size + 1 < limits.maxFrames
  · rw [after_of_ok (by rw [openFrame, if_pos hroom])]
    refine ⟨hs.stack, ?_, hs.ip, ?_⟩
    · show (s.callers.push ⟨s.frame, s.ip⟩).size + 1 ≤ max 1 limits.maxFrames
      rw [Array.size_push]
      exact Nat.le_trans hroom (Nat.le_max_right _ _)
    · intro c hc
      rcases Array.mem_push.1 hc with hc | rfl
      · exact hs.resumes c hc
      · exact hs.ip
  · rw [after_of_error (by rw [openFrame, if_neg hroom])]
    exact hs

/-- **A frame is pushed only if there is room for it**, and the call comes back to where it was
made. -/
theorem bounded_callFunction {f : Function} (hf : InCode m.code.size f.entry.toNat)
    (args : List Value) (isTail : Bool) :
    Keeps (State.Bounded m.code.size m.limits) (m.callFunction f args isTail) := by
  have henters (id : ScopeId) : Keeps (State.Bounded m.code.size m.limits)
      (do bindParams id f.params args; goTo f) :=
    (Keeps.bindParams State.Bounded.coarse id f.params args).bind fun _ _ hs ↦ hs.goTo hf
  refine Keeps.bind ?_ fun frame ↦ ?_
  · split
    · exact .replaceFrame? State.Bounded.coarse f
    · exact .pure none
  · cases frame with
    | some id => exact henters id
    | none => exact (bounded_openFrame f).bind henters

/-- A call that is over goes on where its caller waits, and that is inside the code. -/
theorem bounded_giveBack (v : Option Value) :
    Keeps (State.Bounded m.code.size m.limits) (m.giveBack v) := by
  refine keeps_giveBack .coarse bounded_push (fun s caller hback hs ↦ ?_) v
  have hleft : ({ s with frame := caller.frame, callers := s.callers.pop } : State).Bounded
      m.code.size m.limits := by
    refine ⟨hs.stack, ?_, hs.ip, fun c hc ↦ hs.resumes c ?_⟩
    · have hdepth := hs.depth
      rw [State.frameDepth] at hdepth ⊢
      rw [Array.size_pop]
      omega
    · rw [Array.mem_def, Array.toList_pop] at hc
      exact Array.mem_def.2 (List.dropLast_subset _ hc)
  exact ⟨hleft, hleft.goTo (hs.resumes caller (Array.mem_of_back? hback))⟩

/-! ### Steps and runs -/

theorem mem_functions_of_callee? {i : Instr} {f : Function} (h : m.callee? i = some f) :
    f ∈ m.functions := by
  cases i with
  | call name count | tailCall name count => exact List.mem_of_find?_eq_some h
  | _ => cases h

/-- A step keeps a state within bounds. -/
theorem bounded_step (hm : m.StartsInCode) {s : State} (hs : s.Bounded m.code.size m.limits) :
    (m.step s).state.Bounded m.code.size m.limits := by
  refine m.state_step_of_execute hs fun i next _ hdecode ↦ ?_
  obtain ⟨hlt, hle⟩ := Instr.lt_of_decode hdecode
  refine keeps_execute .coarse bounded_push bounded_jumpTo (fun f hcallee args ↦ ?_)
    bounded_giveBack _ (hs.goTo ⟨Nat.le_trans hs.ip.1 (Nat.le_of_lt hlt), hle⟩)
  exact bounded_callFunction (hm.functions f (mem_functions_of_callee? hcallee)) args _

theorem StartsInCode.bounded_start (hm : m.StartsInCode) :
    m.start.Bounded m.code.size m.limits where
  stack := Nat.zero_le _
  depth := Nat.le_max_left _ _
  ip := hm.entry
  resumes := by
    intro c hc
    cases hc with
    | mk hc => cases hc

/-- **Every state of a run is within bounds**, also the one it ends in. -/
theorem StartsInCode.bounded_runFor (hm : m.StartsInCode) (count : Nat) :
    (m.runFor count m.start).state.Bounded m.code.size m.limits :=
  m.state_runFor (fun _ ↦ bounded_step hm) count hm.bounded_start

end Machine

/-! ### Images that were loaded -/

/-- Where the run goes on once a frame is left. Frames are counted from that of the program itself,
which is not left for another one. -/
def State.resume? (s : State) : (frame : Nat) → Option Nat
  | 0 => none
  | k + 1 => (s.callers[k]?).map (·.resume)

/-- Each frame but that of the program goes on somewhere inside the code. -/
theorem State.Bounded.exists_resume {s : State} {codeSize : Nat} {limits : Limits}
    (h : s.Bounded codeSize limits) {k : Nat} (hpos : 0 < k) (hk : k < s.frameDepth) :
    ∃ offset, s.resume? k = some offset ∧ InCode codeSize offset := by
  cases k with
  | zero => exact absurd hpos (Nat.lt_irrefl 0)
  | succ k =>
    have hlt : k < s.callers.size := Nat.lt_of_succ_lt_succ hk
    refine ⟨(s.callers[k]).resume, ?_, h.resumes _ (Array.getElem_mem hlt)⟩
    rw [resume?, Array.getElem?_eq_getElem hlt, Option.map_some]

/-- The code of an image that was loaded ends where its table starts. -/
theorem Image.size_code_of_load {bytes : Array UInt8} {image : Image}
    (h : Image.load bytes = .ok image) : image.code.size = image.tableOffset := by
  obtain ⟨rfl, hformat⟩ := format_of_load h
  have hle := hformat.table.2
  rw [Array.length_toList] at hle
  rw [code, Array.size_extract]
  omega

/-- What the loader checks is what keeps the machine within bounds. -/
theorem Machine.startsInCode_of_load {bytes : Array UInt8} {image : Image}
    (h : Image.load bytes = .ok image) (table : Table) (limits : Limits) :
    (Machine.ofImage image table limits).StartsInCode := by
  have hsize : (Machine.ofImage image table limits).code.size = image.tableOffset :=
    Image.size_code_of_load h
  obtain ⟨-, hformat⟩ := Image.format_of_load h
  constructor
  · rw [hsize]
    exact hformat.main
  · rw [hsize]
    exact hformat.entries

/-- The texts about missing frames and scopes belong to one case of malformed code. -/
theorem Malformed.text_notMem {x : Malformed} (hx : x ≠ .noParent) :
    x.text ∉ ["no frame to exit a scope from", "scope has no parent",
      "return without a caller"] := by
  -- The texts that name something differ from these in their first letters.
  have hfirst {s : String} {c : Char} (hs : s.toList.head? = some c) (hc : c ∉ ['n', 's', 'r']) :
      s ∉ ["no frame to exit a scope from", "scope has no parent", "return without a caller"] := by
    intro hmem
    simp only [List.mem_cons, List.not_mem_nil, or_false] at hmem
    rcases hmem with rfl | rfl | rfl <;> cases hs <;> exact hc (by decide)
  have happend {s s' : String} {c : Char} (hs : s.toList.head? = some c) :
      (s ++ s').toList.head? = some c := by
    rw [String.toList_append, List.head?_append, hs]
    rfl
  cases x with
  | decode e =>
    cases e with
    | unknownOpcode b => exact hfirst (happend (s := "unknown opcode 0x") rfl) (by decide)
    | truncated => decide
    | notText => decide
    | unknownTag b => exact hfirst (happend (s := "unknown type tag ") rfl) (by decide)
  | jumpOutside target => exact hfirst (happend (happend (s := "jump target ") rfl)) (by decide)
  | unmatchedExit => decide
  | noParent => exact absurd rfl hx

/-- What a fault in this code can be: its offset is inside the code; a variable is unknown only to
an instruction that reads it, not to a declaration and not to a parameter; and malformed code is
never about frames and scopes that are missing. -/
structure Fault.Sound (code : Array UInt8) (f : Fault) : Prop where
  offset : headerSize ≤ f.offset ∧ f.offset < code.size
  reads : ∀ name, f.cause = .unknownVariable name →
    ∃ i next, Instr.decode code f.offset = .ok (i, next) ∧ (i = .get name ∨ i = .setIndex name)
  text : ∀ x, f.cause = .malformed x →
    x.text ∉ ["no frame to exit a scope from", "scope has no parent", "return without a caller"]

/-- A run that starts inside the code fails in no other way than is told. -/
theorem Machine.StartsInCode.sound {m : Machine} (hm : m.StartsInCode) {count : Nat} {f : Fault}
    {s' : State} (h : m.runFor count m.start = .failed f s') : f.Sound m.code := by
  obtain ⟨s, o, ⟨n, hrun⟩, hout, hoffset, hlt, hcause⟩ := exists_fails_of_runFor h
  have hs := hm.bounded_runFor n
  rw [hrun] at hs
  -- There is always a scope to declare something in: that of the frame.
  have hscopes : o.scopes ≠ [] := by
    obtain ⟨ids, hstacked, -⟩ := hout.exists_chain
    obtain ⟨vars, rest, heq, -⟩ := hstacked.exists_eq_cons
    rw [heq]
    exact List.cons_ne_nil _ _
  constructor
  · rw [hoffset]
    exact ⟨hs.ip.1, hlt⟩
  · intro name hname
    rcases hcause with ⟨e, he⟩ | ⟨i, next, hdecode, hfails⟩
    · cases hname.symm.trans he
    · rw [hoffset]
      exact ⟨i, next, hdecode, hfails.reads_of_unknownVariable hname hscopes⟩
  · intro x hx
    -- Outlines count the open blocks, so that one that is closed always has a scope around it.
    refine Malformed.text_notMem fun hparent ↦ ?_
    subst hparent
    rcases hcause with ⟨e, he⟩ | ⟨i, next, -, hfails⟩
    · cases hx.symm.trans he
    · rcases hfails.jumpOutside_or_unmatchedExit hx with ⟨target, htarget⟩ | hexit
      · cases htarget
      · cases hexit

/-- The fault of a run that has failed. -/
def Machine.Progress.fault? : Machine.Progress → Option Fault
  | .failed f _ => some f
  | _ => none

theorem Machine.Progress.eq_failed_of_fault? {r : Machine.Progress} {f : Fault}
    (h : r.fault? = some f) : r = .failed f r.state := by
  rcases r with s | ⟨t, s⟩ | ⟨f', s⟩
  · cases h
  · cases h
  · cases h
    rfl

/-- **Whatever the code of an image is, a run of it stays within bounds**, for every image that the
loader accepts, every host and all limits. In every state of the run, also the one it ends in, the
operands and the frames are within the limits, and the run goes on inside the code or right behind
it, as do all calls that wait, of which there is one for each frame above the first. And a fault is
about an instruction inside the code, and about none of the things that cannot happen. -/
theorem bounded_and_sound_of_load {bytes : Array UInt8} {image : Image}
    (h : Image.load bytes = .ok image) (table : Table) (limits : Limits) (count : Nat)
    {r : Machine.Progress}
    (hrun : (Machine.ofImage image table limits).runFor count
      (Machine.ofImage image table limits).start = r) :
    r.state.Bounded image.tableOffset limits ∧ 1 ≤ r.state.frameDepth ∧
      (∀ k, 0 < k → k < r.state.frameDepth →
        ∃ offset, r.state.resume? k = some offset ∧ InCode image.tableOffset offset) ∧
      ∀ f s, r = .failed f s →
        (headerSize ≤ f.offset ∧ f.offset < image.tableOffset) ∧ f.Sound image.code := by
  have hm := Machine.startsInCode_of_load h table limits
  have hsize := Image.size_code_of_load h
  have hs : r.state.Bounded image.tableOffset limits := by
    rw [← hrun, ← hsize]
    exact hm.bounded_runFor count
  refine ⟨hs, Nat.succ_pos _, fun k ↦ hs.exists_resume, fun f s hr ↦ ?_⟩
  have hsound := hm.sound (hrun.trans hr)
  exact ⟨hsize ▸ hsound.offset, hsound⟩

/-- Calls a function that jumps into the operand of its second instruction, where the byte stands
for the end of a block. -/
def jumpsIntoOperand : Image where
  bytes := (Image.header 69 1 32 ++
    [.call "f" 0, .halt, .jump 61, .pushInt 0x41].flatMap Instr.encode ++
    (⟨"f", 51, true, false, .int, []⟩ : Function).encode).toArray
  tableOffset := 69
  mainEntry := 32
  functions := [⟨"f", 51, true, false, .int, []⟩]

theorem bounded_and_sound_jumpsIntoOperand :
    Image.load jumpsIntoOperand.bytes = .ok jumpsIntoOperand ∧
      ∃ s, (Machine.ofImage jumpsIntoOperand .empty ⟨2, 0⟩).runFor 3
          (Machine.ofImage jumpsIntoOperand .empty ⟨2, 0⟩).start =
            .failed ⟨.malformed .unmatchedExit, 61⟩ s ∧
        s.frameDepth = 2 ∧ s.resume? 1 = some 50 ∧
        s.Bounded jumpsIntoOperand.tableOffset ⟨2, 0⟩ ∧
        Fault.Sound jumpsIntoOperand.code ⟨.malformed .unmatchedExit, 61⟩ := by
  have hload : Image.load jumpsIntoOperand.bytes = .ok jumpsIntoOperand := by
    decide +kernel
  have hfault : ((Machine.ofImage jumpsIntoOperand .empty ⟨2, 0⟩).runFor 3
      (Machine.ofImage jumpsIntoOperand .empty ⟨2, 0⟩).start).fault? =
        some ⟨.malformed .unmatchedExit, 61⟩ := by
    decide +kernel
  have hrun := Machine.Progress.eq_failed_of_fault? hfault
  obtain ⟨hbounded, -, -, hsound⟩ := bounded_and_sound_of_load hload .empty ⟨2, 0⟩ 3 hrun
  exact ⟨hload, _, hrun, by decide +kernel, by decide +kernel, hbounded, (hsound _ _ rfl).2⟩

end Scriptlet
