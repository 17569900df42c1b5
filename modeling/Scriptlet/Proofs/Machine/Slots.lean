import Scriptlet.Proofs.Machine.Moves
import Scriptlet.Proofs.Machine.ScopeChain

/-!
# What an instruction does to the arena

The outline of a state forgets which slots its scopes are in. Whoever wants to follow **one scope**
through a run has to look at the arena itself, and this module says what an instruction does to it:
most leave it alone, and each of the others is one operation of the arena in the scope of the frame.
An instruction that ends the run, with a fault or without, leaves the arena alone in any case.

All this is about the program's own frame, in a machine without functions to call.
-/

namespace Scriptlet

/-! ### Operations that fail -/

namespace Arena

variable {a a' : Arena} {id : ScopeId} {name : String} {e : ScopeError}

/-- A declaration that fails changes nothing. -/
theorem eq_of_declare_eq_error {type : Tag} {v : Value}
    (h : a.declare id name type v = (.error e, a')) : a' = a := by
  unfold declare at h
  grind

theorem eq_of_update_eq_error {f : Value → Except ValueError Value}
    (h : a.update id name f = (.error e, a')) : a' = a := by
  unfold update at h
  grind

theorem eq_of_assign_eq_error {v : Value} (h : a.assign id name v = (.error e, a')) : a' = a := by
  unfold assign at h
  split at h
  · unfold set at h
    grind
  · exact eq_of_declare_eq_error h

/-- Of the scopes of a stack, only the global one is inside no other. -/
theorem Stacked.eq_of_release_eq_none {ids : List ScopeId} {scopes : Scopes}
    (hs : a.Stacked (id :: ids) scopes) (h : a.release id = (none, a')) : a' = a := by
  obtain ⟨vars, -, -, hscope⟩ := hs.exists_eq_cons
  unfold Arena.release at h
  split at h
  · cases h
    rfl
  · rename_i hid
    rw [hscope] at h
    cases ids with
    | nil => exact absurd (Option.some.inj hs.last) hid
    | cons parent ids => cases h

end Arena

/-! ### Actions that leave the scopes alone -/

/-- The two states have the same scopes, and the same calls are in progress. -/
structure State.SameScopes (s s' : State) : Prop where
  arena : s'.arena = s.arena
  frame : s'.frame = s.frame
  callers : s'.callers = s.callers

namespace State.SameScopes

variable {s s₁ s₂ : State}

theorem refl (s : State) : s.SameScopes s :=
  ⟨rfl, rfl, rfl⟩

theorem trans (h : s.SameScopes s₁) (h' : s₁.SameScopes s₂) : s.SameScopes s₂ :=
  ⟨h'.arena.trans h.arena, h'.frame.trans h.frame, h'.callers.trans h.callers⟩

end State.SameScopes

namespace Exec

variable {α β : Type}

/-- The state of a result has the scopes of another state. -/
def HasScopes (s : State) : EStateM.Result FaultCause State α → Prop
  | .ok _ s' => s.SameScopes s'
  | .error _ s' => s.SameScopes s'

/-- The action leaves the scopes alone, whether it fails or not. -/
def Still (x : Exec α) : Prop :=
  ∀ s, HasScopes s (x s)

namespace Still

/-- Two actions that leave the scopes alone do so together. -/
theorem bind {x : Exec α} {f : α → Exec β} (hx : Still x) (hf : ∀ a, Still (f a)) :
    Still (x >>= f) := by
  intro s
  show HasScopes s (EStateM.bind x f s)
  have hxs := hx s
  rw [EStateM.bind]
  generalize x s = r at hxs
  rcases r with ⟨a, s₁⟩ | ⟨e, s₁⟩
  · have hfs := hf a s₁
    dsimp only
    generalize f a s₁ = r at hfs
    rcases r with ⟨b, s₂⟩ | ⟨e, s₂⟩
    · exact State.SameScopes.trans hxs hfs
    · exact State.SameScopes.trans hxs hfs
  · exact hxs

theorem pure (a : α) : Still (Pure.pure a) :=
  fun s ↦ .refl s

theorem throw (e : FaultCause) : Still (MonadExcept.throw e : Exec α) :=
  fun s ↦ .refl s

/-- Values are computed outside the scopes. -/
theorem ofValue (r : Except ValueError α) : Still (Exec.ofValue r) := by
  cases r with
  | ok a => exact pure a
  | error e => exact throw _

theorem push (limit : Nat) (v : Value) : Still (Exec.push limit v) := by
  intro s
  rw [Exec.push]
  split
  · exact ⟨rfl, rfl, rfl⟩
  · exact .refl s

theorem pop : Still Exec.pop := by
  intro s
  rw [Exec.pop]
  rcases s.stack.back? with - | v
  · exact .refl s
  · exact ⟨rfl, rfl, rfl⟩

theorem popMany (count : Nat) : Still (Exec.popMany count) := by
  intro s
  rw [Exec.popMany]
  split
  · exact ⟨rfl, rfl, rfl⟩
  · exact .refl s

theorem read (name : String) : Still (Exec.read name) := by
  intro s
  rw [Exec.read]
  rcases s.arena.get s.frame.scope name with e | v
  · exact .refl s
  · exact .refl s

theorem jumpTo (codeSize target : Nat) : Still (Exec.jumpTo codeSize target) := by
  intro s
  rw [Exec.jumpTo]
  split
  · exact ⟨rfl, rfl, rfl⟩
  · exact .refl s

theorem note (c : Call) : Still (Exec.note c) :=
  fun _ ↦ ⟨rfl, rfl, rfl⟩

end Still

theorem back?_of_pop {s s' : State} {v : Value} (h : pop s = .ok v s') :
    s.stack.back? = some v := by
  rw [pop] at h
  split at h
  · rename_i hback
    cases h
    exact hback
  · cases h

end Exec

namespace Machine

open Exec

variable (m : Machine)

/-- A built-in function leaves the scopes alone. -/
theorem still_callBuiltin (b : Builtin) (args : List Value) : Still (m.callBuiltin b args) := by
  refine (Still.note _).bind fun _ ↦ ?_
  split
  · exact .push _ _
  · exact .throw _

/-- Only functions of the program have scopes. -/
theorem still_call {name : String} (hfind : m.find? name = none) (count : Nat) (isTail : Bool) :
    Still (m.call name count isTail) := by
  refine (Still.popMany count).bind fun args ↦ ?_
  rw [hfind]
  dsimp only
  split
  · exact .throw _
  · split
    · split
      · exact m.still_callBuiltin _ _
      · exact .throw _
    · exact m.still_callBuiltin _ _

theorem still_push (v : Value) :
    Still (do push m.limits.maxStack v; return (none : Option Termination)) :=
  (Still.push _ v).bind fun _ ↦ .pure none

theorem still_pushResult (r : Except ValueError Value) :
    Still (do
      let v ← ofValue r
      push m.limits.maxStack v
      return (none : Option Termination)) :=
  (Still.ofValue r).bind fun v ↦ m.still_push v

theorem still_jumpTo (target : Nat) :
    Still (do jumpTo m.code.size target; return (none : Option Termination)) :=
  (Still.jumpTo _ target).bind fun _ ↦ .pure none

/-- The instruction works on variables, or it opens or closes scopes. -/
def handlesScopes : Instr → Bool
  | .set _ | .decl _ _ | .unset _ | .setIndex _ => true
  | .enterScope | .exitScope | .ret | .retVoid => true
  | .call name _ | .tailCall name _ => (m.find? name).isSome
  | _ => false

/-- **All other instructions leave the scopes alone.** -/
theorem still_execute {i : Instr} (h : m.handlesScopes i = false) : Still (m.execute i) := by
  have hpop {f : Value → Exec (Option Termination)} (hf : ∀ v, Still (f v)) : Still (pop >>= f) :=
    Still.pop.bind hf
  cases i with
  | set | decl | unset | setIndex | enterScope | exitScope | ret | retVoid => cases h
  | pushInt | pushFloat | pushBool | pushStr | pushNull => exact m.still_push _
  | makeList count => exact (Still.popMany count).bind fun _ ↦ m.still_push _
  | get name => exact (Still.read name).bind fun _ ↦ m.still_push _
  | pop => exact hpop fun _ ↦ .pure none
  | unary op => exact hpop fun _ ↦ m.still_pushResult _
  | binary | index => exact hpop fun _ ↦ hpop fun _ ↦ m.still_pushResult _
  | slice => exact hpop fun _ ↦ hpop fun _ ↦ hpop fun _ ↦ m.still_pushResult _
  | jump target => exact m.still_jumpTo target
  | jumpIfFalse target =>
    refine hpop fun condition ↦ ?_
    split
    · exact .pure none
    · exact m.still_jumpTo target
  | call name count | tailCall name count =>
    have hfind : m.find? name = none := Option.not_isSome_iff_eq_none.1 (Bool.eq_false_iff.1 h)
    exact (m.still_call hfind count _).bind fun _ ↦ .pure none
  | halt => exact .pure _

/-- Without a caller, giving a value back ends the run. -/
theorem giveBack_of_callers_eq {s : State} (v : Option Value) (h : s.callers = #[]) :
    m.giveBack v s = .ok (some .returned) s := by
  show EStateM.bind leaveFrame? _ s = _
  rw [EStateM.bind, leaveFrame?, h]
  rfl

end Machine

/-! ### Instructions -/

namespace Instr

/-- What an instruction that does not end the run makes of the scopes. -/
def Works (i : Instr) (s s' : State) : Prop :=
  match i with
  | .set name =>
    s'.frame = s.frame ∧ ∃ v, s.arena.assign s.frame.scope name v = (.ok (), s'.arena)
  | .decl name type =>
    s'.frame = s.frame ∧ ∃ v, s.stack.back? = some v ∧
      s.arena.declare s.frame.scope name type v = (.ok (), s'.arena)
  | .unset name => s'.frame = s.frame ∧ s'.arena = (s.arena.unset s.frame.scope name).2
  | .setIndex name =>
    s'.frame = s.frame ∧ ∃ f, s.arena.update s.frame.scope name f = (.ok (), s'.arena)
  | .enterScope => s.arena.push s.frame.scope = (s'.frame.scope, s'.arena)
  | .exitScope => s.arena.release s.frame.scope = (some s'.frame.scope, s'.arena)
  | _ => s'.frame = s.frame ∧ s'.arena = s.arena

/-- What executing an instruction in the program's own frame gives. -/
def Performs (i : Instr) (s : State) :
    EStateM.Result FaultCause State (Option Termination) → Prop
  | .ok none s' => s'.callers = s.callers ∧ i.Works s s'
  | .ok (some _) s' => s'.arena = s.arena
  | .error _ s' => s'.arena = s.arena

variable {i : Instr} {s : State}

/-- An action that leaves the scopes alone performs an instruction that may do so. -/
theorem performs_of_still {x : Exec (Option Termination)} (hx : x.Still)
    (hi : ∀ s', s.SameScopes s' → i.Works s s') : i.Performs s (x s) := by
  have hxs := hx s
  generalize x s = r at hxs
  rcases r with ⟨- | t, s'⟩ | ⟨e, s'⟩
  · exact ⟨State.SameScopes.callers hxs, hi s' hxs⟩
  · exact State.SameScopes.arena hxs
  · exact State.SameScopes.arena hxs

/-- An instruction may begin with actions that leave the scopes alone. -/
theorem performs_bind {α : Type} {x : Exec α} {f : α → Exec (Option Termination)} {s₀ : State}
    (hx : x.Still) (hs : s.SameScopes s₀)
    (hf : ∀ a s₁, x s₀ = .ok a s₁ → s.SameScopes s₁ → i.Performs s (f a s₁)) :
    i.Performs s ((x >>= f) s₀) := by
  show i.Performs s (EStateM.bind x f s₀)
  have hxs := hx s₀
  rw [EStateM.bind]
  generalize x s₀ = r at hxs hf
  rcases r with ⟨a, s₁⟩ | ⟨e, s₁⟩
  · exact hf a s₁ rfl (hs.trans hxs)
  · exact (hs.trans hxs).arena

/-- An instruction that operates on the arena. -/
theorem performs_onArena {f : ScopeId → Arena → Except ScopeError Unit × Arena} {s₁ : State}
    (hs : s.SameScopes s₁)
    (herror : ∀ e a, f s.frame.scope s.arena = (.error e, a) → a = s.arena)
    (hok : ∀ s', f s.frame.scope s.arena = (.ok (), s'.arena) → s'.frame = s.frame →
      i.Works s s') :
    i.Performs s ((do
      let id ← Exec.scope
      Exec.onArena (f id)
      return (none : Option Termination) : Exec (Option Termination)) s₁) := by
  show i.Performs s (EStateM.bind (Exec.onArena (f s₁.frame.scope)) (fun _ ↦ pure none) s₁)
  rw [EStateM.bind, Exec.onArena, hs.frame, hs.arena]
  generalize f s.frame.scope s.arena = r at herror hok
  rcases r with ⟨e | u, a⟩
  · exact herror e a rfl
  · exact ⟨hs.callers, hok _ rfl rfl⟩

end Instr

namespace Machine

open Exec Instr

variable {m : Machine} {s : State}

/-- **What an instruction does to the scopes.** -/
theorem performs_execute (hfind : ∀ name, m.find? name = none) (hcallers : s.callers = #[])
    (hroot : ∀ a, s.arena.release s.frame.scope = (none, a) → a = s.arena) (i : Instr) :
    i.Performs s (m.execute i s) := by
  have hsame {s' : State} (h : s.SameScopes s') : s'.frame = s.frame ∧ s'.arena = s.arena :=
    ⟨h.frame, h.arena⟩
  -- The instructions that work on scopes come first; the others leave them alone.
  cases i with
  | set name =>
    refine performs_bind .pop (.refl s) fun v s₁ _ hs ↦ ?_
    exact performs_onArena (f := fun id a ↦ a.assign id name v) hs
      (fun _ _ ↦ Arena.eq_of_assign_eq_error) fun s' h hframe ↦ ⟨hframe, v, h⟩
  | decl name type =>
    refine performs_bind .pop (.refl s) fun v s₁ hv hs ↦ ?_
    exact performs_onArena (f := fun id a ↦ a.declare id name type v) hs
      (fun _ _ ↦ Arena.eq_of_declare_eq_error)
      fun s' h hframe ↦ ⟨hframe, v, back?_of_pop hv, h⟩
  | unset name =>
    refine performs_onArena (f := fun id a ↦ (.ok (), (a.unset id name).2)) (.refl s) ?_ ?_
    · intro e a h
      cases h
    · intro s' h hframe
      exact ⟨hframe, (congrArg Prod.snd h).symm⟩
  | setIndex name =>
    refine performs_bind .pop (.refl s) fun v s₁ _ hs ↦ performs_bind .pop hs fun i s₂ _ hs ↦ ?_
    exact performs_onArena (f := fun id a ↦ a.update id name fun container ↦ container.setIndex i v)
      hs (fun _ _ ↦ Arena.eq_of_update_eq_error) fun s' h hframe ↦ ⟨hframe, _, h⟩
  | ret =>
    refine performs_bind .pop (.refl s) fun v s₁ _ hs ↦ ?_
    rw [m.giveBack_of_callers_eq (some v) (hs.callers.trans hcallers)]
    exact hs.arena
  | retVoid =>
    show Instr.retVoid.Performs s (m.giveBack none s)
    rw [m.giveBack_of_callers_eq none hcallers]
    exact rfl
  | enterScope => exact ⟨rfl, rfl⟩
  | exitScope =>
    show Instr.exitScope.Performs s (EStateM.bind Exec.exitScope (fun _ ↦ pure none) s)
    rw [EStateM.bind, Exec.exitScope]
    by_cases hbase : s.frame.scope = s.frame.base
    · rw [if_pos hbase]
      exact rfl
    · rw [if_neg hbase]
      rcases h : s.arena.release s.frame.scope with ⟨- | parent, a⟩
      · exact hroot a h
      · exact ⟨rfl, h⟩
  | call name count | tailCall name count =>
    exact performs_of_still (m.still_execute (by rw [handlesScopes, hfind]; rfl)) fun _ ↦ hsame
  | _ => exact performs_of_still (m.still_execute rfl) fun _ ↦ hsame

/-! ### Steps -/

/-- The state that a step or a run leaves behind, whether it is over or not. -/
def Progress.state : Progress → State
  | running s => s
  | ended _ s => s
  | failed _ s => s

/-- **A step in the program's own frame** does what its instruction does to the scopes, or it ends
the run and leaves the arena alone. -/
theorem exists_works_or_arena_eq {ids : List ScopeId} {scopes : Scopes}
    (hfind : ∀ name, m.find? name = none) (hcallers : s.callers = #[])
    (hs : s.arena.Stacked (s.frame.scope :: ids) scopes) :
    (∃ s' i next, m.step s = .running s' ∧ Instr.decode m.code s.ip = .ok (i, next) ∧
      s'.callers = #[] ∧ i.Works s s') ∨
    (∀ s', m.step s ≠ .running s') ∧ (m.step s).state.arena = s.arena := by
  rw [step]
  split
  · rcases hdecode : Instr.decode m.code s.ip with e | ⟨i, next⟩
    · exact .inr ⟨fun _ h ↦ (by cases h), rfl⟩
    · have hperforms : i.Performs { s with ip := next } (m.execute i { s with ip := next }) :=
        performs_execute (s := { s with ip := next }) hfind hcallers
          (fun _ ↦ hs.eq_of_release_eq_none) i
      dsimp only
      rcases hresult : m.execute i { s with ip := next } with ⟨- | t, s'⟩ | ⟨e, s'⟩ <;>
        rw [hresult] at hperforms
      · exact .inl ⟨s', i, next, rfl, rfl, hperforms.1.trans hcallers, hperforms.2⟩
      · exact .inr ⟨fun _ h ↦ (by cases h), hperforms⟩
      · exact .inr ⟨fun _ h ↦ (by cases h), hperforms⟩
  · exact .inr ⟨fun _ h ↦ (by cases h), rfl⟩

/-- A step in the program's own frame goes on behind the instruction or at its target. -/
theorem exists_goesOn_of_step {s' : State} (hfind : ∀ name, m.find? name = none)
    (hcallers : s.callers = #[]) (hs : m.Reaches s) (h : m.step s = .running s') :
    ∃ i next, s.ip < m.code.size ∧ Instr.decode m.code s.ip = .ok (i, next) ∧
      (i.fallsThrough = true ∧ s'.ip = next ∨ i.target? = some s'.ip) := by
  obtain ⟨o, hout⟩ := hs.exists_outline
  obtain ⟨o', hout', hstep⟩ := exists_outlineStep_of_step hout h
  obtain ⟨i, next, hlt, hdecode, hmoves⟩ := exists_moves_of_outlineStep hstep
  rw [← hout.ip] at hlt hdecode
  -- Without functions of the program no call enters one.
  have hcallee : m.callee? i = none := by
    cases i with
    | call name count => exact hfind name
    | tailCall name count => exact hfind name
    | _ => rfl
  refine ⟨i, next, hlt, hdecode, ?_⟩
  rw [hout'.ip]
  generalize ho : { o with ip := next } = o₁ at hmoves
  cases hmoves with
  | goesOn _ _ hip =>
    subst ho
    exact hip
  | enters hcallee' | replaced hcallee' =>
    rw [hcallee] at hcallee'
    cases hcallee'
  | givesBack _ hwaits =>
    subst ho
    -- No call waits, so nothing is given back.
    replace hwaits : o.callers = _ := hwaits
    have hsize := hout.size_callers
    rw [hcallers, hwaits] at hsize
    cases hsize

end Machine

end Scriptlet
