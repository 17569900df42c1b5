import Scriptlet.Proofs.Machine.Slots
import Scriptlet.Proofs.Scope.Edits

/-!
# What an instruction does to the scopes of a run

`Machine.Moves` says what a step does to an outline, where it goes on. Here is what an instruction
does to **the slots**, in any state and whether it fails or not: it edits variables, opens or closes
a block, opens a frame, puts a frame in the place of another, or leaves one. Parameters are bound
one by one, so that an instruction may fail with a frame that has only some of them; and a frame is
left before its value is coerced, so that it may fail with the scopes of that frame still there.

What all scopes have and these operations keep, they have in every state of a run.
-/

namespace Scriptlet

/-- The variables of a scope and of others are edited one after the other. -/
abbrev Arena.EditsMany (id : ScopeId) : Arena → Arena → Prop :=
  Relation.ReflTransGen fun a a' ↦ a.Edits id a'

/-- What one instruction may do to the scopes of a state. -/
inductive State.Shifts (s s' : State) : Prop where
  | edits (hframe : s'.frame = s.frame) (hcallers : s'.callers = s.callers)
      (harena : s.arena.Edits s.frame.scope s'.arena)
  | enters (hcallers : s'.callers = s.callers)
      (harena : s'.arena = (s.arena.push s.frame.scope).2)
  | exits (hcallers : s'.callers = s.callers)
      (harena : s'.arena = (s.arena.release s.frame.scope).2)
  | opens {id : ScopeId} {a : Arena} {resume : Nat}
      (hcallers : s'.callers = s.callers.push ⟨s.frame, resume⟩)
      (hpush : s.arena.push s.frame.scope = (id, a)) (harena : Arena.EditsMany id a s'.arena)
  | replaces {id : ScopeId} {a : Arena} {caller : Caller} (hcaller : s.callers.back? = some caller)
      (hcallers : s'.callers = s.callers)
      (hpush : (s.arena.releaseThrough s.frame.scope s.frame.base).push caller.frame.scope =
        (id, a))
      (harena : Arena.EditsMany id a s'.arena)
  | leaves {caller : Caller} (hcaller : s.callers.back? = some caller)
      (hcallers : s'.callers = s.callers.pop)
      (harena : s'.arena = s.arena ∨
        s'.arena = s.arena.releaseThrough s.frame.scope s.frame.base)

namespace State.SameScopes

variable {s s' s₁ s₁' : State}

/-- To leave the scopes alone is allowed. -/
theorem shifts (h : s.SameScopes s') : s.Shifts s' :=
  .edits h.frame h.callers (h.arena ▸ .same)

/-- Only the scopes matter, and the calls in progress. -/
theorem shifts_congr (hs : s.SameScopes s₁) (hs' : s'.SameScopes s₁') (h : s.Shifts s') :
    s₁.Shifts s₁' := by
  obtain ⟨ha, hf, hc⟩ := hs
  obtain ⟨ha', hf', hc'⟩ := hs'
  cases h with
  | edits hframe hcallers harena =>
    exact .edits (by rw [hf', hframe, hf]) (by rw [hc', hcallers, hc]) (by rwa [ha', ha, hf])
  | enters hcallers harena =>
    exact .enters (by rw [hc', hcallers, hc]) (by rw [ha', harena, ha, hf])
  | exits hcallers harena =>
    exact .exits (by rw [hc', hcallers, hc]) (by rw [ha', harena, ha, hf])
  | opens hcallers hpush harena =>
    rw [← ha, ← hf] at hpush
    exact .opens (by rw [hc', hcallers, hc, hf]) hpush (by rwa [ha'])
  | replaces hcaller hcallers hpush harena =>
    rw [← ha, ← hf] at hpush
    exact .replaces (by rwa [hc]) (by rw [hc', hcallers, hc]) hpush (by rwa [ha'])
  | leaves hcaller hcallers harena =>
    exact .leaves (by rwa [hc]) (by rw [hc', hcallers, hc]) (by rwa [ha', ha, hf])

end State.SameScopes

/-! ### Actions -/

namespace Exec

variable {α β : Type} {x : Exec α} {f : α → Exec β} {s : State}

/-- The state that an action leaves behind, whether it fails or not. -/
def after (x : Exec α) (s : State) : State :=
  match x s with
  | .ok _ s' => s'
  | .error _ s' => s'

/-- The action does to the scopes what one instruction may do. -/
def Shifting (x : Exec α) : Prop :=
  ∀ s : State, s.Shifts (x.after s)

theorem after_of_ok {a : α} {s' : State} (h : x s = .ok a s') : x.after s = s' := by
  rw [after, h]

theorem after_of_error {e : FaultCause} {s' : State} (h : x s = .error e s') :
    x.after s = s' := by
  rw [after, h]

/-- After success the second action decides what is left behind. -/
theorem after_bind_of_ok {a : α} {s' : State} (h : x s = .ok a s') :
    (x >>= f).after s = (f a).after s' := by
  rw [after, bind_of_ok h]
  rfl

/-- After a failure the second action is not run. -/
theorem after_bind_of_error {e : FaultCause} {s' : State} (h : x s = .error e s') :
    (x >>= f).after s = s' :=
  after_of_error (bind_of_error h)

/-- An action that leaves the scopes alone leaves them behind as they were. -/
theorem Still.after (h : Still x) (s : State) : s.SameScopes (x.after s) := by
  have hs := h s
  rw [Exec.after]
  generalize x s = r at hs
  rcases r with ⟨a, s'⟩ | ⟨e, s'⟩
  · exact hs
  · exact hs

theorem Still.shifting (h : Still x) : Shifting x :=
  fun s ↦ (h.after s).shifts

/-- An instruction may begin with actions that leave the scopes alone, -/
theorem Shifting.still_bind (hx : Still x) (hf : ∀ a, Shifting (f a)) : Shifting (x >>= f) := by
  intro s
  have hs := hx.after s
  rcases h : x s with ⟨a, s'⟩ | ⟨e, s'⟩
  · rw [after_of_ok h] at hs
    rw [after_bind_of_ok h]
    exact State.SameScopes.shifts_congr ⟨hs.arena.symm, hs.frame.symm, hs.callers.symm⟩ (.refl _)
      (hf a s')
  · rw [after_of_error h] at hs
    rw [after_bind_of_error h]
    exact hs.shifts

/-- What leaves the scopes alone may follow. -/
theorem after_bind_still (x : Exec α) (hf : ∀ a, Still (f a)) (s : State) :
    (x.after s).SameScopes ((x >>= f).after s) := by
  rcases h : x s with ⟨a, s'⟩ | ⟨e, s'⟩
  · rw [after_of_ok h, after_bind_of_ok h]
    exact (hf a).after s'
  · rw [after_of_error h, after_bind_of_error h]
    exact .refl s'

/-- and end with such. -/
theorem Shifting.bind_still (hx : Shifting x) (hf : ∀ a, Still (f a)) : Shifting (x >>= f) :=
  fun s ↦ (State.SameScopes.refl s).shifts_congr (after_bind_still x hf s) (hx s)

/-- An operation on variables in the scope of the frame. -/
theorem shifting_onArena {g : ScopeId → Arena → Except ScopeError Unit × Arena}
    (hg : ∀ (a : Arena) id, a.Edits id (g id a).2) :
    Shifting (do
      let id ← scope
      onArena (g id)
      return (none : Option Termination)) := by
  intro s
  have hs : s.Shifts { s with arena := (g s.frame.scope s.arena).2 } :=
    .edits rfl rfl (hg s.arena s.frame.scope)
  rw [after_bind_of_ok (show scope s = .ok s.frame.scope s from rfl)]
  rcases h : g s.frame.scope s.arena with ⟨e | u, a⟩ <;> rw [h] at hs
  · rw [after_bind_of_error (by rw [onArena, h])]
    exact hs
  · rw [after_bind_of_ok (by rw [onArena, h])]
    exact hs

theorem shifting_enterScope : Shifting enterScope :=
  fun _ ↦ .enters rfl rfl

/-- To leave a block releases its scope, or fails with nothing changed. -/
theorem shifting_exitScope : Shifting exitScope := by
  intro s
  by_cases hbase : s.frame.scope = s.frame.base
  · rw [after_of_error (by rw [exitScope, if_pos hbase])]
    exact (State.SameScopes.refl s).shifts
  · rcases h : s.arena.release s.frame.scope with ⟨- | parent, a⟩
    · rw [after_of_error (by rw [exitScope, if_neg hbase, h])]
      exact .exits rfl (by rw [h])
    · rw [after_of_ok (by rw [exitScope, if_neg hbase, h])]
      exact .exits rfl (by rw [h])

/-! ### Frames -/

/-- Parameters are bound one by one, up to the first that fails. -/
theorem after_bindParams (id : ScopeId) (params : List String) (args : List Value) (s : State) :
    ((bindParams id params args).after s).frame = s.frame ∧
      ((bindParams id params args).after s).callers = s.callers ∧
      Arena.EditsMany id s.arena ((bindParams id params args).after s).arena := by
  induction params generalizing args s with
  | nil => exact ⟨rfl, rfl, .refl⟩
  | cons p ps ih =>
    rcases args with - | ⟨v, vs⟩
    · exact ⟨rfl, rfl, .refl⟩
    rw [bindParams]
    have hedits := s.arena.edits_declare id p .auto v
    rcases h : s.arena.declare id p .auto v with ⟨e | u, a⟩ <;> rw [h] at hedits
    · rw [after_bind_of_error (by rw [onArena, h])]
      exact ⟨rfl, rfl, .single hedits⟩
    · rw [after_bind_of_ok (by rw [onArena, h])]
      obtain ⟨hframe, hcallers, harena⟩ := ih vs { s with arena := a }
      exact ⟨hframe, hcallers, harena.head hedits⟩

theorem still_goTo (f : Function) : Still (goTo f) :=
  fun _ ↦ ⟨rfl, rfl, rfl⟩

end Exec

namespace Machine

open Exec

variable (m : Machine)

/-- A call opens a frame or replaces one, and then edits the variables of its scope only. -/
theorem shifting_callFunction (f : Function) (args : List Value) (isTail : Bool) :
    Shifting (m.callFunction f args isTail) := by
  intro s
  have hgoTo (id : ScopeId) := after_bind_still (bindParams id f.params args) fun _ ↦ still_goTo f
  rw [callFunction]
  -- A last call replaces the frame of its caller, if there is one.
  by_cases hreplace : isTail = true ∧ s.callers.back? ≠ none
  · obtain ⟨rfl, hback⟩ := hreplace
    obtain ⟨caller, hback⟩ := Option.ne_none_iff_exists'.1 hback
    rcases hpush : (s.arena.releaseThrough s.frame.scope s.frame.base).push caller.frame.scope with
      ⟨id, a⟩
    rw [if_pos rfl, after_bind_of_ok (by rw [replaceFrame?, hback])]
    simp only [hpush]
    obtain ⟨-, hcallers, harena⟩ := after_bindParams id f.params args
      { s with arena := a, frame := ⟨id, id, f.returns⟩ }
    exact (State.SameScopes.refl s).shifts_congr (hgoTo id _)
      (.replaces hback hcallers hpush harena)
  · have hskip : (if isTail = true then replaceFrame? f else pure none) s = .ok none s := by
      split
      · next htail =>
        rw [replaceFrame?, of_not_not fun hne ↦ hreplace ⟨htail, hne⟩]
      · rfl
    rw [after_bind_of_ok hskip]
    dsimp only
    by_cases hlimit : s.callers.size + 1 < m.limits.maxFrames
    · rcases hpush : s.arena.push s.frame.scope with ⟨id, a⟩
      rw [after_bind_of_ok (by rw [openFrame, if_pos hlimit])]
      simp only [hpush]
      obtain ⟨-, hcallers, harena⟩ := after_bindParams id f.params args
        { s with
          arena := a
          callers := s.callers.push ⟨s.frame, s.ip⟩
          frame := ⟨id, id, f.returns⟩ }
      exact (State.SameScopes.refl s).shifts_congr (hgoTo id _) (.opens hcallers hpush harena)
    · rw [after_bind_of_error (by rw [openFrame, if_neg hlimit])]
      exact (State.SameScopes.refl s).shifts

/-- A call by name enters a function, or leaves the scopes alone. -/
theorem shifting_call (name : String) (count : Nat) (isTail : Bool) :
    Shifting (m.call name count isTail) := by
  by_cases hfind : m.find? name = none
  · exact (m.still_call hfind count isTail).shifting
  · obtain ⟨f, hf⟩ := Option.ne_none_iff_exists'.1 hfind
    refine .still_bind (.popMany count) fun args ↦ ?_
    rw [hf]
    dsimp only
    split
    · exact m.shifting_callFunction f args isTail
    · exact (Still.throw _).shifting

/-- A frame is left before its value is coerced, and its scopes are released after that. -/
theorem shifting_giveBack (v : Option Value) : Shifting (m.giveBack v) := by
  intro s
  rw [giveBack]
  rcases hback : s.callers.back? with - | caller
  · rw [after_bind_of_ok (by rw [leaveFrame?, hback])]
    exact (State.SameScopes.refl s).shifts
  · rw [after_bind_of_ok (by rw [leaveFrame?, hback])]
    dsimp only
    rcases resultOf s.frame.returns v with e | w
    · exact .leaves hback rfl (.inl rfl)
    · exact State.SameScopes.shifts_congr (.refl s) ((m.still_push w).after _)
        (.leaves hback rfl (.inr rfl))

/-- **What an instruction does to the scopes**, in any state. -/
theorem shifting_execute (i : Instr) : Shifting (m.execute i) := by
  -- Operands are taken first, which is no change of scopes.
  cases i with
  | set name =>
    refine .still_bind .pop fun v ↦ ?_
    exact shifting_onArena (g := fun id a ↦ a.assign id name v) fun a id ↦ a.edits_assign id name v
  | decl name type =>
    refine .still_bind .pop fun v ↦ ?_
    exact shifting_onArena (g := fun id a ↦ a.declare id name type v)
      fun a id ↦ a.edits_declare id name type v
  | unset name =>
    exact shifting_onArena (g := fun id a ↦ (.ok (), (a.unset id name).2))
      fun a id ↦ a.edits_unset id name
  | setIndex name =>
    refine .still_bind .pop fun v ↦ .still_bind .pop fun i ↦ ?_
    exact shifting_onArena
      (g := fun id a ↦ a.update id name fun container ↦ container.setIndex i v)
      fun a id ↦ Arena.edits_update (fun _ _ ↦ Value.tag_of_setIndex) a id name
  | call name count => exact (m.shifting_call name count false).bind_still fun _ ↦ .pure none
  | tailCall name count => exact (m.shifting_call name count true).bind_still fun _ ↦ .pure none
  | ret => exact .still_bind .pop fun v ↦ m.shifting_giveBack (some v)
  | retVoid => exact m.shifting_giveBack none
  | enterScope => exact shifting_enterScope.bind_still fun _ ↦ .pure none
  | exitScope => exact shifting_exitScope.bind_still fun _ ↦ .pure none
  | _ => exact (m.still_execute rfl).shifting

/-- What each instruction keeps, a step keeps. -/
theorem state_step_of_execute {P : State → Prop} {s : State} (hs : P s)
    (h : ∀ i next, s.ip < m.code.size → Instr.decode m.code s.ip = .ok (i, next) →
      P ((m.execute i).after { s with ip := next })) : P (m.step s).state := by
  rw [step]
  split
  · rename_i hlt
    rcases hdecode : Instr.decode m.code s.ip with e | ⟨i, next⟩
    · exact hs
    · have hs' := h i next hlt hdecode
      dsimp only
      rw [Exec.after] at hs'
      generalize m.execute i { s with ip := next } = r at hs'
      rcases r with ⟨- | t, s'⟩ | ⟨e, s'⟩
      · exact hs'
      · exact hs'
      · exact hs'
  · exact hs

/-- **What a step does to the scopes**, whether it is the last one or not. -/
theorem shifts_step (s : State) : s.Shifts (m.step s).state := by
  refine m.state_step_of_execute (State.SameScopes.refl s).shifts fun i next _ _ ↦ ?_
  have hip : ({ s with ip := next } : State).SameScopes s := ⟨rfl, rfl, rfl⟩
  exact hip.shifts_congr (.refl _) (m.shifting_execute i { s with ip := next })

/-- What each step keeps, also the last one, a run keeps. -/
theorem state_runFor {P : State → Prop} (hstep : ∀ s, P s → P (m.step s).state) (count : Nat)
    {s : State} (hs : P s) : P (m.runFor count s).state := by
  induction count generalizing s with
  | zero => exact hs
  | succ count ih =>
    have hs' := hstep s hs
    rw [runFor]
    generalize m.step s = p at hs'
    rcases p with s' | ⟨t, s'⟩ | ⟨f, s'⟩
    · exact ih hs'
    · exact hs'
    · exact hs'

end Machine

/-! ### What all scopes of a run have -/

section Invariant

variable {P : Scope → Prop} {s s' : State}

/-- What every operation on one scope keeps is kept by what an instruction may do. -/
theorem State.Shifts.all (h : s.Shifts s') (hP : Scope.Invariant P) (hs : s.arena.All P) :
    s'.arena.All P := by
  cases h with
  | edits _ _ harena => exact hs.edits hP harena
  | enters _ harena =>
    rw [harena]
    exact hs.push hP _
  | exits _ harena =>
    rw [harena]
    exact hs.release _
  | opens _ hpush harena =>
    have hnew := hs.push hP s.frame.scope
    rw [hpush] at hnew
    exact hnew.editsMany hP harena
  | @replaces _ _ caller _ _ hpush harena =>
    have hnew := (hs.releaseThrough s.frame.scope s.frame.base).push hP caller.frame.scope
    rw [hpush] at hnew
    exact hnew.editsMany hP harena
  | leaves _ _ harena =>
    rcases harena with harena | harena <;> rw [harena]
    · exact hs
    · exact hs.releaseThrough _ _

/-- It is kept through a whole run. -/
theorem Machine.all_runFor (m : Machine) (hP : Scope.Invariant P) (count : Nat)
    (hs : s.arena.All P) : (m.runFor count s).state.arena.All P :=
  m.state_runFor (P := fun s ↦ s.arena.All P) (fun s ↦ (m.shifts_step s).all hP) count hs

/-- **What empty scopes have and edits keep, all scopes of a run have**, also where the run ends. -/
theorem Machine.all_of_runFor_start (m : Machine) (hP : Scope.Invariant P) (count : Nat) :
    (m.runFor count m.start).state.arena.All P :=
  m.all_runFor hP count (.new hP)

end Invariant

end Scriptlet
