import Scriptlet.Proofs.Machine.Lockstep
import Scriptlet.Proofs.Machine.Tracks
import Scriptlet.Proofs.Machine.Trials

/-!
# Limits only cut runs short

Limits are asked for in two places, where a value is pushed and where a frame is opened, and only to
fail there. So a run within some limits is **the same run** within larger ones: it takes the same
steps through the same states, up to where it ends or a limit is exceeded.

`Exec.Loosens` says so of one action under two limits, and it is enough to say it of these two: what
is put together from actions that do so does so as well.
-/

namespace Scriptlet

/-! ### Actions -/

namespace Exec

variable {α β : Type}

/-- The second action does the same as the first one, unless that exceeds a limit. -/
def Loosens (x x' : Exec α) : Prop :=
  ∀ s, x' s = x s ∨ ∃ cause s', x s = .error cause s' ∧ cause.isLimit = true

namespace Loosens

theorem refl (x : Exec α) : Loosens x x :=
  fun _ ↦ .inl rfl

/-- Actions are loosened one after the other. -/
theorem bind {x x' : Exec α} {f f' : α → Exec β} (hx : Loosens x x')
    (hf : ∀ a, Loosens (f a) (f' a)) : Loosens (x >>= f) (x' >>= f') := by
  intro s
  rcases hx s with heq | ⟨cause, s₁, herror, hlimit⟩
  · rcases h : x s with ⟨a, s₁⟩ | ⟨e, s₁⟩
    · rw [bind_of_ok h, bind_of_ok (heq.trans h)]
      exact hf a s₁
    · rw [bind_of_error h, bind_of_error (heq.trans h)]
      exact .inl rfl
  · exact .inr ⟨cause, s₁, bind_of_error herror, hlimit⟩

/-- There is room for an operand below the higher limit as well. -/
theorem push {limit limit' : Nat} (h : limit ≤ limit') (v : Value) :
    Loosens (Exec.push limit v) (Exec.push limit' v) := by
  intro s
  rw [Exec.push, Exec.push]
  by_cases hroom : s.stack.size < limit
  · rw [if_pos hroom, if_pos (Nat.lt_of_lt_of_le hroom h)]
    exact .inl rfl
  · rw [if_neg hroom]
    exact .inr ⟨_, _, rfl, rfl⟩

theorem openFrame {limit limit' : Nat} (h : limit ≤ limit') (f : Function) :
    Loosens (Exec.openFrame limit f) (Exec.openFrame limit' f) := by
  intro s
  rw [Exec.openFrame, Exec.openFrame]
  by_cases hroom : s.callers.size + 1 < limit
  · rw [if_pos hroom, if_pos (Nat.lt_of_lt_of_le hroom h)]
    exact .inl rfl
  · rw [if_neg hroom]
    exact .inr ⟨_, _, rfl, rfl⟩

end Loosens

end Exec

/-! ### Instructions -/

namespace Machine

open Exec

/-- The same machine under other limits. -/
def withLimits (m : Machine) (limits : Limits) : Machine :=
  { m with limits }

variable {m : Machine} {limits : Limits}

theorem loosens_push (hstack : m.limits.maxStack ≤ limits.maxStack) (v : Value) :
    Loosens (do Exec.push m.limits.maxStack v; return (none : Option Termination))
      (do Exec.push limits.maxStack v; return none) :=
  (Loosens.push hstack v).bind fun _ ↦ .refl _

theorem loosens_pushResult (hstack : m.limits.maxStack ≤ limits.maxStack)
    (r : Except ValueError Value) :
    Loosens
      (do let v ← ofValue r; Exec.push m.limits.maxStack v; return (none : Option Termination))
      (do let v ← ofValue r; Exec.push limits.maxStack v; return none) :=
  (Loosens.refl _).bind fun v ↦ loosens_push hstack v

/-- A function is entered alike below a higher limit on frames. -/
theorem loosens_callFunction (hframes : m.limits.maxFrames ≤ limits.maxFrames) (f : Function)
    (args : List Value) (isTail : Bool) :
    Loosens (m.callFunction f args isTail) ((m.withLimits limits).callFunction f args isTail) := by
  refine (Loosens.refl _).bind fun replaced ↦ ?_
  cases replaced with
  | some id => exact .refl _
  | none => exact (Loosens.openFrame hframes f).bind fun id ↦ .refl _

/-- A built-in function leaves its result alike below a higher limit on operands. -/
theorem loosens_callBuiltin (hstack : m.limits.maxStack ≤ limits.maxStack) (b : Builtin)
    (args : List Value) :
    Loosens (m.callBuiltin b args) ((m.withLimits limits).callBuiltin b args) := by
  refine (Loosens.refl _).bind fun before ↦ ?_
  cases b.answer before args with
  | ok v => exact .push hstack v
  | error message => exact .refl _

/-- A call is made alike below higher limits. -/
theorem loosens_call (hframes : m.limits.maxFrames ≤ limits.maxFrames)
    (hstack : m.limits.maxStack ≤ limits.maxStack) (name : String) (count : Nat) (isTail : Bool) :
    Loosens (m.call name count isTail) ((m.withLimits limits).call name count isTail) := by
  refine (Loosens.refl _).bind fun args ↦ ?_
  -- Under both limits it is the same function, of the program or of the host.
  have hfind : (m.withLimits limits).find? name = m.find? name := rfl
  have htable : (m.withLimits limits).table = m.table := rfl
  rw [hfind, htable]
  cases m.find? name with
  | some f =>
    dsimp only
    split
    · exact loosens_callFunction hframes f args isTail
    · exact .refl _
  | none =>
    dsimp only
    cases m.table.find? name with
    | none => exact .refl _
    | some b =>
      dsimp only
      cases b.arity with
      | none => exact loosens_callBuiltin hstack b args
      | some arity =>
        dsimp only
        split
        · exact loosens_callBuiltin hstack b args
        · exact .refl _

/-- A value is given back alike below a higher limit on operands. -/
theorem loosens_giveBack (hstack : m.limits.maxStack ≤ limits.maxStack) (v : Option Value) :
    Loosens (m.giveBack v) ((m.withLimits limits).giveBack v) := by
  refine (Loosens.refl _).bind fun left ↦ ?_
  cases left with
  | none => exact .refl _
  | some frame =>
    refine (Loosens.refl _).bind fun w ↦ (Loosens.refl _).bind fun _ ↦ ?_
    exact loosens_push hstack w

/-- **An instruction asks for limits only to fail.** -/
theorem loosens_execute (hframes : m.limits.maxFrames ≤ limits.maxFrames)
    (hstack : m.limits.maxStack ≤ limits.maxStack) (i : Instr) :
    Loosens (m.execute i) ((m.withLimits limits).execute i) := by
  have hpop {f f' : Value → Exec (Option Termination)} (hf : ∀ v, Loosens (f v) (f' v)) :
      Loosens (pop >>= f) (pop >>= f') :=
    (Loosens.refl _).bind hf
  cases i with
  | pushInt | pushFloat | pushBool | pushStr | pushNull => exact loosens_push hstack _
  | makeList | get => exact (Loosens.refl _).bind fun _ ↦ loosens_push hstack _
  | unary => exact hpop fun _ ↦ loosens_pushResult hstack _
  | binary | index => exact hpop fun _ ↦ hpop fun _ ↦ loosens_pushResult hstack _
  | slice => exact hpop fun _ ↦ hpop fun _ ↦ hpop fun _ ↦ loosens_pushResult hstack _
  | call name count =>
    exact (loosens_call hframes hstack name count false).bind fun _ ↦ .refl _
  | tailCall name count =>
    exact (loosens_call hframes hstack name count true).bind fun _ ↦ .refl _
  | ret => exact hpop fun v ↦ loosens_giveBack hstack (some v)
  | retVoid => exact loosens_giveBack hstack none
  | _ => exact .refl _

/-! ### Runs -/

/-- A step or a run has exceeded a limit. -/
def Progress.exceeds : Progress → Bool
  | failed f _ => f.cause.isLimit
  | _ => false

variable {s : State}

/-- A step that exceeds no limit is the same below higher ones. -/
theorem step_withLimits (hframes : m.limits.maxFrames ≤ limits.maxFrames)
    (hstack : m.limits.maxStack ≤ limits.maxStack) (h : (m.step s).exceeds = false) :
    (m.withLimits limits).step s = m.step s := by
  have hcode : (m.withLimits limits).code = m.code := rfl
  simp only [step, hcode] at h ⊢
  split
  · rename_i hlt
    rw [if_pos hlt] at h
    rcases hdecode : Instr.decode m.code s.ip with e | ⟨i, next⟩
    · rfl
    · rw [hdecode] at h
      dsimp only at h ⊢
      rcases loosens_execute hframes hstack i { s with ip := next } with
        heq | ⟨cause, s', herror, hlimit⟩
      · rw [heq]
      · rw [herror] at h
        cases hlimit.symm.trans h
  · rfl

/-- **A run within some limits is the same run within larger ones.** -/
theorem runFor_withLimits (hframes : m.limits.maxFrames ≤ limits.maxFrames)
    (hstack : m.limits.maxStack ≤ limits.maxStack) {count : Nat}
    (h : (m.runFor count s).exceeds = false) :
    (m.withLimits limits).runFor count s = m.runFor count s := by
  induction count generalizing s with
  | zero => rfl
  | succ count ih =>
    rw [runFor, runFor]
    rw [runFor] at h
    rcases hstep : m.step s with s' | ⟨t, s'⟩ | ⟨f, s'⟩ <;> rw [hstep] at h
    · rw [step_withLimits hframes hstack (by rw [hstep]; rfl), hstep]
      exact ih h
    · rw [step_withLimits hframes hstack (by rw [hstep]; rfl), hstep]
    · rw [step_withLimits hframes hstack (by rw [hstep]; exact h), hstep]

end Machine

/-- **Limits only cut runs short**, for every image and every host. Take what a run has come to
after so many steps, and suppose that it is not a limit that was exceeded. Within larger limits the
run comes to the very same: it ends or fails for the same reason, or it is still going on, and it
does so with the same operands, frames and scopes, after the same calls of builtins. -/
theorem runFor_eq_of_limits_le (image : Image) (table : Table) {limits limits' : Limits}
    (hframes : limits.maxFrames ≤ limits'.maxFrames) (hstack : limits.maxStack ≤ limits'.maxStack)
    {count : Nat} {r : Machine.Progress}
    (hrun : (Machine.ofImage image table limits).runFor count
      (Machine.ofImage image table limits).start = r) (hr : r.exceeds = false) :
    (Machine.ofImage image table limits').runFor count
      (Machine.ofImage image table limits').start = r := by
  subst hrun
  exact Machine.runFor_withLimits (m := Machine.ofImage image table limits) hframes hstack hr

/-- Calls a function with one argument, which it gives back, and declares the result. -/
def declaresResult : Image where
  bytes := ([.pushInt 7, .call "f" 1, .decl "x" .int, .halt, .get "n", .ret].foldl Buffer.emit
    Buffer.new).bytes
  tableOffset := 82
  mainEntry := 32
  functions := [⟨"f", 71, false, false, .int, ["n"]⟩]

/-- Two frames and one operand are just enough. -/
theorem runFor_eq_declaresResult :
    ∃ s, (Machine.ofImage declaresResult .empty ⟨2, 1⟩).runFor 6
        (Machine.ofImage declaresResult .empty ⟨2, 1⟩).start = .ended .halt s ∧
      s.globals.map Prod.fst = ["x"] ∧
      (Machine.ofImage declaresResult .empty {}).runFor 6
        (Machine.ofImage declaresResult .empty {}).start = .ended .halt s := by
  have hends : ((Machine.ofImage declaresResult .empty ⟨2, 1⟩).runFor 6
      (Machine.ofImage declaresResult .empty ⟨2, 1⟩).start).endsIn .halt
        (fun s ↦ decide (s.globals.map Prod.fst = ["x"])) = true := by
    decide +kernel
  obtain ⟨s, hrun, hglobals⟩ := Machine.Progress.exists_of_endsIn hends
  exact ⟨s, hrun, of_decide_eq_true hglobals,
    runFor_eq_of_limits_le declaresResult .empty (by decide) (by decide) hrun rfl⟩

end Scriptlet
