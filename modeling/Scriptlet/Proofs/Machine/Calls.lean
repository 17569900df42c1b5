import Scriptlet.Proofs.Machine.Moves
import Scriptlet.Proofs.Machine.ScopeChain
import Scriptlet.Proofs.Machine.Trials
import Scriptlet.Proofs.Tree.Meaning

/-!
# Calls from beginning to end

A call of a function begins where it is made and ends where **no more calls are in progress than
before it**. In between are its own steps, with those of all calls inside it. `Machine.CallReturns`
names the states in which it is made, entered and over.

Whether a program makes a call that returns, after so many steps, can be computed (`testCall`).
-/

namespace Scriptlet

/-- A call by name returns: it is made in the state `s` of a run and entered in `s₁`, is in progress
for `k` more steps, and is over after one more, in `s'`. -/
structure Machine.CallReturns (m : Machine) (name : String) (next : Nat) (s s₁ : State) (k : Nat)
    (s' : State) : Prop where
  reaches : m.Reaches s
  calls : ∃ count, Instr.decode m.code s.ip = .ok (.call name count, next)
  enters : m.step s = .running s₁
  inside : ∀ j ≤ k, ∀ u, m.runFor j s₁ = .running u → s.callers.size < u.callers.size
  leaves : ∃ t, m.runFor k s₁ = .running t ∧ m.step t = .running s'
  returned : s'.callers.size ≤ s.callers.size

namespace Machine.CallReturns

variable {m : Machine} {name : String} {next k : Nat} {s s₁ s' : State}

/-- The state in which a call is over is one of the run. -/
theorem runFor_succ (h : m.CallReturns name next s s₁ k s') :
    m.runFor (k + 1) s₁ = .running s' := by
  obtain ⟨t, hrun, hstep⟩ := h.leaves
  rw [runFor_add hrun, Machine.runFor_succ hstep]
  rfl

/-- Calls of the host are over at once, so what is called is a function of the program. -/
theorem exists_find? (h : m.CallReturns name next s s₁ k s') : ∃ f, m.find? name = some f := by
  obtain ⟨o, hout⟩ := h.reaches.exists_outline
  obtain ⟨o₁, hout₁, hstep⟩ := exists_outlineStep_of_step hout h.enters
  obtain ⟨i, next', -, hdecode', hmoves⟩ := exists_moves_of_outlineStep hstep
  obtain ⟨count, hdecode⟩ := h.calls
  rw [← hout.ip, hdecode] at hdecode'
  cases hdecode'
  have hdeeper := h.inside 0 (Nat.zero_le _) s₁ rfl
  rw [hout.size_callers, hout₁.size_callers] at hdeeper
  cases hmoves with
  | goesOn _ _ _ hcallers => exact absurd hdeeper (hcallers ▸ Nat.lt_irrefl _)
  | enters hcallee => exact ⟨_, hcallee⟩
  | replaced _ hleaves => cases hleaves
  | givesBack hreturn => cases hreturn

end Machine.CallReturns

/-- Runs a program up to a call, and the call until it has returned. Tests the function that was
called, and the states in which the call was made and is over. -/
def testCall (source : String) (before inside : Nat) (test : Head → State → State → Bool) : Bool :=
  trial source {} fun p m ↦
    match m.runFor before m.start with
    | .running s =>
      match Instr.decode m.code s.ip, m.step s with
      | .ok (.call name _, _), .running s₁ =>
        match (Stmt.functionsAll p).find? (·.1.name == name), m.runFor inside s₁ with
        | some d, .running t =>
          match m.step t with
          | .running s' =>
            decide (s'.callers.size ≤ s.callers.size) && test d.1 s s' &&
              (List.range (inside + 1)).all fun j ↦
                match m.runFor j s₁ with
                | .running u => decide (s.callers.size < u.callers.size)
                | _ => true
          | _ => false
        | _, _ => false
      | _, _ => false
    | _ => false

/-- **What the test of a call finds is so.** -/
theorem exists_callReturns_of_testCall {source : String} {before inside : Nat}
    {test : Head → State → State → Bool} (htest : testCall source before inside test = true) :
    ∃ ts p image d next s s₁ s', Tokens.ofText source = .ok ts ∧ Program.ofTokens ts = .ok p ∧
      compile source = .ok image ∧ d ∈ Stmt.functionsAll p ∧
      (Machine.ofImage image .empty {}).CallReturns d.1.name next s s₁ inside s' ∧
      test d.1 s s' = true := by
  obtain ⟨ts, p, image, hts, hp, h, hpasses⟩ := exists_of_trial htest
  split at hpasses <;> [skip; cases hpasses]
  rename_i s hrun
  split at hpasses <;> [skip; cases hpasses]
  rename_i name count next s₁ hdecode henters
  split at hpasses <;> [skip; cases hpasses]
  rename_i d t hd hinside
  split at hpasses <;> [skip; cases hpasses]
  rename_i s' hleaves
  rw [Bool.and_eq_true, Bool.and_eq_true, decide_eq_true_eq, List.all_eq_true] at hpasses
  obtain ⟨⟨hover, hpasses⟩, hdeeper⟩ := hpasses
  have hname := List.find?_some hd
  obtain rfl : d.1.name = name := beq_iff_eq.1 hname
  refine ⟨ts, p, image, d, next, s, s₁, s', hts, hp, h, List.mem_of_find?_eq_some hd,
    ⟨⟨before, hrun⟩, ⟨count, hdecode⟩, henters, fun j hj u hu ↦ ?_, ⟨t, hinside, hleaves⟩, hover⟩,
    hpasses⟩
  have hj := hdeeper j (List.mem_range.2 (Nat.lt_succ_of_le hj))
  rw [hu] at hj
  exact of_decide_eq_true hj

end Scriptlet
