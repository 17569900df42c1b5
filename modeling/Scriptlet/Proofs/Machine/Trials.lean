import Scriptlet.Compile
import Scriptlet.Machine.Step
import Scriptlet.Proofs.Image.Format

/-!
# Trial runs

Whether a program is compiled, and what it comes to within so many steps, can be computed. What is
found to be so in a trial is so: there are tokens, a tree, an image and a state as the trial says
(`exists_of_trial`). A trial runs without a host.
-/

namespace Scriptlet

namespace Machine.Progress

variable {r : Progress} {test : State → Bool}

/-- A step or a run goes on, and the state that it is in passes a test. -/
def runsTo (test : State → Bool) : Progress → Bool
  | running s => test s
  | _ => false

/-- A step or a run has ended without a fault, and the state that it left passes a test. -/
def endsIn (t : Termination) (test : State → Bool) : Progress → Bool
  | ended t' s => decide (t' = t) && test s
  | _ => false

/-- A step or a run has failed. -/
def fails : Progress → Bool
  | failed _ _ => true
  | _ => false

/-- A run that passes such a test goes on. -/
theorem exists_of_runsTo (h : r.runsTo test = true) : ∃ s, r = .running s ∧ test s = true := by
  rcases r with s | ⟨t, s⟩ | ⟨f, s⟩
  · exact ⟨s, rfl, h⟩
  · cases h
  · cases h

/-- A run that passes such a test has ended. -/
theorem exists_of_endsIn {t : Termination} (h : r.endsIn t test = true) :
    ∃ s, r = .ended t s ∧ test s = true := by
  rcases r with s | ⟨t', s⟩ | ⟨f, s⟩
  · cases h
  · rw [endsIn, Bool.and_eq_true, decide_eq_true_eq] at h
    exact ⟨s, by rw [h.1], h.2⟩
  · cases h

/-- A run that passes such a test has failed. -/
theorem exists_of_fails (h : r.fails = true) : ∃ f s, r = .failed f s := by
  rcases r with s | ⟨t, s⟩ | ⟨f, s⟩
  · cases h
  · cases h
  · exact ⟨f, s, rfl⟩

end Machine.Progress

/-- The machine that runs an image without a host. Its code goes through one number, so that **each
byte is computed once**, however often a run comes to it. -/
def Machine.onTrial (image : Image) (limits : Limits) : Machine where
  code := ((Code.leBytes image.bytes.size (Code.ofLeBytes image.bytes.toList)).take
    image.tableOffset).toArray
  entry := image.mainEntry
  functions := image.functions
  table := .empty
  limits := limits

/-- It is the machine of the image: bytes that go through a number come back. -/
theorem Machine.onTrial_eq (image : Image) (limits : Limits) :
    Machine.onTrial image limits = Machine.ofImage image .empty limits := by
  have hcode : image.code = (image.bytes.toList.take image.tableOffset).toArray := by
    rw [← Array.toList_inj, Image.code, Array.toList_extract]
    rfl
  rw [onTrial, ← Array.length_toList, Code.leBytes_ofLeBytes, ← hcode]
  rfl

/-- Compiles a program. Tests its tree and the machine that runs it. -/
def trial (source : String) (limits : Limits) (test : Program → Machine → Bool) : Bool :=
  match Tokens.ofText source with
  | .error _ => false
  | .ok ts =>
    match Program.ofTokens ts, compile source with
    | .ok p, .ok image => test p (.onTrial image limits)
    | _, _ => false

/-- **What a trial finds is so.** -/
theorem exists_of_trial {source : String} {limits : Limits} {test : Program → Machine → Bool}
    (h : trial source limits test = true) :
    ∃ ts p image, Tokens.ofText source = .ok ts ∧ Program.ofTokens ts = .ok p ∧
      compile source = .ok image ∧ test p (.ofImage image .empty limits) = true := by
  rw [trial] at h
  split at h
  · cases h
  · rename_i ts hts
    split at h
    · rename_i p image hp hcompile
      rw [Machine.onTrial_eq] at h
      exact ⟨ts, p, image, hts, hp, hcompile, h⟩
    · cases h

/-- Runs a program. Tests its tree and what the run comes to. -/
def testRun (source : String) (limits : Limits) (count : Nat)
    (test : Program → Machine.Progress → Bool) : Bool :=
  trial source limits fun p m ↦ test p (m.runFor count m.start)

/-- A test that is passed says that the program is compiled and what its run comes to. -/
theorem exists_of_testRun {source : String} {limits : Limits} {count : Nat}
    {test : Program → Machine.Progress → Bool} (h : testRun source limits count test = true) :
    ∃ ts p image, Tokens.ofText source = .ok ts ∧ Program.ofTokens ts = .ok p ∧
      compile source = .ok image ∧
      test p ((Machine.ofImage image .empty limits).runFor count
        (Machine.ofImage image .empty limits).start) = true :=
  exists_of_trial h

end Scriptlet
