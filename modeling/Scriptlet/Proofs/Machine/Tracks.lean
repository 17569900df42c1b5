import Scriptlet.Proofs.Code.Checks
import Scriptlet.Proofs.Tree.Meaning

/-!
# The machine keeps track of the interpreter

`Tracks` relates a result of the interpreter to what the machine does from some outline on. If the
interpreter has gone through, the machine gets to an outline that fits the result. If the
interpreter has stopped, the machine ends or fails in the same way. If the interpreter has run out
of fuel, the machine makes **at least as many steps** as there was fuel. All this holds unless the
machine exceeds a limit, and that is one of the cases of `Tracks`, so no other proof speaks of it.

The rules here are about single instructions and about sequences of actions.
-/

namespace Scriptlet

/-- The cause is that the machine has exceeded a limit. -/
def FaultCause.isLimit : FaultCause → Bool
  | stackOverflow _ | callDepth _ => true
  | _ => false

/-- The outline somewhere else in the same call. -/
def Outline.moved (o : Outline) (ip : Nat) (stack : List Value) (st : Store) : Outline :=
  { o with ip, stack, scopes := st.scopes, calls := st.calls }

/-- Where the code ends, part by part. -/
theorem Instr.add_size_append (offset : Nat) (is is' : List Instr) :
    offset + size (is ++ is') = offset + size is + size is' := by
  rw [size_append, Nat.add_assoc]

theorem Instr.add_size_cons (offset : Nat) (i : Instr) (is : List Instr) :
    offset + size (i :: is) = offset + i.width + size is := by
  rw [size_cons, Nat.add_assoc]

theorem Instr.add_size_snoc (offset : Nat) (is : List Instr) (i : Instr) :
    offset + size (is ++ [i]) = offset + size is + i.width := by
  rw [add_size_append, size_cons, size_nil, Nat.add_zero]

namespace Machine

variable (m : Machine)

/-! ### Code -/

/-- An instruction stands at an offset. -/
structure HasAt (offset : Nat) (i : Instr) : Prop where
  lt : offset < m.code.size
  decode : Instr.decode m.code offset = .ok (i, offset + i.width)
  target : ∀ t, i.target? = some t → headerSize ≤ t ∧ t ≤ m.code.size

/-- Instructions stand one behind the other from an offset on. -/
def Holds : (offset : Nat) → List Instr → Prop
  | _, [] => True
  | offset, i :: is => m.HasAt offset i ∧ Holds (offset + i.width) is

variable {m} {n k offset : Nat} {o o' : Outline} {i : Instr} {is is' : List Instr}

/-- Code stands somewhere if its two parts stand one behind the other. -/
theorem holds_append :
    m.Holds offset (is ++ is') ↔ m.Holds offset is ∧ m.Holds (offset + Instr.size is) is' := by
  induction is generalizing offset with
  | nil => simp [Holds]
  | cons i is ih =>
    rw [List.cons_append, Holds, Holds, ih, and_assoc, Instr.size_cons, Nat.add_assoc]

theorem holds_singleton : m.Holds offset [i] ↔ m.HasAt offset i := by
  rw [Holds, Holds, and_true]

theorem holds_snoc :
    m.Holds offset (is ++ [i]) ↔ m.Holds offset is ∧ m.HasAt (offset + Instr.size is) i := by
  rw [holds_append, holds_singleton]

/-- Lines of a listing that stand in the code hold their instructions there. -/
theorem holds_of_entriesOf {p : Point}
    (h : ∀ e ∈ entriesOf offset p is, m.HasAt e.offset e.instr) : m.Holds offset is := by
  induction is generalizing offset p with
  | nil => trivial
  | cons i is ih =>
    rw [entriesOf, List.forall_mem_cons] at h
    exact ⟨h.1, ih h.2⟩

/-- A step does what the instruction at the offset says. -/
theorem HasAt.outlineStep_eq (h : m.HasAt offset i) (ho : o.ip = offset) :
    m.outlineStep o =
      (m.outlineExec { o with ip := offset + i.width } i).mapError fun cause ↦ ⟨cause, offset⟩ := by
  subst ho
  rw [outlineStep, if_pos h.lt, h.decode]

/-- A run begins with a step. -/
theorem outlineRun_succ (hstep : m.outlineStep o = .running o') (n : Nat) :
    m.outlineRun (n + 1) o = m.outlineRun n o' := by
  rw [outlineRun, hstep]

/-- A run goes on from where another got to. -/
theorem outlineRun_add (h : m.outlineRun n o = .running o') (k : Nat) :
    m.outlineRun (n + k) o = m.outlineRun k o' := by
  induction n generalizing o with
  | zero =>
    cases h
    rw [Nat.zero_add]
  | succ n ih =>
    rw [Nat.add_right_comm]
    rw [outlineRun] at h ⊢
    split at h
    · exact ih h
    · rename_i hrunning
      exact absurd h (hrunning _)

end Machine

open Machine

/-! ### Results -/

/-- What the machine does from an outline on fits a result of the interpreter. -/
inductive Tracks (m : Machine) (fuel : Nat) {α : Type} (Fits : α → Store → Outline → Prop)
    (o : Outline) : EStateM.Result Stop Store α → Prop where
  | ok {n : Nat} {o' : Outline} {a : α} {st : Store} (hrun : m.outlineRun n o = .running o')
      (h : Fits a st o') : Tracks m fuel Fits o (.ok a st)
  | exit {n : Nat} {o' : Outline} {st : Store} (hrun : m.outlineRun n o = .ended .halt o')
      (hscopes : o'.scopes = st.scopes) (hcalls : o'.calls = st.calls) :
      Tracks m fuel Fits o (.error .exit st)
  | fault {n : Nat} {f : Fault} {st : Store} (hrun : m.outlineRun n o = .failed f st.calls) :
      Tracks m fuel Fits o (.error (.fault f.cause) st)
  | outOfFuel {n : Nat} {o' : Outline} {st : Store} (hn : fuel ≤ n)
      (hrun : m.outlineRun n o = .running o') : Tracks m fuel Fits o (.error .outOfFuel st)
  | limit {n : Nat} {f : Fault} {calls : Array Call} {r : EStateM.Result Stop Store α}
      (hrun : m.outlineRun n o = .failed f calls) (hf : f.cause.isLimit = true) :
      Tracks m fuel Fits o r

namespace Tracks

variable {m : Machine} {fuel fuel' : Nat} {α β : Type} {Fits Fits' : α → Store → Outline → Prop}
  {o o' : Outline} {r : EStateM.Result Stop Store α} {st : Store}

/-- The machine is there. -/
theorem here {a : α} (h : Fits a st o) : Tracks m fuel Fits o (.ok a st) :=
  .ok (n := 0) rfl h

/-- What is kept track of for some steps is so for fewer. -/
theorem mono (h : Tracks m fuel Fits o r) (hfuel : fuel' ≤ fuel) : Tracks m fuel' Fits o r := by
  cases h with
  | ok hrun h => exact .ok hrun h
  | exit hrun hscopes hcalls => exact .exit hrun hscopes hcalls
  | fault hrun => exact .fault hrun
  | outOfFuel hn hrun => exact .outOfFuel (Nat.le_trans hfuel hn) hrun
  | limit hrun hf => exact .limit hrun hf

/-- A run goes on from where another got to. -/
theorem of_run {n : Nat} (hrun : m.outlineRun n o = .running o') (h : Tracks m fuel Fits o' r) :
    Tracks m (n + fuel) Fits o r := by
  cases h with
  | ok hrun' h => exact .ok ((outlineRun_add hrun _).trans hrun') h
  | exit hrun' hscopes hcalls => exact .exit ((outlineRun_add hrun _).trans hrun') hscopes hcalls
  | fault hrun' => exact .fault ((outlineRun_add hrun _).trans hrun')
  | outOfFuel hn hrun' =>
    exact .outOfFuel (Nat.add_le_add_left hn _) ((outlineRun_add hrun _).trans hrun')
  | limit hrun' hf => exact .limit ((outlineRun_add hrun _).trans hrun') hf

/-- The machine goes on to an outline that fits better. -/
theorem trans (h : Tracks m fuel Fits o r)
    (hfits : ∀ a st o', Fits a st o' → Tracks m fuel Fits' o' (.ok a st)) :
    Tracks m fuel Fits' o r := by
  cases h with
  | ok hrun h => exact (of_run hrun (hfits _ _ _ h)).mono (Nat.le_add_left _ _)
  | exit hrun hscopes hcalls => exact .exit hrun hscopes hcalls
  | fault hrun => exact .fault hrun
  | outOfFuel hn hrun => exact .outOfFuel hn hrun
  | limit hrun hf => exact .limit hrun hf

/-- One action after another. -/
theorem bind {x : Interp α} {k : α → Interp β} {FitsEnd : β → Store → Outline → Prop}
    (h : Tracks m fuel Fits o (x st))
    (hk : ∀ a st' o', x st = .ok a st' → Fits a st' o' → Tracks m fuel FitsEnd o' (k a st')) :
    Tracks m fuel FitsEnd o ((x >>= k) st) := by
  change Tracks m fuel FitsEnd o (EStateM.bind x k st)
  rw [EStateM.bind]
  generalize x st = r at h hk
  cases h with
  | ok hrun h => exact (of_run hrun (hk _ _ _ rfl h)).mono (Nat.le_add_left _ _)
  | exit hrun hscopes hcalls => exact .exit hrun hscopes hcalls
  | fault hrun => exact .fault hrun
  | outOfFuel hn hrun => exact .outOfFuel hn hrun
  | limit hrun hf => exact .limit hrun hf

/-! ### Single steps -/

variable {offset : Nat} {i : Instr} {stack stack' : List Value}

/-- A step that goes on counts as one unit of fuel. -/
theorem of_step (hstep : m.outlineStep o = .running o') (h : Tracks m fuel Fits o' r) :
    Tracks m (fuel + 1) Fits o r := by
  rw [Nat.add_comm]
  exact of_run (n := 1) (outlineRun_succ hstep 0) h

/-- A step that fails. -/
theorem of_fault {f : Fault} (hstep : m.outlineStep o = .failed f st.calls) :
    Tracks m fuel Fits o (.error (.fault f.cause) st) := by
  refine .fault (n := 1) ?_
  rw [outlineRun, hstep]

/-- A step that fails because of a limit. -/
theorem of_limit {f : Fault} {calls : Array Call} (hstep : m.outlineStep o = .failed f calls)
    (hf : f.cause.isLimit = true) : Tracks m fuel Fits o r := by
  have hrun : m.outlineRun 1 o = .failed f calls := by rw [outlineRun, hstep]
  exact .limit hrun hf

/-- After one step that goes on the machine may be asked about from there, with one step more. -/
theorem step (hi : m.HasAt offset i) (ho : o.ip = offset)
    (hexec : m.outlineExec { o with ip := offset + i.width } i = .running o')
    (h : Tracks m fuel Fits o' r) : Tracks m (fuel + 1) Fits o r := by
  refine of_step ?_ h
  rw [hi.outlineStep_eq ho, hexec]
  rfl

/-- The same where the step need not be counted. -/
theorem step' (hi : m.HasAt offset i) (ho : o.ip = offset)
    (hexec : m.outlineExec { o with ip := offset + i.width } i = .running o')
    (h : Tracks m fuel Fits o' r) : Tracks m fuel Fits o r :=
  (step hi ho hexec h).mono (Nat.le_succ _)

/-- The instruction fails as the interpreter does. -/
theorem fail {cause : FaultCause} (hi : m.HasAt offset i) (ho : o.ip = offset)
    (hexec : m.outlineExec { o with ip := offset + i.width } i = .failed cause st.calls) :
    Tracks m fuel Fits o (.error (.fault cause) st) := by
  refine of_fault (f := ⟨cause, offset⟩) ?_
  rw [hi.outlineStep_eq ho, hexec]
  rfl

/-- The instruction exceeds a limit, which the interpreter knows nothing of. -/
theorem exceed {cause : FaultCause} {calls : Array Call} (hi : m.HasAt offset i)
    (ho : o.ip = offset)
    (hexec : m.outlineExec { o with ip := offset + i.width } i = .failed cause calls)
    (hcause : cause.isLimit = true) : Tracks m fuel Fits o r := by
  have hstep : m.outlineStep o = .failed ⟨cause, offset⟩ calls := by
    rw [hi.outlineStep_eq ho, hexec]
    rfl
  exact of_limit hstep hcause

/-- An instruction that pushes a value, before anything else. -/
theorem pushed {v : Value} (hi : m.HasAt offset i)
    (hexec : m.outlineExec (o.moved (offset + i.width) stack' st) i =
      (o.moved (offset + i.width) stack st).push m.limits.maxStack v)
    (h : Tracks m fuel Fits (o.moved (offset + i.width) (v :: stack) st) r) :
    Tracks m fuel Fits (o.moved offset stack' st) r := by
  rw [Outline.push] at hexec
  split at hexec
  · exact step' hi rfl hexec h
  · exact exceed hi rfl hexec rfl

/-- An instruction that pushes a value. -/
theorem push {v : Value} (hi : m.HasAt offset i)
    (hexec : m.outlineExec (o.moved (offset + i.width) stack' st) i =
      (o.moved (offset + i.width) stack st).push m.limits.maxStack v) :
    Tracks m fuel (fun v st' o' ↦ o' = o.moved (offset + i.width) (v :: stack) st')
      (o.moved offset stack' st) (.ok v st) :=
  pushed hi hexec (here rfl)

/-- An instruction that pushes what an operation on values gives. -/
theorem pushResult {result : Except ValueError Value} (hi : m.HasAt offset i)
    (hexec : m.outlineExec (o.moved (offset + i.width) stack' st) i =
      (o.moved (offset + i.width) stack st).pushResult m.limits.maxStack result) :
    Tracks m fuel (fun v st' o' ↦ o' = o.moved (offset + i.width) (v :: stack) st')
      (o.moved offset stack' st) (Interp.ofValue result st) := by
  cases result with
  | error e => exact fail hi rfl hexec
  | ok v => exact push hi hexec

/-- An instruction that operates on the scopes. -/
theorem onScopes {f : Scopes → Except ScopeError Scopes} (hi : m.HasAt offset i)
    (hexec : m.outlineExec (o.moved (offset + i.width) stack' st) i =
      (o.moved (offset + i.width) stack st).onScopes (f st.scopes)) :
    Tracks m fuel (fun _ st' o' ↦ o' = o.moved (offset + i.width) stack st')
      (o.moved offset stack' st) (Interp.onScopes f st) := by
  rw [Interp.onScopes]
  cases hf : f st.scopes with
  | error e =>
    rw [hf] at hexec
    exact fail hi rfl hexec
  | ok scopes =>
    rw [hf] at hexec
    exact step' hi rfl hexec (here rfl)

/-- A jump, or a branch that is taken. -/
theorem jump {target : Nat} (hi : m.HasAt offset i) (ht : i.target? = some target)
    (hexec : m.outlineExec (o.moved (offset + i.width) stack' st) i =
      (o.moved (offset + i.width) stack st).jumpTo m.code.size target)
    (h : Tracks m fuel Fits (o.moved target stack st) r) :
    Tracks m (fuel + 1) Fits (o.moved offset stack' st) r := by
  rw [Outline.jumpTo, if_pos (hi.target target ht)] at hexec
  exact step hi rfl hexec h

end Tracks

end Scriptlet
