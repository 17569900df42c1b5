import Scriptlet.Proofs.Code.WaitingCalls
import Scriptlet.Proofs.Machine.Bounds
import Scriptlet.Proofs.Machine.Limits
import Scriptlet.Proofs.Machine.Ownership

/-!
# Last calls run in two frames

A last call takes the place of the call that it stands in, and so needs no frame. If **no function
of a program waits for another one**, then at any time only the program itself waits: it calls a
function, which hands its frame over to another one, and so on. However long that goes on, and
whichever functions call each other in whichever cycles, there are never more than two frames.

Only an instruction that calls and waits can open a frame inside a function, and no line of a
function is one. This holds of the last step of a run too, which may open a frame and then fail.
-/

namespace Scriptlet

/-! ### Callers -/

/-- At most one call waits. -/
def State.OneWaits (s : State) : Prop :=
  s.callers.size ≤ 1

/-- An instruction adds at most one caller. -/
theorem State.Shifts.size_callers_le {s s' : State} (h : s.Shifts s') :
    s'.callers.size ≤ s.callers.size + 1 := by
  cases h with
  | edits _ hcallers | enters hcallers | exits hcallers | replaces _ hcallers =>
    rw [hcallers]
    exact Nat.le_succ _
  | opens hcallers => exact Nat.le_of_eq (by rw [hcallers, Array.size_push])
  | leaves _ hcallers =>
    rw [hcallers, Array.size_pop]
    omega

namespace Machine

open Exec

variable {m : Machine}

/-- The number of calls that wait has nothing to do with scopes and operands. -/
theorem coarse_oneWaits : State.Coarse State.OneWaits := by
  intro s s' hs _ _ hcallers
  rw [State.OneWaits, hcallers]
  exact hs

/-- What leaves the frames as they are leaves the calls that wait. -/
theorem oneWaits_of_still {α : Type} {x : Exec α} (h : Still x) : Keeps State.OneWaits x := by
  intro s hs
  rw [State.OneWaits, (h.after s).callers]
  exact hs

/-- From the program itself, whatever is done leaves at most one call waiting. -/
theorem oneWaits_of_shifts {s s' : State} (hs : s.callers = #[]) (h : s.Shifts s') :
    s'.OneWaits := by
  have hle := h.size_callers_le
  rwa [hs] at hle

/-- A last call opens a frame only if no call waits. -/
theorem oneWaits_callFunction (f : Function) (args : List Value) :
    Keeps State.OneWaits (m.callFunction f args true) := by
  intro s hs
  rcases hback : s.callers.back? with - | caller
  · have hnil : s.callers = #[] := Array.back?_eq_none_iff.1 hback
    exact oneWaits_of_shifts hnil (m.shifting_callFunction f args true s)
  · rw [callFunction, if_pos rfl, after_bind_of_ok (by rw [replaceFrame?, hback])]
    -- The frame is in place, and binding the parameters leaves the callers alone.
    refine (Keeps.bindParams coarse_oneWaits _ f.params args).bind (fun _ ↦ ?_) _ ?_
    · exact oneWaits_of_still (still_goTo f)
    · exact hs

/-- Of all instructions, only a call that waits for a function can let a second call wait. -/
theorem oneWaits_execute {i : Instr} (hcall : ∀ f, m.callee? i = some f → i.leaves = true) :
    Keeps State.OneWaits (m.execute i) := by
  have hpush (v : Value) : Keeps State.OneWaits (push m.limits.maxStack v) :=
    oneWaits_of_still (.push _ v)
  refine keeps_execute coarse_oneWaits hpush (fun target ↦ oneWaits_of_still (.jumpTo _ target))
    (fun f hcallee args ↦ ?_) (keeps_giveBack coarse_oneWaits hpush fun s caller _ hs ↦ ?_)
  · rw [hcall f hcallee]
    exact oneWaits_callFunction f args
  · have hleft : s.callers.pop.size ≤ 1 := by
      rw [Array.size_pop]
      exact Nat.le_trans (Nat.sub_le _ _) hs
    exact ⟨hleft, hleft⟩

end Machine

/-! ### Compiled programs -/

namespace Image.Compiled

variable {image : Image} {p : Program} {L : Listing} {table : Table} {limits : Limits}
  {o : Outline} {owners : List (Option Function)}

/-- No line of a function calls a function of the program and waits for it. -/
theorem waitsOnly (h : image.Compiled p L) (hlast : p.OnlyLastCalls) (table : Table)
    (limits : Limits) :
    L.WaitsOnly fun _ name ↦ (Machine.ofImage image table limits).find? name = none := by
  have hlisted := h.lists.listed
  have hnames : L.WaitsOnly fun _ name ↦ ∀ g ∈ Stmt.functionsAll p, g.1.name ≠ name :=
    hlisted.waitsOnly (fun head hnone ↦ by cases hnone) hlast
  intro e he head howner name hname
  by_contra hfind
  obtain ⟨f, hf⟩ := Option.ne_none_iff_exists'.1 hfind
  obtain ⟨g, hg, rfl⟩ := h.lists.exists_located hf
  have heq := List.find?_some hf
  rw [Bool.and_eq_true, beq_iff_eq, Located.name_function] at heq
  refine hnames e he head howner name hname g.declared ?_ heq.1
  rw [← hlisted.map_functions]
  exact List.mem_map_of_mem hg

/-- **Where a function of the program is called and waited for, no call waits yet.** -/
theorem callers_eq_nil (h : image.Compiled p L) (hlast : p.OnlyLastCalls)
    (hframes : L.Frames h.lists.Notes o.ip o.callers owners) (hlt : o.ip < image.code.size)
    {i : Instr} {next : Nat} (hdecode : Instr.decode image.code o.ip = .ok (i, next))
    {f : Function} (hcallee : (Machine.ofImage image table limits).callee? i = some f)
    (hleaves : i.leaves = true → o.callers = []) : o.callers = [] := by
  cases i with
  | call name count =>
    generalize o.ip = ip at hframes hlt hdecode
    generalize o.callers = ws at hframes
    cases hframes with
    | top => rfl
    | inner hnotes _ howner =>
      -- The line would be one of a function, and it calls and waits.
      obtain ⟨e, he, -, hi, rfl⟩ := h.exists_entry hnotes hlt hdecode
      have hnone := h.waitsOnly hlast table limits e he _ howner name (by rw [hi]; rfl)
      cases hcallee.symm.trans hnone
  | tailCall name count => exact hleaves rfl
  | _ => cases hcallee

/-- One step leaves at most one call waiting, whether it is the last one or not. -/
theorem oneWaits_step (h : image.Compiled p L) (hlast : p.OnlyLastCalls) {s : State}
    (hout : s.Outlined o) (hframes : L.Frames h.lists.Notes o.ip o.callers owners)
    (hs : s.OneWaits) (table : Table) (limits : Limits) :
    ((Machine.ofImage image table limits).step s).state.OneWaits := by
  -- From the program itself a frame may be opened, and then two are there; from inside a function
  -- none is.
  by_cases hnil : s.callers = #[]
  · exact Machine.oneWaits_of_shifts hnil (Machine.shifts_step _ s)
  refine Machine.state_step_of_execute _ hs fun i next hlt hdecode ↦ ?_
  refine Machine.oneWaits_execute (fun f hcallee ↦ ?_) _ hs
  by_contra hleaves
  rw [hout.ip] at hlt hdecode
  have hcallers := h.callers_eq_nil hlast hframes hlt hdecode hcallee fun hl ↦ absurd hl hleaves
  refine hnil (Array.size_eq_zero_iff.1 ?_)
  rw [hout.size_callers, hcallers]
  rfl

/-- **A run leaves at most one call waiting.** -/
theorem oneWaits_runFor (h : image.Compiled p L) (hlast : p.OnlyLastCalls) {s : State}
    (hout : s.Outlined o) (hframes : L.Frames h.lists.Notes o.ip o.callers owners)
    (hs : s.OneWaits) (count : Nat) :
    ((Machine.ofImage image table limits).runFor count s).state.OneWaits := by
  induction count generalizing s o owners with
  | zero => exact hs
  | succ count ih =>
    have hs₁ := h.oneWaits_step hlast hout hframes hs table limits
    rw [Machine.runFor]
    rcases hstep : (Machine.ofImage image table limits).step s with s₁ | ⟨t, s₁⟩ | ⟨f, s₁⟩ <;>
      rw [hstep] at hs₁
    · obtain ⟨o₁, hout₁, hframes₁⟩ := h.frames_runFor hout hframes (Machine.runFor_succ hstep 0)
      exact ih hout₁ hframes₁ hs₁
    · exact hs₁
    · exact hs₁

/-- Two frames are enough. -/
theorem ne_callDepth (h : image.Compiled p L) (hlast : p.OnlyLastCalls)
    (hlimit : 2 ≤ limits.maxFrames) {count : Nat} {f : Fault} {s' : State}
    (hrun : (Machine.ofImage image table limits).runFor count
      (Machine.ofImage image table limits).start = .failed f s') (limit : Nat) :
    f.cause ≠ .callDepth limit := by
  intro hcause
  obtain ⟨n, s, hrun, hstep⟩ := Machine.exists_step_of_runFor_failed hrun
  obtain ⟨o, hout, hframes⟩ := h.frames_runFor (Machine.start_outlined _) h.frames_start hrun
  obtain ⟨-, hlt, ⟨e, he⟩ | ⟨i, next, hdecode, hfails⟩⟩ :=
    Machine.exists_fails_of_outlineStep (Machine.outlineStep_of_step_failed hout hstep)
  · cases hcause.symm.trans he
  · obtain ⟨⟨g, hcallee⟩, hleaves, hdeep⟩ := hfails.opens_of_callDepth hcause
    have hcallers := h.callers_eq_nil hlast hframes hlt hdecode hcallee hleaves
    have hle : limits.maxFrames ≤ o.callers.length + 1 := hdeep
    rw [hcallers] at hle
    exact absurd (Nat.le_trans hlimit hle) (by decide)

end Image.Compiled

/-- **Tail recursion runs in constant frames.** Take a compiled program in which each call of a
function of the program that stands in the body of a function is the whole value of a `return` in a
function declared with `tail`, and any host and any limits. In every state of a run, also the one it
ends in, there are at most two frames. So a run that may use two of them never fails for want of
frames. -/
theorem frameDepth_le_two_of_onlyLastCalls {source : String} {ts : Tokens} {p : Program}
    {image : Image} (hts : Tokens.ofText source = .ok ts) (hp : Program.ofTokens ts = .ok p)
    (h : compile source = .ok image) (hlast : p.OnlyLastCalls) (table : Table) (limits : Limits)
    (count : Nat) {r : Machine.Progress}
    (hrun : (Machine.ofImage image table limits).runFor count
      (Machine.ofImage image table limits).start = r) :
    r.state.frameDepth ≤ 2 ∧
      (2 ≤ limits.maxFrames → ∀ f s, r = .failed f s → ∀ limit, f.cause ≠ .callDepth limit) := by
  obtain ⟨L, hc⟩ := exists_compiled_of_ofTokens hts hp h
  refine ⟨?_, fun hlimit f s hr ↦ hc.ne_callDepth hlast hlimit (hrun.trans hr)⟩
  rw [← hrun]
  exact Nat.succ_le_succ
    (hc.oneWaits_runFor hlast (Machine.start_outlined _) hc.frames_start (Nat.zero_le _) count)

/-- Two functions that call each other in turn, each in the place of the other. -/
def countsDown : String :=
  "func tail f(n) \x7b if (n) \x7b return (g(n - 1)); \x7d return n; \x7d " ++
    "func tail g(n) \x7b return f(n); \x7d x = f(2);"

/-- Five calls are made in two frames. -/
theorem frameDepth_le_two_countsDown :
    ∃ ts p image s, Tokens.ofText countsDown = .ok ts ∧ Program.ofTokens ts = .ok p ∧
      compile countsDown = .ok image ∧ p.OnlyLastCalls ∧
      (Machine.ofImage image .empty ⟨2, 16⟩).runFor 50
        (Machine.ofImage image .empty ⟨2, 16⟩).start = .ended .endOfCode s ∧
      s.globals.map (fun b ↦ (b.1, b.2.isTrue)) = [("x", false)] ∧
      ∀ count r, (Machine.ofImage image .empty ⟨2, 16⟩).runFor count
          (Machine.ofImage image .empty ⟨2, 16⟩).start = r →
        r.state.frameDepth ≤ 2 ∧ ∀ f s, r = .failed f s → ∀ limit, f.cause ≠ .callDepth limit := by
  have htest : testRun countsDown ⟨2, 16⟩ 50 (fun p r ↦ decide p.OnlyLastCalls &&
      r.endsIn .endOfCode
        (fun s ↦ decide (s.globals.map (fun b ↦ (b.1, b.2.isTrue)) = [("x", false)]))) = true := by
    decide +kernel
  obtain ⟨ts, p, image, hts, hp, h, htest⟩ := exists_of_testRun htest
  rw [Bool.and_eq_true, decide_eq_true_eq] at htest
  obtain ⟨s, hends, hglobals⟩ := Machine.Progress.exists_of_endsIn htest.2
  refine ⟨ts, p, image, s, hts, hp, h, htest.1, hends, of_decide_eq_true hglobals,
    fun count r hrun ↦ ?_⟩
  obtain ⟨hdepth, hcause⟩ :=
    frameDepth_le_two_of_onlyLastCalls hts hp h htest.1 .empty ⟨2, 16⟩ count hrun
  exact ⟨hdepth, hcause (Nat.le_refl 2)⟩

end Scriptlet
