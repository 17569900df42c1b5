import Scriptlet.Proofs.Code.Assembly
import Scriptlet.Proofs.Code.Checks
import Scriptlet.Proofs.Machine.Lockstep
import Scriptlet.Proofs.Machine.Trials
import Scriptlet.Proofs.Tree.ReadStmt

/-!
# Runs of listed code

A machine whose code has a listing keeps to it. Between two instructions it is at a point that the
listing notes: with the blocks noted there, and with the operands noted there **on top of** those of
the calls that wait, each of which goes on at a noted point with one operand more. A step keeps this
so, and fails only for a cause that lies in the program: never for want of an operand, and never
because of malformed code.
-/

namespace Scriptlet

/-- The cause lies in the code itself, whatever it computes. -/
def FaultCause.isInternal : FaultCause → Bool
  | stackUnderflow | malformed _ => true
  | _ => false

/-- Faults of values lie in the program. -/
theorem FaultCause.isInternal_ofValueError (e : ValueError) :
    (ofValueError e).isInternal = false := by
  cases e <;> rfl

theorem FaultCause.isInternal_ofScopeError (e : ScopeError) :
    (ofScopeError e).isInternal = false := by
  cases e with
  | value e => exact isInternal_ofValueError e
  | _ => rfl

/-- Calls that wait go on at noted points, with one operand more, and have so many operands on the
stack together. -/
inductive Waits (Marks : Nat → Point → Prop) : List Waiting → Nat → Prop where
  | nil : Waits Marks [] 0
  | cons {w : Waiting} {ws : List Waiting} {p : Point} {n : Nat}
      (hresume : Marks w.resume (p.push 1)) (hblocks : p.blocks.length = w.blocks + 1)
      (rest : Waits Marks ws n) : Waits Marks (w :: ws) (p.height + n)

variable {Marks : Nat → Point → Prop}

namespace Outline

/-- What is known at a point holds. -/
structure At (Marks : Nat → Point → Prop) (o : Outline) (p : Point) : Prop where
  blocks : p.blocks.length = o.blocks + 1
  stack : ∃ n, o.stack.length = p.height + n ∧ Waits Marks o.callers n

/-- The next instruction is at a noted point, and what is known there holds. -/
def Safe (Marks : Nat → Point → Prop) (o : Outline) : Prop :=
  ∃ p, Marks o.ip p ∧ o.At Marks p

/-- Goes on safely, ends, or fails for a cause in the program. -/
def Progress.Safe {ε : Type} (Marks : Nat → Point → Prop) (cause : ε → FaultCause) :
    Progress ε → Prop
  | running o => o.Safe Marks
  | ended _ _ => True
  | failed e _ => (cause e).isInternal = false

namespace At

variable {o : Outline} {p : Point} {limit : Nat}

/-- The operands noted at a point are there. -/
theorem height_le (h : o.At Marks p) : p.height ≤ o.stack.length := by
  obtain ⟨n, hn, -⟩ := h.stack
  omega

/-- Without some operands. -/
theorem drop (h : o.At Marks p) {count : Nat} (hcount : count ≤ p.height) :
    { o with stack := o.stack.drop count }.At Marks { p with height := p.height - count } := by
  obtain ⟨n, hn, hwaits⟩ := h.stack
  exact ⟨h.blocks, n, by simp only [List.length_drop]; omega, hwaits⟩

/-- An operand that is known to be there. -/
theorem exists_cons (h : o.At Marks p) (hheight : 1 ≤ p.height) :
    ∃ v stack, o.stack = v :: stack ∧
      { o with stack }.At Marks { p with height := p.height - 1 } := by
  obtain ⟨v, stack, hstack⟩ := List.exists_cons_of_length_pos (Nat.le_trans hheight h.height_le)
  have hdrop := h.drop hheight
  rw [hstack] at hdrop
  exact ⟨v, stack, hstack, hdrop⟩

/-- Two operands that are known to be there. -/
theorem exists_cons_cons (h : o.At Marks p) (hheight : 2 ≤ p.height) :
    ∃ v w stack, o.stack = v :: w :: stack ∧
      { o with stack }.At Marks { p with height := p.height - 2 } := by
  obtain ⟨v, stack, hstack, h'⟩ := h.exists_cons (by omega)
  obtain ⟨w, stack', hstack', h''⟩ := h'.exists_cons (by simp only; omega)
  obtain rfl : stack = w :: stack' := hstack'
  exact ⟨v, w, stack', hstack, h''⟩

/-- With one operand more. -/
theorem push (h : o.At Marks p) (hnext : Marks o.ip (p.push 1)) (v : Value) :
    (o.push limit v).Safe Marks id := by
  rw [Outline.push]
  split
  · obtain ⟨n, hn, hwaits⟩ := h.stack
    exact ⟨_, hnext, h.blocks, n, by simp only [Point.push, List.length_cons]; omega, hwaits⟩
  · rfl

/-- To leave a result, or to report its error, is safe. -/
theorem pushResult (h : o.At Marks p) (hnext : Marks o.ip (p.push 1))
    (r : Except ValueError Value) : (o.pushResult limit r).Safe Marks id := by
  cases r with
  | ok v => exact h.push hnext v
  | error e => exact FaultCause.isInternal_ofValueError e

/-- To change the scopes, or to report why not, is safe. -/
theorem onScopes (h : o.At Marks p) (hnext : Marks o.ip p) (r : Except ScopeError Scopes) :
    (o.onScopes r).Safe Marks id := by
  cases r with
  | ok scopes => exact ⟨p, hnext, h.blocks, h.stack⟩
  | error e => exact FaultCause.isInternal_ofScopeError e

/-- A jump to a noted point is safe. -/
theorem jumpTo (h : o.At Marks p) {codeSize target : Nat} (htarget : Marks target p)
    (hbounds : headerSize ≤ target ∧ target ≤ codeSize) :
    (o.jumpTo codeSize target).Safe Marks id := by
  rw [Outline.jumpTo, if_pos hbounds]
  exact ⟨p, htarget, h.blocks, h.stack⟩

end At

end Outline

/-- The notes on the code of a machine are right. -/
structure Machine.Noted (Marks : Nat → Point → Prop) (m : Machine) : Prop where
  entry : Marks m.entry Spot.top.point
  line : ∀ {offset : Nat} {p : Point}, Marks offset p → offset < m.code.size →
    ∃ i, Entry.Stands m.code ⟨offset, i, p⟩ ∧ Entry.Sound Marks ⟨offset, i, p⟩
  bounds : ∀ {offset : Nat} {p : Point}, Marks offset p →
    headerSize ≤ offset ∧ offset ≤ m.code.size
  function : ∀ {name : String} {f : Function}, m.find? name = some f →
    ∃ head, Marks f.entry.toNat (Spot.body head).point

namespace Machine.Noted

variable {m : Machine} {o : Outline} {p : Point}

/-! ### Calls -/

/-- A function starts without operands of its own. -/
theorem outlineEnter_safe (h : m.Noted Marks) {name : String} {f : Function}
    (hf : m.find? name = some f) (hwaits : Waits Marks o.callers o.stack.length)
    (args : List Value) : (outlineEnter o f args).Safe Marks id := by
  obtain ⟨head, hentry⟩ := h.function hf
  have hat : { o with ip := f.entry.toNat, blocks := 0, returns := f.returns }.At Marks
      (Spot.body head).point :=
    ⟨rfl, _, (Nat.zero_add _).symm, hwaits⟩
  exact hat.onScopes hentry _

/-- To call a function of the program is safe: its entry is noted, without operands. -/
theorem outlineCallFunction_safe (h : m.Noted Marks) {name : String} {f : Function} {isTail : Bool}
    (hf : m.find? name = some f) (ho : o.At Marks p) (hnext : Marks o.ip (p.push 1))
    (hlast : isTail = true → p.height = 0) (args : List Value) :
    (m.outlineCallFunction o f args isTail).Safe Marks id := by
  obtain ⟨n, hstack, hwaits⟩ := ho.stack
  rw [outlineCallFunction]
  split
  · rename_i htail
    rw [hlast htail.1, Nat.zero_add] at hstack
    refine h.outlineEnter_safe hf ?_ args
    exact hstack ▸ hwaits
  · split
    · refine h.outlineEnter_safe hf ?_ args
      exact hstack ▸ .cons hnext ho.blocks hwaits
    · rfl

/-- To call a built-in function is safe. -/
theorem outlineCallBuiltin_safe (ho : o.At Marks p) (hnext : Marks o.ip (p.push 1)) (b : Builtin)
    (args : List Value) : (m.outlineCallBuiltin o b args).Safe Marks id := by
  have ho' : { o with calls := o.calls.push ⟨b.name, args⟩ }.At Marks p := ⟨ho.blocks, ho.stack⟩
  rw [outlineCallBuiltin]
  split
  · exact ho'.push hnext _
  · rfl

/-- To call what a name stands for is safe. -/
theorem outlineApply_safe (h : m.Noted Marks) (ho : o.At Marks p) (hnext : Marks o.ip (p.push 1))
    (name : String) (args : List Value) {isTail : Bool} (hlast : isTail = true → p.height = 0) :
    (m.outlineApply o name args isTail).Safe Marks id := by
  rw [outlineApply]
  split
  · rename_i f hf
    split
    · exact h.outlineCallFunction_safe hf ho hnext hlast args
    · rfl
  · split
    · rfl
    · split
      · split
        · exact outlineCallBuiltin_safe ho hnext _ _
        · rfl
      · exact outlineCallBuiltin_safe ho hnext _ _

/-- To call it with arguments from the stack is safe, if there are as many. -/
theorem outlineCall_safe (h : m.Noted Marks) (ho : o.At Marks p) (name : String) {count : Nat}
    (hcount : count ≤ p.height)
    (hnext : Marks o.ip { p with height := p.height - count + 1 }) {isTail : Bool}
    (hlast : isTail = true → p.height = count) :
    (m.outlineCall o name count isTail).Safe Marks id := by
  rw [outlineCall, if_pos (Nat.le_trans hcount ho.height_le)]
  exact h.outlineApply_safe (ho.drop hcount) hnext name _ fun hc ↦ by simp [hlast hc]

/-- The call in progress ends without operands of its own, and its caller goes on. -/
theorem outlineGiveBack_safe (ho : o.At Marks p) (hheight : p.height = 0) (v : Option Value) :
    (m.outlineGiveBack o v).Safe Marks id := by
  obtain ⟨n, hstack, hwaits⟩ := ho.stack
  rw [hheight, Nat.zero_add] at hstack
  rw [outlineGiveBack]
  split
  · trivial
  · rename_i w ws hcallers
    rw [hcallers] at hwaits
    cases hwaits with
    | @cons _ _ p' n' hresume hblocks rest =>
      refine Outline.At.pushResult ?_ hresume _
      exact ⟨hblocks, n', hstack, rest⟩

/-! ### Instructions -/

/-- An instruction that a point admits is safe there, if the points that it leads to are noted. -/
theorem outlineExec_safe (h : m.Noted Marks) {i : Instr} (ho : o.At Marks p) (hi : p.Admits i)
    (hnext : i.fallsThrough = true → Marks o.ip (p.after i))
    (htarget : ∀ t, i.target? = some t → Marks t (p.after i)) :
    (m.outlineExec o i).Safe Marks id := by
  have hpops := hi.pops_le
  -- What an instruction takes is there by `hpops`; what it leaves behind fits the next point.
  cases i with
  | pushInt n | pushFloat x | pushBool b | pushStr s | pushNull => exact ho.push (hnext rfl) _
  | makeList count =>
    have hcount : count ≤ o.stack.length := Nat.le_trans hpops ho.height_le
    rw [outlineExec, if_pos hcount]
    exact (ho.drop hpops).push (hnext rfl) _
  | get name =>
    rw [outlineExec]
    split
    · exact ho.push (hnext rfl) _
    · rfl
  | set name =>
    obtain ⟨v, stack, hstack, ho'⟩ := ho.exists_cons hpops
    simp only [outlineExec, hstack]
    exact ho'.onScopes (hnext rfl) _
  | decl name type =>
    obtain ⟨v, stack, hstack, ho'⟩ := ho.exists_cons hpops
    have hdecl : { o with stack }.At Marks (p.after (.decl name type)) :=
      ⟨(List.length_modifyHead ..).trans ho.blocks, ho'.stack⟩
    simp only [outlineExec, hstack]
    exact hdecl.onScopes (hnext rfl) _
  | unset name => exact ⟨_, hnext rfl, ho.blocks, ho.stack⟩
  | pop =>
    obtain ⟨v, stack, hstack, ho'⟩ := ho.exists_cons hpops
    simp only [outlineExec, hstack]
    exact ⟨_, hnext rfl, ho'⟩
  | binary op | index =>
    obtain ⟨b, a, stack, hstack, ho'⟩ := ho.exists_cons_cons hpops
    simp only [outlineExec, hstack]
    exact ho'.pushResult (hnext rfl) _
  | unary op =>
    obtain ⟨a, stack, hstack, ho'⟩ := ho.exists_cons hpops
    simp only [outlineExec, hstack]
    exact ho'.pushResult (hnext rfl) _
  | slice =>
    have hthree : 3 ≤ p.height := hpops
    obtain ⟨c, b, stack, hstack, ho'⟩ := ho.exists_cons_cons (by omega)
    obtain ⟨a, stack', hstack', ho''⟩ := ho'.exists_cons (by simp only; omega)
    obtain rfl : stack = a :: stack' := hstack'
    simp only [outlineExec, hstack]
    exact ho''.pushResult (hnext rfl) _
  | setIndex name =>
    obtain ⟨v, i, stack, hstack, ho'⟩ := ho.exists_cons_cons hpops
    simp only [outlineExec, hstack]
    exact ho'.onScopes (hnext rfl) _
  | jump target =>
    have hmarks := htarget target rfl
    exact ho.jumpTo hmarks (h.bounds hmarks)
  | jumpIfFalse target =>
    obtain ⟨v, stack, hstack, ho'⟩ := ho.exists_cons hpops
    have hmarks := htarget target rfl
    simp only [outlineExec, hstack]
    split
    · exact ⟨_, hnext rfl, ho'⟩
    · exact ho'.jumpTo hmarks (h.bounds hmarks)
  | call name count => exact h.outlineCall_safe ho name hpops (hnext rfl) (by simp)
  | tailCall name count =>
    exact h.outlineCall_safe ho name hpops (hnext rfl) fun _ ↦ hi.height_eq rfl
  | ret =>
    obtain ⟨v, stack, hstack, ho'⟩ := ho.exists_cons hpops
    simp only [outlineExec, hstack]
    exact outlineGiveBack_safe ho' (by simp [hi.height_eq rfl, Instr.pops]) _
  | retVoid => exact outlineGiveBack_safe ho (hi.height_eq rfl) _
  | enterScope =>
    exact ⟨_, hnext rfl, by simp [Point.after, Point.blocksAfter, ho.blocks], ho.stack⟩
  | exitScope =>
    have htwo := hi.exit rfl
    rw [ho.blocks] at htwo
    obtain ⟨blocks, hblocks⟩ := Nat.exists_eq_succ_of_ne_zero (n := o.blocks) (by omega)
    simp only [outlineExec, hblocks]
    refine ⟨_, hnext rfl, ?_, ho.stack⟩
    simp [Point.after, Point.blocksAfter, ho.blocks, hblocks]
  | halt => trivial

/-! ### Runs -/

/-- A step from a safe outline is safe. -/
theorem outlineStep_safe (h : m.Noted Marks) (ho : o.Safe Marks) :
    (m.outlineStep o).Safe Marks Fault.cause := by
  obtain ⟨p, hmarks, ho⟩ := ho
  rw [outlineStep]
  split
  · rename_i hip
    obtain ⟨i, hstands, hsound⟩ := h.line hmarks hip
    rw [Entry.Stands] at hstands
    rw [hstands]
    have hexec : (m.outlineExec { o with ip := Entry.next ⟨o.ip, i, p⟩ } i).Safe Marks id :=
      h.outlineExec_safe ⟨ho.blocks, ho.stack⟩ hsound.admits hsound.next hsound.target
    simp only
    cases hr : m.outlineExec { o with ip := Entry.next ⟨o.ip, i, p⟩ } i <;> rw [hr] at hexec <;>
      exact hexec
  · trivial

theorem outlineRun_safe (h : m.Noted Marks) (ho : o.Safe Marks) (count : Nat) :
    (m.outlineRun count o).Safe Marks Fault.cause := by
  induction count generalizing o with
  | zero => exact ho
  | succ count ih =>
    have hstep := h.outlineStep_safe ho
    rw [outlineRun]
    split
    · rename_i o' ho'
      rw [ho'] at hstep
      exact ih hstep
    · exact hstep

theorem outlineStart_safe (h : m.Noted Marks) : m.outlineStart.Safe Marks :=
  ⟨Spot.top.point, h.entry, rfl, 0, rfl, .nil⟩

/-- A machine whose code is noted in the right way fails for a cause in the program only. -/
theorem runFor_safe (h : m.Noted Marks) {count : Nat} {f : Fault} {s : State}
    (hrun : m.runFor count m.start = .failed f s) : f.cause.isInternal = false := by
  have hsafe := h.outlineRun_safe h.outlineStart_safe count
  have houtlined := runFor_outlined (m := m) count m.start_outlined
  rw [hrun] at houtlined
  generalize m.outlineRun count m.outlineStart = r at hsafe houtlined
  cases houtlined with
  | failed => exact hsafe

end Machine.Noted

/-! ### Images -/

/-- What a listing notes: a point beside each line, and one at the end of the code. -/
def Listing.Notes (L : Listing) (stop : Nat) (last : Point) (offset : Nat) (p : Point) : Prop :=
  (∃ e ∈ L.entries, e.offset = offset ∧ e.point = p) ∨ offset = stop ∧ p = last

namespace Image.Lists

variable {image : Image} {p : Program} {L : Listing}

/-- A function that can be called is one of those of the listing. -/
theorem exists_located (h : image.Lists p L) {table : Table} {limits : Limits} {name : String}
    {f : Function} (hf : (Machine.ofImage image table limits).find? name = some f) :
    ∃ g ∈ L.functions, f = g.function := by
  have hmem : f ∈ image.functions := List.mem_of_find?_eq_some hf
  have hname := List.find?_some hf
  rw [h.functions, List.mem_cons, List.mem_map] at hmem
  rcases hmem with rfl | ⟨g, hg, rfl⟩
  · simp [Function.main] at hname
  · exact ⟨g, hg, rfl⟩

/-- What the listing of an image notes. -/
abbrev Notes (_ : image.Lists p L) : Nat → Point → Prop :=
  L.Notes image.code.size (Spot.top.afterAll p).point

/-- What a listing notes lies inside the code. -/
theorem bounds_of_notes (h : image.Lists p L) {offset : Nat} {q : Point}
    (hnotes : h.Notes offset q) : headerSize ≤ offset ∧ offset ≤ image.code.size := by
  have hwithin := h.listed.within
  rcases hnotes with ⟨e, he, rfl, -⟩ | ⟨rfl, -⟩
  · have := hwithin.lines e he
    exact ⟨this.1, Nat.le_trans (Nat.le_add_right _ _) this.2⟩
  · exact ⟨hwithin.le, Nat.le_refl _⟩

/-- The notes of a listing agree with one another. -/
theorem sound (h : image.Lists p L) (hvalid : Stmt.validAll 0 .top p = true) :
    h.Notes headerSize Spot.top.point ∧ L.Sound h.Notes := by
  have hlines : ∀ e ∈ L.entries, h.Notes e.offset e.point := fun e he ↦ .inl ⟨e, he, rfl, rfl⟩
  obtain ⟨hstart, hsound⟩ := h.listed.sound false hvalid .top hlines fun _ ↦ .inr ⟨rfl, rfl⟩
  exact ⟨hstart rfl, hsound⟩

/-- The table has the offset of a function. -/
theorem toNat_entry (h : image.Lists p L) (hvalid : Stmt.validAll 0 .top p = true) {g : Located}
    (hg : g ∈ L.functions) : g.function.entry.toNat = g.entry := by
  have hle := (h.bounds_of_notes ((h.sound hvalid).2.functions g hg)).2
  rw [g.entry_function, Nat.toUInt64_eq,
    UInt64.toNat_ofNat_of_lt' (Nat.lt_of_le_of_lt hle h.code_lt)]

/-- **The notes of a listing are right.** -/
theorem noted (h : image.Lists p L) (hvalid : Stmt.validAll 0 .top p = true) (table : Table)
    (limits : Limits) : (Machine.ofImage image table limits).Noted h.Notes := by
  obtain ⟨hstart, hsound⟩ := h.sound hvalid
  refine ⟨?_, fun hnotes hlt ↦ ?_, h.bounds_of_notes, fun hf ↦ ?_⟩
  · rw [Machine.ofImage, h.mainEntry]
    exact hstart
  · rcases hnotes with ⟨e, he, rfl, rfl⟩ | ⟨rfl, -⟩
    · exact ⟨e.instr, h.stands e he, hsound.entries e he⟩
    · exact absurd hlt (Nat.lt_irrefl _)
  · obtain ⟨g, hg, rfl⟩ := h.exists_located hf
    refine ⟨g.head, ?_⟩
    rw [h.toNat_entry hvalid hg]
    exact hsound.functions g hg

end Image.Lists

/-! ### Compiled programs -/

/-- Compilation reads a program and assembles it. -/
theorem exists_program_of_compileTokens {ts : Tokens} {image : Image}
    (h : compileTokens ts = .ok image) :
    ∃ p, Program.ofTokens ts = .ok p ∧ p.assemble ts.stop = .ok image := by
  rw [compileTokens] at h
  rcases hp : Program.ofTokens ts with e | p
  · rw [hp] at h
    cases h
  · rw [hp] at h
    exact ⟨p, rfl, h⟩

theorem exists_tokens_of_compile {source : String} {image : Image}
    (h : compile source = .ok image) : ∃ ts, compileTokens ts = .ok image := by
  rw [compile] at h
  rcases hts : (Tokens.ofText source).mapError Complaint.ofScan with e | ts
  · rw [hts] at h
    cases h
  · rw [hts] at h
    exact ⟨ts, h⟩

theorem compileTokens_of_compile {source : String} {ts : Tokens} {image : Image}
    (hts : Tokens.ofText source = .ok ts) (h : compile source = .ok image) :
    compileTokens ts = .ok image := by
  rw [compile, hts] at h
  exact h

/-- **Compiled code is safe.** However a run of a compiled program ends, it is not for want of an
operand, and not because the code is malformed. -/
theorem ne_stackUnderflow_and_ne_malformed_of_compile {source : String} {image : Image}
    (h : compile source = .ok image) (table : Table) (limits : Limits) (count : Nat) {f : Fault}
    {s : State} (hrun : (Machine.ofImage image table limits).runFor count
      (Machine.ofImage image table limits).start = .failed f s) :
    f.cause ≠ .stackUnderflow ∧ ∀ m, f.cause ≠ .malformed m := by
  obtain ⟨ts, h⟩ := exists_tokens_of_compile h
  obtain ⟨p, hp, hassemble⟩ := exists_program_of_compileTokens h
  obtain ⟨L, hL⟩ := Program.exists_lists hassemble
  obtain ⟨-, hvalid⟩ := Program.spelled_and_valid_of_ofTokens hp
  have hcause := (hL.noted hvalid table limits).runFor_safe hrun
  refine ⟨fun hc ↦ ?_, fun m hc ↦ ?_⟩ <;> rw [hc] at hcause <;> cases hcause

/-- A tail call out of a loop, into a function that fails. -/
def tailCallToFault : String :=
  "func tail f(n) \x7b while (n) \x7b let x = n; break; \x7d return g(n); \x7d " ++
    "func g(n) \x7b return n - [n]; \x7d f(1);"

/-- The program fails within 40 steps, and for a cause of its own. -/
theorem ne_stackUnderflow_and_ne_malformed_tailCallToFault :
    ∃ image f s, compile tailCallToFault = .ok image ∧
      (Machine.ofImage image .empty {}).runFor 40 (Machine.ofImage image .empty {}).start =
        .failed f s ∧
      f.cause ≠ .stackUnderflow ∧ ∀ m, f.cause ≠ .malformed m := by
  have hfails : testRun tailCallToFault {} 40 (fun _ r ↦ r.fails) = true := by decide +kernel
  obtain ⟨_, _, image, -, -, h, hfails⟩ := exists_of_testRun hfails
  obtain ⟨f, s, hrun⟩ := Machine.Progress.exists_of_fails hfails
  exact ⟨image, f, s, h, hrun, ne_stackUnderflow_and_ne_malformed_of_compile h .empty {} 40 hrun⟩

end Scriptlet
