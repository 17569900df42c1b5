import Scriptlet.Proofs.Code.Leaving
import Scriptlet.Proofs.Machine.Calls
import Scriptlet.Proofs.Machine.Ownership

/-!
# What calls give back

A call leaves a value behind that the **owner of its frame** may give back: one of its declared
type, or null if it gives back nothing. The owner is the function that was called, unless the call
was replaced meanwhile. A last call hands the frame over to another function, and with the frame
goes the return type: what the first function had declared is not asked for any more.

So a declaration is honoured where the frame is kept. This is so for functions that are not declared
with `tail`, and for those that give back nothing, since no last call stands in their bodies.
-/

namespace Scriptlet

/-! ### Values that may be given back -/

/-- A call that gives back what is declared may leave this value. -/
def Returns.Admits : Returns → Value → Prop
  | .void, v => v = .null
  | .typed type, v => type ≠ .auto → v.tag = type
  | .any, _ => True

/-- A call without a value counts only where nothing is given back. -/
theorem Returns.admits_of_resultOf {r : Returns} {given : Option Value} {v : Value}
    (h : Machine.resultOf r given = .ok v) (hbare : given = none → r = .void) : r.Admits v := by
  cases r with
  | void =>
    cases h
    rfl
  | any => trivial
  | typed type =>
    cases given with
    | none => cases hbare rfl
    | some w => exact fun hauto ↦ Value.tag_of_coerce hauto h

/-- A `return` leaves what the frame makes of its value. -/
theorem Machine.exists_resultOf_of_isReturn {m : Machine} {o o' : Outline} {i : Instr}
    (hreturn : i.isReturn = true) (h : m.outlineExec o i = .running o') :
    ∃ given v, resultOf o.returns given = .ok v ∧ (given = none → i = .retVoid) ∧
      o'.stack.head? = some v := by
  have hgives {o : Outline} {given : Option Value}
      (h : m.outlineGiveBack o given = .running o') :
      ∃ v, resultOf o.returns given = .ok v ∧ o'.stack.head? = some v := by
    rw [outlineGiveBack] at h
    split at h
    · cases h
    · obtain ⟨v, hv, rfl⟩ := Outline.pushResult_eq_running h
      exact ⟨v, hv, rfl⟩
  cases i with
  | ret =>
    rw [outlineExec] at h
    split at h
    · obtain ⟨v, hv, hhead⟩ := hgives h
      exact ⟨_, v, hv, fun hnone ↦ absurd hnone (Option.some_ne_none _), hhead⟩
    · cases h
  | retVoid =>
    obtain ⟨v, hv, hhead⟩ := hgives h
    exact ⟨none, v, hv, fun _ ↦ rfl, hhead⟩
  | _ => cases hreturn

/-! ### Calls inside a call -/

/-- A call is in progress above some that wait: its frame and those inside it have the return types
of their owners. Of the owner of its own frame something more is known. -/
inductive Nested (base : List Waiting) (Known : Function → Prop) :
    Returns → List Waiting → List (Option Function) → Prop where
  | last {g : Function} (hknown : Known g) : Nested base Known g.returns base [some g]
  | inner {g : Function} {w : Waiting} {ws : List Waiting} {owners : List (Option Function)}
      (rest : Nested base Known w.returns ws owners) :
      Nested base Known g.returns (w :: ws) (some g :: owners)

namespace Nested

variable {base : List Waiting} {Known : Function → Prop} {m : Machine} {i : Instr}
  {next : Nat} {o o' : Outline} {r : Returns} {ws : List Waiting} {owners : List (Option Function)}

/-- The call itself has an owner. -/
theorem ne_nil (h : Nested base Known r ws owners) : owners ≠ [] := by
  cases h <;> exact List.cons_ne_nil _ _

/-- The calls below go on waiting. -/
theorem length_le (h : Nested base Known r ws owners) : base.length ≤ ws.length := by
  induction h with
  | last => exact Nat.le_refl _
  | inner _ ih => exact Nat.le_succ_of_le ih

/-- **What one step makes of the calls inside a call**, as long as this call is in progress. It may
be replaced only by a function of which the same is known. -/
theorem moves (h : Nested base Known o.returns o.callers owners)
    (hmoves : m.Moves i { o with ip := next } o') (hbase : base ≠ [])
    (hsize : base.length ≤ o'.callers.length)
    (hknown : ∀ g g', owners = [some g] → i.leaves = true → m.callee? i = some g' →
      Known g → Known g') :
    Nested base Known o'.returns o'.callers (m.ownersBehind i o.callers.isEmpty owners) := by
  -- What is in the base waits all along, so no last call finds the run without a caller.
  have hcallers : o.callers ≠ [] := by
    rw [← List.length_pos_iff] at hbase ⊢
    exact Nat.lt_of_lt_of_le hbase h.length_le
  have halone : o.callers.isEmpty = false := List.isEmpty_eq_false_iff.2 hcallers
  cases hmoves with
  | goesOn hcallee hreturn _ hsame hreturns =>
    rwa [Machine.ownersBehind_of_callee_none hcallee hreturn, hsame, hreturns]
  | enters hcallee hnone =>
    have hleaves : i.leaves = false := Bool.eq_false_iff.2 fun hi ↦ hcallers (hnone hi)
    rw [Machine.ownersBehind_of_callee hcallee, hleaves]
    exact .inner h
  | replaced hcallee hleaves =>
    rw [Machine.ownersBehind_of_callee hcallee, hleaves, halone]
    generalize o.returns = r, o.callers = ws at h
    cases h with
    | last hg => exact .last (hknown _ _ rfl hleaves hcallee hg)
    | inner rest => exact .inner rest
  | givesBack hreturn hback =>
    rw [Machine.ownersBehind_of_isReturn hreturn]
    rw [hback] at h
    generalize o.returns = r at h
    cases h with
    | last => exact absurd hsize (by simp)
    | inner rest => exact rest

/-- A step that goes back behind the base ends the call itself. -/
theorem exists_eq_of_moves (h : Nested base Known o.returns o.callers owners)
    (hmoves : m.Moves i { o with ip := next } o') (hsize : o'.callers.length < base.length) :
    ∃ g w, i.isReturn = true ∧ owners = [some g] ∧ Known g ∧ o.returns = g.returns ∧
      base.head? = some w ∧ o'.ip = w.resume := by
  have hle := h.length_le
  cases hmoves with
  | goesOn _ _ _ hsame => exact absurd hle (Nat.not_le_of_lt (hsame ▸ hsize))
  | enters => exact absurd hle (Nat.not_le_of_lt (Nat.lt_of_succ_lt hsize))
  | replaced => exact absurd hle (Nat.not_le_of_lt hsize)
  | @givesBack w _ _ hreturn hback =>
    rw [hback] at h
    generalize o.returns = r at h ⊢
    cases h with
    | @last g hknown => exact ⟨g, w, hreturn, rfl, hknown, rfl, rfl, rfl⟩
    | inner rest => exact absurd rest.length_le (Nat.not_le_of_lt hsize)

end Nested

/-! ### Owners inside a call -/

namespace Machine

variable {m : Machine}

/-- What an instruction does to the owners of the frames inside a call, it does whatever frames are
outside. -/
theorem ownersBehind_append (i : Instr) (isAlone : Bool) {owners : List (Option Function)}
    (hne : owners ≠ []) (outer : List (Option Function)) :
    m.ownersBehind i isAlone (owners ++ outer) = m.ownersBehind i isAlone owners ++ outer := by
  have htail : (owners ++ outer).tail = owners.tail ++ outer := List.tail_append_of_ne_nil hne
  cases i with
  | call name count =>
    simp only [ownersBehind]
    split <;> rfl
  | tailCall name count =>
    simp only [ownersBehind, htail]
    split
    · cases isAlone <;> rfl
    · rfl
  | ret | retVoid => exact htail
  | _ => rfl

end Machine

namespace Image.Compiled

variable {image : Image} {p : Program} {L : Listing} {table : Table} {limits : Limits}

/-- A function of the program is found by its name. -/
theorem find?_name (h : image.Compiled p L) {g : Located} (hg : g ∈ L.functions) :
    (Machine.ofImage image table limits).find? g.head.name = some g.function := by
  obtain ⟨hmem, hmain⟩ := List.mem_filter.1 ((h.lists.mem_defined h.names).2 ⟨g, hg, rfl⟩)
  rcases hf : (Machine.ofImage image table limits).find? g.head.name with - | f
  · refine absurd (List.find?_eq_none.1 hf _ hmem) ?_
    rw [Located.name_function] at hmain
    simpa using hmain
  · obtain ⟨g', hg', rfl⟩ := h.lists.exists_located hf
    have hname := List.find?_some hf
    rw [Bool.and_eq_true, beq_iff_eq, Located.name_function] at hname
    rw [h.lists.eq_of_name_eq h.names hg' hg hname.1]

/-- The line at which the innermost frame is suits the function that owns the frame. -/
theorem exists_suits (h : image.Compiled p L) {o : Outline} {g : Function}
    {owners : List (Option Function)}
    (hframes : L.Frames h.lists.Notes o.ip o.callers (some g :: owners)) {i : Instr} {next : Nat}
    (hlt : o.ip < image.code.size) (hdecode : Instr.decode image.code o.ip = .ok (i, next)) :
    ∃ g₀ ∈ L.functions, g₀.function = g ∧ (i = .retVoid → g₀.head.returns = .void) ∧
      ∀ name count, i = .tailCall name count →
        g₀.head.isTail = true ∧ g₀.head.returns ≠ .void := by
  generalize howners : some g :: owners = all at hframes
  generalize hcallers : o.callers = ws at hframes
  generalize o.ip = ip at hframes hlt hdecode
  cases hframes with
  | top => cases howners
  | inner hnotes hg howner =>
    cases howners
    obtain ⟨e, he, -, rfl, rfl⟩ := h.exists_entry hnotes hlt hdecode
    obtain ⟨hbare, hlast⟩ := h.lists.listed.suits h.valid e he
    refine ⟨_, hg, rfl, fun hi ↦ hbare hi _ howner, fun name count hi ↦ ?_⟩
    obtain ⟨head, howner', hhead⟩ := hlast name count hi
    cases howner.symm.trans howner'
    exact hhead

/-- A call of a function is in progress above some that wait, and so are calls inside it. The owner
of its own frame is the function itself, if no last call stands in its body. -/
structure InCall (h : image.Compiled p L) (f : Located) (base : List Waiting)
    (outer : List (Option Function)) (o : Outline) (owners : List (Option Function)) : Prop where
  frames : L.Frames h.lists.Notes o.ip o.callers (owners ++ outer)
  nested : Nested base (fun g ↦ f.head.isTail = false ∨ f.head.returns = .void → g = f.function)
    o.returns o.callers owners

namespace InCall

variable {h : image.Compiled p L} {f : Located} {base : List Waiting}
  {outer owners : List (Option Function)} {o o' : Outline} {i : Instr} {next : Nat}

/-- **One step inside a call.** -/
theorem moves (hcall : h.InCall f base outer o owners) (hf : f ∈ L.functions) (hbase : base ≠ [])
    (hlt : o.ip < image.code.size) (hdecode : Instr.decode image.code o.ip = .ok (i, next))
    (hmoves : (Machine.ofImage image table limits).Moves i { o with ip := next } o')
    (hsize : base.length ≤ o'.callers.length) :
    h.InCall f base outer o'
      ((Machine.ofImage image table limits).ownersBehind i o.callers.isEmpty owners) := by
  obtain ⟨hframes, hnested⟩ := hcall
  refine ⟨?_, hnested.moves hmoves hbase hsize fun g g' howners hleaves hcallee hknown hkeeps ↦ ?_⟩
  · rw [← Machine.ownersBehind_append i _ hnested.ne_nil]
    exact h.frames_moves hframes hlt hdecode hmoves
  · -- A last call would have to stand in the body of the function itself.
    rw [howners] at hframes
    obtain ⟨f', hf', rfl, -, hlast⟩ := h.exists_suits hframes hlt hdecode
    obtain ⟨name, count, rfl⟩ : ∃ name count, i = .tailCall name count := by
      cases i with
      | tailCall name count => exact ⟨name, count, rfl⟩
      | ret | retVoid => cases hcallee
      | _ => cases hleaves
    obtain ⟨htail, hvoid⟩ := hlast name count rfl
    have hsame : f' = f := by
      refine h.lists.eq_of_name_eq h.names hf' hf ?_
      rw [← Located.name_function, hknown hkeeps, Located.name_function]
    subst hsame
    rcases hkeeps with hkeeps | hkeeps
    · rw [htail] at hkeeps
      cases hkeeps
    · exact absurd hkeeps hvoid

/-- **A run inside a call.** -/
theorem runFor (hcall : h.InCall f base outer o owners) (hf : f ∈ L.functions) (hbase : base ≠ [])
    {s t : State} (hout : s.Outlined o) {k : Nat}
    (hrun : (Machine.ofImage image table limits).runFor k s = .running t)
    (hactive : ∀ j ≤ k, ∀ u, (Machine.ofImage image table limits).runFor j s = .running u →
      base.length ≤ u.callers.size) :
    ∃ o', t.Outlined o' ∧
      h.InCall f base outer o' ((Machine.ofImage image table limits).ownersFor k s owners) := by
  induction k generalizing s o owners with
  | zero =>
    cases hrun
    exact ⟨o, hout, hcall⟩
  | succ k ih =>
    obtain ⟨s₁, hstep, hrest⟩ := Machine.exists_step_of_runFor hrun
    obtain ⟨o₁, hout₁, hstep'⟩ := Machine.exists_outlineStep_of_step hout hstep
    obtain ⟨i, next, hlt, hdecode, hmoves⟩ := Machine.exists_moves_of_outlineStep hstep'
    have hsize := hactive 1 (by omega) s₁ (Machine.runFor_succ hstep 0)
    rw [hout₁.size_callers] at hsize
    have hcall₁ := hcall.moves hf hbase hlt hdecode hmoves hsize
    rw [← hout.isEmpty_callers] at hcall₁
    rw [Machine.ownersFor, hstep, hout.ip, hdecode]
    refine ih hcall₁ hout₁ hrest fun j hj u hu ↦ ?_
    exact hactive (j + 1) (by omega) u ((Machine.runFor_succ hstep j).trans hu)

/-- **The step that ends a call** leaves a value that the owner of its frame may give back. -/
theorem exists_admits (hcall : h.InCall f base outer o owners) (hf : f ∈ L.functions)
    {t s' : State} (hout : t.Outlined o)
    (hstep : (Machine.ofImage image table limits).step t = .running s')
    (hsize : s'.callers.size < base.length) :
    ∃ g ∈ L.functions, ∃ w v, owners = [some g.function] ∧ base.head? = some w ∧
      s'.ip = w.resume ∧ s'.stack.back? = some v ∧ g.head.returns.Admits v ∧
      (f.head.isTail = false ∨ f.head.returns = .void → g = f) := by
  obtain ⟨o', hout', hstep'⟩ := Machine.exists_outlineStep_of_step hout hstep
  obtain ⟨i, next, hlt, hdecode, hexec⟩ := Machine.exists_outlineExec_of_outlineStep hstep'
  rw [hout'.size_callers] at hsize
  obtain ⟨g, w, hreturn, rfl, hknown, hreturns, hw, hip⟩ :=
    hcall.nested.exists_eq_of_moves (Machine.moves_of_outlineExec hexec) hsize
  obtain ⟨g, hg, rfl, hbare, -⟩ := h.exists_suits hcall.frames hlt hdecode
  obtain ⟨given, v, hv, hnone, hhead⟩ := Machine.exists_resultOf_of_isReturn hreturn hexec
  have hreturns : o.returns = g.head.returns := hreturns.trans g.returns_function
  refine ⟨g, hg, w, v, rfl, hw, hout'.ip.trans hip, ?_, ?_, fun hkeeps ↦ ?_⟩
  · rw [← Array.getLast?_toList, hout'.stack, List.getLast?_reverse, hhead]
  · refine Returns.admits_of_resultOf ?_ fun hgiven ↦ hbare (hnone hgiven)
    rw [← hreturns]
    exact hv
  · refine h.lists.eq_of_name_eq h.names hg hf ?_
    rw [← Located.name_function, hknown hkeeps, Located.name_function]

end InCall

end Image.Compiled

/-- **Calls give back what is declared.** Take a compiled program, any host and any limits, and a
call of one of its functions that returns. Its frame may have been handed over to other functions by
last calls; some function has it in the end. The value that is left then is one that this function
may give back. It is the function that was called, if that one is not declared with `tail` or gives
back nothing. -/
theorem exists_admits_of_call_of_compile {source : String} {ts : Tokens} {p : Program}
    {image : Image} (hts : Tokens.ofText source = .ok ts) (hp : Program.ofTokens ts = .ok p)
    (h : compile source = .ok image) (table : Table) (limits : Limits) {d : Head × List Stmt}
    (hd : d ∈ Stmt.functionsAll p) {s s₁ s' : State} {k next : Nat}
    (hcall : (Machine.ofImage image table limits).CallReturns d.1.name next s s₁ k s') :
    ∃ f g, ∃ e ∈ Stmt.functionsAll p, ∃ v,
      (Machine.ofImage image table limits).find? d.1.name = some f ∧
      (Machine.ofImage image table limits).find? e.1.name = some g ∧
      (Machine.ofImage image table limits).ownersFor k s₁ [some f] = [some g] ∧
      s'.ip = next ∧ s'.stack.back? = some v ∧ e.1.returns.Admits v ∧
      (d.1.isTail = false ∨ d.1.returns = .void → e = d) := by
  obtain ⟨p', hp', hassemble⟩ := exists_program_of_compileTokens (compileTokens_of_compile hts h)
  obtain rfl : p = p' := Except.ok.inj (hp.symm.trans hp')
  obtain ⟨L, hc⟩ := Program.exists_compiled hp hassemble
  have hdeclared := hc.lists.listed.map_functions
  rw [← hdeclared, List.mem_map] at hd
  obtain ⟨f, hf, rfl⟩ := hd
  have hfind : (Machine.ofImage image table limits).find? f.declared.1.name = some f.function :=
    hc.find?_name hf
  obtain ⟨⟨n, hn⟩, ⟨count, hdecode⟩, henters, hinside, ⟨t, hrun, hleaves⟩, hover⟩ := hcall
  obtain ⟨o, hout, hframes⟩ := hc.frames_runFor (Machine.start_outlined _) hc.frames_start hn
  obtain ⟨o₁, hout₁, hlt, hmoves, hreturns, hcallers⟩ :=
    Machine.exists_entered_of_call hout hdecode hfind henters
  -- The base of the call is what waits while it is in progress, its caller included.
  have hincall : hc.InCall f o₁.callers ((Machine.ofImage image table limits).ownersFor n
      (Machine.ofImage image table limits).start [none]) o₁ [some f.function] := by
    refine ⟨?_, hreturns ▸ .last fun _ ↦ rfl⟩
    have hcallee : (Machine.ofImage image table limits).callee? (.call f.declared.1.name count) =
        some f.function := hfind
    rw [hout.ip] at hdecode
    have hframes₁ := hc.frames_moves hframes hlt hdecode hmoves
    rwa [Machine.ownersBehind_of_callee hcallee] at hframes₁
  have hlength : o₁.callers.length = s.callers.size + 1 := by
    rw [hcallers, List.length_cons, hout.size_callers]
  have hbase : o₁.callers ≠ [] := hcallers ▸ List.cons_ne_nil _ _
  obtain ⟨o', hout', hincall'⟩ := hincall.runFor hf hbase hout₁ hrun fun j hj u hu ↦
    hlength ▸ hinside j hj u hu
  obtain ⟨g, hg, w, v, howners, hw, hip, hv, hadmits, hkeeps⟩ :=
    hincall'.exists_admits hf hout' hleaves (hlength ▸ Nat.lt_succ_of_le hover)
  rw [hcallers] at hw
  cases hw
  exact ⟨f.function, g.function, g.declared, hdeclared ▸ List.mem_map_of_mem hg, v, hfind,
    hc.find?_name hg, howners, hip, hv, hadmits, fun h ↦ congrArg _ (hkeeps h)⟩

/-- A typed function that gives back what it gets from another one, which hands its own call over to
a third one. All three have different types. -/
def coercesLastCall : String :=
  "func tail str f(n) \x7b return g(n); \x7d func bool g(n) \x7b return n; \x7d " ++
    "func int h(n) \x7b return f(n); \x7d let x = h(2);"

/-- The call of `h` runs to its end; since its last call is an ordinary one, the value has its own
type. -/
theorem exists_admits_coercesLastCall :
    ∃ ts p image d next s s₁ s', Tokens.ofText coercesLastCall = .ok ts ∧
      Program.ofTokens ts = .ok p ∧ compile coercesLastCall = .ok image ∧
      d ∈ Stmt.functionsAll p ∧ d.1.name = "h" ∧ d.1.isTail = false ∧
      (Machine.ofImage image .empty {}).CallReturns d.1.name next s s₁ 6 s' ∧
      ∃ f g, ∃ e ∈ Stmt.functionsAll p, ∃ v,
        (Machine.ofImage image .empty {}).find? d.1.name = some f ∧
        (Machine.ofImage image .empty {}).find? e.1.name = some g ∧
        (Machine.ofImage image .empty {}).ownersFor 6 s₁ [some f] = [some g] ∧
        s'.ip = next ∧ s'.stack.back? = some v ∧ e.1.returns.Admits v ∧
        (d.1.isTail = false ∨ d.1.returns = .void → e = d) := by
  have htest : testCall coercesLastCall 4 6
      (fun head _ _ ↦ decide (head.name = "h" ∧ head.isTail = false)) = true := by
    decide +kernel
  obtain ⟨ts, p, image, d, next, s, s₁, s', hts, hp, h, hd, hcall, htest⟩ :=
    exists_callReturns_of_testCall htest
  obtain ⟨hname, htail⟩ := of_decide_eq_true htest
  exact ⟨ts, p, image, d, next, s, s₁, s', hts, hp, h, hd, hname, htail, hcall,
    exists_admits_of_call_of_compile hts hp h .empty {} hd hcall⟩

/-- A function that hands its call over to one of another type. -/
def handsOverCall : String :=
  "func tail int f() \x7b return g(); \x7d func bool g() \x7b return true; \x7d let x = f();"

/-- **A last call gives back what the other function declares**: a call of a function may leave a
value that the function itself may not give back. -/
theorem not_admits_handsOverCall :
    ∃ ts p image d next s s₁ s' v, Tokens.ofText handsOverCall = .ok ts ∧
      Program.ofTokens ts = .ok p ∧ compile handsOverCall = .ok image ∧
      d ∈ Stmt.functionsAll p ∧
      (Machine.ofImage image .empty {}).CallReturns d.1.name next s s₁ 2 s' ∧
      s'.stack.back? = some v ∧ d.1.returns = .typed .int ∧ v.tag = .bool := by
  have htest : testCall handsOverCall 2 2 (fun head _ s' ↦ decide (head.returns = .typed .int ∧
      s'.stack.back?.map Value.tag = some .bool)) = true := by
    decide +kernel
  obtain ⟨ts, p, image, d, next, s, s₁, s', hts, hp, h, hd, hcall, htest⟩ :=
    exists_callReturns_of_testCall htest
  obtain ⟨hreturns, htag⟩ := of_decide_eq_true htest
  obtain ⟨v, hv, htag⟩ := Option.map_eq_some_iff.1 htag
  exact ⟨ts, p, image, d, next, s, s₁, s', v, hts, hp, h, hd, hcall, hv, hreturns, htag⟩

end Scriptlet
