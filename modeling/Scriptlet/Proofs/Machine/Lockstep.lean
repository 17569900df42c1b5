import Scriptlet.Proofs.Machine.Outline

/-!
# States and outlines in lockstep

`State.Outlined s o` says that a state has an outline: its arena is a stack, and its frames cut the
chain of scopes into segments, one for each call in progress, from the innermost open block of the
call to the scope that binds its parameters.

Each instruction keeps this relation, whatever the code is, so it holds along every run.
-/

namespace Scriptlet

/-! ### Frames on a chain -/

/-- The scopes of a frame on the chain: from its innermost open block to its base, with one scope
for each open block and the base. -/
structure Frame.Spans (f : Frame) (blocks : Nat) (segment : List ScopeId) : Prop where
  head : segment.head? = some f.scope
  last : segment.getLast? = some f.base
  length : segment.length = blocks + 1

/-- The frames of a call in progress and of its callers, innermost first, cut a chain of scopes into
their segments. -/
inductive Framed : Frame → List Caller → (blocks : Nat) → List Waiting → List ScopeId → Prop where
  | top {f : Frame} {blocks : Nat} {segment : List ScopeId} (h : f.Spans blocks segment) :
      Framed f [] blocks [] segment
  | call {f : Frame} {blocks : Nat} {segment ids : List ScopeId} {c : Caller} {cs : List Caller}
      {w : Waiting} {ws : List Waiting} (h : f.Spans blocks segment)
      (rest : Framed c.frame cs w.blocks ws ids) (hreturns : w.returns = c.frame.returns)
      (hresume : w.resume = c.resume) : Framed f (c :: cs) blocks (w :: ws) (segment ++ ids)

/-- A state has an outline. -/
structure State.Outlined (s : State) (o : Outline) : Prop where
  ip : s.ip = o.ip
  stack : s.stack.toList = o.stack.reverse
  returns : s.frame.returns = o.returns
  calls : s.calls = o.calls
  frames : ∃ ids, s.arena.Stacked ids o.scopes ∧
    Framed s.frame s.callers.toList.reverse o.blocks o.callers ids

/-- The result of an instruction has an outline. After a fault just the calls made until then are
described. -/
inductive Outlined : EStateM.Result FaultCause State (Option Termination) →
    Outline.Progress FaultCause → Prop where
  | running {s : State} {o : Outline} (h : s.Outlined o) : Outlined (.ok none s) (.running o)
  | ended {t : Termination} {s : State} {o : Outline} (h : s.Outlined o) :
      Outlined (.ok (some t) s) (.ended t o)
  | failed {e : FaultCause} {s : State} {calls : Array Call} (h : s.calls = calls) :
      Outlined (.error e s) (.failed e calls)

namespace Frame.Spans

variable {f : Frame} {blocks : Nat} {segment : List ScopeId}

/-- A segment starts with the scope of its frame. -/
theorem eq_cons (h : f.Spans blocks segment) :
    ∃ rest, segment = f.scope :: rest ∧ rest.length = blocks := by
  rcases segment with - | ⟨id, rest⟩
  · cases h.head
  · obtain rfl : id = f.scope := by simpa using h.head
    exact ⟨rest, rfl, by simpa using h.length⟩

/-- A frame that has just been opened. -/
theorem single (id : ScopeId) (r : Returns) : (⟨id, id, r⟩ : Frame).Spans 0 [id] :=
  ⟨rfl, rfl, rfl⟩

end Frame.Spans

namespace Framed

variable {f : Frame} {cs : List Caller} {blocks : Nat} {ws : List Waiting} {ids : List ScopeId}

/-- There are as many frames of callers as calls that wait. -/
theorem length_eq (h : Framed f cs blocks ws ids) : cs.length = ws.length := by
  induction h with
  | top => rfl
  | call _ _ _ _ ih => rw [List.length_cons, List.length_cons, ih]

theorem eq_nil (h : Framed f cs blocks [] ids) : cs = [] := by
  cases h
  rfl

/-- A call that has a caller stands on the chain in front of it. -/
theorem exists_caller {w : Waiting} (h : Framed f cs blocks (w :: ws) ids) :
    ∃ segment rest c cs', cs = c :: cs' ∧ ids = segment ++ rest ∧ f.Spans blocks segment ∧
      Framed c.frame cs' w.blocks ws rest ∧ w.returns = c.frame.returns ∧
      w.resume = c.resume := by
  cases h with
  | call h rest hreturns hresume => exact ⟨_, _, _, _, rfl, rfl, h, rest, hreturns, hresume⟩

/-- The chain starts with the segment of the call in progress. -/
theorem exists_segment (h : Framed f cs blocks ws ids) :
    ∃ segment rest, f.Spans blocks segment ∧ ids = segment ++ rest := by
  cases h with
  | top h => exact ⟨_, [], h, by simp⟩
  | call h => exact ⟨_, _, h, rfl⟩

/-- The chain starts with the scope of the call in progress. -/
theorem eq_cons (h : Framed f cs blocks ws ids) : ∃ rest, ids = f.scope :: rest := by
  obtain ⟨segment, rest, hspans, rfl⟩ := h.exists_segment
  obtain ⟨tail, rfl, -⟩ := hspans.eq_cons
  exact ⟨tail ++ rest, rfl⟩

/-- A block is opened by putting a scope in front. -/
theorem enterBlock (h : Framed f cs blocks ws ids) (id : ScopeId) :
    Framed { f with scope := id } cs (blocks + 1) ws (id :: ids) := by
  have hspans : ∀ {segment : List ScopeId}, f.Spans blocks segment →
      ({ f with scope := id } : Frame).Spans (blocks + 1) (id :: segment) := by
    intro segment hs
    obtain ⟨rest, rfl, hlen⟩ := hs.eq_cons
    exact ⟨rfl, by rw [List.getLast?_cons_cons]; exact hs.last, by simp [hlen]⟩
  cases h with
  | top h => exact .top (hspans h)
  | call h rest hret hres => exact .call (hspans h) rest hret hres

/-- A block is closed by dropping the first scope. -/
theorem exitBlock {id parent : ScopeId} (h : Framed f cs (blocks + 1) ws (id :: parent :: ids)) :
    Framed { f with scope := parent } cs blocks ws (parent :: ids) := by
  have hspans : ∀ {first : ScopeId} {segment : List ScopeId},
      f.Spans (blocks + 1) (id :: first :: segment) →
      ({ f with scope := first } : Frame).Spans blocks (first :: segment) := by
    intro first segment hs
    exact ⟨rfl, by rw [← hs.last, List.getLast?_cons_cons], by simpa using hs.length⟩
  generalize hids : id :: parent :: ids = chain at h
  cases h with
  | top h =>
    subst hids
    exact .top (hspans h)
  | @call _ _ segment rest _ _ _ _ h hrest hret hres =>
    obtain ⟨tail, rfl, hlen⟩ := h.eq_cons
    rcases tail with - | ⟨first, tail⟩
    · simp at hlen
    simp only [List.cons_append, List.cons.injEq] at hids
    obtain ⟨rfl, rfl, rfl⟩ := hids
    exact .call (hspans h) hrest hret hres

end Framed

namespace State.Outlined

variable {s : State} {o : Outline}

/-- The frames and the scopes, with the scope of the call in progress in front. -/
theorem exists_chain (h : s.Outlined o) :
    ∃ ids, s.arena.Stacked (s.frame.scope :: ids) o.scopes ∧
      Framed s.frame s.callers.toList.reverse o.blocks o.callers (s.frame.scope :: ids) := by
  obtain ⟨ids, hstacked, hframed⟩ := h.frames
  obtain ⟨rest, rfl⟩ := hframed.eq_cons
  exact ⟨rest, hstacked, hframed⟩

theorem size_stack (h : s.Outlined o) : s.stack.size = o.stack.length := by
  rw [← Array.length_toList, h.stack, List.length_reverse]

theorem size_callers (h : s.Outlined o) : s.callers.size = o.callers.length := by
  obtain ⟨ids, -, hframed⟩ := h.frames
  rw [← hframed.length_eq, List.length_reverse, Array.length_toList]

theorem isEmpty_callers (h : s.Outlined o) : s.callers.isEmpty = o.callers.isEmpty := by
  rw [Bool.eq_iff_iff, Array.isEmpty_iff_size_eq_zero, h.size_callers,
    List.isEmpty_iff_length_eq_zero]

theorem withIp (h : s.Outlined o) (ip : Nat) :
    State.Outlined { s with ip := ip } { o with ip := ip } :=
  ⟨rfl, h.stack, h.returns, h.calls, h.frames⟩

theorem withStack (h : s.Outlined o) {stack : Array Value} {stack' : List Value}
    (hs : stack.toList = stack'.reverse) :
    State.Outlined { s with stack := stack } { o with stack := stack' } :=
  ⟨h.ip, hs, h.returns, h.calls, h.frames⟩

theorem withCall (h : s.Outlined o) (c : Call) :
    State.Outlined { s with calls := s.calls.push c } { o with calls := o.calls.push c } :=
  ⟨h.ip, h.stack, h.returns, by simp [h.calls], h.frames⟩

end State.Outlined

/-! ### Actions -/

namespace Exec

variable {α β : Type} {x : Exec α} {k : α → Exec β} {s s' : State} {o : Outline}

theorem bind_of_ok {a : α} (h : x s = .ok a s') : (x >>= k) s = k a s' := by
  show EStateM.bind x k s = k a s'
  rw [EStateM.bind, h]

theorem bind_of_error {e : FaultCause} (h : x s = .error e s') : (x >>= k) s = .error e s' := by
  show EStateM.bind x k s = .error e s'
  rw [EStateM.bind, h]

/-- Without operands nothing can be taken. -/
theorem pop_of_nil (h : s.Outlined o) (hs : o.stack = []) :
    Exec.pop s = .error .stackUnderflow s := by
  have hnil : s.stack = #[] := Array.toList_eq_nil_iff.1 (by rw [h.stack, hs]; rfl)
  rw [Exec.pop, hnil]
  rfl

/-- The operand taken is the first one of the outline. -/
theorem pop_of_cons (h : s.Outlined o) {v : Value} {vs : List Value} (hs : o.stack = v :: vs) :
    ∃ s', Exec.pop s = .ok v s' ∧ s'.Outlined { o with stack := vs } := by
  have hlist : s.stack.toList = vs.reverse ++ [v] := by rw [h.stack, hs, List.reverse_cons]
  have hback : s.stack.back? = some v := by
    rw [← Array.getLast?_toList, hlist, List.getLast?_concat]
  refine ⟨{ s with stack := s.stack.pop }, by rw [Exec.pop, hback], h.withStack ?_⟩
  rw [Array.toList_pop, hlist, List.dropLast_concat]

/-- An instruction that takes the last operand first. -/
theorem pop_outlined (h : s.Outlined o) {k : Value → Exec (Option Termination)}
    {p : Outline.Progress FaultCause} (hnil : o.stack = [] → p = o.fail .stackUnderflow)
    (hcons : ∀ v vs s', o.stack = v :: vs → s'.Outlined { o with stack := vs } →
      Outlined (k v s') p) :
    Outlined ((do let v ← Exec.pop; k v) s) p := by
  rcases hst : o.stack with - | ⟨v, vs⟩
  · rw [bind_of_error (pop_of_nil h hst), hnil hst]
    exact .failed h.calls
  · obtain ⟨s', hs, hout⟩ := pop_of_cons h hst
    rw [bind_of_ok hs]
    exact hcons v vs s' hst hout

/-- So many operands cannot be taken if there are fewer. -/
theorem popMany_of_lt (h : s.Outlined o) {count : Nat} (hc : ¬count ≤ o.stack.length) :
    Exec.popMany count s = .error .stackUnderflow s := by
  rw [Exec.popMany, if_neg (by rwa [h.size_stack])]

/-- Many operands are taken in the order in which they were left. -/
theorem popMany_of_le (h : s.Outlined o) {count : Nat} (hc : count ≤ o.stack.length) :
    ∃ s', Exec.popMany count s = .ok (o.stack.take count).reverse s' ∧
      s'.Outlined { o with stack := o.stack.drop count } := by
  have hsize := h.size_stack
  have hargs : (s.stack.extract (s.stack.size - count)).toList = (o.stack.take count).reverse := by
    rw [Array.toList_extract, h.stack, List.extract_eq_take_drop, List.drop_reverse,
      List.take_of_length_le (by simp [hsize])]
    congr 2
    omega
  refine ⟨{ s with stack := s.stack.extract 0 (s.stack.size - count) }, ?_, h.withStack ?_⟩
  · rw [Exec.popMany, if_pos (by rwa [hsize]), ← hargs]
  · rw [Array.toList_extract, h.stack, List.extract_eq_take_drop, List.drop_zero, Nat.sub_zero,
      List.take_reverse]
    congr 2
    omega

/-- Pushing is pushing on the outline, whatever the instruction gives back. -/
theorem push_outlined (h : s.Outlined o) (limit : Nat) (v : Value) :
    Outlined ((do Exec.push limit v; return none) s) (o.push limit v) := by
  by_cases hlt : o.stack.length < limit
  · have hs : Exec.push limit v s = .ok () { s with stack := s.stack.push v } := by
      rw [Exec.push, if_pos (by rwa [h.size_stack])]
    rw [bind_of_ok hs, Outline.push, if_pos hlt]
    exact .running <| h.withStack (by rw [Array.toList_push, h.stack, List.reverse_cons])
  · have hs : Exec.push limit v s = .error (.stackOverflow limit) s := by
      rw [Exec.push, if_neg (by rwa [h.size_stack])]
    rw [bind_of_error hs, Outline.push, if_neg hlt]
    exact .failed h.calls

/-- A result is left, or its error reported, as in the outline. -/
theorem pushResult_outlined (h : s.Outlined o) (limit : Nat) (r : Except ValueError Value) :
    Outlined ((do let v ← Exec.ofValue r; Exec.push limit v; return none) s)
      (o.pushResult limit r) := by
  rcases r with e | v
  · exact .failed h.calls
  · exact push_outlined h limit v

/-- Jumps are checked as in the outline. -/
theorem jumpTo_outlined (h : s.Outlined o) (codeSize target : Nat) :
    Outlined ((do Exec.jumpTo codeSize target; return none) s) (o.jumpTo codeSize target) := by
  rw [Outline.jumpTo]
  split
  · next hin =>
    have hs : Exec.jumpTo codeSize target s = .ok () { s with ip := target } := by
      rw [Exec.jumpTo, if_pos hin]
    rw [bind_of_ok hs]
    exact .running (h.withIp target)
  · next hout =>
    have hs : Exec.jumpTo codeSize target s =
        .error (.malformed (.jumpOutside target)) s := by
      rw [Exec.jumpTo, if_neg hout]
    rw [bind_of_error hs]
    exact .failed h.calls

/-- An action on variables from the scope of the call in progress fares as the operation on the
stack does. -/
inductive Fares (o : Outline) (frame : Frame) :
    EStateM.Result FaultCause State Unit → Except ScopeError Scopes → Prop where
  | ok {s : State} {scopes : Scopes} (h : s.Outlined { o with scopes })
      (hframe : s.frame = frame) : Fares o frame (.ok () s) (.ok scopes)
  | error {s : State} {e : ScopeError} (h : s.calls = o.calls) :
      Fares o frame (.error (.ofScopeError e) s) (.error e)

/-- The scopes before the action do not matter. -/
theorem Fares.ofScopes {frame : Frame} {x : EStateM.Result FaultCause State Unit}
    {r : Except ScopeError Scopes} {scopes : Scopes} (h : Fares { o with scopes } frame x r) :
    Fares o frame x r := by
  cases h with
  | ok h hframe => exact .ok h hframe
  | error h => exact .error h

/-- What is known of an operation on scopes for every arena holds for the one of the state. -/
theorem onArena_fares (h : s.Outlined o) {f : Arena → Except ScopeError Unit × Arena}
    {r : Except ScopeError Scopes}
    (hf : ∀ {a ids}, a.Stacked (s.frame.scope :: ids) o.scopes →
      Arena.Stacked.Yields (s.frame.scope :: ids) (f a) r) :
    Fares o s.frame (Exec.onArena f s) r := by
  obtain ⟨ids, hstacked, hframed⟩ := h.exists_chain
  have hy := hf hstacked
  rw [Exec.onArena]
  rcases hr : f s.arena with ⟨e | u, arena⟩ <;> rcases r with e' | scopes <;> rw [hr] at hy
  · obtain rfl : e = e' := hy
    exact .error h.calls
  · exact hy.elim
  · exact hy.elim
  · exact .ok ⟨h.ip, h.stack, h.returns, h.calls, _, hy, hframed⟩ rfl

/-- An instruction that just changes variables does so as in the outline. -/
theorem onScopes_outlined (h : s.Outlined o)
    {f : ScopeId → Arena → Except ScopeError Unit × Arena} {r : Except ScopeError Scopes}
    (hf : ∀ {a id ids}, a.Stacked (id :: ids) o.scopes →
      Arena.Stacked.Yields (id :: ids) (f id a) r) :
    Outlined ((do let id ← Exec.scope; Exec.onArena (f id); return none) s) (o.onScopes r) := by
  rw [bind_of_ok (show Exec.scope s = .ok s.frame.scope s from rfl)]
  have ha := onArena_fares h (f := f s.frame.scope) hf
  generalize hx : Exec.onArena (f s.frame.scope) s = x at ha
  cases ha with
  | ok hout _ =>
    rw [bind_of_ok hx]
    exact .running hout
  | error hcalls =>
    rw [bind_of_error hx]
    exact .failed hcalls

/-! ### Blocks and calls -/

/-- A new scope is claimed for a block, on top of the chain. -/
theorem enterScope_outlined (h : s.Outlined o) :
    Outlined ((do Exec.enterScope; return none) s)
      (.running { o with blocks := o.blocks + 1, scopes := [] :: o.scopes }) := by
  obtain ⟨ids, hstacked, hframed⟩ := h.exists_chain
  exact .running ⟨h.ip, h.stack, h.returns, h.calls, _, hstacked.push, hframed.enterBlock _⟩

/-- Closing a block: the frame tells its base apart from the blocks by its handle, and the outline
by counting. -/
theorem exitScope_outlined (h : s.Outlined o) :
    Outlined ((do Exec.exitScope; return none) s) (match o.blocks with
      | 0 => o.fail (.malformed .unmatchedExit)
      | blocks + 1 => .running { o with blocks, scopes := o.scopes.tail }) := by
  obtain ⟨ids, hstacked, hframed⟩ := h.exists_chain
  obtain ⟨segment, rest, hspans, hids⟩ := hframed.exists_segment
  obtain ⟨tail, rfl, hlen⟩ := hspans.eq_cons
  obtain rfl : ids = tail ++ rest := by simpa using hids
  -- No open block means that the chain of the frame is its base alone.
  rcases hb : o.blocks with - | blocks
  · obtain rfl : tail = [] := List.eq_nil_of_length_eq_zero (by rw [hlen, hb])
    have hbase : s.frame.scope = s.frame.base := by simpa using hspans.last
    have hs : Exec.exitScope s = .error (.malformed .unmatchedExit) s := by
      rw [Exec.exitScope, if_pos hbase]
    rw [bind_of_error hs]
    exact .failed h.calls
  · rcases tail with - | ⟨parent, tail⟩
    · simp [hb] at hlen
    -- No slot is on the chain twice, so the innermost one is not the base.
    have hbase : s.frame.scope ≠ s.frame.base := by
      intro he
      have hlast := hspans.last
      rw [List.getLast?_cons_cons, ← he] at hlast
      exact (List.nodup_cons.1 hstacked.nodup).1
        (List.mem_append_left rest (List.mem_of_getLast? hlast))
    obtain ⟨vars, scopes, hscopes, -⟩ := hstacked.exists_eq_cons
    rw [hscopes] at hstacked
    obtain ⟨hparent, hrest⟩ := hstacked.release
    rcases hr : s.arena.release s.frame.scope with ⟨p, arena⟩
    rw [hr] at hparent hrest
    subst hparent
    have hs : Exec.exitScope s =
        .ok () { s with arena, frame := { s.frame with scope := parent } } := by
      rw [Exec.exitScope, if_neg hbase, hr]
    rw [bind_of_ok hs, hscopes]
    rw [hb] at hframed
    exact .running ⟨h.ip, h.stack, h.returns, h.calls, _, hrest, hframed.exitBlock⟩

/-- Binding parameters in the scope of a call that has just been opened. -/
theorem bindParams_fares (h : s.Outlined o) (params : List String) (args : List Value) :
    Fares o s.frame (Exec.bindParams s.frame.scope params args s)
      (o.scopes.bindParams params args) := by
  induction params generalizing args s o with
  | nil => exact .ok h rfl
  | cons p ps ih =>
    rcases args with - | ⟨v, vs⟩
    · exact .ok h rfl
    rw [Scopes.bindParams, Exec.bindParams]
    have ha := onArena_fares h (f := fun a ↦ a.declare s.frame.scope p .auto v)
      fun hstacked ↦ hstacked.declare p .auto v
    generalize hx : Exec.onArena (fun a ↦ a.declare s.frame.scope p .auto v) s = x at ha
    generalize o.scopes.declare p .auto v = r at ha
    cases ha with
    | ok hout hframe =>
      rw [bind_of_ok hx]
      have hrest := ih hout vs
      rw [hframe] at hrest
      exact hrest.ofScopes
    | error hcalls =>
      rw [bind_of_error hx]
      exact .error hcalls

/-- Going on with a function, once its frame is there. -/
theorem enter_outlined (f : Function) (args : List Value)
    (h : s.Outlined { o with scopes := [] :: o.scopes, blocks := 0, returns := f.returns }) :
    Outlined ((do Exec.bindParams s.frame.scope f.params args; Exec.goTo f; return none) s)
      (Machine.outlineEnter o f args) := by
  have hb := bindParams_fares h f.params args
  rw [Machine.outlineEnter]
  generalize hx : Exec.bindParams s.frame.scope f.params args s = x at hb
  dsimp only at hb
  generalize Scopes.bindParams ([] :: o.scopes) f.params args = r at hb
  cases hb with
  | ok hout _ =>
    rw [bind_of_ok hx]
    exact .running (hout.withIp f.entry.toNat)
  | error hcalls =>
    rw [bind_of_error hx]
    exact .failed hcalls

end Exec

/-- The last caller is the first from the inside. -/
theorem State.reverse_callers_of_back? {s : State} {c : Caller} (h : s.callers.back? = some c) :
    s.callers.toList.reverse = c :: s.callers.pop.toList.reverse := by
  rw [← Array.getLast?_toList] at h
  rw [Array.toList_pop, ← List.reverse_concat, List.dropLast_append_getLast? c h]

namespace State.Outlined

variable {s : State} {o : Outline}

theorem back?_callers_eq_none (h : s.Outlined o) (hc : o.callers = []) :
    s.callers.back? = none := by
  obtain ⟨ids, -, hframed⟩ := h.frames
  rw [hc] at hframed
  have hnil : s.callers = #[] := by simpa using hframed.eq_nil
  rw [hnil]
  rfl

/-- Leaving the scopes of a call that has a caller. The frame of the caller is then on top of the
chain. -/
theorem exists_caller (h : s.Outlined o) {w : Waiting} {ws : List Waiting}
    (hc : o.callers = w :: ws) :
    ∃ c ids, s.callers.back? = some c ∧
      (s.arena.releaseThrough s.frame.scope s.frame.base).Stacked (c.frame.scope :: ids)
        (o.scopes.drop (o.blocks + 1)) ∧
      Framed c.frame s.callers.pop.toList.reverse w.blocks ws (c.frame.scope :: ids) ∧
      w.returns = c.frame.returns ∧ w.resume = c.resume := by
  obtain ⟨ids, hstacked, hframed⟩ := h.frames
  rw [hc] at hframed
  obtain ⟨segment, rest, c, cs, hcs, rfl, hspans, hrest, hreturns, hresume⟩ :=
    hframed.exists_caller
  have hlist : s.callers.toList = cs.reverse ++ [c] := by
    rw [← List.reverse_reverse s.callers.toList, hcs, List.reverse_cons]
  obtain ⟨rest, rfl⟩ := hrest.eq_cons
  refine ⟨c, rest, ?_, ?_, ?_, hreturns, hresume⟩
  · rw [← Array.getLast?_toList, hlist, List.getLast?_concat]
  · have hlen : segment.length = (o.scopes.take (o.blocks + 1)).length := by
      have hall := hstacked.chain.length_eq
      rw [List.length_append] at hall
      rw [List.length_take, hspans.length]
      have := hspans.length
      omega
    rw [← List.take_append_drop (o.blocks + 1) o.scopes] at hstacked
    exact hstacked.releaseThrough hlen hspans.head hspans.last
  · rw [Array.toList_pop, hlist, List.dropLast_concat, List.reverse_reverse]
    exact hrest

end State.Outlined

namespace Machine

variable (m : Machine) {s : State} {o : Outline}

open Exec

/-! ### Calls and returns -/

/-- A tail call puts a frame in the place of one that has a caller. -/
theorem replaceFrame?_outlined (h : s.Outlined o) (f : Function) (hne : o.callers ≠ []) :
    ∃ s', replaceFrame? f s = .ok (some s'.frame.scope) s' ∧ s'.Outlined { o with
      scopes := [] :: o.scopes.drop (o.blocks + 1), blocks := 0, returns := f.returns } := by
  obtain ⟨w, ws, hc⟩ := List.exists_cons_of_ne_nil hne
  obtain ⟨c, ids, hback, hstacked, hframed, hreturns, hresume⟩ := h.exists_caller hc
  rcases hpush : (s.arena.releaseThrough s.frame.scope s.frame.base).push c.frame.scope with
    ⟨id, arena⟩
  have hnew := hstacked.push
  rw [hpush] at hnew
  refine ⟨{ s with arena, frame := ⟨id, id, f.returns⟩ }, ?_, h.ip, h.stack, rfl, h.calls, _, hnew,
    ?_⟩
  · rw [replaceFrame?, hback]
    simp only [hpush]
  · rw [State.reverse_callers_of_back? hback, hc]
    exact .call (.single id _) hframed hreturns hresume

/-- A call opens a frame in front of the present one, which waits. -/
theorem openFrame_outlined (h : s.Outlined o) (f : Function) {limit : Nat}
    (hlt : o.callers.length + 1 < limit) :
    ∃ s', openFrame limit f s = .ok s'.frame.scope s' ∧ s'.Outlined { o with
      callers := ⟨o.blocks, o.returns, o.ip⟩ :: o.callers
      scopes := [] :: o.scopes, blocks := 0, returns := f.returns } := by
  obtain ⟨ids, hstacked, hframed⟩ := h.exists_chain
  rcases hpush : s.arena.push s.frame.scope with ⟨id, arena⟩
  have hnew := hstacked.push
  rw [hpush] at hnew
  refine ⟨{ s with
    arena, callers := s.callers.push ⟨s.frame, s.ip⟩, frame := ⟨id, id, f.returns⟩ }, ?_,
    h.ip, h.stack, rfl, h.calls, _, hnew, ?_⟩
  · rw [openFrame, if_pos (by rwa [h.size_callers])]
    simp only [hpush]
  · rw [Array.toList_push, List.reverse_concat]
    exact .call (.single id _) hframed h.returns.symm h.ip.symm

/-- A function of the program is called as in the outline. -/
theorem callFunction_outlined (h : s.Outlined o) (f : Function) (args : List Value)
    (isTail : Bool) :
    Outlined ((do m.callFunction f args isTail; return none) s)
      (m.outlineCallFunction o f args isTail) := by
  simp only [callFunction, bind_assoc]
  -- A last call takes the place of its caller, unless the program itself makes it.
  by_cases ht : isTail = true ∧ o.callers ≠ []
  · obtain ⟨s', hs, hout⟩ := replaceFrame?_outlined h f ht.2
    rw [outlineCallFunction, if_pos ht, if_pos ht.1, bind_of_ok hs]
    dsimp only
    rw [bind_assoc]
    exact enter_outlined f args (o := { o with scopes := o.scopes.drop (o.blocks + 1) }) hout
  · have hskip : (if isTail = true then replaceFrame? f else pure none) s = .ok none s := by
      split
      · next hT =>
        have hnil : o.callers = [] := by
          by_contra hne
          exact ht ⟨hT, hne⟩
        rw [replaceFrame?, h.back?_callers_eq_none hnil]
      · rfl
    rw [outlineCallFunction, if_neg ht, bind_of_ok hskip]
    dsimp only
    rw [bind_assoc]
    split
    · next hlt =>
      obtain ⟨s', hs, hout⟩ := openFrame_outlined h f hlt
      rw [bind_of_ok hs, bind_assoc]
      exact enter_outlined f args
        (o := { o with callers := ⟨o.blocks, o.returns, o.ip⟩ :: o.callers }) hout
    · next hge =>
      have hs : openFrame m.limits.maxFrames f s = .error (.callDepth m.limits.maxFrames) s := by
        rw [openFrame, if_neg (by rwa [h.size_callers])]
      rw [bind_of_error hs]
      exact .failed h.calls

theorem callBuiltin_outlined (h : s.Outlined o) (b : Builtin) (args : List Value) :
    Outlined ((do m.callBuiltin b args; return none) s) (m.outlineCallBuiltin o b args) := by
  have hnote := h.withCall ⟨b.name, args⟩
  have hs : note ⟨b.name, args⟩ s = .ok o.calls { s with
      calls := s.calls.push ⟨b.name, args⟩ } := by
    rw [← h.calls]
    rfl
  simp only [callBuiltin, bind_assoc]
  rw [bind_of_ok hs, outlineCallBuiltin]
  rcases b.answer o.calls args with message | v
  · exact .failed hnote.calls
  · exact push_outlined hnote _ v

/-- A name is called as in the outline, whichever kind of function it stands for. -/
theorem call_outlined (h : s.Outlined o) (name : String) (count : Nat) (isTail : Bool) :
    Outlined ((do m.call name count isTail; return none) s)
      (m.outlineCall o name count isTail) := by
  simp only [call, bind_assoc]
  by_cases hle : count ≤ o.stack.length
  · obtain ⟨s', hs, hout⟩ := popMany_of_le h hle
    have hlen : (o.stack.take count).reverse.length = count := by simp [hle]
    rw [outlineCall, if_pos hle, bind_of_ok hs, outlineApply]
    -- Functions of the program are looked up before built-in ones.
    rcases m.find? name with - | f
    · dsimp only
      rcases m.table.find? name with - | b
      · exact .failed hout.calls
      · dsimp only
        rcases b.arity with - | arity
        · exact m.callBuiltin_outlined hout b _
        · dsimp only
          split
          · exact m.callBuiltin_outlined hout b _
          · exact .failed hout.calls
    · dsimp only
      rw [hlen]
      split
      · exact m.callFunction_outlined hout f _ isTail
      · exact .failed hout.calls
  · rw [outlineCall, if_neg hle, bind_of_error (popMany_of_lt h hle)]
    exact .failed h.calls

/-- A value is given back as in the outline. -/
theorem giveBack_outlined (h : s.Outlined o) (v : Option Value) :
    Outlined (m.giveBack v s) (m.outlineGiveBack o v) := by
  rw [giveBack, outlineGiveBack]
  rcases hc : o.callers with - | ⟨w, ws⟩
  · have hs : leaveFrame? s = .ok none s := by
      rw [leaveFrame?, h.back?_callers_eq_none hc]
    rw [bind_of_ok hs]
    exact .ended h
  · obtain ⟨c, ids, hback, hstacked, hframed, hreturns, hresume⟩ := h.exists_caller hc
    have hs : leaveFrame? s = .ok (some (s.frame, c.resume))
        { s with frame := c.frame, callers := s.callers.pop } := by
      rw [leaveFrame?, hback]
    rw [bind_of_ok hs]
    dsimp only
    rw [h.returns]
    rcases resultOf o.returns v with e | w'
    · exact .failed h.calls
    · refine push_outlined ?_ _ _
      exact ⟨hresume.symm, h.stack, hreturns.symm, h.calls, _, hstacked, hframed⟩

/-! ### Instructions, steps and runs -/

/-- **One instruction is one instruction on outlines.** -/
theorem execute_outlined (h : s.Outlined o) (i : Instr) :
    Outlined (m.execute i s) (m.outlineExec o i) := by
  -- Operands are taken one by one on both sides; what is done with them is a lemma above.
  cases i with
  | pushInt | pushFloat | pushBool | pushStr | pushNull => exact push_outlined h _ _
  | makeList count =>
    rw [execute, outlineExec]
    by_cases hle : count ≤ o.stack.length
    · obtain ⟨s', hs, hout⟩ := popMany_of_le h hle
      rw [if_pos hle, bind_of_ok hs]
      exact push_outlined hout _ _
    · rw [if_neg hle, bind_of_error (popMany_of_lt h hle)]
      exact .failed h.calls
  | get name =>
    obtain ⟨ids, hstacked, -⟩ := h.exists_chain
    have hget := hstacked.get_eq name
    rw [execute, outlineExec]
    rcases hvar : o.scopes.var? name with - | var <;> rw [hvar] at hget
    · have hs : Exec.read name s = .error (.unknownVariable name) s := by
        rw [Exec.read, hget]
        rfl
      rw [bind_of_error hs]
      exact .failed h.calls
    · have hs : Exec.read name s = .ok var.value s := by rw [Exec.read, hget]
      rw [bind_of_ok hs]
      exact push_outlined h _ _
  | set name =>
    refine pop_outlined h (fun hst ↦ by rw [outlineExec, hst]) fun v vs s' hst hout ↦ ?_
    rw [outlineExec, hst]
    exact onScopes_outlined hout fun hstacked ↦ hstacked.assign name v
  | decl name type =>
    refine pop_outlined h (fun hst ↦ by rw [outlineExec, hst]) fun v vs s' hst hout ↦ ?_
    rw [outlineExec, hst]
    exact onScopes_outlined hout fun hstacked ↦ hstacked.declare name type v
  | unset name =>
    exact onScopes_outlined (f := fun id a ↦ (.ok (), (a.unset id name).2))
      (r := .ok (o.scopes.unset name)) h fun hstacked ↦ hstacked.unset name
  | pop =>
    refine pop_outlined h (fun hst ↦ by rw [outlineExec, hst]) fun v vs s' hst hout ↦ ?_
    rw [outlineExec, hst]
    exact .running hout
  | binary op =>
    refine pop_outlined h (fun hst ↦ by rw [outlineExec, hst]) fun b vs s' hst hout ↦ ?_
    refine pop_outlined hout (fun hst' ↦ ?_) fun a vs' s'' hst' hout' ↦ ?_ <;>
      rw [outlineExec, hst, show vs = _ from hst']
    · rfl
    · exact pushResult_outlined hout' _ _
  | unary op =>
    refine pop_outlined h (fun hst ↦ by rw [outlineExec, hst]) fun a vs s' hst hout ↦ ?_
    rw [outlineExec, hst]
    exact pushResult_outlined hout _ _
  | index =>
    refine pop_outlined h (fun hst ↦ by rw [outlineExec, hst]) fun i vs s' hst hout ↦ ?_
    refine pop_outlined hout (fun hst' ↦ ?_) fun container vs' s'' hst' hout' ↦ ?_ <;>
      rw [outlineExec, hst, show vs = _ from hst']
    · rfl
    · exact pushResult_outlined hout' _ _
  | slice =>
    refine pop_outlined h (fun hst ↦ by rw [outlineExec, hst]) fun stop vs s₁ hst hout ↦ ?_
    refine pop_outlined hout (fun hst₁ ↦ ?_) fun start vs₁ s₂ hst₁ hout₁ ↦ ?_
    · rw [outlineExec, hst, show vs = _ from hst₁]
      rfl
    refine pop_outlined hout₁ (fun hst₂ ↦ ?_) fun container vs₂ s₃ hst₂ hout₂ ↦ ?_ <;>
      rw [outlineExec, hst, show vs = _ from hst₁, show vs₁ = _ from hst₂]
    · rfl
    · exact pushResult_outlined hout₂ _ _
  | setIndex name =>
    refine pop_outlined h (fun hst ↦ by rw [outlineExec, hst]) fun v vs s' hst hout ↦ ?_
    refine pop_outlined hout (fun hst' ↦ ?_) fun i vs' s'' hst' hout' ↦ ?_ <;>
      rw [outlineExec, hst, show vs = _ from hst']
    · rfl
    · exact onScopes_outlined hout' fun hstacked ↦ hstacked.update name _
  | jump target => exact jumpTo_outlined h _ _
  | jumpIfFalse target =>
    refine pop_outlined h (fun hst ↦ by rw [outlineExec, hst]) fun condition vs s' hst hout ↦ ?_
    rw [outlineExec, hst]
    dsimp only
    split
    · exact .running hout
    · exact jumpTo_outlined hout _ _
  | call name count => exact m.call_outlined h name count false
  | tailCall name count => exact m.call_outlined h name count true
  | ret =>
    refine pop_outlined h (fun hst ↦ by rw [outlineExec, hst]) fun v vs s' hst hout ↦ ?_
    rw [outlineExec, hst]
    exact m.giveBack_outlined hout _
  | retVoid => exact m.giveBack_outlined h _
  | enterScope => exact enterScope_outlined h
  | exitScope => exact exitScope_outlined h
  | halt => exact .ended h

/-- What a step makes of a state has an outline. -/
inductive Progress.Outlined : Machine.Progress → Outline.Progress Fault → Prop where
  | running {s : State} {o : Outline} (h : s.Outlined o) : Outlined (.running s) (.running o)
  | ended {t : Termination} {s : State} {o : Outline} (h : s.Outlined o) :
      Outlined (.ended t s) (.ended t o)
  | failed {f : Fault} {s : State} : Outlined (.failed f s) (.failed f s.calls)

/-- **One step is one step on outlines.** -/
theorem step_outlined (h : s.Outlined o) : (m.step s).Outlined (m.outlineStep o) := by
  rw [step, outlineStep, h.ip]
  split
  · rcases Instr.decode m.code o.ip with e | ⟨i, next⟩
    · dsimp only
      rw [← h.calls]
      exact .failed
    · have hi := m.execute_outlined (h.withIp next) i
      dsimp only
      generalize m.execute i { s with ip := next } = x at hi
      generalize m.outlineExec { o with ip := next } i = y at hi
      cases hi with
      | running hi => exact .running hi
      | ended hi => exact .ended hi
      | failed hcalls =>
        subst hcalls
        exact .failed
  · exact .ended h

/-- At the start there are no frames below, and one scope. -/
theorem start_outlined : m.start.Outlined m.outlineStart :=
  ⟨rfl, rfl, rfl, rfl, [Arena.global], .new, .top ⟨rfl, rfl, rfl⟩⟩

/-- **A run is a run on outlines.** -/
theorem runFor_outlined (count : Nat) (h : s.Outlined o) :
    (m.runFor count s).Outlined (m.outlineRun count o) := by
  induction count generalizing s o with
  | zero => exact .running h
  | succ count ih =>
    have hstep := m.step_outlined h
    rw [runFor, outlineRun]
    generalize m.step s = x at hstep
    generalize m.outlineStep o = y at hstep
    cases hstep with
    | running h' => exact ih h'
    | ended h' => exact .ended h'
    | failed => exact .failed

end Machine

/-- The global variables of a state are those of its outline. -/
theorem State.Outlined.globals_eq {s : State} {o : Outline} (h : s.Outlined o) :
    s.globals = o.globals := by
  obtain ⟨ids, hstacked, -⟩ := h.frames
  exact hstacked.snapshot_global

end Scriptlet
