import Scriptlet.Proofs.Machine.Calls
import Scriptlet.Proofs.Machine.Shifts
import Scriptlet.Proofs.Tree.Names

/-!
# What a call leaves of the scopes around it

A function sees the variables of whoever called it, so a call may change them, and it may delete
them. It **creates none**: a name that it declares, or assigns to where nobody has it, is bound in
its own scope, and that is gone when it returns.

The scopes of the call in progress are the front of the chain, up to the base of its frame, and a
step binds new names and closes scopes only there (`State.Fronted.keeps`). While a call is in
progress, the scopes that were there before stand behind that front: parents do not change, so the
chain from the calling scope outward goes through just the same slots
(`State.Within.exists_fronted`).
-/

namespace Scriptlet

/-! ### Arenas -/

namespace Arena

variable {a b c : Arena} {id : ScopeId} {ids segment own : List ScopeId} {scopes : Scopes}

/-- All scopes but some remain, in their slots. -/
def Keeps (a b : Arena) (own : List ScopeId) : Prop :=
  ∀ id s, id ∉ own → a.scope? id = some s → ∃ s', b.scope? id = some s' ∧ s.Remains s'

namespace Keeps

theorem refl (a : Arena) (own : List ScopeId) : a.Keeps a own :=
  fun _ s _ hs ↦ ⟨s, hs, .refl s⟩

/-- What remains and remains again, remains. -/
theorem trans (h : a.Keeps b own) (h' : b.Keeps c own) : a.Keeps c own := by
  intro id s hid hs
  obtain ⟨s₁, hs₁, hremains⟩ := h id s hid hs
  obtain ⟨s₂, hs₂, hremains'⟩ := h' id s₁ hid hs₁
  exact ⟨s₂, hs₂, hremains.trans hremains'⟩

theorem mono {own' : List ScopeId} (h : a.Keeps b own) (hsub : own ⊆ own') : a.Keeps b own' :=
  fun id s hid hs ↦ h id s (fun hmem ↦ hid (hsub hmem)) hs

/-- A scope that was not there before need not be kept. -/
theorem of_vacant (h : a.Keeps b (id :: own)) (hid : a.scope? id = none) : a.Keeps b own := by
  intro x s hx hs
  refine h x s (fun hmem ↦ ?_) hs
  rcases List.mem_cons.1 hmem with rfl | hmem
  · rw [hid] at hs
    cases hs
  · exact hx hmem

/-- A scope that is the same remains. -/
theorem of_eq (h : ∀ id ∉ own, (a.scope? id).isSome → b.scope? id = a.scope? id) :
    a.Keeps b own :=
  fun id s hid hs ↦ ⟨s, (h id hid (by rw [hs]; rfl)).trans hs, .refl s⟩

/-- A scope that is written back with fewer variables, or with other values, remains. -/
theorem store {owner : ScopeId} {s s' : Scope} (hs : a.scope? owner = some s)
    (hremains : s.Remains s') : a.Keeps (a.store owner s') [] := by
  intro x sx _ hx
  rw [scope?_store hs]
  split
  · next heq =>
    subst heq
    obtain rfl := Option.some.inj (hs.symm.trans hx)
    exact ⟨s', rfl, hremains⟩
  · exact ⟨sx, hx, .refl sx⟩

/-- New names are bound in the one scope only. -/
theorem edits (h : a.Edits id b) : a.Keeps b [id] := by
  cases h with
  | same => exact .refl a _
  | insert hs =>
    refine of_eq fun x hx _ ↦ ?_
    rw [scope?_store hs, if_neg]
    rintro rfl
    exact hx (List.mem_singleton_self _)
  | replace hs => exact (store hs (.replace _ _ _)).mono (List.nil_subset _)
  | erase hs => exact (store hs (.erase _ _)).mono (List.nil_subset _)

/-- Parameters are bound in the scope that was made for them. -/
theorem editsMany (h : EditsMany id a b) : a.Keeps b [id] := by
  induction h with
  | refl => exact .refl a _
  | tail _ hlast ih => exact ih.trans (edits hlast)

/-- To release a scope leaves all others. -/
theorem release (a : Arena) (id : ScopeId) : a.Keeps (a.release id).2 [id] := by
  refine of_eq fun x hx _ ↦ ?_
  unfold Arena.release
  split
  · rfl
  · split
    · rfl
    · rw [scope?_setIfInBounds, if_neg]
      rintro ⟨rfl, -⟩
      exact hx (List.mem_singleton_self _)

end Keeps

/-- Chains that hold the same variables in the same slots agree in these slots. -/
theorem Chain.scope?_eq (h : a.Chain ids scopes) (h' : b.Chain ids scopes) (hid : id ∈ ids) :
    b.scope? id = a.scope? id := by
  induction h with
  | nil => cases hid
  | cons hs _ ih =>
    cases h' with
    | cons hs' rest' =>
      rcases List.mem_cons.1 hid with rfl | hid
      · rw [hs, hs']
      · exact ih rest' hid

namespace Stacked

/-- Opening a scope keeps all others, and takes a slot that was vacant. -/
theorem keeps_push {parent : ScopeId} (h : a.Stacked (parent :: ids) scopes)
    (hpush : a.push parent = (id, b)) : a.Keeps b [] ∧ a.scope? id = none := by
  have hnew := h.push
  rw [hpush] at hnew
  constructor
  · refine Keeps.of_eq fun x _ hx ↦ ?_
    cases hnew.chain with
    | cons _ rest => exact h.chain.scope?_eq rest (h.mem_of_isSome hx)
  · rw [← Option.not_isSome_iff_eq_none, h.isSome_iff]
    exact (List.nodup_cons.1 hnew.nodup).1

/-- What is bound in a scope that was just opened concerns no other. -/
theorem keeps_push_edits {parent : ScopeId} (h : a.Stacked (parent :: ids) scopes)
    (hpush : a.push parent = (id, b)) (hedits : EditsMany id b c) : a.Keeps c [] := by
  obtain ⟨hkeeps, hvacant⟩ := h.keeps_push hpush
  have hnew := (hkeeps.mono (List.nil_subset [id])).trans (.editsMany hedits)
  exact hnew.of_vacant hvacant

/-- Leaving a call keeps all scopes but its own. -/
theorem keeps_releaseThrough {frame : Frame} {blocks : Nat} (hspans : frame.Spans blocks segment)
    {parent : ScopeId} (h : a.Stacked (segment ++ parent :: ids) scopes) :
    ∃ back, (a.releaseThrough frame.scope frame.base).Stacked (parent :: ids) back ∧
      a.Keeps (a.releaseThrough frame.scope frame.base) segment := by
  have hlen : segment.length = (scopes.take segment.length).length := by
    have hall := h.chain.length_eq
    rw [List.length_append] at hall
    rw [List.length_take]
    omega
  rw [← List.take_append_drop segment.length scopes] at h
  have hrest := h.releaseThrough hlen hspans.head hspans.last
  refine ⟨_, hrest, Keeps.of_eq fun x hx hsome ↦ ?_⟩
  have hmem := (List.mem_append.1 (h.mem_of_isSome hsome)).resolve_left hx
  exact (h.chain.of_append_append hlen).scope?_eq hrest.chain hmem

end Stacked

/-- The parent links determine where they lead. -/
theorem Outward.unique {ids' : List ScopeId} (h : a.Outward id ids) (h' : a.Outward id ids') :
    ids = ids' := by
  induction h generalizing ids' with
  | last hs hp =>
    cases h' with
    | last => rfl
    | next hs' hp' =>
      obtain rfl := Option.some.inj (hs.symm.trans hs')
      rw [hp] at hp'
      cases hp'
  | next hs hp _ ih =>
    cases h' with
    | last hs' hp' =>
      obtain rfl := Option.some.inj (hs.symm.trans hs')
      rw [hp] at hp'
      cases hp'
    | next hs' hp' rest' =>
      obtain rfl := Option.some.inj (hs.symm.trans hs')
      obtain rfl := Option.some.inj (hp.symm.trans hp')
      rw [ih rest']

/-- Scopes that remain lead outward as before. -/
theorem Keeps.outward (h : a.Keeps b []) (hout : a.Outward id ids) : b.Outward id ids := by
  induction hout with
  | last hs hp =>
    obtain ⟨s', hs', hremains⟩ := h _ _ List.not_mem_nil hs
    exact .last hs' (hremains.parent.trans hp)
  | next hs hp _ ih =>
    obtain ⟨s', hs', hremains⟩ := h _ _ List.not_mem_nil hs
    exact .next hs' (hremains.parent.trans hp) ih

end Arena

/-! ### Frames -/

namespace Framed

variable {f : Frame} {c : Caller} {cs inner : List Caller} {blocks : Nat} {ws : List Waiting}
  {segment rest ids : List ScopeId}

/-- Behind the scopes of a call stand those of its caller. -/
theorem exists_eq_cons (h : Framed f (c :: cs) blocks ws (segment ++ rest))
    (hspans : f.Spans blocks segment) : ∃ tail, rest = c.frame.scope :: tail := by
  generalize hids : segment ++ rest = ids at h
  cases h with
  | call hspans' hrest =>
    obtain ⟨-, rfl⟩ := List.append_inj hids (hspans.length.trans hspans'.length.symm)
    exact hrest.eq_cons

/-- Behind the scopes of a call stand those of every caller. -/
theorem exists_eq_append (h : Framed f (inner ++ c :: cs) blocks ws ids) :
    ∃ segment mid tail, f.Spans blocks segment ∧
      ids = segment ++ (mid ++ c.frame.scope :: tail) := by
  induction inner generalizing f blocks ws ids with
  | nil =>
    obtain ⟨segment, rest, hspans, rfl⟩ := h.exists_segment
    obtain ⟨tail, rfl⟩ := h.exists_eq_cons hspans
    exact ⟨segment, [], tail, hspans, rfl⟩
  | cons d inner ih =>
    cases h with
    | call hspans hrest =>
      obtain ⟨segment', mid, tail, -, rfl⟩ := ih hrest
      exact ⟨_, segment' ++ mid, tail, hspans, by rw [List.append_assoc segment']⟩

end Framed

/-! ### Steps -/

namespace State

variable {s t t' : State} {o o' : Outline} {segment rest : List ScopeId}

/-- The scopes of a state, with those of the call in progress in front. -/
structure Fronted (s : State) (o : Outline) (segment rest : List ScopeId) : Prop where
  stacked : s.arena.Stacked (segment ++ rest) o.scopes
  framed : Framed s.frame s.callers.toList.reverse o.blocks o.callers (segment ++ rest)
  spans : s.frame.Spans o.blocks segment

namespace Fronted

theorem scope_mem (h : s.Fronted o segment rest) : s.frame.scope ∈ segment :=
  List.mem_of_head? h.spans.head

/-- The scopes in sight are stacked. -/
theorem exists_stacked (h : s.Fronted o segment rest) :
    ∃ ids, s.arena.Stacked (s.frame.scope :: ids) o.scopes := by
  obtain ⟨tail, rfl, -⟩ := h.spans.eq_cons
  exact ⟨tail ++ rest, h.stacked⟩

/-- **A call that ends releases its own scopes** and leaves those of its caller. -/
theorem exists_releaseThrough (h : s.Fronted o segment rest) {caller : Caller}
    (hcaller : s.callers.back? = some caller) :
    ∃ ids scopes,
      (s.arena.releaseThrough s.frame.scope s.frame.base).Stacked (caller.frame.scope :: ids)
        scopes ∧
      s.arena.Keeps (s.arena.releaseThrough s.frame.scope s.frame.base) segment := by
  have hframed := h.framed
  rw [reverse_callers_of_back? hcaller] at hframed
  obtain ⟨tail, rfl⟩ := hframed.exists_eq_cons h.spans
  obtain ⟨scopes, hstacked, hkeeps⟩ := h.stacked.keeps_releaseThrough h.spans
  exact ⟨tail, scopes, hstacked, hkeeps⟩

/-- **A step keeps all scopes but those of the call in progress.** -/
theorem keeps (h : s.Fronted o segment rest) (hshifts : s.Shifts t) :
    s.arena.Keeps t.arena segment := by
  have hown : [s.frame.scope] ⊆ segment := List.cons_subset.2 ⟨h.scope_mem, List.nil_subset _⟩
  -- A shift edits, opens or releases scopes of the call in progress, and none that it was entered
  -- from.
  cases hshifts with
  | edits _ _ harena => exact (Arena.Keeps.edits harena).mono hown
  | enters _ harena =>
    obtain ⟨ids, hstacked⟩ := h.exists_stacked
    rw [harena]
    exact (hstacked.keeps_push rfl).1.mono (List.nil_subset _)
  | exits _ harena =>
    rw [harena]
    exact (Arena.Keeps.release _ _).mono hown
  | opens _ hpush harena =>
    obtain ⟨ids, hstacked⟩ := h.exists_stacked
    exact (hstacked.keeps_push_edits hpush harena).mono (List.nil_subset _)
  | replaces hcaller _ hpush harena =>
    obtain ⟨ids, scopes, hstacked, hkeeps⟩ := h.exists_releaseThrough hcaller
    exact hkeeps.trans ((hstacked.keeps_push_edits hpush harena).mono (List.nil_subset _))
  | leaves hcaller _ harena =>
    obtain ⟨ids, scopes, hstacked, hkeeps⟩ := h.exists_releaseThrough hcaller
    rcases harena with harena | harena <;> rw [harena]
    · exact .refl _ _
    · exact hkeeps

end Fronted

/-! ### Calls -/

/-- A call is in progress: its caller waits in the frame it had, and all scopes it had remain. -/
structure Within (s t : State) : Prop where
  callers : ∃ resume inner, t.callers.toList = s.callers.toList ++ ⟨s.frame, resume⟩ :: inner
  keeps : s.arena.Keeps t.arena []

/-- A step that leaves more calls in progress opens a frame. -/
theorem Shifts.within (h : s.Shifts t) (hs : s.Outlined o)
    (hsize : s.callers.size < t.callers.size) : s.Within t := by
  have hsame (heq : t.callers = s.callers) : s.Within t := by
    rw [heq] at hsize
    exact absurd hsize (Nat.lt_irrefl _)
  cases h with
  | edits _ hcallers | enters hcallers | exits hcallers | replaces _ hcallers =>
    exact hsame hcallers
  | @opens _ _ resume hcallers hpush harena =>
    obtain ⟨ids, hstacked, -⟩ := hs.exists_chain
    refine ⟨⟨resume, [], ?_⟩, hstacked.keeps_push_edits hpush harena⟩
    rw [hcallers, Array.toList_push]
  | leaves _ hcallers =>
    rw [hcallers, Array.size_pop] at hsize
    omega

namespace Within

/-- **The scopes that were there before a call are not those of a call in progress.** -/
theorem exists_fronted (h : s.Within t) (hs : s.Outlined o) (ht : t.Outlined o') :
    ∃ segment rest, t.Fronted o' segment rest ∧
      ∀ id, (s.arena.scope? id).isSome → id ∉ segment := by
  obtain ⟨ids₀, hstacked₀, -⟩ := hs.exists_chain
  obtain ⟨ids, hstacked, hframed⟩ := ht.frames
  obtain ⟨resume, inner, hcallers⟩ := h.callers
  have hframed' := hframed
  rw [hcallers, List.reverse_append, List.reverse_cons, List.append_assoc, List.singleton_append]
    at hframed'
  obtain ⟨segment, mid, tail, hspans, rfl⟩ := hframed'.exists_eq_append
  refine ⟨segment, _, ⟨hstacked, hframed, hspans⟩, fun id hid hmem ↦ ?_⟩
  -- The caller's chain is the same before and now, so it is what stands at the end.
  have htail : s.frame.scope :: ids₀ = s.frame.scope :: tail := by
    obtain ⟨scopes, hchain⟩ := hstacked.chain.of_append
    obtain ⟨scopes, hchain⟩ := hchain.of_append
    exact (h.keeps.outward hstacked₀.chain.outward).unique hchain.outward
  have hid := hstacked₀.mem_of_isSome hid
  rw [htail] at hid
  exact (List.nodup_append'.1 hstacked.nodup).2.2 hmem (List.mem_append_right mid hid)

/-- A step inside a call leaves the scopes that were there before it. -/
theorem keeps_step (h : s.Within t) (hs : s.Outlined o) (ht : t.Outlined o')
    (hshifts : t.Shifts t') : s.arena.Keeps t'.arena [] := by
  obtain ⟨segment, rest, hfronted, hdisjoint⟩ := h.exists_fronted hs ht
  intro id scope hid hscope
  obtain ⟨scope₁, hscope₁, hremains⟩ := h.keeps id scope hid hscope
  obtain ⟨scope₂, hscope₂, hremains'⟩ :=
    hfronted.keeps hshifts id scope₁ (hdisjoint id (by rw [hscope]; rfl)) hscope₁
  exact ⟨scope₂, hscope₂, hremains.trans hremains'⟩

/-- A call stays in progress until no more calls are than before it. -/
theorem step (h : s.Within t) (hs : s.Outlined o) (ht : t.Outlined o') (hshifts : t.Shifts t')
    (hsize : s.callers.size < t'.callers.size) : s.Within t' := by
  refine ⟨?_, h.keeps_step hs ht hshifts⟩
  obtain ⟨resume, inner, hcallers⟩ := h.callers
  cases hshifts with
  | edits _ hcallers' | enters hcallers' | exits hcallers' | replaces _ hcallers' =>
    rw [hcallers']
    exact ⟨resume, inner, hcallers⟩
  | opens hcallers' =>
    rw [hcallers', Array.toList_push, hcallers, List.append_assoc]
    exact ⟨resume, _, rfl⟩
  | leaves _ hcallers' =>
    rw [← Array.length_toList, ← Array.length_toList, hcallers', Array.toList_pop, hcallers,
      List.length_dropLast, List.length_append, List.length_cons] at hsize
    rw [hcallers', Array.toList_pop, hcallers]
    cases inner with
    | nil => simp at hsize
    | cons c inner =>
      refine ⟨resume, (c :: inner).dropLast, ?_⟩
      rw [List.dropLast_append_of_ne_nil (by simp), List.dropLast_cons_cons]

/-- What a call leaves behind when it is over, and before. -/
theorem keeps_runFor {m : Machine} {s' : State} (h : s.Within t) (hs : s.Outlined o)
    (ht : ∃ o', t.Outlined o') {k : Nat} (hrun : m.runFor k t = .running s')
    (hactive : ∀ j < k, ∀ u, m.runFor j t = .running u → s.callers.size < u.callers.size) :
    s.arena.Keeps s'.arena [] := by
  induction k generalizing t with
  | zero =>
    cases hrun
    exact h.keeps
  | succ k ih =>
    obtain ⟨o', ht⟩ := ht
    obtain ⟨u, hstep, hrest⟩ := Machine.exists_step_of_runFor hrun
    obtain ⟨o₁, hu, -⟩ := Machine.exists_outlineStep_of_step ht hstep
    have hshifts := m.shifts_step t
    rw [hstep] at hshifts
    rcases k with - | k
    · cases hrest
      exact h.keeps_step hs ht hshifts
    · have hsize := hactive 1 (by omega) u (Machine.runFor_succ hstep 0)
      refine ih (h.step hs ht hshifts hsize) ⟨o₁, hu⟩ hrest fun j hj v hv ↦ ?_
      exact hactive (j + 1) (by omega) v ((Machine.runFor_succ hstep j).trans hv)

end Within

end State

/-- A call of a function of the program opens a frame. -/
theorem Machine.size_callers_lt_of_call {m : Machine} {s s₁ : State} {o : Outline}
    (hs : s.Outlined o) {name : String} {count next : Nat}
    (hdecode : Instr.decode m.code s.ip = .ok (.call name count, next)) {f : Function}
    (hf : m.find? name = some f) (hstep : m.step s = .running s₁) :
    s.callers.size < s₁.callers.size := by
  obtain ⟨o₁, hs₁, -, -, -, hcallers⟩ := exists_entered_of_call hs hdecode hf hstep
  rw [hs.size_callers, hs₁.size_callers, hcallers]
  exact Nat.lt_succ_self _

/-- **A call creates no bindings in the scopes around it**, for every image, every host and all
limits: while it is in progress and when it has returned, each scope that was there before is there
in its slot, inside the same one, with some of its names in the same order, and each of these has
the declared type it had. -/
theorem exists_scope_of_call_of_runFor (image : Image) (table : Table) (limits : Limits)
    {s s₁ s' : State} (hs : (Machine.ofImage image table limits).Reaches s) {name : String}
    {count next : Nat} (hdecode : Instr.decode image.code s.ip = .ok (.call name count, next))
    {f : Function} (hf : (Machine.ofImage image table limits).find? name = some f)
    (hstep : (Machine.ofImage image table limits).step s = .running s₁) {k : Nat}
    (hrun : (Machine.ofImage image table limits).runFor k s₁ = .running s')
    (hactive : ∀ j < k, ∀ t, (Machine.ofImage image table limits).runFor j s₁ = .running t →
      s.callers.size < t.callers.size)
    {id : ScopeId} {scope : Scope} (hscope : s.arena.scope? id = some scope) :
    ∃ scope', s'.arena.scope? id = some scope' ∧ scope'.parent = scope.parent ∧
      (scope'.vars.map Prod.fst).Sublist (scope.vars.map Prod.fst) ∧
      ∀ name var', scope'.find? name = some var' →
        ∃ var, scope.find? name = some var ∧ var'.type = var.type := by
  obtain ⟨o, hout⟩ := hs.exists_outline
  obtain ⟨o₁, hout₁, -⟩ := Machine.exists_outlineStep_of_step hout hstep
  have hdeeper := Machine.size_callers_lt_of_call hout hdecode hf hstep
  have hshifts := (Machine.ofImage image table limits).shifts_step s
  rw [hstep] at hshifts
  have hwithin : s.Within s₁ := hshifts.within hout hdeeper
  have hkeeps := hwithin.keeps_runFor hout ⟨o₁, hout₁⟩ hrun hactive
  obtain ⟨scope', hscope', hremains⟩ := hkeeps id scope List.not_mem_nil hscope
  have hdistinct : scope.Distinct := by
    obtain ⟨n, hreaches⟩ := hs
    have hall := (Machine.ofImage image table limits).all_of_runFor_start
      Scope.invariant_distinct n
    rw [hreaches] at hall
    exact hall id scope hscope
  exact ⟨scope', hscope', hremains.parent, hremains.names,
    fun _ _ ↦ hremains.exists_find? hdistinct⟩

/-- A call that deletes a global variable, and calls another function in a block, which assigns to a
global variable and to one of its own. -/
def deletesInCall : String :=
  "func g(x) \x7b b = x; d = x; \x7d func f(n) \x7b del a; \x7b g(n); \x7d \x7d " ++
    "let a = 1; let int b = 2; let c = 3; f(7);"

theorem exists_scope_of_call_deletesInCall :
    ∃ image name next s s₁ s' scope scope', compile deletesInCall = .ok image ∧
      (Machine.ofImage image .empty {}).CallReturns name next s s₁ 13 s' ∧
      s.arena.scope? Arena.global = some scope ∧ s'.arena.scope? Arena.global = some scope' ∧
      scope.vars.map Prod.fst = ["a", "b", "c"] ∧ scope'.vars.map Prod.fst = ["b", "c"] ∧
      scope'.parent = scope.parent ∧
      (scope'.vars.map Prod.fst).Sublist (scope.vars.map Prod.fst) ∧
      ∀ name var', scope'.find? name = some var' →
        ∃ var, scope.find? name = some var ∧ var'.type = var.type := by
  have htest : testCall deletesInCall 9 13 (fun _ s s' ↦ decide (
      (s.arena.scope? Arena.global).map (·.vars.map Prod.fst) = some ["a", "b", "c"] ∧
      (s'.arena.scope? Arena.global).map (·.vars.map Prod.fst) = some ["b", "c"])) = true := by
    decide +kernel
  obtain ⟨ts, p, image, d, next, s, s₁, s', -, -, h, -, hcall, htest⟩ :=
    exists_callReturns_of_testCall htest
  obtain ⟨hnames, hnames'⟩ := of_decide_eq_true htest
  obtain ⟨scope, hscope, hnames⟩ := Option.map_eq_some_iff.1 hnames
  obtain ⟨count, hdecode⟩ := hcall.calls
  obtain ⟨f, hf⟩ := hcall.exists_find?
  obtain ⟨scope', hscope', hconclusion⟩ :=
    exists_scope_of_call_of_runFor image .empty {} hcall.reaches hdecode hf hcall.enters
      hcall.runFor_succ (fun j hj ↦ hcall.inside j (Nat.le_of_lt_succ hj)) hscope
  rw [hscope', Option.map_some, Option.some_inj] at hnames'
  exact ⟨image, d.1.name, next, s, s₁, s', scope, scope', h, hcall, hscope, hscope', hnames, hnames',
    hconclusion⟩

end Scriptlet
